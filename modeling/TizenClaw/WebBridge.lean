import TizenClaw.PromptNesting

/-! The bridge that lets a web app call tools of the agent: the request, the list of tools in the
app's manifest, and the tool with all that it starts. -/
namespace WebBridge

open ByteString JsonValue JsonParse ToolDispatch OfflineFallback NestedCalls PromptNesting

inductive RiskLevel where
  | low
  | normal
  | high
  deriving DecidableEq, Repr

/-- What the dashboard finds: the files of the apps, the policy, and whether the request is within
the rate limit. -/
structure Dashboard where
  files : Bytes → Option Bytes
  riskLevels : List (Bytes × RiskLevel)
  hasAgent : Bool := true
  withinRate : Bool := true
  hasActions : Bool := true

section Request

variable (readFloat : Bytes → Option NumberText)

structure BridgeCall where
  appId : Bytes
  toolName : Bytes
  args : Json
  deriving DecidableEq, Repr

/-- The call in the body of a request; arguments that are no object are dropped. -/
def readCall (payload : Bytes) : Option BridgeCall :=
  if payload = [] then none
  else match parse readFloat payload with
    | .error _ => none
    | .ok j =>
      match j.valueString (bytes "app_id") [], j.valueString (bytes "tool_name") [] with
      | .ok appId, .ok toolName =>
        if appId = [] ∨ toolName = [] then none
        else some ⟨appId, toolName, match j.member? (bytes "arguments") with
          | some (.obj m) => .obj m
          | _ => .obj []⟩
      | _, _ => none

/-- `operator>>` reads one value from a file, whatever follows it. -/
def parseFront (s : Bytes) : Except JsonException Json :=
  match (skipBom s).bind fun t => parseValue readFloat (t.length + 1) t with
  | some (j, _) => .ok j
  | none => .error .parseError

variable {readFloat} in
theorem parseFront_of_parse {s : Bytes} {j : Json} (h : parse readFloat s = .ok j) :
    parseFront readFloat s = .ok j := by
  unfold parse at h
  unfold parseFront
  cases hv : (skipBom s).bind fun t => parseValue readFloat (t.length + 1) t with
  | none =>
    rw [hv] at h
    cases h
  | some x =>
    rw [hv] at h
    dsimp only at h
    split_ifs at h
    exact h

def manifestPath (appId : Bytes) : Bytes :=
  bytes "/web/apps/" ++ appId ++ bytes "/manifest.json"

/-- Without a manifest, or without a list in it, no tools are listed. -/
def loadAppAllowedTools (files : Bytes → Option Bytes) (appId : Bytes) : List Bytes :=
  if appId = [] then []
  else if (find (bytes "..") appId).isSome ∨ 0x2F ∈ appId then []
  else match files (manifestPath appId) with
    | none => []
    | some content => match parseFront readFloat content with
      | .error _ => []
      | .ok manifest => match manifest.member? (bytes "allowed_tools") with
        | some (.arr l) => l.filterMap fun
          | .str name => some name
          | _ => none
        | _ => []

end Request

section Execute

def getRiskLevel (riskLevels : List (Bytes × RiskLevel)) (name : Bytes) : RiskLevel :=
  (riskLevels.lookup name).getD .normal

/-- `ExecuteBridgeTool` up to its dispatch: the tool passes the list, if there is one, and is not
of high risk. -/
def admits (riskLevels : List (Bytes × RiskLevel)) (allowed : List Bytes) (name : Bytes) : Bool :=
  (allowed = [] ∨ name ∈ allowed) ∧ getRiskLevel riskLevels name ≠ .high

def bridgeSession : Bytes := bytes "bridge"

/-- The dispatch of an admitted tool. The branches behind the handlers only differ in where a tool
is run. -/
def bridgeBody (a : Agent) (call : BridgeCall) (use : ToolUse) : PromptBody :=
  handle a bridgeSession call.toolName call.args use

/-- The call that a request gets dispatched. -/
def dispatched (readFloat : Bytes → Option NumberText) (d : Dashboard) (payload : Bytes) :
    Option BridgeCall :=
  (readCall readFloat payload).bind fun call =>
    if d.hasAgent ∧ d.withinRate ∧
        admits d.riskLevels (loadAppAllowedTools readFloat d.files call.appId) call.toolName then
      some call
    else none

end Execute

section Started

/-- `execute_action` is another way to the tool of an action. -/
def actionTools (hasActions : Bool) (name : Bytes) (args : Json) : List Bytes :=
  if hasActions ∧ name = bytes "execute_action" then
    match args.valueString (bytes "name") [] with
    | .ok action => if action = [] then [] else [bytes "action_" ++ action]
    | .error _ => []
  else []

def startedBy (hasActions : Bool) (name : Bytes) (args : Json) : List Bytes :=
  name :: actionTools hasActions name args

variable (d : Dashboard) (a : Agent)

/-- The tools that a turn of a prompt starts: those of a reply behind the checks, and that of an
offline rule. -/
def startedIn (call : Call) : Turn → List Bytes
  | .calls _ uses _ =>
    (uses.filter fun use => use.refusal.isNone).flatMap fun use =>
      startedBy d.hasActions use.resolved use.call.args
  | .unavailable _ _ =>
    match matchRule a.rules call.prompt with
    | some rule =>
      if rule.toolName ∈ toolDispatch a.config.codeGenerator then
        startedBy d.hasActions rule.toolName rule.defaultArgs
      else []
    | none => []
  | .text _ | .throws _ => []

/-- The turns of all prompts that a dispatched call leads to. -/
def turnsOf (answers : ℕ → Turn) (call : BridgeCall) (use : ToolUse) (depth : ℕ) :
    List (Call × Turn) :=
  asked answers (run (processPrompt a) answers depth) (askedIn (processPrompt a) answers depth)
    ⟨bridgeSession, []⟩ (bridgeBody a call use) 0

/-- A tool that is executed as a consequence of the call. -/
def Starts (answers : ℕ → Turn) (call : BridgeCall) (use : ToolUse) (name : Bytes) : Prop :=
  name ∈ startedBy d.hasActions call.toolName call.args ∨
    ∃ depth, ∃ x ∈ turnsOf a answers call use depth, name ∈ startedIn d a x.1 x.2

end Started

end WebBridge
