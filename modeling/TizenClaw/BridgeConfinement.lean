import TizenClaw.WebBridge

/-! What a web app can have executed: all of it is on the app's list only where there is a list,
and where the listed tools do not prompt for others. -/
namespace BridgeConfinement

open ByteString JsonValue ToolDispatch NestedCalls PromptNesting WebBridge

section Properties

variable (readFloat : Bytes → Option NumberText) (d : Dashboard) (a : Agent) (answers : ℕ → Turn)
variable (use : ToolUse)

/-- The tool is on the list of the app and not of high risk. -/
def Listed (appId name : Bytes) : Prop :=
  name ∈ loadAppAllowedTools readFloat d.files appId ∧ getRiskLevel d.riskLevels name ≠ .high

/-- Whatever the request has executed is listed. -/
def Confined (payload : Bytes) : Prop :=
  ∀ call ∈ dispatched readFloat d payload, ∀ name, Starts d a answers call use name →
    Listed readFloat d call.appId name

/-- The tools that prompt the agent. -/
def promptingTools : List Bytes :=
  [bytes "send_to_session", bytes "run_supervisor", bytes "run_pipeline", bytes "run_workflow"]

/-- There is a list, an action that is executed is on it, and so is what the prompts of a prompting
tool start. -/
structure Harmless (call : BridgeCall) : Prop where
  list : loadAppAllowedTools readFloat d.files call.appId ≠ []
  action : ∀ name ∈ actionTools d.hasActions call.toolName call.args,
    Listed readFloat d call.appId name
  prompts : call.toolName ∈ promptingTools → ∀ depth, ∀ x ∈ turnsOf a answers call use depth,
    ∀ name ∈ startedIn d a x.1 x.2, Listed readFloat d call.appId name

end Properties

section Confinement

variable {readFloat : Bytes → Option NumberText} {d : Dashboard} {a : Agent} {answers : ℕ → Turn}
variable {use : ToolUse}

/-- All other tools are executed without a prompt. -/
theorem turnsOf_nil {call : BridgeCall} (h : call.toolName ∉ promptingTools) (depth : ℕ) :
    turnsOf a answers call use depth = [] := by
  simp only [promptingTools, List.mem_cons, List.not_mem_nil, or_false, not_or] at h
  obtain ⟨hsend, hsupervisor, hpipeline, hworkflow⟩ := h
  have hengine :
      ¬ (call.toolName = bytes "run_pipeline" ∨ call.toolName = bytes "run_workflow") := by
    rw [not_or]
    exact ⟨hpipeline, hworkflow⟩
  unfold turnsOf bridgeBody handle
  rw [if_neg hsend, if_neg hsupervisor, if_neg hengine]
  rfl

/-- A dispatched tool passed the list and the check of its risk. -/
theorem dispatched_admits {payload : Bytes} {call : BridgeCall}
    (h : dispatched readFloat d payload = some call) :
    admits d.riskLevels (loadAppAllowedTools readFloat d.files call.appId) call.toolName =
      true := by
  obtain ⟨c, -, hc⟩ := Option.bind_eq_some_iff.mp h
  split_ifs at hc with hadmit
  obtain rfl := Option.some.inj hc
  exact hadmit.2.2

end Confinement

namespace Counterexample

def noFloat (_ : Bytes) : Option NumberText := none

def agent : Agent where
  initialized := true
  hasBackend := true
  config := { stdHash := List.length
              num := ⟨fun i => .finite i, fun _ => .nan, fun _ => none, fun _ => []⟩ }
  rules := []
  roles := []
  readFloat := noFloat

/-- A call of a tool with an output. -/
def useOf (name : Bytes) : ToolUse where
  call := ⟨bytes "1", name, .obj []⟩
  refusal := none
  resolved := name
  outcome := .ok (bytes "done")
  engine := .output (.ok [])
  stamps _ := 0

def request (tool arguments : String) : Bytes :=
  bytes "\x7b\"app_id\":\"demo\",\"tool_name\":\"" ++ bytes tool ++ bytes "\",\"arguments\":" ++
    bytes arguments ++ bytes "\x7d"

/-- An app that lists only messages to other sessions. -/
def messenger : Dashboard where
  files path :=
    if path = bytes "/web/apps/demo/manifest.json" then
      some (bytes "\x7b\"allowed_tools\":[\"send_to_session\"]\x7d")
    else none
  riskLevels := []

/-- A model that asks for a command first. -/
def commands (pos : ℕ) : Turn :=
  if pos = 0 then .calls [] [useOf (bytes "execute_cli")] (.ok false) else .text (bytes "done")

end Counterexample

end BridgeConfinement
