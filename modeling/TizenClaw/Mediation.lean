import TizenClaw.McpServer
import TizenClaw.OfflineFallback
import TizenClaw.TransitionSystem

/-! The routes around the agent's loop: requests of MCP clients and prompts answered offline.
Neither asks the policy, so what they start is allowed only if nothing denied is asked for. -/
namespace Mediation

open ByteString JsonValue ToolPolicy SafetyChecks ToolDispatch McpServer OfflineFallback
  TransitionSystem

/-- `rules` are the offline rules, loaded once. -/
structure Setup where
  codeGenerator : Bool := false
  policy : ToolPolicyConfig := {}
  guard : SafetyGuard := {}
  rules : List FallbackRule := []
  handler : HandlerCall → Except ToolException Bytes

/-- The server keeps the tools it found when it was made; the agent keeps its own map. -/
structure State where
  disk : Disk
  tools : List ToolInfo
  skillDirs : List (Bytes × Bytes)

/-- `offline` says that all models fail while the request is served. -/
inductive Event where
  | diskChanged (disk : Disk)
  | reloadSkills
  | mcpRequest (request : Json) (offline : Bool)
  | offlinePrompt (session prompt : Bytes)

inductive Started where
  | skill (name directory : Bytes) (args : Json)
  | handler (call : HandlerCall)
  deriving DecidableEq

def mcpSession : Bytes := bytes "mcp_session"

section Step

variable (setup : Setup)

def startedOffline (session prompt : Bytes) : Option Started :=
  ((fallback setup.codeGenerator setup.handler setup.rules session prompt).bind Prod.fst).map
    .handler

/-- The tool a step starts. A prompt that reaches a model is served by the agent's loop. -/
def started (s : State) : Event → Option Started
  | .mcpRequest request offline =>
    match processRequest s.tools request with
    | .ok (some (.skill name args)) => some (.skill name (skillDirectory s.skillDirs name) args)
    | .ok (some (.ask prompt)) =>
      if offline then startedOffline setup mcpSession prompt else none
    | _ => none
  | .offlinePrompt session prompt => startedOffline setup session prompt
  | .diskChanged _ | .reloadSkills => none

def step (s : State) : Event → State
  | .diskChanged disk => { s with disk := disk }
  | .reloadSkills => { s with skillDirs := loadSkillDirs s.disk }
  | .mcpRequest .. | .offlinePrompt .. => s

/-- The agent is initialized before the server is made. -/
def routes (disk : Disk) : System State Event where
  Init s := s = ⟨disk, discoverTools disk, loadSkillDirs disk⟩
  Step s e t := t = step s e

/-- What the policy and the device say about a name. -/
def Barred (name : Bytes) : Prop :=
  name ∈ setup.policy.blockedSkills ∨ isExcludedTool setup.guard name = true

def Disabled (disk : Disk) (directory : Bytes) : Prop :=
  ∃ d ∈ disk.all, d.dirname = directory ∧ disabled d.manifest = true

def Denied (disk : Disk) : Started → Prop
  | .skill name directory _ => Barred setup name ∨ Disabled disk directory
  | .handler call => Barred setup call.name

/-- No step starts a tool that is blocked, excluded or disabled at that moment. -/
def Mediated (tr : List (State × Event)) : Prop :=
  ∀ x ∈ tr, ∀ a ∈ started setup x.1 x.2, ¬ Denied setup x.1.disk a

/-- A request for a tool by its name. -/
def CallsTool (request : Json) (name : Bytes) (arguments : Json) : Prop :=
  ∃ params, request.valueString (bytes "method") [] = .ok (bytes "tools/call") ∧
    request.value .ok (bytes "params") (.obj []) = .ok params ∧
    params.valueString (bytes "name") [] = .ok name ∧
    params.value .ok (bytes "arguments") (.obj []) = .ok arguments

/-- The rule that answers a prompt names no barred handler. -/
def HarmlessPrompt (prompt : Bytes) : Prop :=
  ∀ name, RunsHandler setup.codeGenerator setup.rules prompt name → ¬ Barred setup name

/-- `disk` is what the server found when it was made. -/
def Harmless (disk : Disk) (s : State) : Event → Prop
  | .mcpRequest request offline =>
    (∀ name arguments, CallsTool request name arguments → Offered disk name →
      ¬ Barred setup name ∧ ¬ Disabled s.disk (skillDirectory s.skillDirs name)) ∧
    (offline = true → ∀ arguments prompt, CallsTool request askName arguments →
      ¬ Offered disk askName → arguments.valueString (bytes "prompt") [] = .ok prompt →
      prompt ≠ [] → HarmlessPrompt setup prompt)
  | .offlinePrompt _ prompt => HarmlessPrompt setup prompt
  | .diskChanged _ | .reloadSkills => True

end Step

section Main

variable {setup : Setup} {disk : Disk}

/-- The tool list never changes. -/
theorem tools_fixed {tr s} (h : Run (routes disk) tr s) : s.tools = discoverTools disk := by
  refine h.invariant (I := fun s => s.tools = discoverTools disk) ?_ ?_
  · rintro s rfl
    rfl
  · rintro s e t hI rfl
    cases e <;> exact hI

theorem processRequest_some_iff {tools : List ToolInfo} {request : Json} {call : ToolsCall} :
    processRequest tools request = .ok (some call) ↔
      ∃ params, request.valueString (bytes "method") [] = .ok (bytes "tools/call") ∧
        request.value .ok (bytes "params") (.obj []) = .ok params ∧
        handleToolsCall tools params = .ok call := by
  simp only [processRequest, bind_eq_ok]
  constructor
  · rintro ⟨method, hm, params, hp, h⟩
    split_ifs at h with hcall
    · subst hcall
      obtain ⟨call', hc, he⟩ := map_eq_ok.mp h
      obtain rfl := Option.some.inj he
      exact ⟨params, hm, hp, hc⟩
    · cases h
  · rintro ⟨params, hm, hp, hc⟩
    refine ⟨_, hm, params, hp, ?_⟩
    rw [if_pos rfl, hc]
    rfl

theorem harmlessPrompt_iff {prompt : Bytes} (session : Bytes) (disk : Disk) :
    HarmlessPrompt setup prompt ↔
      ∀ a ∈ startedOffline setup session prompt, ¬ Denied setup disk a := by
  constructor
  · intro h a ha hd
    obtain ⟨call, hc, rfl⟩ := Option.map_eq_some_iff.mp ha
    obtain ⟨x, hx, hc⟩ := Option.bind_eq_some_iff.mp hc
    exact h call.name ((fallback_call_iff setup.handler session).mp ⟨x, hx, call, hc, rfl⟩) hd
  · intro h name hn hb
    obtain ⟨x, hx, call, hc, rfl⟩ := (fallback_call_iff setup.handler session).mpr hn
    exact h (.handler call) (Option.map_eq_some_iff.mpr
      ⟨call, Option.bind_eq_some_iff.mpr ⟨x, hx, hc⟩, rfl⟩) hb

/-- What the server starts for a request, in terms of the request. -/
theorem started_mcpRequest {s : State} (ht : s.tools = discoverTools disk) {request : Json}
    {offline : Bool} {a : Started} :
    a ∈ started setup s (.mcpRequest request offline) ↔
      (∃ name arguments, CallsTool request name arguments ∧ Offered disk name ∧
        a = .skill name (skillDirectory s.skillDirs name) arguments) ∨
      offline = true ∧ ∃ arguments prompt, CallsTool request askName arguments ∧
        ¬ Offered disk askName ∧ arguments.valueString (bytes "prompt") [] = .ok prompt ∧
        prompt ≠ [] ∧ a ∈ startedOffline setup mcpSession prompt := by
  simp only [started, ht]
  constructor
  · intro h
    split at h
    · rename_i name args hp
      obtain ⟨params, hm, hq, hc⟩ := processRequest_some_iff.mp hp
      obtain ⟨hn, ha, ho⟩ := handleToolsCall_skill_iff.mp hc
      exact .inl ⟨name, args, ⟨params, hm, hq, hn, ha⟩, ho, (Option.some.inj h).symm⟩
    · rename_i prompt hp
      split_ifs at h with hoff
      · obtain ⟨params, hm, hq, hc⟩ := processRequest_some_iff.mp hp
        obtain ⟨hn, ho, args, ha, hv, hne⟩ := handleToolsCall_ask_iff.mp hc
        exact .inr ⟨hoff, args, prompt, ⟨params, hm, hq, hn, ha⟩, ho, hv, hne, h⟩
      · cases h
    · cases h
  · rintro (⟨name, args, ⟨params, hm, hq, hn, ha⟩, ho, rfl⟩ |
      ⟨hoff, args, prompt, ⟨params, hm, hq, hn, ha⟩, ho, hv, hne, h⟩)
    · rw [processRequest_some_iff.mpr
        ⟨params, hm, hq, handleToolsCall_skill_iff.mpr ⟨hn, ha, ho⟩⟩]
      rfl
    · rw [processRequest_some_iff.mpr
        ⟨params, hm, hq, handleToolsCall_ask_iff.mpr ⟨hn, ho, args, ha, hv, hne⟩⟩]
      simpa [hoff] using h

theorem harmless_iff {s : State} (ht : s.tools = discoverTools disk) (e : Event) :
    Harmless setup disk s e ↔ ∀ a ∈ started setup s e, ¬ Denied setup s.disk a := by
  cases e with
  | mcpRequest request offline =>
    constructor
    · rintro ⟨hskill, hask⟩ a ha
      rcases (started_mcpRequest ht).mp ha with ⟨name, args, hc, ho, rfl⟩ |
        ⟨hoff, args, prompt, hc, ho, hv, hne, ha⟩
      · exact not_or.mpr (hskill name args hc ho)
      · exact (harmlessPrompt_iff mcpSession s.disk).mp (hask hoff args prompt hc ho hv hne) a ha
    · intro h
      constructor
      · intro name args hc ho
        exact not_or.mp (h _ ((started_mcpRequest ht).mpr (.inl ⟨name, args, hc, ho, rfl⟩)))
      · intro hoff args prompt hc ho hv hne
        refine (harmlessPrompt_iff mcpSession s.disk).mpr fun a ha => h a ?_
        exact (started_mcpRequest ht).mpr (.inr ⟨hoff, args, prompt, hc, ho, hv, hne, ha⟩)
  | offlinePrompt session prompt => exact harmlessPrompt_iff session s.disk
  | diskChanged d => simp [Harmless, started]
  | reloadSkills => simp [Harmless, started]

/-- A run is mediated exactly when nobody asks for a denied tool on these routes. -/
theorem mediated_iff {tr s} (h : Run (routes disk) tr s) :
    Mediated setup tr ↔ ∀ x ∈ tr, Harmless setup disk x.1 x.2 := by
  refine forall₂_congr fun x hx => ?_
  obtain ⟨tr₁, tr₂, t, -, hr, -⟩ := h.split hx
  exact (harmless_iff (tools_fixed hr) x.2).symm

end Main

namespace Counterexample

def scan : Bytes := bytes "scan_wifi_networks"

/-- A skill that has been disabled, and that the policy blocks as well. -/
def skill : SkillDir where
  dirname := scan
  manifest := .obj [(bytes "name", .str scan), (bytes "parameters", .obj []),
    (bytes "verified", .bool false)]

def disk : Disk := { skills := [skill] }

def rule : FallbackRule where
  name := bytes "shell"
  keywords := [bytes "reboot"]
  toolName := bytes "execute_cli"
  defaultArgs := .obj []
  responseTemplate := []

def setup : Setup where
  policy := { blockedSkills := [scan, bytes "execute_cli"] }
  rules := [rule]
  handler := fun _ => .ok []

def callTool (name : Bytes) : Json :=
  .obj [(bytes "method", .str (bytes "tools/call")),
    (bytes "params", .obj [(bytes "name", .str name)])]

def initial : State := ⟨disk, discoverTools disk, loadSkillDirs disk⟩

theorem run_single (e : Event) :
    Run (routes disk) [(initial, e)] (step initial e) :=
  have hstart : Run (routes disk) [] initial := .init rfl
  hstart.step rfl

/-- Either route starts a tool that the policy blocks. -/
theorem blocked_tool_started :
    (∃ tr s, Run (routes disk) tr s ∧ (∃ request offline, tr.map Prod.snd =
      [.mcpRequest request offline]) ∧ ¬ Mediated setup tr) ∧
    ∃ tr s, Run (routes disk) tr s ∧ (∃ session prompt, tr.map Prod.snd =
      [.offlinePrompt session prompt]) ∧ ¬ Mediated setup tr := by
  constructor
  · refine ⟨_, _, run_single (.mcpRequest (callTool scan) false), ⟨_, _, rfl⟩, fun h => ?_⟩
    have hs : Started.skill scan scan (.obj []) ∈
        started setup initial (.mcpRequest (callTool scan) false) := by decide
    exact h _ (List.mem_singleton_self _) _ hs (.inl (.inl (by simp [setup])))
  · refine ⟨_, _, run_single (.offlinePrompt [] (bytes "Reboot now")), ⟨_, _, rfl⟩, fun h => ?_⟩
    have hs : Started.handler ⟨bytes "execute_cli", .obj [], []⟩ ∈
        started setup initial (.offlinePrompt [] (bytes "Reboot now")) := by decide
    exact h _ (List.mem_singleton_self _) _ hs (.inl (by simp [setup]))

/-- A request for a tool that nobody offers. -/
theorem unknown_tool_mediated :
    Mediated setup [(initial, .mcpRequest (callTool (bytes "other")) false)] := by
  refine (mediated_iff (run_single _)).mpr ?_
  intro x hx
  obtain rfl := List.mem_singleton.mp hx
  refine (harmless_iff rfl _).mpr ?_
  have hs : started setup initial (.mcpRequest (callTool (bytes "other")) false) = none := by
    decide
  simp [hs]

end Counterexample

end Mediation
