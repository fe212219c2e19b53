import TizenClaw.PromptNesting

/-! How deep prompts nest: as deep as the replies make them. -/
namespace PromptTermination

open ByteString JsonValue JsonDump LlmTypes ToolDispatch NestedCalls PromptNesting

/-- A call of the agent comes to asking a model. -/
def Asks (a : Agent) : Prop :=
  a.initialized ∧ a.hasBackend ∧ 0 < a.config.policy.maxIterations

/-- One bound on the nested calls serves for all that models and tools may answer. -/
def Bounded (a : Agent) : Prop :=
  ∃ n, ∀ answers call, ReturnsWithin (processPrompt a) answers call n

variable {a : Agent} {answers : ℕ → Turn} {callee : Call → ℕ → Option (Outcome Result)}

/-- The first turn of a call. -/
theorem processPrompt_asks (h : Asks a) (call : Call) :
    ∃ n, processPrompt a call = loop a call (n + 1) [] := by
  obtain ⟨hi, hb, hn⟩ := h
  refine ⟨a.config.policy.maxIterations.toNat - 1, ?_⟩
  have hm : a.config.policy.maxIterations.toNat = a.config.policy.maxIterations.toNat - 1 + 1 := by
    omega
  rw [processPrompt, if_pos ⟨hi, hb⟩, ← hm]

theorem processPrompt_quiet (h : ¬ Asks a) (call : Call) :
    ∃ text, processPrompt a call = .done (.ok text) := by
  unfold processPrompt
  split_ifs with hi
  · have hn : ¬ 0 < a.config.policy.maxIterations := fun hn => h ⟨hi.1, hi.2, hn⟩
    rw [Int.toNat_of_nonpos (not_lt.mp hn)]
    exact ⟨_, rfl⟩
  · exact ⟨_, rfl⟩

section Texts

variable {texts : ℕ → Bytes}

/-- A reply without a gap ends the prompt. -/
theorem exec_answer (callee : Call → ℕ → Option (Outcome Result)) (h : Asks a)
    (call : Call) {pos : ℕ}
    (hg : detectCapabilityGap (texts pos) = false) :
    ∃ r, exec (fun i => .text (texts i)) callee (processPrompt a call) pos =
      some ⟨r, pos + 1, 0⟩ := by
  obtain ⟨n, hn⟩ := processPrompt_asks h call
  refine ⟨.ok (if texts pos = [] then bytes "No response text." else texts pos), ?_⟩
  simp only [hn, loop, exec, finalText, hg, Bool.false_eq_true, if_false]

/-- A reply with a gap prompts again, in a session of its own. -/
theorem exec_gap (callee : Call → ℕ → Option (Outcome Result)) (h : Asks a) (call : Call) {pos : ℕ}
    (hg : detectCapabilityGap (texts pos) = true) :
    (exec (fun i => .text (texts i)) callee (processPrompt a call) pos).map Outcome.calls =
      (callee ⟨autoSession call.session, metaPrompt call.prompt⟩ (pos + 1)).map
        fun o => o.calls + 1 := by
  obtain ⟨n, hn⟩ := processPrompt_asks h call
  simp only [hn, loop, exec, finalText, hg, if_true]
  cases callee ⟨autoSession call.session, metaPrompt call.prompt⟩ (pos + 1) with
  | none => rfl
  | some o =>
    cases ho : o.result <;> simp [ho, exec]

/-- As many nested calls as there are replies with a gap in front of one without. -/
theorem run_texts (h : Asks a) {k m : ℕ} (call : Call) (pos : ℕ) (hm : m = pos + k)
    (hgap : ∀ i, pos ≤ i → i < m → detectCapabilityGap (texts i) = true)
    (hlast : detectCapabilityGap (texts m) = false) :
    (run (processPrompt a) (fun i => .text (texts i)) (k + 1) call pos).map Outcome.calls =
      some k := by
  induction k generalizing call pos with
  | zero =>
    obtain rfl := hm
    obtain ⟨r, hr⟩ := exec_answer (run (processPrompt a) (fun i => .text (texts i)) 0) h call hlast
    rw [run]
    exact congrArg (Option.map Outcome.calls) hr
  | succ k ih =>
    have hnext := ih ⟨autoSession call.session, metaPrompt call.prompt⟩ (pos + 1) (by omega)
      fun i hi => hgap i (by omega)
    rw [run, exec_gap _ h call (hgap pos le_rfl (by omega))]
    obtain ⟨o, ho, hk⟩ := Option.map_eq_some_iff.mp hnext
    rw [ho, Option.map_some, hk]

theorem calls_of_gaps (h : Asks a) {k depth : ℕ} {call : Call} {pos : ℕ}
    (hgap : ∀ i, pos ≤ i → i ≤ pos + k → detectCapabilityGap (texts i) = true) {o : Outcome Result}
    (ho : run (processPrompt a) (fun i => .text (texts i)) depth call pos = some o) :
    k < o.calls := by
  induction depth generalizing k call pos o with
  | zero => cases ho
  | succ depth ih =>
    have hcalls := exec_gap (run (processPrompt a) (fun i => .text (texts i)) depth) h call
      (hgap pos le_rfl (by omega))
    rw [run] at ho
    rw [ho, Option.map_some] at hcalls
    obtain ⟨u, hu, huo⟩ := Option.map_eq_some_iff.mp hcalls.symm
    cases k with
    | zero => omega
    | succ k =>
      have hk : k < u.calls := ih (fun i hi hik => hgap i (by omega) (by omega)) hu
      omega

/-- On replies without tool calls, what bounds the nesting is the first one without a gap. -/
theorem texts_return_iff (h : Asks a) (texts : ℕ → Bytes) (call : Call) (n : ℕ) :
    ReturnsWithin (processPrompt a) (fun i => .text (texts i)) call n ↔
      ∃ k ≤ n, detectCapabilityGap (texts k) = false := by
  constructor
  · rintro ⟨depth, o, ho, hn⟩
    by_contra hall
    have hgap : ∀ i, 0 ≤ i → i ≤ 0 + n → detectCapabilityGap (texts i) = true := by
      intro i _ hi
      apply eq_true_of_ne_false
      exact fun hf => hall ⟨i, by omega, hf⟩
    have hlt := calls_of_gaps h hgap ho
    omega
  · intro hex
    have hex' : ∃ k, detectCapabilityGap (texts k) = false := by
      obtain ⟨k, -, hk⟩ := hex
      exact ⟨k, hk⟩
    obtain ⟨k, hkn, hk⟩ := hex
    have hmin := Nat.find_min' hex' hk
    have hrun := run_texts h call 0 (Nat.zero_add (Nat.find hex')).symm
      (fun i _ hi => eq_true_of_ne_false (Nat.find_min hex' hi)) (Nat.find_spec hex')
    obtain ⟨o, ho, hcalls⟩ := Option.map_eq_some_iff.mp hrun
    exact ⟨_, o, ho, by omega⟩

end Texts

theorem bounded_iff (a : Agent) : Bounded a ↔ ¬ Asks a := by
  constructor
  · rintro ⟨n, hn⟩ h
    have hunable : detectCapabilityGap (bytes "I'm unable to do that.") = true := by decide
    obtain ⟨k, -, hk⟩ :=
      (texts_return_iff h (fun _ => bytes "I'm unable to do that.") ⟨[], []⟩ n).mp
      (hn _ _)
    rw [hunable] at hk
    cases hk
  · intro h
    refine ⟨0, fun answers call => ?_⟩
    obtain ⟨text, ht⟩ := processPrompt_quiet h call
    exact ⟨1, ⟨.ok text, 0, 0⟩, by rw [run, ht, exec], le_rfl⟩

/-- No bound serves for an agent that asks a model. On replies without tool calls a bound `n`
serves exactly when one of the first `n + 1` shows no gap. -/
theorem nesting_bounded_iff (a : Agent) :
    (Bounded a ↔ ¬ Asks a) ∧
      ∀ (texts : ℕ → Bytes) call n, Asks a →
        (ReturnsWithin (processPrompt a) (fun i => .text (texts i)) call n ↔
          ∃ k ≤ n, detectCapabilityGap (texts k) = false) :=
  ⟨bounded_iff a, fun texts call n h => texts_return_iff h texts call n⟩

section Tools

/-- The tools that prompt again. -/
def reentering : List Bytes :=
  [bytes "send_to_session", bytes "run_supervisor", bytes "run_pipeline", bytes "run_workflow"]

/-- A turn that does not prompt again. -/
def Quiet (a : Agent) : Turn → Prop
  | .unavailable _ _ => ∀ rule ∈ a.rules, rule.toolName ∉ reentering
  | .text text => detectCapabilityGap text = false
  | .calls _ uses _ => ∀ use ∈ uses, use.refusal = none → use.resolved ∉ reentering
  | .throws _ => True

/-- The body makes no call on answers of a set. -/
inductive Silent (A : Set Turn) : PromptBody → Prop where
  | done (r) : Silent A (.done r)
  | ask {next} : (∀ t ∈ A, Silent A (next t)) → Silent A (.ask next)

theorem Silent.bind {A : Set Turn} {b : PromptBody} (h : Silent A b) {next : Result → PromptBody}
    (hn : ∀ r, Silent A (next r)) : Silent A (b.bind next) := by
  induction h with
  | done r => exact hn r
  | ask _ ih => exact .ask ih

theorem Silent.exec {A : Set Turn} {b : PromptBody} (h : Silent A b)
    (callee : Call → ℕ → Option (Outcome Result)) (ha : ∀ i, answers i ∈ A) (pos : ℕ) :
    ∃ o, exec answers callee b pos = some o ∧ o.calls = 0 := by
  induction h generalizing pos with
  | done r => exact ⟨_, rfl, rfl⟩
  | ask _ ih => exact ih (answers pos) (ha pos) (pos + 1)

variable {A : Set Turn}

theorem handle_silent {session name : Bytes} (h : name ∉ reentering) (args : Json) (use : ToolUse) :
    Silent A (handle a session name args use) := by
  simp only [reentering, List.mem_cons, List.not_mem_nil, or_false, not_or] at h
  obtain ⟨hsend, hsupervisor, hpipeline, hworkflow⟩ := h
  rw [handle, if_neg hsend, if_neg hsupervisor, if_neg (not_or.mpr ⟨hpipeline, hworkflow⟩)]
  exact .done _

theorem toolRound_silent {session : Bytes} {uses : List ToolUse}
    (h : ∀ use ∈ uses, use.refusal = none → use.resolved ∉ reentering)
    {next : Except ToolException Unit → PromptBody} (hn : ∀ r, Silent A (next r)) :
    Silent A (toolRound a session uses next) := by
  induction uses generalizing next with
  | nil => exact hn _
  | cons use uses ih =>
    rw [List.forall_mem_cons] at h
    apply Silent.bind
    · unfold toolUse
      split
      · exact .done _
      · rename_i hr
        exact handle_silent (h.1 hr) _ _
    · exact fun r => ih h.2 fun rest => hn _

theorem offline_silent (h : ∀ rule ∈ a.rules, rule.toolName ∉ reentering) (call : Call)
    (error : Bytes) (use : ToolUse) : Silent A (offline a call error use) := by
  unfold offline
  split
  · exact .done _
  · rename_i rule hrule
    have hmem := List.mem_of_find?_eq_some hrule
    apply Silent.bind
    · split_ifs
      · exact .done _
      · exact handle_silent (h rule hmem) _ _
      · exact .done _
    · exact fun r => .done _

theorem loop_silent (h : ∀ t ∈ A, Quiet a t) (call : Call) (n : ℕ) (last : Bytes) :
    Silent A (loop a call n last) := by
  induction n generalizing last with
  | zero => exact .done _
  | succ n ih =>
    refine .ask fun t ht => ?_
    have hq := h t ht
    cases t with
    | unavailable error use => exact offline_silent hq call error use
    | text text =>
      have hg : detectCapabilityGap text = false := hq
      simp only [finalText, hg]
      exact .done _
    | calls text uses after =>
      apply toolRound_silent hq
      intro r
      split
      · exact .done _
      · exact .done _
      · exact ih text
    | throws e => exact .done _

/-- Turns that do not prompt again leave a prompt alone. -/
theorem quiet_returns (h : ∀ i, Quiet a (answers i)) (call : Call) :
    ReturnsWithin (processPrompt a) answers call 0 := by
  have hs : Silent {t | Quiet a t} (processPrompt a call) := by
    unfold processPrompt
    split_ifs
    · exact loop_silent (fun t ht => ht) call _ _
    · exact .done _
  obtain ⟨o, ho, hc⟩ := hs.exec (run (processPrompt a) answers 0) h 0
  exact ⟨1, o, ho, hc.le⟩

end Tools

namespace Counterexample

def numbers : SafetyChecks.NumericLibrary :=
  ⟨fun i => .finite i, fun _ => .nan, fun _ => none, fun _ => []⟩

def agent : Agent where
  initialized := true
  hasBackend := true
  config := { stdHash := List.length, num := numbers }
  rules := []
  roles := []
  readFloat := fun _ => none

theorem agent_asks : Asks agent := ⟨rfl, rfl, by decide⟩

/-- A tool call that no check refuses. -/
def use (name : Bytes) (args : Json) : ToolUse where
  call := ⟨bytes "call_1", name, args⟩
  refusal := none
  resolved := name
  outcome := .ok []
  engine := .output (.ok [])
  stamps := id

/-- A message that is not the one before. -/
def send (i : ℕ) (target : Bytes) : ToolUse :=
  use (bytes "send_to_session")
    (.obj [(bytes "message", .str (bytes "turn " ++ decimal i)),
      (bytes "target_session", .str target)])

def unable : Turn := .text (bytes "I'm unable to do that.")
def passOn (i : ℕ) : Turn := .calls [] [send i (bytes "alice"), send i (bytes "bob")] (.ok false)

def supervise : Turn :=
  .calls [] [use (bytes "run_supervisor")
    (.obj [(bytes "goal", .str (bytes "tidy up"))])] (.ok false)

theorem send_arguments (i : ℕ) (target : Bytes) :
    (send i target).call.args.valueString (bytes "target_session") [] = .ok target ∧
      (send i target).call.args.valueString (bytes "message") [] =
        .ok (bytes "turn " ++ decimal i) := by
  have hne : (bytes "target_session" == bytes "message") = false := by decide
  constructor
  · simp [send, use, Json.valueString, Json.value, List.lookup_cons, hne, Json.getString]
  · simp [send, use, Json.valueString, Json.value, Json.getString]

theorem toolUse_send (i : ℕ) (session target : Bytes) :
    toolUse agent session (send i target) = sendToSession session (send i target).call.args := by
  change handle agent session (bytes "send_to_session") (send i target).call.args
    (send i target) = _
  rw [handle, if_pos rfl]

theorem message_ne (i : ℕ) : bytes "turn " ++ decimal i ≠ [] := by
  have hturn : bytes "turn " ≠ [] := by decide
  exact List.append_ne_nil_of_left_ne_nil hturn _

theorem send_self (i : ℕ) {session : Bytes} (h : session ≠ []) :
    ∃ r, toolUse agent session (send i session) = .done r := by
  have hn : ¬ (session = [] ∨ bytes "turn " ++ decimal i = []) := not_or.mpr ⟨h, message_ne i⟩
  simp only [toolUse_send, sendToSession, send_arguments, if_neg hn, if_true]
  exact ⟨_, rfl⟩

theorem send_other (i : ℕ) {session target : Bytes} (h : target ≠ []) (hne : target ≠ session) :
    ∃ x next, toolUse agent session (send i target) = .call x next := by
  have hn : ¬ (target = [] ∨ bytes "turn " ++ decimal i = []) := not_or.mpr ⟨h, message_ne i⟩
  simp only [toolUse_send, sendToSession, send_arguments, if_neg hn, if_neg hne]
  exact ⟨_, _, rfl⟩

/-- Of two messages one always goes to another session. -/
theorem passOn_blocks (h : ∀ x pos, callee x pos = none) (call : Call) (pos : ℕ) :
    exec passOn callee (processPrompt agent call) pos = none := by
  obtain ⟨n, hn⟩ := processPrompt_asks agent_asks call
  have halice : bytes "alice" ≠ [] := by decide
  have hbob : bytes "bob" ≠ [] := by decide
  have hne : bytes "bob" ≠ bytes "alice" := by decide
  rw [hn]
  simp only [loop, exec, passOn, toolRound]
  by_cases hs : bytes "alice" = call.session
  · rw [← hs]
    obtain ⟨r, hr⟩ := send_self pos halice
    obtain ⟨x, next, hx⟩ := send_other pos hbob hne
    simp only [hr, hx, Body.bind, exec, h, Option.bind_none]
  · obtain ⟨x, next, hx⟩ := send_other pos halice hs
    simp only [hx, Body.bind, exec, h, Option.bind_none]

theorem supervise_blocks (h : ∀ x pos, callee x pos = none) (call : Call) (pos : ℕ) :
    exec (fun _ => supervise) callee (processPrompt agent call) pos = none := by
  obtain ⟨n, hn⟩ := processPrompt_asks agent_asks call
  have hsend : bytes "run_supervisor" ≠ bytes "send_to_session" := by decide
  have hgoal : (Json.obj [(bytes "goal", .str (bytes "tidy up"))]).valueString (bytes "goal") [] =
      .ok (bytes "tidy up") := by decide
  have hstrategy : (Json.obj [(bytes "goal", .str (bytes "tidy up"))]).valueString
      (bytes "strategy") (bytes "sequential") = .ok (bytes "sequential") := by decide
  have hne : bytes "tidy up" ≠ [] := by decide
  rw [hn]
  simp only [loop, exec, supervise, toolRound, toolUse, use, handle, if_neg hsend, if_true,
    supervisorOp, hgoal, hstrategy, if_neg hne, runSupervisor, Body.bind, h, Option.bind_none]

/-- A model that never has the tool, two sessions that send to each other and a supervisor that
asks for a supervisor: in none of the three the prompt returns. -/
theorem prompts_nest_forever : ¬ Bounded agent ∧
    ∀ answers ∈ [fun _ => unable, passOn, fun _ => supervise], ∀ call n,
      ¬ ReturnsWithin (processPrompt agent) answers call n := by
  have hunable : detectCapabilityGap (bytes "I'm unable to do that.") = true := by decide
  constructor
  · exact fun hb => (bounded_iff agent).mp hb agent_asks
  · intro answers ha call n
    simp only [List.mem_cons, List.not_mem_nil, or_false] at ha
    rcases ha with rfl | rfl | rfl
    · intro hr
      obtain ⟨k, -, hk⟩ :=
        (texts_return_iff agent_asks (fun _ => bytes "I'm unable to do that.") call n).mp hr
      rw [hunable] at hk
      cases hk
    · exact not_returnsWithin (P := fun _ _ => True)
        (fun _ hc x pos _ => passOn_blocks (fun x pos => hc x pos trivial) x pos) trivial n
    · exact not_returnsWithin (P := fun _ _ => True)
        (fun _ hc x pos _ => supervise_blocks (fun x pos => hc x pos trivial) x pos) trivial n

/-- With one reply in the way the prompt of a session comes to an end. -/
theorem second_reply_ends : Asks agent ∧
    ReturnsWithin (processPrompt agent)
      (fun i => .text (if i = 0 then bytes "I'm unable to do that." else bytes "created it"))
      ⟨bytes "default", bytes "print the date"⟩ 1 := by
  refine ⟨agent_asks, ?_⟩
  apply ((nesting_bounded_iff agent).2 _ _ 1 agent_asks).mpr
  exact ⟨1, le_rfl, by decide⟩

end Counterexample

end PromptTermination
