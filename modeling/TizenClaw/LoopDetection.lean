import TizenClaw.AgentMachine

/-! When a repeated call is refused, over runs of any number of prompts: the counts are those of the
session since it was cleared, whichever prompt the calls belong to. -/
namespace LoopDetection

open ByteString JsonValue LlmTypes ToolPolicy ToolRouting SafetyChecks ToolDispatch AgentMachine
  TransitionSystem

section Counts

variable {cfg : Config} {readFloat : Bytes → Option NumberText} {start s s' : State}
  {tr : List (State × Event)} {session hash : Bytes} {i : ℕ} {t : ToolTask}

/-- The hash that a call is counted by. -/
def callHash (cfg : Config) (tc : LlmToolCall) : Bytes := hashCall cfg.stdHash tc.name tc.args

/-- The task asks the policy for a call with this hash, of a tool that is not blocked. -/
def Counted (cfg : Config) (session hash : Bytes) (t : ToolTask) : Prop :=
  t.session = session ∧ callHash cfg t.call = hash ∧ t.call.name ∉ cfg.policy.blockedSkills

instance (cfg : Config) (session hash : Bytes) (t : ToolTask) :
    Decidable (Counted cfg session hash t) := inferInstanceAs (Decidable (_ ∧ _))

/-- The count behind one more step of a run. -/
def count (cfg : Config) (session hash : Bytes) (n : ℕ) (x : State × Event) : ℕ :=
  match x.2 with
  | .clearSession k => if k = session then 0 else n
  | .task i .checkPolicy =>
    if (x.1.tasks[i]?).any (fun t => Counted cfg session hash t) then n + 1 else n
  | _ => n

/-- The calls with a hash in a session since it was last cleared. -/
def requests (cfg : Config) (tr : List (State × Event)) (session hash : Bytes) : ℕ :=
  tr.foldl (count cfg session hash) 0

theorem callHistory_checkPolicy (h : s.tasks[i]? = some t)
    (hs : step cfg readFloat s (.task i .checkPolicy) = some s') :
    s'.shared.callHistory = (checkPolicy cfg.policy cfg.stdHash s.shared.callHistory t.session
      t.call.name t.call.args).2 := by
  obtain ⟨task, ht, hs⟩ := Option.bind_eq_some_iff.mp hs
  obtain rfl := Option.some.inj (h.symm.trans ht)
  obtain ⟨x, hx, rfl⟩ := Option.map_eq_some_iff.mp hs
  simp only [taskStep] at hx
  split at hx
  · obtain rfl := Option.some.inj hx
    rfl
  · cases hx

theorem checkPolicy_count (h : CallHistory) :
    (checkPolicy cfg.policy cfg.stdHash h t.session t.call.name t.call.args).2 session hash =
      if Counted cfg session hash t then h session hash + 1 else h session hash := by
  by_cases hb : t.call.name ∈ cfg.policy.blockedSkills
  · rw [checkPolicy, if_pos hb, if_neg fun hc => hc.2.2 hb]
  have hw : (checkPolicy cfg.policy cfg.stdHash h t.session t.call.name t.call.args).2 =
      Function.update h t.session (Function.update (h t.session) (callHash cfg t.call)
        (h t.session (callHash cfg t.call) + 1)) := by
    rw [checkPolicy, if_neg hb]
    dsimp only [callHash]
    split <;> rfl
  rw [hw]
  by_cases hs : t.session = session
  · subst hs
    rw [Function.update_self]
    by_cases hh : callHash cfg t.call = hash
    · subst hh
      rw [Function.update_self, if_pos ⟨rfl, rfl, hb⟩]
    · rw [Function.update_of_ne (Ne.symm hh), if_neg fun hc => hh hc.2.1]
  · rw [Function.update_of_ne (Ne.symm hs), if_neg fun hc => hs hc.1]

/-- Other sections of a task count nothing. -/
theorem callHistory_task {e : TaskEvent} (he : e ≠ .checkPolicy)
    (hs : step cfg readFloat s (.task i e) = some s') :
    s'.shared.callHistory = s.shared.callHistory := by
  obtain ⟨t, -, hs⟩ := Option.bind_eq_some_iff.mp hs
  obtain ⟨x, hx, rfl⟩ := Option.map_eq_some_iff.mp hs
  cases e with
  | checkPolicy => exact absurd rfl he
  | confirm => cases hx
  | findUser | validate | checkRate | dispatch =>
    simp only [taskStep] at hx
    split at hx
    · obtain rfl := Option.some.inj hx
      rfl
    · cases hx
  | finish outcome =>
    simp only [taskStep] at hx
    split at hx
    · obtain rfl := Option.some.inj hx
      simp only [finishTool]
      split
      · split <;> rfl
      · rfl
    · cases hx

theorem callHistory_step {e : Event} (hs : step cfg readFloat s e = some s') :
    s'.shared.callHistory session hash =
      count cfg session hash (s.shared.callHistory session hash) (s, e) := by
  cases e with
  | task i te =>
    by_cases he : te = .checkPolicy
    · subst he
      obtain ⟨t, ht, -⟩ := Option.bind_eq_some_iff.mp hs
      rw [callHistory_checkPolicy ht hs, checkPolicy_count]
      simp only [count, ht, Option.any_some, decide_eq_true_eq]
    · rw [callHistory_task he hs]
      cases te <;> first | rfl | exact absurd rfl he
  | clearSession k =>
    obtain rfl := Option.some.inj hs
    by_cases hk : k = session
    · simp [count, resetSession, hk]
    · simp [count, resetSession, hk, Function.update_of_ne (Ne.symm hk)]
  | processPrompt | delegateToRole | registerOverlap =>
    obtain rfl := Option.some.inj hs
    rfl
  | chat p calls =>
    obtain ⟨pr, -, h⟩ := Option.bind_eq_some_iff.mp hs
    split at h
    · split_ifs at h <;> obtain rfl := Option.some.inj h <;> rfl
    · cases h
  | giveUp p =>
    obtain ⟨pr, -, h⟩ := Option.bind_eq_some_iff.mp hs
    split at h
    · split_ifs at h
      obtain rfl := Option.some.inj h
      rfl
    · cases h
  | collect p canvas stamp saved =>
    obtain ⟨pr, -, h⟩ := Option.bind_eq_some_iff.mp hs
    split at h
    · obtain ⟨results, -, rfl⟩ := Option.map_eq_some_iff.mp h
      rfl
    · cases h

/-- The table of the policy holds these counts. -/
theorem callHistory_run (hfresh : ∀ session hash, start.shared.callHistory session hash = 0)
    (h : Run (agent cfg readFloat start) tr s) (session hash : Bytes) :
    s.shared.callHistory session hash = requests cfg tr session hash := by
  induction h with
  | init hi =>
    rw [hi.1, hfresh]
    rfl
  | @step tr s e t _ hs ih =>
    rw [callHistory_step hs, ih, requests, requests, List.foldl_append]
    rfl

/-- What the loop detection leaves of a task. -/
def RefusedAsLoop (cfg : Config) (t u : ToolTask) : Prop :=
  ∃ n : ℕ, u = refuse t (repeatText cfg.policy t.call.name n)

theorem blockedText_ne (policy : ToolPolicyConfig) (name : Bytes) (n : ℕ) :
    blockedText name ≠ repeatText policy name n := by
  intro h
  simp only [blockedText, repeatText, List.append_assoc, List.append_cancel_left_eq] at h
  have h' := congrArg (fun l => l.take 3) h
  rw [List.take_append_of_le_length (by decide)] at h'
  exact absurd h' (by decide)

theorem refuse_ne_policyPassed (message : Bytes) :
    ({ t with phase := .policyPassed } : ToolTask) ≠ refuse t message :=
  fun h => Phase.noConfusion (congrArg ToolTask.phase h)

theorem refuse_inj {m n : Bytes} (h : refuse t m = refuse t n) : m = n := by
  have hp := congrArg ToolTask.phase h
  simp only [refuse, Phase.returned.injEq, Except.ok.injEq, ToolExecResult.mk.injEq,
    errorOutput] at hp
  simpa using hp

theorem checkPolicy_text {h : CallHistory} (hb : t.call.name ∉ cfg.policy.blockedSkills) :
    (checkPolicy cfg.policy cfg.stdHash h t.session t.call.name t.call.args).1 =
      if cfg.policy.maxRepeatCount < (h t.session (callHash cfg t.call) + 1 : ℕ) then
        repeatText cfg.policy t.call.name (h t.session (callHash cfg t.call) + 1)
      else [] := by
  rw [checkPolicy, if_neg hb]
  exact apply_ite Prod.fst _ _ _

/-- The section of the policy refuses a call as a loop exactly if the count it writes is above
the limit. -/
theorem checkPolicy_refused_iff (h : s.tasks[i]? = some t)
    (hs : step cfg readFloat s (.task i .checkPolicy) = some s') :
    (∃ u, s'.tasks[i]? = some u ∧ RefusedAsLoop cfg t u) ↔
      t.call.name ∉ cfg.policy.blockedSkills ∧
        cfg.policy.maxRepeatCount <
          (s.shared.callHistory t.session (callHash cfg t.call) + 1 : ℕ) := by
  obtain ⟨task, ht, hs⟩ := Option.bind_eq_some_iff.mp hs
  obtain rfl := Option.some.inj (h.symm.trans ht)
  obtain ⟨x, hx, rfl⟩ := Option.map_eq_some_iff.mp hs
  have hi := (List.getElem?_eq_some_iff.mp h).1
  simp only [List.getElem?_set_self hi, Option.some.injEq, exists_eq_left']
  simp only [taskStep] at hx
  split at hx
  swap
  · cases hx
  obtain rfl := Option.some.inj hx
  by_cases hb : t.call.name ∈ cfg.policy.blockedSkills
  · refine iff_of_false ?_ fun hc => hc.1 hb
    rintro ⟨n, hn⟩
    simp only [checkPolicy, if_pos hb] at hn
    rw [if_neg (by simp [blockedText, show bytes "Tool '" ≠ [] by decide])] at hn
    exact blockedText_ne _ _ _ (refuse_inj hn)
  simp only [checkPolicy_text hb]
  by_cases hc : cfg.policy.maxRepeatCount <
      (s.shared.callHistory t.session (callHash cfg t.call) + 1 : ℕ)
  · rw [if_pos hc, if_neg (by simp [repeatText, show bytes "Tool '" ≠ [] by decide])]
    exact iff_of_true ⟨_, rfl⟩ ⟨hb, hc⟩
  · rw [if_neg hc, if_pos rfl]
    refine iff_of_false ?_ fun h => hc h.2
    rintro ⟨n, hn⟩
    exact refuse_ne_policyPassed _ hn

end Counts

/-- The step asks the policy for the same call for a task of the same prompt. -/
def SameInPrompt (t : ToolTask) (x : State × Event) : Bool :=
  match x.2 with
  | .task i .checkPolicy => (x.1.tasks[i]?).any fun u =>
    u.prompt = t.prompt ∧ u.call.name = t.call.name ∧ u.call.args = t.call.args
  | _ => false

/-- No call is refused as a loop that its prompt asked for at most as often as the limit. -/
def PerPrompt (cfg : Config) (readFloat : Bytes → Option NumberText) (start : State) : Prop :=
  ∀ tr s i t s', Run (agent cfg readFloat start) tr s → s.tasks[i]? = some t →
    step cfg readFloat s (.task i .checkPolicy) = some s' →
    (tr.countP (SameInPrompt t) + 1 : ℕ) ≤ cfg.policy.maxRepeatCount →
    ¬ ∃ u, s'.tasks[i]? = some u ∧ RefusedAsLoop cfg t u

namespace Counterexample

/-- No tool of the example has bounds on numbers. -/
def numbers : NumericLibrary := ⟨fun i => .finite i, fun _ => .nan, fun _ => none, fun _ => []⟩

def noFloat : Bytes → Option NumberText := fun _ => none

def session : Bytes := bytes "default"

def config : Config where
  stdHash := List.length
  num := numbers

def initial : State where
  shared := {
    callHistory := fun _ _ => 0
    rateHistory := fun _ => []
    sessionUser := fun _ => none
    router := ToolRouter.empty }
  idleHistory := fun _ => []
  delegated := fun _ => none

/-- The call of every prompt of the example. -/
def battery : LlmToolCall := ⟨bytes "call_1", bytes "get_battery_info", .obj []⟩

/-- The prompts up to their calls, each call checked but the last. -/
def events : List Event :=
  [.processPrompt session, .chat 0 [battery], .task 0 .checkPolicy,
    .processPrompt session, .chat 1 [battery], .task 1 .checkPolicy,
    .processPrompt session, .chat 2 [battery], .task 2 .checkPolicy,
    .processPrompt session, .chat 3 [battery]]

end Counterexample

end LoopDetection
