import TizenClaw.AgentMachine

/-! What the checks guarantee of the calls that reach a tool, over all runs. -/
namespace GateDomination

open ByteString JsonValue LlmTypes ToolPolicy ToolRouting SafetyChecks UserProfileStore
  ToolDispatch AgentMachine TransitionSystem

variable {cfg : Config} {readFloat : Bytes → Option NumberText} {start : State}

theorem refusal_eq_none_iff {session : Bytes} {tc : LlmToolCall} {seen : Seen} :
    refusal cfg session tc seen = none ↔
      (checkPolicy cfg.policy cfg.stdHash seen.callHistory session tc.name tc.args).1 = [] ∧
      (validate cfg.num cfg.guard tc.name tc.args seen.role).allowed = true ∧
      (checkActionRateLimit cfg.guard seen.rateHistory seen.now tc.name).1 = false := by
  simp only [refusal]
  split_ifs <;> simp_all

/-- What a task has learnt: each check it has passed was passed at some moment, and what it
returns is the task body applied to what it saw. -/
def Explained (cfg : Config) (t : ToolTask) : Prop :=
  let passes (h : CallHistory) :=
    (checkPolicy cfg.policy cfg.stdHash h t.session t.call.name t.call.args).1 = []
  match t.phase with
  | .created => True
  | .policyPassed | .userFound _ => ∃ h, passes h
  | .validated role =>
    ∃ h, passes h ∧ (validate cfg.num cfg.guard t.call.name t.call.args role).allowed = true
  | .admitted role => ∃ seen : Seen, seen.role = role ∧ refusal cfg t.session t.call seen = none
  | .running role resolved => ∃ seen : Seen, seen.role = role ∧
      refusal cfg t.session t.call seen = none ∧ seen.router.resolve t.call.name = resolved
  | .returned result => ∃ seen : Seen, result = toolTask cfg t.session t.call seen

theorem explained_refuse {t : ToolTask} {message : Bytes} (seen : Seen)
    (h : refusal cfg t.session t.call seen = some (errorOutput message)) :
    Explained cfg (refuse t message) := by
  refine ⟨seen, ?_⟩
  simp only [refuse, toolTask, h]

theorem explained_finish {sh : Shared} {t : ToolTask} {resolved : Bytes}
    {outcome : Except ToolException Bytes} {seen : Seen}
    (hseen : refusal cfg t.session t.call seen = none)
    (hresolved : seen.router.resolve t.call.name = resolved) :
    Explained cfg (finishTool sh t resolved outcome).2 := by
  have result : ∀ outcome : Except ToolException Bytes,
      ∃ seen : Seen, outcome.map (fun output =>
        (⟨t.call.id, resolved, processOutput t.call.name resolved output⟩ : ToolExecResult)) =
          toolTask cfg t.session t.call seen := by
    intro outcome
    have hn : refusal cfg t.session t.call { seen with outcome := outcome } = none := hseen
    refine ⟨{ seen with outcome := outcome }, ?_⟩
    simp only [toolTask, hn, hresolved]
  unfold finishTool
  split
  · split <;> exact result _
  · exact result outcome

/-- One case per section: each check adds what it has found. -/
theorem taskStep_explained {sh : Shared} {t : ToolTask} {e : TaskEvent} {x : Shared × ToolTask}
    (ht : Explained cfg t) (h : taskStep cfg sh t e = some x) : Explained cfg x.2 := by
  cases e with
  | checkPolicy =>
    simp only [taskStep] at h
    split at h
    · obtain rfl := Option.some.inj h
      dsimp only
      split_ifs with hc
      · exact ⟨sh.callHistory, hc⟩
      · refine explained_refuse (⟨sh.callHistory, .guest, sh.rateHistory, 0, sh.router,
          .ok []⟩) ?_
        simp only [refusal, ne_eq, hc, not_false_eq_true, ↓reduceIte]
    · simp at h
  | findUser =>
    simp only [taskStep] at h
    split at h
    · rename_i hp
      obtain rfl := Option.some.inj h
      simpa only [Explained, hp] using ht
    · simp at h
  | validate =>
    simp only [taskStep] at h
    split at h
    · rename_i userId hp
      obtain rfl := Option.some.inj h
      simp only [Explained, hp] at ht
      obtain ⟨c, hc⟩ := ht
      dsimp only
      split_ifs with ha
      · exact ⟨c, hc, ha⟩
      · refine explained_refuse (⟨c, (getProfile cfg.profiles userId).role,
          sh.rateHistory, 0, sh.router, .ok []⟩) ?_
        simp only [refusal, hc, ha, ne_eq, not_true_eq_false, ↓reduceIte]
    · simp at h
  | checkRate now =>
    simp only [taskStep] at h
    split at h
    · rename_i role hp
      obtain rfl := Option.some.inj h
      simp only [Explained, hp] at ht
      obtain ⟨c, hc, ha⟩ := ht
      dsimp only
      split_ifs with hr
      · refine explained_refuse (⟨c, role, sh.rateHistory, now, sh.router, .ok []⟩) ?_
        simp only [refusal, hc, ha, hr, ne_eq, not_true_eq_false, ↓reduceIte,
          Bool.true_eq_false]
      · exact ⟨⟨c, role, sh.rateHistory, now, sh.router, .ok []⟩, rfl,
          refusal_eq_none_iff.mpr ⟨hc, ha, by simpa using hr⟩⟩
    · simp at h
  | confirm => simp [taskStep] at h
  | dispatch =>
    simp only [taskStep] at h
    split at h
    · rename_i role hp
      obtain rfl := Option.some.inj h
      simp only [Explained, hp] at ht
      obtain ⟨seen, hrole, hn⟩ := ht
      exact ⟨{ seen with router := sh.router }, hrole, hn, rfl⟩
    · simp at h
  | finish outcome =>
    simp only [taskStep] at h
    split at h
    · rename_i role resolved hp
      obtain rfl := Option.some.inj h
      simp only [Explained, hp] at ht
      obtain ⟨seen, -, hn, hr⟩ := ht
      exact explained_finish hn hr
    · simp at h

/-- Every task of a run behaves like the task body on what it saw. -/
theorem tasks_explained {tr s} (h : Run (agent cfg readFloat start) tr s) :
    ∀ t ∈ s.tasks, Explained cfg t :=
  tasks_invariant (fun _ _ _ => trivial) (fun _ _ _ _ ht hx => taskStep_explained ht hx) h

/-- A call at the moment its tool starts, with the role it was checked for and the name the
router gives it. -/
structure Dispatch where
  task : ToolTask
  role : UserRole
  resolved : Bytes

def dispatched (s : State) : Event → Option Dispatch
  | .task i .dispatch => (s.tasks[i]?).bind fun t => match t.phase with
    | .admitted role => some ⟨t, role, s.shared.router.resolve t.call.name⟩
    | _ => none
  | _ => none

theorem dispatched_some {s : State} {e : Event} {d : Dispatch} (h : dispatched s e = some d) :
    ∃ i, e = .task i .dispatch ∧ s.tasks[i]? = some d.task ∧ d.task.phase = .admitted d.role ∧
      d.resolved = s.shared.router.resolve d.task.call.name := by
  unfold dispatched at h
  split at h
  · rename_i i
    obtain ⟨t, ht, h⟩ := Option.bind_eq_some_iff.mp h
    split at h
    · rename_i hp
      obtain rfl := Option.some.inj h
      exact ⟨i, rfl, ht, hp, rfl⟩
    · simp at h
  · simp at h

/-- The checked name of a dispatched call has passed the policy and the safety guard. -/
theorem dispatched_checked {tr s} (h : Run (agent cfg readFloat start) tr s) :
    ∀ x ∈ tr, ∀ d ∈ dispatched x.1 x.2, d.task.call.name ∉ cfg.policy.blockedSkills ∧
      (validate cfg.num cfg.guard d.task.call.name d.task.call.args d.role).allowed = true := by
  intro x hx d hd
  obtain ⟨tr₁, -, -, -, hr, -⟩ := h.split hx
  obtain ⟨i, -, ht, hp, -⟩ := dispatched_some hd
  have he := tasks_explained hr d.task (List.mem_of_getElem? ht)
  simp only [Explained, hp] at he
  obtain ⟨seen, hrole, hn⟩ := he
  obtain ⟨hc, ha, -⟩ := refusal_eq_none_iff.mp hn
  exact ⟨checkPolicy_allowed hc, hrole ▸ ha⟩

/-- The tool that starts is allowed under its own name, which is the name that was checked. -/
structure Dominated (cfg : Config) (d : Dispatch) : Prop where
  unblocked : d.resolved ∉ cfg.policy.blockedSkills
  allowed : (validate cfg.num cfg.guard d.resolved d.task.call.args d.role).allowed = true
  same : d.resolved = d.task.call.name

/-- The gate dominates the executions of a run exactly when no call that starts a tool has an
entry in the tables of the router. -/
theorem gate_dominates_iff {tr s} (h : Run (agent cfg readFloat start) tr s) :
    (∀ x ∈ tr, ∀ d ∈ dispatched x.1 x.2, Dominated cfg d) ↔
      ∀ x ∈ tr, ∀ d ∈ dispatched x.1 x.2,
        x.1.shared.router.hasRedirect d.task.call.name = false := by
  constructor
  · intro hd x hx d hm
    obtain ⟨i, -, -, -, hres⟩ := dispatched_some hm
    rw [← ToolRouter.resolve_eq_self_iff, ← hres]
    exact (hd x hx d hm).same
  · intro hd x hx d hm
    obtain ⟨i, -, -, -, hres⟩ := dispatched_some hm
    have hsame : d.resolved = d.task.call.name := by
      rw [hres, ToolRouter.resolve_eq_self_iff]
      exact hd x hx d hm
    obtain ⟨hb, ha⟩ := dispatched_checked h x hx d hm
    exact ⟨hsame ▸ hb, hsame ▸ ha, hsame⟩

/-- Every listed tool starts only after a user has confirmed its call. -/
def ConfirmedFirst (cfg : Config) (tr : List (State × Event)) : Prop :=
  ∀ tr₁ x tr₂, tr = tr₁ ++ x :: tr₂ → ∀ i, x.2 = .task i .dispatch →
    ∀ d ∈ dispatched x.1 x.2, d.resolved ∈ cfg.guard.confirmationTools →
      ∃ y ∈ tr₁, y.2 = .task i .confirm

/-- No step asks for a confirmation. -/
theorem no_confirmation {tr s} (h : Run (agent cfg readFloat start) tr s) (i : ℕ) :
    ∀ x ∈ tr, x.2 ≠ .task i .confirm := by
  intro x hx he
  obtain ⟨-, -, t, -, -, hs⟩ := h.split hx
  simp only [agent, he, step] at hs
  obtain ⟨task, -, hs⟩ := Option.bind_eq_some_iff.mp hs
  simp [taskStep] at hs

/-- A run keeps to the confirmations exactly when no call that starts a tool resolves to a
listed one. -/
theorem confirmed_first_iff {tr s} (h : Run (agent cfg readFloat start) tr s) :
    ConfirmedFirst cfg tr ↔ ∀ x ∈ tr, ∀ d ∈ dispatched x.1 x.2,
      x.1.shared.router.resolve d.task.call.name ∉ cfg.guard.confirmationTools := by
  constructor
  · intro hc x hx d hd hl
    obtain ⟨tr₁, tr₂, -, rfl, -, -⟩ := h.split hx
    obtain ⟨i, he, -, -, hres⟩ := dispatched_some hd
    obtain ⟨y, hy, hconf⟩ := hc tr₁ x tr₂ rfl i he d hd (hres ▸ hl)
    exact no_confirmation h i y (by simp [hy]) hconf
  · rintro hn tr₁ x tr₂ rfl i - d hd hl
    obtain ⟨-, -, -, -, hres⟩ := dispatched_some hd
    exact absurd (hres ▸ hl) (hn x (by simp) d hd)

namespace Counterexample

/-- No tool of the example has bounds on numbers. -/
def numbers : NumericLibrary := ⟨fun i => .finite i, fun _ => .nan, fun _ => none, fun _ => []⟩

/-- No text of the example has a float. -/
def noFloat : Bytes → Option NumberText := fun _ => none

def session : Bytes := bytes "default"

/-- `send_sms` is blocked, and an alias sends `notify` to it. -/
def config : Config where
  policy := { blockedSkills := [bytes "send_sms"] }
  stdHash := List.length
  num := numbers

def initial : State where
  shared := {
    callHistory := fun _ _ => 0
    rateHistory := fun _ => []
    sessionUser := fun _ => none
    router := ToolRouter.empty.loadAliases (.obj [(bytes "notify", .str (bytes "send_sms"))]) }
  idleHistory := fun _ => []
  delegated := fun _ => none

/-- The sections of one task up to the start of its tool. -/
def sections (i : ℕ) : List Event :=
  [.task i .checkPolicy, .task i .findUser, .task i .validate, .task i (.checkRate 0),
    .task i .dispatch]

def events : List Event :=
  [.processPrompt session, .chat 0 [⟨bytes "call_1", bytes "notify", .obj []⟩]] ++ sections 0

theorem alias_starts_blocked_tool :
    ∃ tr s, Run (agent config noFloat initial) tr s ∧
      ¬ ∀ x ∈ tr, ∀ d ∈ dispatched x.1 x.2, Dominated config d := by
  obtain ⟨tr, s, hr, hp⟩ := exists_run config noFloat initial ⟨rfl, rfl⟩
    events (fun r => r.1.any fun x => (dispatched x.1 x.2).any fun d =>
      d.resolved ∈ config.policy.blockedSkills) (by decide)
  simp only [List.any_eq_true, Option.any_eq_true, decide_eq_true_eq] at hp
  obtain ⟨x, hx, d, hd, hb⟩ := hp
  exact ⟨tr, s, hr, fun h => (h x hx d hd).unblocked hb⟩

/-- Without the alias the call is executed as it was checked. -/
def plain : State := { initial with shared := { initial.shared with router := ToolRouter.empty } }

theorem plain_call_dominated :
    ∃ tr s, Run (agent config noFloat plain) tr s ∧ (∃ x ∈ tr, (dispatched x.1 x.2).isSome) ∧
      ∀ x ∈ tr, ∀ d ∈ dispatched x.1 x.2, Dominated config d := by
  obtain ⟨tr, s, hr, hp⟩ := exists_run config noFloat plain ⟨rfl, rfl⟩
    events (fun r => (r.1.any fun x => (dispatched x.1 x.2).isSome) &&
      r.1.all fun x => (dispatched x.1 x.2).all fun d =>
        !x.1.shared.router.hasRedirect d.task.call.name) (by decide)
  simp only [Bool.and_eq_true, List.any_eq_true, List.all_eq_true, Option.all_eq_true,
    Bool.not_eq_true'] at hp
  exact ⟨tr, s, hr, hp.1, (gate_dominates_iff hr).mpr hp.2⟩

/-- `notify` needs a confirmation. -/
def careful : Config where
  guard := { confirmationTools := [bytes "notify"] }
  stdHash := List.length
  num := numbers

theorem listed_tool_starts_unconfirmed :
    ∃ tr s, Run (agent careful noFloat plain) tr s ∧ ¬ ConfirmedFirst careful tr ∧
      ∃ x ∈ tr, ∃ d ∈ dispatched x.1 x.2, (validate careful.num careful.guard d.task.call.name
        d.task.call.args d.role).requiresConfirmation = true := by
  obtain ⟨tr, s, hr, hp⟩ := exists_run careful noFloat plain ⟨rfl, rfl⟩
    events (fun r => r.1.any fun x => (dispatched x.1 x.2).any fun d =>
      d.resolved ∈ careful.guard.confirmationTools ∧
      (validate careful.num careful.guard d.task.call.name d.task.call.args
        d.role).requiresConfirmation = true) (by decide)
  simp only [List.any_eq_true, Option.any_eq_true, decide_eq_true_eq] at hp
  obtain ⟨x, hx, d, hd, hl, hv⟩ := hp
  refine ⟨tr, s, hr, fun hc => ?_, x, hx, d, hd, hv⟩
  obtain ⟨tr₁, tr₂, -, rfl, -, -⟩ := hr.split hx
  obtain ⟨i, he, -⟩ := dispatched_some hd
  obtain ⟨y, hy, hconf⟩ := hc tr₁ x tr₂ rfl i he d hd hl
  exact no_confirmation hr i y (by simp [hy]) hconf

theorem unlisted_tool_confirmed :
    ∃ tr s, Run (agent config noFloat plain) tr s ∧ (∃ x ∈ tr, (dispatched x.1 x.2).isSome) ∧
      ConfirmedFirst config tr := by
  obtain ⟨tr, s, hr, hp⟩ := exists_run config noFloat plain ⟨rfl, rfl⟩
    events (fun r => (r.1.any fun x => (dispatched x.1 x.2).isSome) &&
      r.1.all fun x => (dispatched x.1 x.2).all fun d =>
        x.1.shared.router.resolve d.task.call.name ∉ config.guard.confirmationTools)
    (by decide)
  simp only [Bool.and_eq_true, List.any_eq_true, List.all_eq_true, Option.all_eq_true,
    decide_eq_true_eq] at hp
  exact ⟨tr, s, hr, hp.1, (confirmed_first_iff hr).mpr hp.2⟩

end Counterexample

end GateDomination
