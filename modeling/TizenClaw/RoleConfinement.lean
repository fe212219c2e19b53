import TizenClaw.GateDomination

/-! The role of a session over whole runs. The binding of a session is read by the checks and
written by one tool, so the bound on roles has to hold of what the tasks have read as well. -/
namespace RoleConfinement

open ByteString JsonValue LlmTypes SafetyChecks UserProfileStore ToolDispatch AgentMachine
  GateDomination TransitionSystem

variable {cfg : Config} {readFloat : Bytes → Option NumberText} {start : State}

/-- The session and the user of a `switch_user` that is about to bind them. -/
def rebound (s : State) : Event → Option (Bytes × Bytes)
  | .task i (.finish _) => (s.tasks[i]?).bind fun t => match t.phase with
    | .running _ resolved =>
      if resolved = bytes "switch_user" then
        match switchUser t.call.args with
        | .ok (_, some user) => some (t.session, user)
        | _ => none
      else none
    | _ => none
  | _ => none

/-- What a task has read of the role stays below the bound. -/
def TaskBounded (cfg : Config) (bound : ℕ) (t : ToolTask) : Prop :=
  match t.phase with
  | .userFound userId => (getProfile cfg.profiles userId).role.rank ≤ bound
  | .validated role | .admitted role | .running role _ => role.rank ≤ bound
  | _ => True

structure Bounded (cfg : Config) (session : Bytes) (bound : ℕ) (s : State) : Prop where
  binding : (sessionRole cfg.profiles s.shared.sessionUser session).rank ≤ bound
  tasks : ∀ t ∈ s.tasks, t.session = session → TaskBounded cfg bound t

theorem finishTool_session {sh : Shared} {t : ToolTask} {resolved : Bytes}
    {outcome : Except ToolException Bytes} :
    (finishTool sh t resolved outcome).2.session = t.session ∧
      ∀ cfg bound, TaskBounded cfg bound (finishTool sh t resolved outcome).2 := by
  unfold finishTool
  split
  · split <;> exact ⟨rfl, fun _ _ => trivial⟩
  · exact ⟨rfl, fun _ _ => trivial⟩

theorem finishTool_binding (sh : Shared) (t : ToolTask) (resolved : Bytes)
    (outcome : Except ToolException Bytes) :
    (finishTool sh t resolved outcome).1.sessionUser = sh.sessionUser ∨
      ∃ out user, resolved = bytes "switch_user" ∧ switchUser t.call.args = .ok (out, some user) ∧
        (finishTool sh t resolved outcome).1.sessionUser =
          bindSession sh.sessionUser t.session user := by
  unfold finishTool
  split
  · rename_i hr
    split
    · exact .inl rfl
    · exact .inl rfl
    · rename_i out user hu
      exact .inr ⟨out, user, hr, hu, rfl⟩
  · exact .inl rfl

theorem taskStep_session {sh : Shared} {t : ToolTask} {e : TaskEvent} {x : Shared × ToolTask}
    (h : taskStep cfg sh t e = some x) : x.2.session = t.session := by
  cases e with
  | confirm => simp [taskStep] at h
  | finish outcome =>
    simp only [taskStep] at h
    split at h
    · obtain rfl := Option.some.inj h
      exact finishTool_session.1
    · simp at h
  | findUser | dispatch =>
    simp only [taskStep] at h
    split at h
    · obtain rfl := Option.some.inj h
      rfl
    · simp at h
  | _ =>
    simp only [taskStep] at h
    split at h
    · obtain rfl := Option.some.inj h
      dsimp only
      split_ifs <;> rfl
    · simp at h

/-- A section of a task reads the role from the binding or keeps what it has. -/
theorem taskStep_bounded {sh : Shared} {t : ToolTask} {e : TaskEvent} {x : Shared × ToolTask}
    {bound : ℕ} (hb : (sessionRole cfg.profiles sh.sessionUser t.session).rank ≤ bound)
    (ht : TaskBounded cfg bound t) (h : taskStep cfg sh t e = some x) :
    TaskBounded cfg bound x.2 := by
  cases e with
  | checkPolicy =>
    simp only [taskStep] at h
    split at h
    · obtain rfl := Option.some.inj h
      dsimp only
      split_ifs <;> trivial
    · simp at h
  | findUser =>
    simp only [taskStep] at h
    split at h
    · obtain rfl := Option.some.inj h
      exact hb
    · simp at h
  | validate =>
    simp only [taskStep] at h
    split at h
    · rename_i userId hp
      obtain rfl := Option.some.inj h
      simp only [TaskBounded, hp] at ht
      dsimp only
      split_ifs
      · exact ht
      · trivial
    · simp at h
  | checkRate now =>
    simp only [taskStep] at h
    split at h
    · rename_i role hp
      obtain rfl := Option.some.inj h
      simp only [TaskBounded, hp] at ht
      dsimp only
      split_ifs
      · trivial
      · exact ht
    · simp at h
  | confirm => simp [taskStep] at h
  | dispatch =>
    simp only [taskStep] at h
    split at h
    · rename_i role hp
      obtain rfl := Option.some.inj h
      simp only [TaskBounded, hp] at ht
      exact ht
    · simp at h
  | finish outcome =>
    simp only [taskStep] at h
    split at h
    · obtain rfl := Option.some.inj h
      exact finishTool_session.2 cfg bound
    · simp at h

/-- Only the end of `switch_user` writes the binding. -/
theorem taskStep_binding {sh : Shared} {t : ToolTask} {e : TaskEvent} {x : Shared × ToolTask}
    (h : taskStep cfg sh t e = some x) : x.1.sessionUser = sh.sessionUser ∨
      ∃ outcome role out user, e = .finish outcome ∧
        t.phase = .running role (bytes "switch_user") ∧
        switchUser t.call.args = .ok (out, some user) ∧
        x.1.sessionUser = bindSession sh.sessionUser t.session user := by
  cases e with
  | confirm => simp [taskStep] at h
  | finish outcome =>
    simp only [taskStep] at h
    split at h
    · rename_i role resolved hp
      obtain rfl := Option.some.inj h
      rcases finishTool_binding sh t resolved outcome
        with hu | ⟨out, user, rfl, hs, hu⟩
      · exact .inl hu
      · exact .inr ⟨outcome, role, out, user, rfl, hp, hs, hu⟩
    · simp at h
  | _ =>
    simp only [taskStep] at h
    split at h
    · obtain rfl := Option.some.inj h
      exact .inl rfl
    · simp at h

theorem step_binding {s t : State} {e : Event} (h : step cfg readFloat s e = some t) :
    t.shared.sessionUser = s.shared.sessionUser ∨
      ∃ b ∈ rebound s e, t.shared.sessionUser = bindSession s.shared.sessionUser b.1 b.2 := by
  rcases step_tasks h with ⟨i, te, task, x, rfl, ht, hx, -, he⟩ | ⟨hu, -⟩
  · rw [he]
    rcases taskStep_binding hx with hu | ⟨outcome, role, out, user, rfl, hp, hs, hu⟩
    · exact .inl hu
    · refine .inr ⟨(task.session, user), ?_, hu⟩
      simp [rebound, ht, hp, hs]
  · exact .inl hu

theorem sessionRole_bind {m : SessionUserMap} {session other user : Bytes} {bound : ℕ}
    (h : (sessionRole cfg.profiles m session).rank ≤ bound)
    (hu : other = session → (getProfile cfg.profiles user).role.rank ≤ bound) :
    (sessionRole cfg.profiles (bindSession m other user) session).rank ≤ bound := by
  unfold sessionRole
  by_cases hs : other = session
  · subst hs
    rw [getUserIdForSession_bind_self]
    exact hu rfl
  · rw [getUserIdForSession_bind_other m (Ne.symm hs)]
    exact h

/-- As long as nobody switches the session to a user above the bound, its role and the roles its
tasks have read stay below it. -/
theorem bounded_step {session : Bytes} {bound : ℕ} {s t : State} {e : Event}
    (hI : Bounded cfg session bound s)
    (hp : ∀ b ∈ rebound s e, b.1 = session → (getProfile cfg.profiles b.2).role.rank ≤ bound)
    (h : step cfg readFloat s e = some t) : Bounded cfg session bound t := by
  have hbind : (sessionRole cfg.profiles t.shared.sessionUser session).rank ≤ bound := by
    rcases step_binding h with hu | ⟨b, hb, hu⟩
    · rw [hu]
      exact hI.binding
    · rw [hu]
      exact sessionRole_bind hI.binding (hp b hb)
  refine ⟨hbind, ?_⟩
  rcases step_tasks h with ⟨i, te, task, x, -, ht, hx, he, -⟩ | ⟨-, p, sess, calls, he⟩
  · rw [he]
    intro u hu hs
    rcases List.mem_or_eq_of_mem_set hu with hu | rfl
    · exact hI.tasks u hu hs
    · rw [taskStep_session hx] at hs
      subst hs
      exact taskStep_bounded hI.binding (hI.tasks task (List.mem_of_getElem? ht) rfl) hx
  · rw [he]
    intro u hu hs
    rcases List.mem_append.mp hu with hu | hu
    · exact hI.tasks u hu hs
    · obtain ⟨tc, -, rfl⟩ := List.mem_map.mp hu
      trivial

theorem run_bounded {session : Bytes} {bound : ℕ}
    (hstart : (sessionRole cfg.profiles start.shared.sessionUser session).rank ≤ bound) {tr s}
    (h : Run (agent cfg readFloat start) tr s)
    (hp : ∀ x ∈ tr, ∀ b ∈ rebound x.1 x.2, b.1 = session →
      (getProfile cfg.profiles b.2).role.rank ≤ bound) : Bounded cfg session bound s := by
  refine h.guarded_invariant (P := fun s e => ∀ b ∈ rebound s e, b.1 = session →
    (getProfile cfg.profiles b.2).role.rank ≤ bound) ?_ (fun s e t hI hp h => bounded_step hI hp h)
    hp
  rintro s ⟨rfl, -, ht⟩
  exact ⟨hstart, by simp [ht]⟩

/-- In a session whose role no executed `switch_user` raises, the role stays, and no call that
is executed under its own name is restricted for it. -/
theorem role_confined (session : Bytes) (role : UserRole)
    (hstart : sessionRole cfg.profiles start.shared.sessionUser session = role) {tr s}
    (h : Run (agent cfg readFloat start) tr s)
    (hswitch : ∀ x ∈ tr, ∀ b ∈ rebound x.1 x.2, b.1 = session →
      (getProfile cfg.profiles b.2).role.rank ≤ role.rank) :
    (sessionRole cfg.profiles s.shared.sessionUser session).rank ≤ role.rank ∧
      ∀ x ∈ tr, ∀ d ∈ dispatched x.1 x.2, d.task.session = session →
        d.resolved = d.task.call.name → ¬ Restricted cfg.guard role d.resolved := by
  have hle : (sessionRole cfg.profiles start.shared.sessionUser session).rank ≤ role.rank :=
    hstart ▸ le_rfl
  refine ⟨(run_bounded hle h hswitch).binding, ?_⟩
  intro x hx d hd hs hsame hres
  obtain ⟨tr₁, tr₂, -, rfl, hr, -⟩ := h.split hx
  obtain ⟨i, -, ht, hp, -⟩ := dispatched_some hd
  have hI := run_bounded hle hr fun y hy => hswitch y (by simp [hy])
  have hb := hI.tasks d.task (List.mem_of_getElem? ht) hs
  simp only [TaskBounded, hp] at hb
  have hden :
      (validate cfg.num cfg.guard d.task.call.name d.task.call.args d.role).allowed = false :=
    validate_restricted (restricted_mono hb (hsame ▸ hres)) d.task.call.args
  have hal := (dispatched_checked h x hx d hd).2
  rw [hden] at hal
  exact absurd hal (by decide)

namespace Counterexample

open GateDomination.Counterexample

/-- `send_sms` is for members; `owner` is an administrator. -/
def household : Config where
  guard := { guestRestrictedTools := [bytes "send_sms"] }
  profiles := [(bytes "owner", { userId := bytes "owner", name := bytes "Owner", role := .admin })]
  stdHash := List.length
  num := numbers

def stamp : SessionMarkdown.Timestamp := ⟨bytes "2026-01-01T00:00:01+0000", by decide⟩

def switchCall (user : String) : LlmToolCall :=
  ⟨bytes "call_1", bytes "switch_user", .obj [(bytes "user_id", .str (bytes user))]⟩

/-- The model switches the user, then calls a tool. -/
def twoRounds (user tool : String) : List Event :=
  [.processPrompt session, .chat 0 [switchCall user]] ++ sections 0 ++
  [.task 0 (.finish (.ok [])), .collect 0 none stamp [],
    .chat 0 [⟨bytes "call_2", bytes tool, .obj []⟩]] ++ sections 1

theorem guest_becomes_admin :
    sessionRole household.profiles plain.shared.sessionUser session = .guest ∧
    ∃ tr s, Run (agent household noFloat plain) tr s ∧
      sessionRole household.profiles s.shared.sessionUser session = .admin ∧
      ∃ x ∈ tr, ∃ d ∈ dispatched x.1 x.2, d.task.session = session ∧
        Restricted household.guard .guest d.resolved := by
  refine ⟨by decide, ?_⟩
  obtain ⟨tr, s, hr, hp⟩ := exists_run household noFloat plain ⟨rfl, rfl⟩
    (twoRounds "owner" "send_sms") (fun r =>
      sessionRole household.profiles r.2.shared.sessionUser session = .admin ∧
      r.1.any fun x => (dispatched x.1 x.2).any fun d =>
        d.task.session = session ∧ Restricted household.guard .guest d.resolved)
    (by decide +kernel)
  simp only [decide_eq_true_eq, List.any_eq_true, Option.any_eq_true] at hp
  obtain ⟨hrole, x, hx, d, hd, hs⟩ := hp
  exact ⟨tr, s, hr, hrole, x, hx, d, hd, hs⟩

/-- A switch to another guest changes nothing for the checks. -/
theorem guest_stays_confined :
    ∃ tr s, Run (agent household noFloat plain) tr s ∧ (∃ x ∈ tr, (rebound x.1 x.2).isSome) ∧
      (sessionRole household.profiles s.shared.sessionUser session).rank ≤ UserRole.guest.rank ∧
      ∀ x ∈ tr, ∀ d ∈ dispatched x.1 x.2, d.task.session = session →
        d.resolved = d.task.call.name → ¬ Restricted household.guard .guest d.resolved := by
  obtain ⟨tr, s, hr, hp⟩ := exists_run household noFloat plain ⟨rfl, rfl⟩
    (twoRounds "visitor" "notify") (fun r =>
      (r.1.any fun x => (rebound x.1 x.2).isSome) &&
      r.1.all fun x => (rebound x.1 x.2).all fun b =>
        b.1 = session → (getProfile household.profiles b.2).role.rank ≤ UserRole.guest.rank)
    (by decide +kernel)
  simp only [Bool.and_eq_true, List.any_eq_true, List.all_eq_true, Option.all_eq_true,
    decide_eq_true_eq] at hp
  exact ⟨tr, s, hr, hp.1, role_confined session .guest (by decide) hr hp.2⟩

end Counterexample

end RoleConfinement
