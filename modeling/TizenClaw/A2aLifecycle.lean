import TizenClaw.A2aHandler
import TizenClaw.TransitionSystem

/-! The life of A2A tasks while requests are handled at the same time. A step is a section of a
handler that holds the lock, or what it does before the first one. -/
namespace A2aLifecycle

open ByteString JsonValue IpcHandler OrderedMap A2aHandler TransitionSystem

section Model

/-- How far a `tasks/send` has come. -/
inductive Phase where
  | created
  | submitted
  | working
  | ended
  deriving DecidableEq, Repr

structure Call where
  id : Bytes
  text : Bytes
  message : Json
  phase : Phase
  deriving DecidableEq, Repr

structure State where
  handler : Handler := {}
  calls : List Call := []

inductive Event where
  | send (params : Json) (millis : ℤ)
  | submit (i : ℕ) (stamp : Bytes)
  | work (i : ℕ) (stamp : Bytes)
  | answer (i : ℕ) (result : Except Thrown Bytes) (stamp : Bytes)
  | get (params : Json)
  | cancel (params : Json) (stamp : Bytes)

/-- The statuses of the tasks, as a function of their ids. -/
def statuses (h : Handler) (id : Bytes) : Option A2aTaskStatus :=
  (h.tasks.get id).map A2aTask.status

/-- A call that stands at this point. -/
def State.at (s : State) (i : ℕ) (phase : Phase) : Option Call :=
  s.calls[i]?.filter fun c => c.phase = phase

/-- The call goes on, with what its section did to the tasks. -/
def State.advance (s : State) (i : ℕ) (phase : Phase) (h : Handler) : State :=
  ⟨h, s.calls.modify i fun c => { c with phase := phase }⟩

/-- The message of a `tasks/send` and its text, if a task is to be created. -/
def accepted (params : Json) : Option (Json × Bytes) :=
  (params.member? (bytes "message")).bind fun message =>
    match messageText message with
    | .ok text => if text = [] then none else some (message, text)
    | .error _ => none

def step (s : State) : Event → Option State
  | .send params millis =>
    match accepted params with
    | none => some s
    | some (message, text) =>
      let x := s.handler.generateTaskId millis
      some ⟨x.2, s.calls ++ [⟨x.1, text, message, .created⟩]⟩
  | .submit i stamp => (s.at i .created).map fun c =>
    s.advance i .submitted (s.handler.put (newTask c.id c.message stamp))
  | .work i stamp => (s.at i .submitted).map fun c =>
    s.advance i .working (s.handler.setWorking c.id stamp)
  | .answer i (.ok result) stamp => (s.at i .working).map fun c =>
    s.advance i .ended (s.handler.complete c.id result stamp)
  | .answer i (.error _) _ => (s.at i .working).map fun _ => s.advance i .ended s.handler
  | .get _ => some s
  | .cancel params stamp => some { s with handler := (s.handler.taskCancel params stamp).2 }

def a2a : System State Event where
  Init s := s.handler.tasks.entries = [] ∧ s.calls = []
  Step s e t := step s e = some t

/-- A task has come to an end in this way. -/
def Ended (i : Bytes × A2aTaskStatus) (s : State) : Prop :=
  i.2.Terminal ∧ statuses s.handler i.1 = some i.2

/-- A task in a terminal state stays in it. -/
def Settled (tr : List (State × Event)) (s : State) : Prop := Lasting Ended tr s

/-- After a cancel that succeeded, no `tasks/get` reports the task as completed. -/
def StaysCancelled (tr : List (State × Event)) : Prop :=
  ∀ tr₁ u params stamp tr₂, tr = tr₁ ++ (u, .cancel params stamp) :: tr₂ →
    (u.handler.taskCancel params stamp).1.contains (bytes "status") = true →
      ∀ y ∈ tr₂, ∀ params', y.2 = .get params' → requestedId params' = requestedId params →
        (y.1.handler.taskGet params').member? (bytes "status") ≠
          some (.str A2aTaskStatus.completed.text)

/-- The task that a `tasks/send` writes to has not ended before: its id was not given to an ended
task, and its result does not find it cancelled. -/
def Permitted (s : State) : Event → Prop
  | .submit i _ => ∀ c ∈ s.at i .created, ∀ st ∈ statuses s.handler c.id, ¬ st.Terminal
  | .work i _ => ∀ c ∈ s.at i .submitted, ∀ st ∈ statuses s.handler c.id, ¬ st.Terminal
  | .answer i (.ok _) _ => ∀ c ∈ s.at i .working, statuses s.handler c.id ≠ some .cancelled
  | _ => True

instance (s : State) : DecidablePred (Permitted s)
  | .submit i _ => inferInstanceAs (Decidable
      (∀ c ∈ s.at i .created, ∀ st ∈ statuses s.handler c.id, ¬ st.Terminal))
  | .work i _ => inferInstanceAs (Decidable
      (∀ c ∈ s.at i .submitted, ∀ st ∈ statuses s.handler c.id, ¬ st.Terminal))
  | .answer i (.ok _) _ => inferInstanceAs (Decidable
      (∀ c ∈ s.at i .working, statuses s.handler c.id ≠ some .cancelled))
  | .answer _ (.error _) _ | .send _ _ | .get _ | .cancel _ _ => inferInstanceAs (Decidable True)

end Model

section Statuses

theorem statuses_insert (h : Handler) (id : Bytes) (task : A2aTask) :
    statuses { h with tasks := h.tasks.insert id task } =
      Function.update (statuses h) id (some task.status) := by
  funext id'
  by_cases hid : id' = id
  · subst hid
    rw [Function.update_self, statuses, Map.get_insert_self]
    rfl
  · rw [Function.update_of_ne hid, statuses, statuses, Map.get_insert_other hid]

theorem statuses_put (h : Handler) (task : A2aTask) :
    statuses (h.put task) = Function.update (statuses h) task.id (some task.status) :=
  statuses_insert h task.id task

theorem statuses_setWorking (h : Handler) (id stamp : Bytes) :
    statuses (h.setWorking id stamp) = Function.update (statuses h) id (some .working) :=
  statuses_insert h id _

/-- An update gives a task that is there another status. -/
theorem statuses_update (h : Handler) (id : Bytes) {f : A2aTask → A2aTask} {st : A2aTaskStatus}
    (hf : ∀ task, (f task).status = st) :
    statuses (h.update id f) =
      Function.update (statuses h) id ((statuses h id).map fun _ => st) := by
  cases hg : h.tasks.get id with
  | none =>
    have hnone : statuses h id = none := by rw [statuses, hg, Option.map_none]
    rw [Handler.update, hg, hnone, Option.map_none, ← hnone, Function.update_eq_self]
  | some task =>
    have hsome : statuses h id = some task.status := by rw [statuses, hg, Option.map_some]
    rw [Handler.update, hg, hsome]
    exact (statuses_insert h id (f task)).trans (by rw [hf, Option.map_some])

theorem statuses_complete (h : Handler) (id result stamp : Bytes) :
    statuses (h.complete id result stamp) =
      Function.update (statuses h) id ((statuses h id).map fun _ => .completed) :=
  statuses_update h id fun _ => rfl

/-- A cancel leaves the statuses alone, or it turns one that is not terminal. -/
theorem taskCancel_cases (params : Json) (stamp : Bytes) (h : Handler) :
    (h.taskCancel params stamp).1.contains (bytes "status") = false ∧
        (h.taskCancel params stamp).2 = h ∨
      ∃ id st, requestedId params = some id ∧ statuses h id = some st ∧ ¬ st.Terminal ∧
        statuses (h.taskCancel params stamp).2 =
          Function.update (statuses h) id (some .cancelled) := by
  unfold Handler.taskCancel
  cases hr : requestedId params with
  | none => exact .inl ⟨rfl, rfl⟩
  | some id =>
    dsimp only
    cases hg : h.tasks.get id with
    | none => exact .inl ⟨rfl, rfl⟩
    | some task =>
      dsimp only
      have hst : statuses h id = some task.status := by rw [statuses, hg, Option.map_some]
      by_cases ht : task.status.Terminal
      · rw [if_pos ht]
        exact .inl ⟨rfl, rfl⟩
      · rw [if_neg ht]
        refine .inr ⟨id, task.status, rfl, hst, ht, ?_⟩
        have hset : ∀ task : A2aTask,
            { task with status := .cancelled, updatedAt := stamp }.status = .cancelled :=
          fun _ => rfl
        rw [statuses_update h id hset, hst, Option.map_some]

theorem taskGet_status {h : Handler} {params : Json} {id : Bytes} {st : A2aTaskStatus}
    (hr : requestedId params = some id) (hst : statuses h id = some st) :
    (h.taskGet params).member? (bytes "status") = some (.str st.text) := by
  obtain ⟨task, hg, rfl⟩ := Option.map_eq_some_iff.mp hst
  rw [Handler.taskGet, hr]
  dsimp only
  rw [hg]
  rfl

/-- An update keeps the tasks that have ended if it keeps its own. -/
theorem ended_update {f : Bytes → Option A2aTaskStatus} {id : Bytes} {o : Option A2aTaskStatus} :
    (∀ i : Bytes × A2aTaskStatus, i.2.Terminal ∧ f i.1 = some i.2 →
        i.2.Terminal ∧ Function.update f id o i.1 = some i.2) ↔
      ∀ st ∈ f id, st.Terminal → o = some st := by
  constructor
  · intro h st hst ht
    have hkept := (h (id, st) ⟨ht, hst⟩).2
    rwa [Function.update_self] at hkept
  · rintro h ⟨id', st⟩ ⟨ht, hst⟩
    refine ⟨ht, ?_⟩
    by_cases hid : id' = id
    · subst hid
      rw [Function.update_self]
      exact h st hst ht
    · rw [Function.update_of_ne hid]
      exact hst

theorem open_iff {o : Option A2aTaskStatus} {st : A2aTaskStatus} (hst : ¬ st.Terminal) :
    (∀ st' ∈ o, st'.Terminal → some st = some st') ↔ ∀ st' ∈ o, ¬ st'.Terminal := by
  apply forall₂_congr
  intro st' _
  constructor
  · intro h ht
    obtain rfl := Option.some.inj (h ht)
    exact hst ht
  · exact fun h ht => absurd ht h

end Statuses

section Steps

/-- No task fails. -/
def NoneFailed (s : State) : Prop := ∀ id, statuses s.handler id ≠ some .failed

theorem complete_iff {o : Option A2aTaskStatus} (hn : o ≠ some .failed) :
    (∀ st ∈ o, st.Terminal → (o.map fun _ => A2aTaskStatus.completed) = some st) ↔
      o ≠ some .cancelled := by
  cases o with
  | none => simp
  | some st => cases st <;> simp_all [A2aTaskStatus.Terminal]

/-- What a step does to the statuses: it gives one task a status, which is the one it has if the
task has ended and the step is permitted. -/
theorem step_effect {s t : State} {e : Event} (hn : NoneFailed s) (h : step s e = some t) :
    ∃ id o, statuses t.handler = Function.update (statuses s.handler) id o ∧ o ≠ some .failed ∧
      ((∀ st ∈ statuses s.handler id, st.Terminal → o = some st) ↔ Permitted s e) := by
  have unchanged : statuses t.handler = statuses s.handler → Permitted s e →
      ∃ id o, statuses t.handler = Function.update (statuses s.handler) id o ∧ o ≠ some .failed ∧
        ((∀ st ∈ statuses s.handler id, st.Terminal → o = some st) ↔ Permitted s e) := by
    intro hst hp
    refine ⟨[], statuses s.handler [], ?_, hn [], iff_of_true (fun st hst _ => hst) hp⟩
    rw [hst, Function.update_eq_self]
  cases e with
  | send params millis =>
    rw [step] at h
    split at h
    · obtain rfl := Option.some.inj h
      exact unchanged rfl trivial
    · obtain rfl := Option.some.inj h
      exact unchanged rfl trivial
  | submit i stamp =>
    obtain ⟨c, hc, rfl⟩ := Option.map_eq_some_iff.mp h
    refine ⟨c.id, some .submitted, statuses_put _ _, by simp, ?_⟩
    rw [open_iff (by decide), Permitted, hc]
    simp
  | work i stamp =>
    obtain ⟨c, hc, rfl⟩ := Option.map_eq_some_iff.mp h
    refine ⟨c.id, some .working, statuses_setWorking _ _ _, by simp, ?_⟩
    rw [open_iff (by decide), Permitted, hc]
    simp
  | answer i result stamp =>
    cases result with
    | error e =>
      obtain ⟨c, hc, rfl⟩ := Option.map_eq_some_iff.mp h
      exact unchanged rfl trivial
    | ok result =>
      obtain ⟨c, hc, rfl⟩ := Option.map_eq_some_iff.mp h
      refine ⟨c.id, _, statuses_complete _ _ _ _, ?_, ?_⟩
      · intro hfailed
        obtain ⟨_, -, hst⟩ := Option.map_eq_some_iff.mp hfailed
        cases hst
      · rw [complete_iff (hn c.id), Permitted, hc]
        simp
  | get params =>
    obtain rfl := Option.some.inj h
    exact unchanged rfl trivial
  | cancel params stamp =>
    obtain rfl := Option.some.inj h
    rcases taskCancel_cases params stamp s.handler with ⟨-, hsame⟩ | ⟨id, st, -, hst, ht, hu⟩
    · exact unchanged (congrArg statuses hsame) trivial
    · refine ⟨id, some .cancelled, hu, by simp, iff_of_true ?_ trivial⟩
      intro st' hst' ht'
      rw [hst] at hst'
      obtain rfl := Option.some.inj hst'
      exact absurd ht' ht

theorem noneFailed_step {s t : State} {e : Event} (hn : NoneFailed s) (h : a2a.Step s e t) :
    NoneFailed t := by
  obtain ⟨id, o, hu, ho, -⟩ := step_effect hn h
  intro id'
  rw [hu]
  by_cases hid : id' = id
  · subst hid
    rwa [Function.update_self]
  · rw [Function.update_of_ne hid]
    exact hn id'

theorem noneFailed_init {s : State} (h : a2a.Init s) : NoneFailed s := by
  intro id
  rw [statuses, Map.get, h.1]
  simp

/-- A step keeps all tasks that have ended exactly if it is permitted. -/
theorem ended_step {s t : State} {e : Event} (hn : NoneFailed s) (h : a2a.Step s e t) :
    (∀ i, Ended i s → Ended i t) ↔ Permitted s e := by
  obtain ⟨id, o, hu, -, hp⟩ := step_effect hn h
  rw [← hp, ← ended_update]
  apply forall_congr'
  intro i
  rw [Ended, Ended, hu]

end Steps

section Runs

theorem settled_iff {tr : List (State × Event)} {s : State} (h : Run a2a tr s) :
    Settled tr s ↔ ∀ x ∈ tr, Permitted x.1 x.2 :=
  h.lasting_iff (J := NoneFailed) (fun _ => noneFailed_init) (fun _ _ _ => noneFailed_step)
    fun _ _ _ => ended_step

theorem staysCancelled_of_permitted {tr : List (State × Event)} {s : State} (h : Run a2a tr s)
    (hp : ∀ x ∈ tr, Permitted x.1 x.2) : StaysCancelled tr := by
  rintro tr₁ u params stamp tr₂ rfl hok y hy params' hget hid
  rcases taskCancel_cases params stamp u.handler with ⟨hno, -⟩ | ⟨id, st, hr, -, -, hu⟩
  · rw [hno] at hok
    cases hok
  have hlater := h.since (I := fun t => NoneFailed t ∧ Ended (id, .cancelled) t) (P := Permitted)
    (by
      intro t hr ht
      have hn := hr.invariant (fun _ => noneFailed_init) fun _ _ _ => noneFailed_step
      refine ⟨noneFailed_step hn ht, .inr (.inr rfl), ?_⟩
      obtain rfl := Option.some.inj ht
      change statuses (u.handler.taskCancel params stamp).2 id = _
      rw [hu, Function.update_self])
    (fun t e t' hI hp ht => ⟨noneFailed_step hI.1 ht, (ended_step hI.1 ht).mpr hp _ hI.2⟩)
    fun z hz => hp z (by simp [hz])
  have hst := (hlater.2 y hy).2.2
  have hne : A2aTaskStatus.cancelled.text ≠ A2aTaskStatus.completed.text := by decide
  rw [taskGet_status (hid.trans hr) hst]
  simpa using hne

/-- In a run the ended tasks stay as they are, and cancelled ones are never reported as completed,
exactly if no `tasks/send` writes to a task that has ended before. -/
theorem lifecycle_iff {tr : List (State × Event)} {s : State} (h : Run a2a tr s) :
    (Settled tr s ∧ StaysCancelled tr) ↔ ∀ x ∈ tr, Permitted x.1 x.2 := by
  constructor
  · exact fun hs => (settled_iff h).mp hs.1
  · exact fun hp => ⟨(settled_iff h).mpr hp, staysCancelled_of_permitted h hp⟩

end Runs

namespace Counterexample

def message (text : String) : Json := .object [(bytes "message", .object [(bytes "text",
  .str (bytes text))])]

def task (id : String) : Json := .object [(bytes "id", .str (bytes id))]

theorem step_some (s : State) (e : Event) (t : State) (h : step s e = some t) : a2a.Step s e t := h

theorem init : a2a.Init {} := ⟨rfl, rfl⟩

/-- The task is cancelled while the agent works on it, and is completed after that. -/
theorem completed_after_cancel : ∃ tr s, Run a2a tr s ∧ ¬ (Settled tr s ∧ StaysCancelled tr) := by
  obtain ⟨tr, s, h, hp⟩ := Run.of_execute step_some init
    [.send (message "hi") 10, .submit 0 [], .work 0 [], .cancel (task "a2a-a-0") [],
      .answer 0 (.ok (bytes "hello")) [], .get (task "a2a-a-0")]
    (fun tr _ => decide (¬ ∀ x ∈ tr, Permitted x.1 x.2)) (by decide +kernel)
  exact ⟨tr, s, h, fun hs => of_decide_eq_true hp ((settled_iff h).mp hs.1)⟩

/-- A cancel that comes before the first section, and another that comes after the last one. -/
theorem cancelled_in_time : ∃ tr s, Run a2a tr s ∧ tr.length = 7 ∧
    Settled tr s ∧ StaysCancelled tr := by
  obtain ⟨tr, s, h, hp⟩ := Run.of_execute step_some init
    [.send (message "hi") 10, .cancel (task "a2a-a-0") [], .submit 0 [], .work 0 [],
      .answer 0 (.ok (bytes "hello")) [], .cancel (task "a2a-a-0") [], .get (task "a2a-a-0")]
    (fun tr _ => decide (tr.length = 7 ∧ ∀ x ∈ tr, Permitted x.1 x.2)) (by decide +kernel)
  obtain ⟨hl, hp⟩ := of_decide_eq_true hp
  exact ⟨tr, s, h, hl, (lifecycle_iff h).mpr hp⟩

end Counterexample

end A2aLifecycle
