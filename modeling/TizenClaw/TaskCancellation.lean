import TizenClaw.TaskScheduler

/-! Cancelled tasks stay cancelled unless an execution still holds a copy of the task. -/
namespace TaskCancellation

open ByteString OrderedMap TaskSchedule TaskScheduler TransitionSystem

variable {cal : Calendar} {s t : State} {e : Event} {id : Bytes}

/-- The task is cancelled in memory and in its file. -/
structure Cancelled (id : Bytes) (s : State) : Prop where
  stored : ∃ task ∈ s.tasks.get id, task.status = .cancelled
  saved : ∃ task ∈ s.files id, task.status = .cancelled

instance (id : Bytes) (s : State) : Decidable (Cancelled id s) :=
  decidable_of_iff ((∃ task ∈ s.tasks.get id, task.status = .cancelled) ∧
    ∃ task ∈ s.files id, task.status = .cancelled) ⟨fun h => ⟨h.1, h.2⟩, fun h => ⟨h.1, h.2⟩⟩

/-- The cancellation is saved, and no execution holds a copy of the task. -/
def Settling (s : State) (id : Bytes) (written : Bool) : Prop :=
  (written ∨ ∃ task ∈ s.files id, task.status = .cancelled) ∧
    ∀ task ∈ held s.executor, task.id ≠ id

instance (s : State) (id : Bytes) (written : Bool) : Decidable (Settling s id written) := by
  unfold Settling
  infer_instance

/-- Each cancellation that finds its task settles it; a new task does not take the id of a
cancelled one. -/
def Respects (cal : Calendar) (s : State) : Event → Prop
  | .cancel id written => s.tasks.contains id → Settling s id written
  | .create id expr prompt session createdAt now _ =>
      (created cal id expr prompt session createdAt now).isSome →
        ¬ ∃ task ∈ s.tasks.get id, task.status = .cancelled
  | _ => True

instance (cal : Calendar) (s : State) : (e : Event) → Decidable (Respects cal s e)
  | .cancel id written => inferInstanceAs (Decidable (_ → Settling s id written))
  | .create id .. => inferInstanceAs
      (Decidable (_ → ¬ ∃ task ∈ s.tasks.get id, task.status = .cancelled))
  | .pass .. | .wake | .dequeue | .copy | .start | .finish .. | .writeBack _ => isTrue trivial

/-- What a cancellation under `Respects` establishes and the later steps keep. -/
structure Settled (id : Bytes) (s : State) : Prop where
  keyed : Keyed s.tasks
  cancelled : Cancelled id s
  released : ∀ task ∈ held s.executor, task.id ≠ id

theorem passTask_cancelled {now : Time} {clock : Bytes → Time} {task : ScheduledTask}
    (h : task.status = .cancelled) : passTask cal now clock id task = task := by
  apply passTask_of_not_due
  rintro ⟨ha, -⟩
  rw [h] at ha
  cases ha

theorem settled_stored (hs : Settled id s) (hr : Respects cal s e) (h : step cal s e = some t) :
    ∃ task ∈ t.tasks.get id, task.status = .cancelled := by
  obtain ⟨task, ht, hc⟩ := hs.cancelled.stored
  rcases step_get h id with ⟨he, -⟩ | ⟨_, _, _, -, he⟩ | ⟨_, copy, -, hex, hid, -, -⟩ |
    ⟨expr, prompt, session, createdAt, now, written, task', rfl, hcr, -⟩ |
    ⟨_, task', -, -, he⟩
  · exact ⟨task, he.trans ht, hc⟩
  · refine ⟨task, ?_, hc⟩
    rw [he, ht, Option.map_some, passTask_cancelled hc]
    rfl
  · have hheld : copy ∈ held s.executor := by
      rw [hex]
      rfl
    exact absurd hid (hs.released copy hheld)
  · have hsome : (created cal id expr prompt session createdAt now).isSome := by
      rw [hcr]
      rfl
    exact absurd ⟨task, ht, hc⟩ (hr hsome)
  · exact ⟨_, he, rfl⟩

theorem settled_released (hs : Settled id s) (h : step cal s e = some t) :
    ∀ task ∈ held t.executor, task.id ≠ id := by
  intro task ht
  rcases step_held h ht with ⟨task₀, ht₀, hc⟩ | ⟨-, id', -, hg, hn⟩
  · rw [hc.id]
    exact hs.released task₀ ht₀
  · intro hid
    obtain ⟨task', ht', hc⟩ := hs.cancelled.stored
    obtain rfl : id' = id := (hs.keyed id' task hg).symm.trans hid
    obtain rfl : task = task' := Option.some.inj (hg.symm.trans ht')
    exact hn hc

theorem settled_step (hs : Settled id s) (hr : Respects cal s e) (h : step cal s e = some t) :
    Settled id t := by
  have hst := settled_stored hs hr h
  refine ⟨step_keyed h hs.keyed, ⟨hst, ?_⟩, settled_released hs h⟩
  rcases step_files h hs.keyed id with hf | ⟨task, hf, hg⟩
  · rw [hf]
    exact hs.cancelled.saved
  · obtain ⟨task', ht', hc⟩ := hst
    obtain rfl : task = task' := Option.some.inj (hg.symm.trans ht')
    exact ⟨task, hf, hc⟩

theorem settled_cancel {written : Bool} (hk : Keyed s.tasks) (hf : s.tasks.contains id)
    (hr : Respects cal s (.cancel id written)) (h : step cal s (.cancel id written) = some t) :
    Settled id t := by
  obtain ⟨hw, hheld⟩ := hr hf
  refine ⟨step_keyed h hk, ?_, ?_⟩
  · cases step_cases h with
    | @cancel _ _ task ht =>
      obtain rfl := hk id task ht
      refine ⟨⟨_, Map.get_insert_self _ _ _, rfl⟩, ?_⟩
      unfold save
      cases written with
      | true => exact ⟨_, Function.update_self _ _ _, rfl⟩
      | false => exact hw.resolve_left Bool.false_ne_true
    | unknown ht =>
      unfold Map.contains at hf
      rw [ht] at hf
      cases hf
  · intro task ht
    rcases step_held h ht with ⟨task₀, ht₀, hc⟩ | ⟨he, -⟩
    · rw [hc.id]
      exact hheld task₀ ht₀
    · cases he

theorem cancelled_stays {tr₁ tr₂ : List (State × Event)} {u : State} {written : Bool}
    (h : Run (scheduler cal) (tr₁ ++ (u, .cancel id written) :: tr₂) s)
    (hf : u.tasks.contains id)
    (hr : ∀ x ∈ tr₁ ++ (u, .cancel id written) :: tr₂, Respects cal x.1 x.2) :
    Cancelled id s ∧ ∀ x ∈ tr₂, Cancelled id x.1 ∧ ¬ Starts id x := by
  obtain ⟨hs, htr⟩ := h.since (I := Settled id) (P := Respects cal)
    (fun t hu ht => settled_cancel (run_keyed hu) hf (hr (u, .cancel id written) (by simp)) ht)
    (fun s e t hI hp ht => settled_step hI hp ht)
    (fun y hy => hr y (by simp [hy]))
  refine ⟨hs.cancelled, fun x hx => ⟨(htr x hx).cancelled, ?_⟩⟩
  rintro ⟨-, task, ht, hid⟩
  exact (htr x hx).released task ht hid

namespace Counterexample

open TaskScheduler.Sample

/-- The cancellation lands while the executor holds its copy. -/
theorem cancelled_task_is_active_again :
    ∃ tr₁ u tr₂ s, Run (scheduler utc) (tr₁ ++ (u, .cancel (taskId 0x4d5e) true) :: tr₂) s ∧
      u.tasks.contains (taskId 0x4d5e) ∧ (∃ x ∈ tr₂, Starts (taskId 0x4d5e) x) ∧
      (∃ task ∈ s.tasks.get (taskId 0x4d5e), task.status = .active) ∧
      ∃ task ∈ s.files (taskId 0x4d5e), task.status = .active := by
  obtain ⟨tr₁, u, tr₂, s, hr, hp⟩ := exists_run utc start (start_init utc)
    [createTask 0x4d5e "interval 10s" 100, passAt 110, .dequeue, .copy]
    (.cancel (taskId 0x4d5e) true)
    [.start, finishAt 120, .writeBack true]
    (fun _ u tr₂ s => u.tasks.contains (taskId 0x4d5e) &&
      (tr₂.any fun x => Starts (taskId 0x4d5e) x) &&
      (∃ task ∈ s.tasks.get (taskId 0x4d5e), task.status = .active) &&
      ∃ task ∈ s.files (taskId 0x4d5e), task.status = .active) (by decide)
  simp only [Bool.and_eq_true, List.any_eq_true, decide_eq_true_eq] at hp
  exact ⟨tr₁, u, tr₂, s, hr, hp.1.1.1, hp.1.1.2, hp.1.2, hp.2⟩

/-- A cancellation before the executor copies the task. -/
theorem queued_task_stays_cancelled :
    ∃ tr₁ u tr₂ s, Run (scheduler utc) (tr₁ ++ (u, .cancel (taskId 0x4d5e) true) :: tr₂) s ∧
      (u.tasks.contains (taskId 0x4d5e) ∧
        ∀ x ∈ tr₁ ++ (u, .cancel (taskId 0x4d5e) true) :: tr₂, Respects utc x.1 x.2) ∧
      Cancelled (taskId 0x4d5e) s ∧ ∀ x ∈ tr₂, Cancelled (taskId 0x4d5e) x.1 ∧
        ¬ Starts (taskId 0x4d5e) x := by
  obtain ⟨tr₁, u, tr₂, s, hr, hp⟩ := exists_run utc start (start_init utc)
    [createTask 0x4d5e "interval 10s" 100, passAt 110, .dequeue]
    (.cancel (taskId 0x4d5e) true) [.copy, .wake, passAt 130]
    (fun tr₁ u tr₂ _ => u.tasks.contains (taskId 0x4d5e) &&
      (tr₁ ++ (u, .cancel (taskId 0x4d5e) true) :: tr₂).all fun x => Respects utc x.1 x.2)
    (by decide)
  simp only [Bool.and_eq_true, List.all_eq_true, decide_eq_true_eq] at hp
  exact ⟨tr₁, u, tr₂, s, hr, hp, cancelled_stays hr hp.1 hp.2⟩

end Counterexample

end TaskCancellation
