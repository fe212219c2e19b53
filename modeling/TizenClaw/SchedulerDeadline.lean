import TizenClaw.TaskScheduler

/-! The deadline of the scheduler's wait against the instants of the active tasks. -/
namespace SchedulerDeadline

open ByteString OrderedMap TaskSchedule TaskScheduler TransitionSystem

variable {cal : Calendar} {s t : State} {e : Event} {now deadline : Time}

/-- No active task is due before the deadline. -/
def Before (deadline : Time) (tasks : Tasks) : Prop :=
  ∀ id, ∀ task ∈ tasks.get id, task.status = .active → deadline ≤ task.nextRun

/-- A scheduler that waits does not sleep past the instant of an active task. -/
def Punctual (s : State) : Prop := ∀ deadline, s.scheduler = .waiting deadline →
  Before deadline s.tasks

/-- An instant a pass may ignore: it is a day ahead, or another task is due before it. -/
def Covered (now : Time) (tasks : Tasks) (instant : Time) : Prop :=
  now + hours 24 ≤ instant ∨
    ∃ x ∈ tasks.entries, x.2.status = .active ∧ ¬ Due now x.2 ∧ x.2.nextRun ≤ instant

instance (now : Time) (tasks : Tasks) (instant : Time) : Decidable (Covered now tasks instant) :=
  inferInstanceAs (Decidable (_ ∨ _))

/-- The next instants of the tasks a pass found due are covered. -/
def Covers (cal : Calendar) (s : State) (now : Time) (clock : Bytes → Time) : Prop :=
  ∀ x ∈ s.tasks.entries, Due now x.2 → x.2.scheduleType ≠ some .once →
    Covered now s.tasks (nextRun cal x.2 (clock x.1))

instance (cal : Calendar) (s : State) (now : Time) (clock : Bytes → Time) :
    Decidable (Covers cal s now clock) := by
  unfold Covers
  infer_instance

def deadlineOf : SchedulerPhase → Option Time
  | .waiting deadline => some deadline
  | .scanning => none

/-- No execution holds an active task that is due before the deadline of the wait. -/
def InTime (s : State) : Prop :=
  ∀ deadline ∈ deadlineOf s.scheduler, ∀ copy ∈ held s.executor, copy.status = .active →
    deadline ≤ copy.nextRun

instance (s : State) : Decidable (InTime s) := by
  unfold InTime
  infer_instance

/-- Each pass covers the instants it computes, and what is written back is in time. -/
def Respects (cal : Calendar) (s : State) : Event → Prop
  | .pass now clock _ => Covers cal s now clock
  | .writeBack _ => InTime s
  | _ => True

instance (cal : Calendar) (s : State) : (e : Event) → Decidable (Respects cal s e)
  | .pass now clock _ => inferInstanceAs (Decidable (Covers cal s now clock))
  | .writeBack _ => inferInstanceAs (Decidable (InTime s))
  | .wake | .dequeue | .copy | .start | .finish .. | .create .. | .cancel .. => isTrue trivial

section Earliest

theorem foldl_min_le {l : List Time} {b x : Time} :
    l.foldl min b ≤ x ↔ b ≤ x ∨ ∃ a ∈ l, a ≤ x := by
  induction l generalizing b with
  | nil => simp
  | cons a l ih => rw [List.foldl_cons, ih, min_le_iff, List.exists_mem_cons_iff, or_assoc]

theorem earliest_le {tasks : Tasks} {instant : Time} :
    earliest now tasks ≤ instant ↔ Covered now tasks instant := by
  unfold earliest Covered
  rw [foldl_min_le]
  apply or_congr Iff.rfl
  constructor
  · rintro ⟨a, ha, hle⟩
    obtain ⟨x, hx, rfl⟩ := List.mem_map.mp ha
    rw [List.mem_filter, decide_eq_true_eq] at hx
    exact ⟨x, hx.1, hx.2.1, hx.2.2, hle⟩
  · rintro ⟨x, hx, hs, hd, hle⟩
    refine ⟨x.2.nextRun, List.mem_map_of_mem ?_, hle⟩
    rw [List.mem_filter, decide_eq_true_eq]
    exact ⟨hx, hs, hd⟩

/-- The deadline of a pass holds exactly if the recomputed instants are covered. -/
theorem pass_before {clock : Bytes → Time} :
    Before (earliest now s.tasks) (s.tasks.mapValues (passTask cal now clock)) ↔
      Covers cal s now clock := by
  constructor
  · intro h x hx hd ho
    have hg : (s.tasks.mapValues (passTask cal now clock)).get x.1 =
        some (passTask cal now clock x.1 x.2) := by
      rw [Map.get_mapValues, Map.mem_iff_get.mp hx]
      rfl
    have hle := h x.1 _ hg
    rw [passTask_repeating hd ho] at hle
    exact earliest_le.mp (hle hd.1)
  · intro h id task ht ha
    rw [Map.get_mapValues] at ht
    obtain ⟨task', hg, rfl⟩ := Option.map_eq_some_iff.mp ht
    by_cases hd : Due now task'
    · by_cases ho : task'.scheduleType = some .once
      · rw [passTask_once hd ho] at ha
        cases ha
      · rw [passTask_repeating hd ho]
        exact earliest_le.mpr (h (id, task') (Map.mem_iff_get.mpr hg) hd ho)
    · rw [passTask_of_not_due hd] at ha ⊢
      apply earliest_le.mpr
      exact .inr ⟨(id, task'), Map.mem_iff_get.mpr hg, ha, hd, le_refl _⟩

end Earliest

theorem before_insert {tasks : Tasks} {id : Bytes} {task : ScheduledTask}
    (h : Before deadline tasks) (ht : task.status = .active → deadline ≤ task.nextRun) :
    Before deadline (tasks.insert id task) := by
  intro id' task' hg ha
  by_cases hid : id' = id
  · rw [hid, Map.get_insert_self] at hg
    obtain rfl := Option.some.inj hg
    exact ht ha
  · rw [Map.get_insert_other hid] at hg
    exact h id' task' hg ha

theorem mem_deadlineOf {phase : SchedulerPhase} :
    deadline ∈ deadlineOf phase ↔ phase = .waiting deadline := by
  cases phase with
  | scanning => exact iff_of_false nofun nofun
  | waiting d => simp [deadlineOf]

theorem punctual_step (hs : Punctual s) (hh : ∀ copy ∈ held s.executor, s.tasks.contains copy.id)
    (h : step cal s e = some t) : Respects cal s e ↔ Punctual t := by
  have quiet : ∀ u : State, u.tasks = s.tasks → u.scheduler = s.scheduler → Punctual u := by
    intro u ht hd deadline hw
    rw [ht]
    exact hs deadline (hd ▸ hw)
  cases step_cases h with
  | pass =>
    constructor
    · rintro hr deadline hw
      obtain rfl := SchedulerPhase.waiting.inj hw
      exact pass_before.mpr hr
    · intro hp
      exact pass_before.mp (hp _ rfl)
  | wake | create => exact iff_of_true trivial nofun
  | @writeBack _ copy hex =>
    have hheld : copy ∈ held s.executor := by
      rw [hex]
      rfl
    constructor
    · intro hr deadline hw
      have hd : deadline ∈ deadlineOf s.scheduler := mem_deadlineOf.mpr hw
      exact before_insert (hs deadline hw) (hr deadline hd copy hheld)
    · intro hp deadline hd copy' hc ha
      rw [hex] at hc
      obtain rfl := Option.some.inj hc
      exact hp deadline (mem_deadlineOf.mp hd) copy.id copy (Map.get_insert_self _ _ _) ha
  | discard hex hn => exact absurd (hh _ (by rw [hex]; rfl)) hn
  | cancel =>
    apply iff_of_true trivial
    intro deadline hw
    exact before_insert (hs deadline hw) nofun
  | _ => exact iff_of_true trivial (quiet _ rfl rfl)

/-- A run never oversleeps exactly if all its steps meet the condition. -/
theorem punctual_iff {tr : List (State × Event)} (h : Run (scheduler cal) tr s) :
    (∀ x ∈ tr, Punctual x.1) ∧ Punctual s ↔ ∀ x ∈ tr, Respects cal x.1 x.2 := by
  induction h with
  | @init s h =>
    have hp : Punctual s := by
      intro deadline hw
      rw [h.2.2.2] at hw
      cases hw
    simp [hp]
  | @step tr s e t hr hs ih =>
    constructor
    · rintro ⟨htr, ht⟩ x hx
      have hs' : Punctual s := htr (s, e) (by simp)
      rcases List.mem_append.mp hx with hx | hx
      · exact ih.mp ⟨fun y hy => htr y (List.mem_append_left _ hy), hs'⟩ x hx
      · obtain rfl := List.mem_singleton.mp hx
        exact (punctual_step hs' (run_held_stored hr) hs).mpr ht
    · intro hp
      obtain ⟨htr, hs'⟩ := ih.mpr fun y hy => hp y (List.mem_append_left _ hy)
      constructor
      · intro x hx
        rcases List.mem_append.mp hx with hx | hx
        · exact htr x hx
        · obtain rfl := List.mem_singleton.mp hx
          exact hs'
      · exact (punctual_step hs' (run_held_stored hr) hs).mp (hp (s, e) (by simp))

namespace Counterexample

open TaskScheduler.Sample

/-- A task that fires every ten seconds, and a wait of a day after its first firing. -/
theorem interval_task_overslept :
    ∃ tr s, Run (scheduler utc) tr s ∧ s.scheduler = .waiting (second 110 + hours 24) ∧
      (∃ task ∈ s.tasks.get (taskId 0x4d5e), task.status = .active ∧ task.nextRun = second 120) ∧
      ¬ Punctual s := by
  obtain ⟨tr, u, tr₂, s, hr, hp⟩ := exists_run utc start (start_init utc)
    [createTask 0x4d5e "interval 10s" 100] (passAt 110) []
    (fun _ _ _ s => s.scheduler = .waiting (second 110 + hours 24) ∧
      ∃ task ∈ s.tasks.get (taskId 0x4d5e), task.status = .active ∧ task.nextRun = second 120)
    (by decide)
  obtain ⟨hw, task, ht, ha, hn⟩ := of_decide_eq_true hp
  refine ⟨_, s, hr, hw, ⟨task, ht, ha, hn⟩, ?_⟩
  intro hpun
  have hle := hpun _ hw _ task ht ha
  rw [hn] at hle
  exact absurd hle (by decide)

/-- A pass that finds no task due waits for the next one. -/
theorem pending_task_punctual :
    ∃ tr s, Run (scheduler utc) tr s ∧ s.scheduler = .waiting (second 110) ∧
      ((∀ x ∈ tr, Punctual x.1) ∧ Punctual s) := by
  obtain ⟨tr, u, tr₂, s, hr, hp⟩ := exists_run utc start (start_init utc)
    [createTask 0x4d5e "interval 10s" 100] (passAt 105) []
    (fun tr u tr₂ s => s.scheduler = .waiting (second 110) ∧
      ∀ x ∈ tr ++ (u, passAt 105) :: tr₂, Respects utc x.1 x.2) (by decide)
  have hp := of_decide_eq_true hp
  exact ⟨_, s, hr, hp.1, (punctual_iff hr).mpr hp.2⟩

end Counterexample

end SchedulerDeadline
