import TizenClaw.TaskScheduler

/-! Instants of repeating tasks: none fires twice while executions end before the next one. -/
namespace TaskFiring

open ByteString OrderedMap TaskSchedule TaskScheduler TransitionSystem

variable {cal : Calendar} {s t : State} {e : Event} {id : Bytes}

def Repeating (task : ScheduledTask) : Prop :=
  task.scheduleType = some .daily ∨ task.scheduleType = some .weekly ∨
    task.scheduleType = some .interval

instance (task : ScheduledTask) : Decidable (Repeating task) :=
  inferInstanceAs (Decidable (_ ∨ _ ∨ _))

theorem Repeating.not_once {task : ScheduledTask} (h : Repeating task) :
    task.scheduleType ≠ some .once := by
  intro ho
  rcases h with h | h | h
  · exact absurd (h.symm.trans ho) (by decide)
  · exact absurd (h.symm.trans ho) (by decide)
  · exact absurd (h.symm.trans ho) (by decide)

/-- The instants of repeating tasks that a step pushes, with the ids it pushes them under. -/
def fired (s : State) : Event → List (Bytes × Time)
  | .pass now _ _ => (s.tasks.entries.filter fun x => Due now x.2 ∧ Repeating x.2).map
      fun x => (x.1, x.2.nextRun)
  | _ => []

def firings (tr : List (State × Event)) : List (Bytes × Time) := tr.flatMap fun x => fired x.1 x.2

/-- No repeating task loses or moves back its next instant. -/
def Advances (s t : State) : Prop :=
  ∀ id, ∀ a ∈ s.tasks.get id, Repeating a → ∃ b ∈ t.tasks.get id, a.nextRun ≤ b.nextRun

/-- No execution holds a copy of a repeating task that the pass finds due, and the instant computed
for the task is a later one. -/
def MovesOn (cal : Calendar) (s : State) (now : Time) (clock : Bytes → Time) : Prop :=
  ∀ x ∈ s.tasks.entries, Due now x.2 → Repeating x.2 →
    (∀ copy ∈ held s.executor, copy.id ≠ x.1) ∧ x.2.nextRun < nextRun cal x.2 (clock x.1)

instance (cal : Calendar) (s : State) (now : Time) (clock : Bytes → Time) :
    Decidable (MovesOn cal s now clock) := by
  unfold MovesOn
  infer_instance

/-- Each pass moves its due tasks on, and new ids are fresh. -/
def Respects (cal : Calendar) (s : State) : Event → Prop
  | .pass now clock _ => MovesOn cal s now clock
  | e => Fresh cal s e

instance (cal : Calendar) (s : State) : (e : Event) → Decidable (Respects cal s e)
  | .pass now clock _ => inferInstanceAs (Decidable (MovesOn cal s now clock))
  | .create id expr prompt session createdAt now written =>
    inferInstanceAs (Decidable (Fresh cal s (.create id expr prompt session createdAt now written)))
  | .wake | .dequeue | .copy | .start | .finish .. | .writeBack _ | .cancel .. => isTrue trivial

theorem mem_fired {x : Time} : (id, x) ∈ fired s e ↔ ∃ now clock written task,
    e = .pass now clock written ∧ s.tasks.get id = some task ∧ Due now task ∧ Repeating task ∧
      task.nextRun = x := by
  constructor
  · intro h
    cases e with
    | pass now clock written =>
      obtain ⟨y, hy, he⟩ := List.mem_map.mp h
      rw [List.mem_filter, decide_eq_true_eq] at hy
      obtain ⟨rfl, rfl⟩ := Prod.mk.inj he
      exact ⟨now, clock, written, y.2, rfl, Map.mem_iff_get.mp hy.1, hy.2.1, hy.2.2, rfl⟩
    | _ => cases h
  · rintro ⟨now, clock, written, task, rfl, hg, hd, hr, rfl⟩
    apply List.mem_map.mpr
    refine ⟨(id, task), ?_, rfl⟩
    rw [List.mem_filter, decide_eq_true_eq]
    exact ⟨Map.mem_iff_get.mpr hg, hd, hr⟩

/-- What fires is what goes to the queue. -/
theorem fired_pushed {now : Time} {clock : Bytes → Time} {written : Bytes → Bool} {x : Time}
    (h : (id, x) ∈ fired s (.pass now clock written)) : id ∈ pushed now s.tasks := by
  obtain ⟨now, clock, written, task, he, hg, hd, -, -⟩ := mem_fired.mp h
  obtain ⟨rfl, -, -⟩ := Event.pass.inj he
  exact mem_pushed.mpr ⟨task, hg, hd⟩

theorem fired_nodup (s : State) (e : Event) : (fired s e).Nodup := by
  cases e with
  | pass now clock written =>
    apply List.Nodup.of_map Prod.fst
    unfold fired
    rw [List.map_map]
    exact (List.filter_sublist.map Prod.fst).nodup s.tasks.nodup
  | _ => exact List.nodup_nil

section PassTask

variable {now clock : Time}

theorem nextRun_of_not_repeating {task : ScheduledTask} (h : ¬ Repeating task) :
    nextRun cal task clock = task.nextRun := by
  unfold nextRun
  split
  · rename_i ht
    exact absurd (.inl ht) h
  · rename_i ht
    exact absurd (.inr (.inr ht)) h
  · rename_i ht
    exact absurd (.inr (.inl ht)) h
  · rfl
  · rfl

theorem passTask_nextRun {clock : Bytes → Time} {task : ScheduledTask}
    (h : ¬ (Due now task ∧ Repeating task)) :
    (passTask cal now clock id task).nextRun = task.nextRun := by
  by_cases hd : Due now task
  · by_cases ho : task.scheduleType = some .once
    · rw [passTask_once hd ho]
    · rw [passTask_repeating hd ho]
      exact nextRun_of_not_repeating fun hr => h ⟨hd, hr⟩
  · rw [passTask_of_not_due hd]

/-- An interval task moves on if its interval has not wrapped around and the clock was not set
back. -/
theorem interval_later {task : ScheduledTask} (hi : task.scheduleType = some .interval)
    (hp : 0 < task.intervalSeconds) (hc : task.nextRun ≤ clock) :
    task.nextRun < nextRun cal task clock := by
  have hn : nextRun cal task clock = clock + task.intervalSeconds * 10 ^ 9 := by
    simp only [nextRun, hi]
  rw [hn]
  have hpos : (0 : ℤ) < task.intervalSeconds * 10 ^ 9 := by positivity
  exact lt_of_le_of_lt hc (lt_add_of_pos_right clock hpos)

end PassTask

/-- A held copy has the type and the next instant of the stored task. -/
def Mirrored (s : State) : Prop :=
  ∀ copy ∈ held s.executor, ∃ task ∈ s.tasks.get copy.id,
    task.scheduleType = copy.scheduleType ∧ task.nextRun = copy.nextRun

theorem stored_step (hm : Mirrored s) (hp : Respects cal s e) (h : step cal s e = some t)
    {a : ScheduledTask} (ha : a ∈ s.tasks.get id) :
    ∃ b ∈ t.tasks.get id, b.scheduleType = a.scheduleType ∧
      ((id, a.nextRun) ∈ fired s e ∧ a.nextRun < b.nextRun ∨
        (id, a.nextRun) ∉ fired s e ∧ b.nextRun = a.nextRun) := by
  have quiet : (∀ now clock written, e ≠ .pass now clock written) →
      (id, a.nextRun) ∉ fired s e := by
    intro hne hf
    obtain ⟨now, clock, written, -, he, -⟩ := mem_fired.mp hf
    exact hne now clock written he
  rcases step_get h id with ⟨he, hne⟩ | ⟨now, clock, written, rfl, he⟩ |
    ⟨_, copy, rfl, hex, rfl, -, he⟩ |
    ⟨expr, prompt, session, createdAt, now, written, task, rfl, hcr, -⟩ |
    ⟨_, task, rfl, hs, he⟩
  · exact ⟨a, he.trans ha, rfl, .inr ⟨quiet hne, rfl⟩⟩
  · refine ⟨passTask cal now clock id a, ?_, passTask_scheduleType id a, ?_⟩
    · rw [he, ha]
      rfl
    · by_cases hf : Due now a ∧ Repeating a
      · left
        refine ⟨mem_fired.mpr ⟨now, clock, written, a, rfl, ha, hf.1, hf.2, rfl⟩, ?_⟩
        rw [passTask_repeating hf.1 hf.2.not_once]
        exact (hp (id, a) (Map.mem_iff_get.mpr ha) hf.1 hf.2).2
      · right
        refine ⟨?_, passTask_nextRun hf⟩
        intro hx
        obtain ⟨now', clock', written', task, he', hg, hd, hr, -⟩ := mem_fired.mp hx
        obtain ⟨rfl, -, -⟩ := Event.pass.inj he'
        obtain rfl : a = task := Option.some.inj (ha.symm.trans hg)
        exact hf ⟨hd, hr⟩
  · have hheld : copy ∈ held s.executor := by
      rw [hex]
      rfl
    obtain ⟨task, ht, htype, hnext⟩ := hm copy hheld
    obtain rfl : a = task := Option.some.inj (ha.symm.trans ht)
    exact ⟨copy, he, htype.symm, .inr ⟨quiet nofun, hnext.symm⟩⟩
  · have hsome : (created cal id expr prompt session createdAt now).isSome := by
      rw [hcr]
      rfl
    apply absurd _ (hp hsome)
    unfold Map.contains
    rw [ha]
    rfl
  · obtain rfl : a = task := Option.some.inj (ha.symm.trans hs)
    exact ⟨_, he, rfl, .inr ⟨quiet nofun, rfl⟩⟩

theorem mirrored_step (hk : Keyed s.tasks) (hm : Mirrored s) (hp : Respects cal s e)
    (h : step cal s e = some t) : Mirrored t := by
  intro copy hc
  rcases step_held h hc with ⟨copy₀, hc₀, hcont⟩ | ⟨rfl, id, -, hg, -⟩
  · obtain ⟨a, ha, htype, hnext⟩ := hm copy₀ hc₀
    obtain ⟨b, hb, hbtype, hb'⟩ := stored_step hm hp h ha
    rw [hcont.id, hcont.scheduleType, hcont.nextRun]
    refine ⟨b, hb, hbtype.trans htype, ?_⟩
    rcases hb' with ⟨hf, -⟩ | ⟨-, he⟩
    · -- the pass would have fired a task that an execution holds
      obtain ⟨now, clock, written, task, rfl, hg, hd, hr, -⟩ := mem_fired.mp hf
      exact absurd rfl ((hp (copy₀.id, task) (Map.mem_iff_get.mpr hg) hd hr).1 copy₀ hc₀)
    · exact he.trans hnext
  · obtain rfl := hk id copy hg
    obtain ⟨b, hb, hbtype, hb'⟩ := stored_step hm hp h hg
    refine ⟨b, hb, hbtype, ?_⟩
    rcases hb' with ⟨hf, -⟩ | ⟨-, he⟩
    · cases hf
    · exact he

/-- All instants that fired are before the next one of their task. -/
structure Settled (tr : List (State × Event)) (s : State) : Prop where
  keyed : Keyed s.tasks
  mirrored : Mirrored s
  past : ∀ x ∈ firings tr, ∃ task ∈ s.tasks.get x.1, x.2 < task.nextRun
  nodup : (firings tr).Nodup

theorem firings_snoc (tr : List (State × Event)) (s : State) (e : Event) :
    firings (tr ++ [(s, e)]) = firings tr ++ fired s e := by
  simp [firings]

theorem settled_step {tr : List (State × Event)} (hs : Settled tr s) (hp : Respects cal s e)
    (h : step cal s e = some t) : Settled (tr ++ [(s, e)]) t := by
  refine ⟨step_keyed h hs.keyed, mirrored_step hs.keyed hs.mirrored hp h, ?_, ?_⟩
  · intro x hx
    rw [firings_snoc, List.mem_append] at hx
    rcases hx with hx | hx
    · obtain ⟨a, ha, hlt⟩ := hs.past x hx
      obtain ⟨b, hb, -, hb'⟩ := stored_step hs.mirrored hp h ha
      refine ⟨b, hb, ?_⟩
      rcases hb' with ⟨-, hn⟩ | ⟨-, hn⟩
      · exact hlt.trans hn
      · rw [hn]
        exact hlt
    · obtain ⟨now, clock, written, a, rfl, ha, hd, hr, hn⟩ := mem_fired.mp hx
      obtain ⟨b, hb, -, hb'⟩ := stored_step hs.mirrored hp h ha
      refine ⟨b, hb, ?_⟩
      rw [← hn]
      rcases hb' with ⟨-, hlt⟩ | ⟨hf, -⟩
      · exact hlt
      · rw [hn] at hf
        exact absurd hx hf
  · rw [firings_snoc]
    apply hs.nodup.append (fired_nodup s e)
    intro x hx hx'
    obtain ⟨a, ha, hlt⟩ := hs.past x hx
    obtain ⟨_, _, _, task, -, hg, -, -, hn⟩ := mem_fired.mp hx'
    obtain rfl : a = task := Option.some.inj (ha.symm.trans hg)
    exact absurd hn.symm hlt.ne

theorem run_settled {tr : List (State × Event)} (h : Run (scheduler cal) tr s)
    (hp : ∀ x ∈ tr, Respects cal x.1 x.2) : Settled tr s := by
  induction h with
  | init h =>
    refine ⟨h.1, ?_, by simp [firings], List.nodup_nil⟩
    intro copy hc
    rw [h.2.2.1] at hc
    cases hc
  | step _ h ih =>
    apply settled_step (ih fun x hx => hp x (List.mem_append_left _ hx)) _ h
    exact hp _ (List.mem_append_right _ (List.mem_singleton_self _))

theorem no_repeated_firing {tr : List (State × Event)} (h : Run (scheduler cal) tr s)
    (hp : ∀ x ∈ tr, Respects cal x.1 x.2) :
    (firings tr).Nodup ∧ ∀ x ∈ tr, ∀ t, step cal x.1 x.2 = some t → Advances x.1 t := by
  refine ⟨(run_settled h hp).nodup, ?_⟩
  intro x hx t ht id a ha _
  obtain ⟨tr₁, tr₂, _, rfl, hr, -⟩ := h.split hx
  have hs := run_settled hr fun y hy => hp y (List.mem_append_left _ hy)
  obtain ⟨b, hb, -, hb'⟩ := stored_step hs.mirrored (hp x hx) ht ha
  refine ⟨b, hb, ?_⟩
  rcases hb' with ⟨-, hlt⟩ | ⟨-, he⟩
  · exact hlt.le
  · exact he.ge

namespace Counterexample

open TaskScheduler.Sample

/-- Further tasks wake the scheduler at 120 and 130 seconds, and the execution of the first one
lasts from 110 to 125 seconds. -/
def overlapping : List Event :=
  [createTask 0x4d5e "interval 10s" 100, passAt 110, .dequeue, .copy, .start,
    createTask 0x5e6f "interval 1h" 120, passAt 120, finishAt 125, .writeBack true,
    createTask 0x6f70 "interval 1h" 130]

def movedBack (s t : State) : Bool :=
  (s.tasks.get (taskId 0x4d5e)).any fun a => Repeating a ∧
    (t.tasks.get (taskId 0x4d5e)).any fun b => b.nextRun < a.nextRun

theorem not_advances {s t : State} (h : movedBack s t = true) : ¬ Advances s t := by
  intro hadv
  obtain ⟨a, ha, hr⟩ := (Option.any_eq_true _ _).mp h
  rw [decide_eq_true_eq] at hr
  obtain ⟨b, hb, hle⟩ := hadv _ a ha hr.1
  obtain ⟨b', hb', hlt⟩ := (Option.any_eq_true _ _).mp hr.2
  obtain rfl : b = b' := Option.some.inj (hb.symm.trans hb')
  rw [decide_eq_true_eq] at hlt
  exact absurd hle (not_le.mpr hlt)

theorem instant_fires_twice :
    ∃ tr u s, Run (scheduler utc) (tr ++ [(u, passAt 130)]) s ∧
      (taskId 0x4d5e, second 120) ∈ firings tr ∧
      (taskId 0x4d5e, second 120) ∈ fired u (passAt 130) ∧
      ∃ x ∈ tr, ∃ t, step utc x.1 x.2 = some t ∧ ¬ Advances x.1 t := by
  obtain ⟨tr, u, _, s, hr, hp⟩ := exists_run utc start (start_init utc) overlapping (passAt 130) []
    (fun tr u tr₂ _ => tr₂.isEmpty && (firings tr).contains (taskId 0x4d5e, second 120) &&
      (fired u (passAt 130)).contains (taskId 0x4d5e, second 120) &&
      tr.any fun x => (step utc x.1 x.2).any fun t => movedBack x.1 t) (by decide)
  simp only [Bool.and_eq_true, List.isEmpty_iff, List.contains_iff_mem, List.any_eq_true,
    Option.any_eq_true] at hp
  obtain ⟨⟨⟨rfl, h₁⟩, h₂⟩, x, hx, t, ht, hm⟩ := hp
  exact ⟨tr, u, s, hr, h₁, h₂, x, hx, t, ht, not_advances hm⟩

/-- The same task with an execution of two seconds. -/
theorem instants_fire_once :
    ∃ tr s, Run (scheduler utc) tr s ∧ (∀ x ∈ tr, Respects utc x.1 x.2) ∧
      (firings tr).length = 2 ∧
      (firings tr).Nodup ∧ ∀ x ∈ tr, ∀ t, step utc x.1 x.2 = some t → Advances x.1 t := by
  obtain ⟨tr, u, tr₂, s, hr, hp⟩ := exists_run utc start (start_init utc)
    [createTask 0x4d5e "interval 10s" 100, passAt 110, .dequeue, .copy, .start, finishAt 112,
      .writeBack true, createTask 0x5e6f "interval 1h" 120] (passAt 120) []
    (fun tr u tr₂ _ => (tr ++ (u, passAt 120) :: tr₂).all (fun x => Respects utc x.1 x.2) &&
      (firings (tr ++ (u, passAt 120) :: tr₂)).length == 2) (by decide)
  simp only [Bool.and_eq_true, List.all_eq_true, decide_eq_true_eq, beq_iff_eq] at hp
  exact ⟨_, s, hr, hp.1, hp.2, no_repeated_firing hr hp.1⟩

end Counterexample

end TaskFiring
