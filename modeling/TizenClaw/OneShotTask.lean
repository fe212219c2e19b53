import TizenClaw.TaskScheduler

/-! Tasks that run once: pushed and executed at most once as long as ids are fresh. -/
namespace OneShotTask

open ByteString OrderedMap TaskSchedule TaskScheduler TransitionSystem

variable {cal : Calendar} {s t : State} {e : Event} {id : Bytes}

/-- The step pushes the task onto the queue. -/
def Pushes (id : Bytes) (x : State × Event) : Prop :=
  match x.2 with
  | .pass now _ _ => id ∈ pushed now x.1.tasks
  | _ => False

instance (id : Bytes) : (x : State × Event) → Decidable (Pushes id x)
  | ⟨s, .pass now _ _⟩ => inferInstanceAs (Decidable (id ∈ pushed now s.tasks))
  | ⟨_, .wake⟩ | ⟨_, .dequeue⟩ | ⟨_, .copy⟩ | ⟨_, .start⟩ | ⟨_, .finish ..⟩ | ⟨_, .writeBack _⟩
  | ⟨_, .create ..⟩ | ⟨_, .cancel ..⟩ => isFalse not_false

abbrev pushes (id : Bytes) (tr : List (State × Event)) : ℕ := tr.countP (Pushes id)
abbrev starts (id : Bytes) (tr : List (State × Event)) : ℕ := tr.countP (Starts id)

/-- The ids whose execution has yet to start. -/
def pending (s : State) : List Bytes :=
  match s.executor with
  | .dequeued id => id :: s.queue
  | .copied task => task.id :: s.queue
  | _ => s.queue

theorem pushes_snoc (tr : List (State × Event)) (x : State × Event) :
    pushes id (tr ++ [x]) = pushes id tr + if Pushes id x then 1 else 0 := by
  simp [pushes, List.countP_cons]

theorem starts_snoc (tr : List (State × Event)) (x : State × Event) :
    starts id (tr ++ [x]) = starts id tr + if Starts id x then 1 else 0 := by
  simp [starts, List.countP_cons]

theorem not_starts (he : e ≠ .start) : ¬ Starts id (s, e) := by
  rintro ⟨hm, -⟩
  cases e with
  | start => exact he rfl
  | _ => cases hm

theorem pending_pass {now : Time} {clock : Bytes → Time} {written : Bytes → Bool}
    (h : step cal s (.pass now clock written) = some t) (id : Bytes) :
    (pending t).count id = (pending s).count id + (pushed now s.tasks).count id := by
  cases step_cases h
  unfold pending
  cases s.executor with
  | dequeued id' =>
    dsimp only
    rw [← List.cons_append, List.count_append]
  | copied task =>
    dsimp only
    rw [← List.cons_append, List.count_append]
  | _ => exact List.count_append

theorem pending_start (h : step cal s .start = some t) (id : Bytes) :
    (if Starts id (s, .start) then 1 else 0) + (pending t).count id = (pending s).count id := by
  cases step_cases h with
  | @start task hex =>
    have hs : Starts id (s, .start) ↔ task.id = id := by
      unfold Starts held
      rw [hex]
      simp
    unfold pending
    rw [hex, List.count_cons]
    simp only [hs, beq_iff_eq]
    omega

/-- Other steps make no id pending. -/
theorem pending_le (hk : Keyed s.tasks) (h : step cal s e = some t)
    (hp : ∀ now clock written, e ≠ .pass now clock written) (id : Bytes) :
    (pending t).count id ≤ (pending s).count id := by
  have same : ∀ u : State, u.queue = s.queue → u.executor = s.executor →
      (pending u).count id ≤ (pending s).count id := by
    intro u hq he
    unfold pending
    rw [hq, he]
  have dropped : ∀ u : State, u.queue = s.queue → u.executor = .idle →
      (pending u).count id ≤ (pending s).count id := by
    intro u hq he
    have hsub : List.Sublist s.queue (pending s) := by
      unfold pending
      cases s.executor with
      | dequeued id' => exact List.sublist_cons_self _ _
      | copied task => exact List.sublist_cons_self _ _
      | _ => exact List.Sublist.refl _
    have hu : pending u = s.queue := by
      unfold pending
      rw [he, hq]
    rw [hu]
    exact hsub.count_le id
  cases step_cases h with
  | pass => exact absurd rfl (hp _ _ _)
  | dequeue hex hq =>
    unfold pending
    rw [hex, hq]
  | copy hex hg =>
    unfold pending
    rw [hex]
    dsimp only
    rw [hk _ _ hg]
  | start =>
    have := pending_start h id
    omega
  | finish hex =>
    unfold pending
    rw [hex]
  | skip | writeBack | discard => exact dropped _ rfl rfl
  | _ => exact same _ rfl rfl

/-- An execution starts for a pending id, and only a push makes an id pending. -/
theorem step_pending (hk : Keyed s.tasks) (h : step cal s e = some t) (id : Bytes) :
    (if Starts id (s, e) then 1 else 0) + (pending t).count id ≤
      (pending s).count id + if Pushes id (s, e) then 1 else 0 := by
  by_cases hs : e = .start
  · subst hs
    have := pending_start h id
    omega
  · rw [if_neg (not_starts hs)]
    cases e with
    | pass now clock written =>
      have hcount : (pushed now s.tasks).count id ≤
          if Pushes id (s, .pass now clock written) then 1 else 0 := by
        split_ifs with hp
        · exact List.nodup_iff_count_le_one.mp (pushed_nodup s.tasks) id
        · exact (List.count_eq_zero.mpr hp).le
      have := pending_pass h id
      omega
    | _ =>
      have := pending_le hk h nofun id
      omega

/-- A held copy has the type of the stored task. -/
def Typed (s : State) : Prop :=
  ∀ copy ∈ held s.executor, ∃ task ∈ s.tasks.get copy.id, task.scheduleType = copy.scheduleType

/-- With fresh ids a task keeps its type. -/
theorem stored_type (ht : Typed s) (hf : Fresh cal s e) (h : step cal s e = some t)
    {a : ScheduledTask} (ha : a ∈ s.tasks.get id) :
    ∃ b ∈ t.tasks.get id, b.scheduleType = a.scheduleType := by
  rcases step_get h id with ⟨he, -⟩ | ⟨now, clock, written, -, he⟩ | ⟨_, copy, -, hex, rfl, -, he⟩ |
    ⟨expr, prompt, session, createdAt, now, written, task, rfl, hcr, -⟩ | ⟨_, task, -, hs, he⟩
  · exact ⟨a, he.trans ha, rfl⟩
  · refine ⟨passTask cal now clock id a, ?_, passTask_scheduleType id a⟩
    rw [he, ha]
    rfl
  · obtain ⟨task, hg, htype⟩ := ht copy (by rw [hex]; rfl)
    obtain rfl : a = task := Option.some.inj (ha.symm.trans hg)
    exact ⟨copy, he, htype.symm⟩
  · apply absurd _ (hf (by rw [hcr]; rfl))
    unfold Map.contains
    rw [ha]
    rfl
  · obtain rfl : a = task := Option.some.inj (ha.symm.trans hs)
    exact ⟨_, he, rfl⟩

theorem typed_step (hk : Keyed s.tasks) (ht : Typed s) (hf : Fresh cal s e)
    (h : step cal s e = some t) : Typed t := by
  intro copy hc
  rcases step_held h hc with ⟨copy₀, hc₀, hcont⟩ | ⟨-, id, -, hg, -⟩
  · obtain ⟨a, ha, htype⟩ := ht copy₀ hc₀
    obtain ⟨b, hb, hb'⟩ := stored_type ht hf h ha
    rw [hcont.id, hcont.scheduleType]
    exact ⟨b, hb, hb'.trans htype⟩
  · obtain rfl := hk id copy hg
    exact stored_type ht hf h hg

/-- What holds of the id of a one-shot task. -/
structure Settled (id : Bytes) (tr : List (State × Event)) (s : State) : Prop where
  pending_le : starts id tr + (pending s).count id ≤ pushes id tr
  pushes_le : pushes id tr ≤ 1
  stored : 0 < pushes id tr → ∀ task ∈ s.tasks.get id, task.status ≠ .active
  copied : ∀ copy ∈ held s.executor, copy.id = id → 0 < pushes id tr ∧ copy.status ≠ .active

theorem not_pushes (hp : ∀ now clock written, e ≠ .pass now clock written) :
    ¬ Pushes id (s, e) := by
  intro h
  cases e with
  | pass now clock written => exact hp now clock written rfl
  | _ => cases h

theorem pushes_due (h : Pushes id (s, e)) :
    ∃ now, ∃ task ∈ s.tasks.get id, Due now task := by
  cases e with
  | pass now clock written =>
    obtain ⟨task, ht, hd⟩ := mem_pushed.mp h
    exact ⟨now, task, ht, hd⟩
  | _ => cases h

section SettledStep

variable {tr : List (State × Event)}

theorem settled_pushes_le (hs : Settled id tr s) : pushes id (tr ++ [(s, e)]) ≤ 1 := by
  rw [pushes_snoc]
  split_ifs with hp
  · obtain ⟨now, task, ht, hd⟩ := pushes_due hp
    have hnone : ¬ 0 < pushes id tr := fun h => hs.stored h task ht hd.1
    omega
  · exact hs.pushes_le

theorem settled_stored (hs : Settled id tr s)
    (habs : s.tasks.get id = none → pushes id tr = 0)
    (ho : ∀ task ∈ s.tasks.get id, task.scheduleType = some .once) (hf : Fresh cal s e)
    (h : step cal s e = some t) (hp : 0 < pushes id (tr ++ [(s, e)])) :
    ∀ task ∈ t.tasks.get id, task.status ≠ .active := by
  have before : ¬ Pushes id (s, e) → 0 < pushes id tr := by
    intro hn
    rw [pushes_snoc, if_neg hn] at hp
    exact hp
  intro task ht
  rcases step_get h id with ⟨he, hne⟩ | ⟨now, clock, written, rfl, he⟩ |
    ⟨_, copy, -, hex, hid, -, he⟩ |
    ⟨expr, prompt, session, createdAt, now, written, task', rfl, hcr, -⟩ | ⟨_, task', -, -, he⟩
  · exact hs.stored (before (not_pushes hne)) task (he ▸ ht)
  · rw [he] at ht
    obtain ⟨task', hg, rfl⟩ := Option.map_eq_some_iff.mp ht
    by_cases hd : Due now task'
    · rw [passTask_once hd (ho task' hg)]
      exact nofun
    · rw [passTask_of_not_due hd]
      apply hs.stored (before _) task' hg
      intro hpush
      obtain ⟨task'', hg', hd'⟩ := mem_pushed.mp hpush
      obtain rfl : task' = task'' := Option.some.inj (hg.symm.trans hg')
      exact hd hd'
  · obtain rfl : copy = task := Option.some.inj (he.symm.trans ht)
    exact (hs.copied copy (by rw [hex]; rfl) hid).2
  · have hfree : s.tasks.get id = none := by
      have hn := hf (by rw [hcr]; rfl)
      unfold Map.contains at hn
      exact Option.not_isSome_iff_eq_none.mp hn
    have := habs hfree
    have := before (not_pushes nofun)
    omega
  · obtain rfl : { task' with status := .cancelled } = task := Option.some.inj (he.symm.trans ht)
    exact nofun

theorem settled_copied (hk : Keyed s.tasks) (hs : Settled id tr s) (h : step cal s e = some t) :
    ∀ copy ∈ held t.executor, copy.id = id →
      0 < pushes id (tr ++ [(s, e)]) ∧ copy.status ≠ .active := by
  intro copy hc hid
  rw [pushes_snoc]
  rcases step_held h hc with ⟨copy₀, hc₀, hcont⟩ | ⟨rfl, id', hex, hg, -⟩
  · obtain ⟨hpos, hst⟩ := hs.copied copy₀ hc₀ (hcont.id.symm.trans hid)
    refine ⟨by omega, ?_⟩
    rcases hcont.status with he | he
    · rw [he]
      exact hst
    · rw [he]
      exact nofun
  · obtain rfl : id' = id := (hk id' copy hg).symm.trans hid
    have hmem : 0 < (pending s).count id' := by
      apply List.count_pos_iff.mpr
      unfold pending
      rw [hex]
      exact List.mem_cons_self
    have hpos : 0 < pushes id' tr := by
      have := hs.pending_le
      omega
    exact ⟨by omega, hs.stored hpos copy hg⟩

theorem settled_step (hk : Keyed s.tasks) (hs : Settled id tr s)
    (habs : s.tasks.get id = none → pushes id tr = 0)
    (ho : ∀ task ∈ s.tasks.get id, task.scheduleType = some .once) (hf : Fresh cal s e)
    (h : step cal s e = some t) : Settled id (tr ++ [(s, e)]) t where
  pending_le := by
    have := step_pending hk h id
    have := hs.pending_le
    rw [starts_snoc, pushes_snoc]
    omega
  pushes_le := settled_pushes_le hs
  stored := settled_stored hs habs ho hf h
  copied := settled_copied hk hs h

end SettledStep

theorem run_settled {tr : List (State × Event)} (h : Run (scheduler cal) tr s)
    (hf : ∀ x ∈ tr, Fresh cal x.1 x.2) (id : Bytes) :
    Typed s ∧ (s.tasks.get id = none → pushes id tr = 0) ∧
      ((∀ task ∈ s.tasks.get id, task.scheduleType = some .once) → Settled id tr s) := by
  induction h with
  | @init s h =>
    have hnone : ∀ copy, copy ∉ held s.executor := by
      intro copy hc
      rw [h.2.2.1] at hc
      cases hc
    refine ⟨fun copy hc => absurd hc (hnone copy), fun _ => rfl, fun _ => ⟨?_, ?_, ?_, ?_⟩⟩
    · unfold pending
      rw [h.2.2.1, h.2.1]
      exact le_refl 0
    · exact Nat.zero_le 1
    · intro hp
      exact absurd hp (lt_irrefl 0)
    · exact fun copy hc => absurd hc (hnone copy)
  | @step tr s e t hr hs ih =>
    obtain ⟨ht, habs, hset⟩ := ih fun x hx => hf x (List.mem_append_left _ hx)
    have hfresh : Fresh cal s e := hf (s, e) (by simp)
    have hk := run_keyed hr
    refine ⟨typed_step hk ht hfresh hs, ?_, ?_⟩
    · intro hnone
      have hn : s.tasks.get id = none := by
        by_contra hc
        have := step_contains hs (Option.isSome_iff_ne_none.mpr hc)
        unfold Map.contains at this
        rw [hnone] at this
        cases this
      rw [pushes_snoc, habs hn, if_neg]
      intro hp
      obtain ⟨_, task, hg, -⟩ := pushes_due hp
      rw [hn] at hg
      cases hg
    · intro ho
      have ho' : ∀ task ∈ s.tasks.get id, task.scheduleType = some .once := by
        intro a ha
        obtain ⟨b, hb, htype⟩ := stored_type ht hfresh hs ha
        exact htype.symm.trans (ho b hb)
      exact settled_step hk (hset ho') habs ho' hfresh hs

theorem once_at_most {tr : List (State × Event)} {task : ScheduledTask}
    (h : Run (scheduler cal) tr s) (hf : ∀ x ∈ tr, Fresh cal x.1 x.2)
    (ht : s.tasks.get id = some task) (ho : task.scheduleType = some .once) :
    pushes id tr ≤ 1 ∧ starts id tr ≤ 1 ∧ (0 < pushes id tr → task.status ≠ .active) := by
  obtain ⟨-, -, hset⟩ := run_settled h hf id
  have hs : Settled id tr s := by
    apply hset
    intro task' ht'
    obtain rfl : task = task' := Option.some.inj (ht.symm.trans ht')
    exact ho
  have := hs.pending_le
  have := hs.pushes_le
  exact ⟨hs.pushes_le, by omega, fun hp => hs.stored hp task ht⟩

namespace Counterexample

open TaskScheduler.Sample

/-- Two calls of `CreateTask` in one millisecond draw the same number; the first task waits in the
queue when the second takes its place. -/
def colliding : List Event :=
  [createTask 0x4d5e "once 1970-01-01 00:01" 100, passAt 100,
    createTask 0x4d5e "once 1970-01-01 00:02" 100, .dequeue, .copy, .start, finishAt 110,
    .writeBack true, passAt 120, .dequeue, .copy]

theorem task_runs_twice :
    ∃ tr s task, Run (scheduler utc) tr s ∧ s.tasks.get (taskId 0x4d5e) = some task ∧
      task.scheduleType = some .once ∧ pushes (taskId 0x4d5e) tr = 2 ∧
      starts (taskId 0x4d5e) tr = 2 := by
  obtain ⟨tr, u, tr₂, s, hr, hp⟩ := exists_run utc start (start_init utc) colliding .start []
    (fun tr u tr₂ s =>
      (∃ task ∈ s.tasks.get (taskId 0x4d5e), task.scheduleType = some .once) ∧
        pushes (taskId 0x4d5e) (tr ++ (u, .start) :: tr₂) = 2 ∧
          starts (taskId 0x4d5e) (tr ++ (u, .start) :: tr₂) = 2) (by decide)
  obtain ⟨⟨task, ht, ho⟩, hpush, hstart⟩ := of_decide_eq_true hp
  exact ⟨_, s, task, hr, ht, ho, hpush, hstart⟩

/-- The first of the two tasks alone. -/
theorem task_runs_once :
    ∃ tr s task, Run (scheduler utc) tr s ∧ s.tasks.get (taskId 0x4d5e) = some task ∧
      pushes (taskId 0x4d5e) tr ≤ 1 ∧ starts (taskId 0x4d5e) tr ≤ 1 ∧
        (0 < pushes (taskId 0x4d5e) tr → task.status ≠ .active) := by
  obtain ⟨tr, u, tr₂, s, hr, hp⟩ := exists_run utc start (start_init utc)
    [createTask 0x4d5e "once 1970-01-01 00:01" 100, passAt 100, .dequeue, .copy, .start,
      finishAt 110] (.writeBack true) []
    (fun tr u tr₂ s => (∀ x ∈ tr ++ (u, .writeBack true) :: tr₂, Fresh utc x.1 x.2) ∧
      ∃ task ∈ s.tasks.get (taskId 0x4d5e), task.scheduleType = some .once) (by decide)
  obtain ⟨hf, task, ht, ho⟩ := of_decide_eq_true hp
  exact ⟨_, s, task, hr, ht, once_at_most hr hf ht ho⟩

end Counterexample

end OneShotTask
