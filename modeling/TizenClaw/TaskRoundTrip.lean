import TizenClaw.TaskRestore

/-! Saving a task and loading the directory in a fresh scheduler, for the tasks of any run. -/
namespace TaskRoundTrip

open ByteString JsonDump OrderedMap TaskSchedule TaskScheduler TaskFile TaskFrontmatter
open TaskHistory TaskRestore TransitionSystem

section Loading

variable {cal : Calendar} {clock : Bytes → Readings} {id : Bytes} {task back : ScheduledTask}

theorem get_foldl_store {l : List (Option ScheduledTask)} {tasks : Tasks}
    (h : (l.foldl store tasks).get id = some back) :
    tasks.get id = some back ∨ (some back ∈ l ∧ back.id = id) := by
  induction l generalizing tasks with
  | nil => exact .inl h
  | cons x l ih =>
    rcases ih h with hx | ⟨hm, hid⟩
    · cases x with
      | none => exact .inl hx
      | some task =>
        by_cases he : task.id = id
        · obtain rfl : task = back := Option.some.inj ((get_stored he tasks).symm.trans hx)
          exact .inr ⟨List.mem_cons_self, he⟩
        · exact .inl ((get_stored_other he tasks).symm.trans hx)
    · exact .inr ⟨List.mem_cons_of_mem x hm, hid⟩

theorem contains_store (tasks : Tasks) (x : Option ScheduledTask)
    (h : tasks.contains id = true ∨ ∃ task ∈ x, task.id = id) :
    (store tasks x).contains id = true := by
  cases x with
  | none =>
    rcases h with h | ⟨_, hm, -⟩
    · exact h
    · cases hm
  | some task =>
    unfold store Map.contains
    dsimp only
    by_cases hid : task.id = id
    · rw [get_stored hid]
      rfl
    · rw [get_stored_other hid]
      rcases h with h | ⟨_, hm, he⟩
      · exact h
      · obtain rfl := Option.some.inj hm
        exact absurd he hid

theorem contains_foldl_store {l : List (Option ScheduledTask)} {tasks : Tasks}
    (h : tasks.contains id = true ∨ ∃ x ∈ l, ∃ task ∈ x, task.id = id) :
    (l.foldl store tasks).contains id = true := by
  induction l generalizing tasks with
  | nil =>
    rcases h with h | ⟨_, hm, -⟩
    · exact h
    · cases hm
  | cons x l ih =>
    apply ih
    rcases h with h | ⟨y, hy, htask⟩
    · exact .inl (contains_store tasks x (.inl h))
    · rcases List.mem_cons.mp hy with rfl | hy
      · exact .inl (contains_store tasks y (.inr htask))
      · exact .inr ⟨y, hy, htask⟩

/-- A task is loaded from a file that holds it. -/
theorem loaded_from {listing : List (Bytes × Bytes)}
    (h : (loadTasks cal clock listing).get id = some back) :
    back.id = id ∧ ∃ e ∈ listing, loadEntry cal clock e = some back := by
  rcases get_foldl_store h with hempty | ⟨hm, hid⟩
  · cases hempty
  · obtain ⟨e, he, hload⟩ := List.mem_map.mp hm
    exact ⟨hid, e, he, hload⟩

/-- A file that holds a task loads one under its id. -/
theorem exists_loaded {listing : List (Bytes × Bytes)} {e : Bytes × Bytes} (he : e ∈ listing)
    (h : loadEntry cal clock e = some task) :
    ∃ back, (loadTasks cal clock listing).get task.id = some back := by
  apply Option.isSome_iff_exists.mp
  apply contains_foldl_store
  exact .inr ⟨some task, List.mem_map.mpr ⟨e, he, h⟩, task, rfl, rfl⟩

end Loading

section Directories

variable (cal : Calendar)

/-- The other files of the directory hold other tasks. -/
def Others (clock : Bytes → Readings) (dir : Directory) (task : ScheduledTask) : Prop :=
  ∀ e ∈ dir.entries, e.1 ≠ taskPath task.id →
    ∀ other ∈ loadEntry cal clock e, other.id ≠ task.id

/-- Saving the task and loading the directory, listed in any order. An active or paused task comes
back as it was, unless another file holds a task of its id. Of any other task nothing comes back:
what is loaded was loaded from the other files. -/
structure RoundTrips (clock : Bytes → Readings) (task : ScheduledTask) : Prop where
  restored : Live task → ∀ (dir : Directory) (listing : List (Bytes × Bytes)),
    Others cal clock dir task → listing.Perm (saveTask cal dir task).entries →
      ∃ back, (loadTasks cal clock listing).get task.id = some back ∧ SameTask task back
  dropped : ¬ Live task → ∀ (dir : Directory) (listing : List (Bytes × Bytes)),
    listing.Perm (saveTask cal dir task).entries →
      ∀ id back, (loadTasks cal clock listing).get id = some back →
        ∃ e ∈ dir.entries, e.1 ≠ taskPath task.id ∧ loadEntry cal clock e = some back

/-- What the texts of a task have to be like for its file. -/
structure Fits (task : ScheduledTask) : Prop where
  live : Live task → Storable task
  ended : ¬ Live task → Sealed task

instance (task : ScheduledTask) : Decidable (Fits task) :=
  decidable_of_iff ((Live task → Storable task) ∧ (¬ Live task → Sealed task))
    ⟨fun h => ⟨h.1, h.2⟩, fun h => ⟨h.1, h.2⟩⟩

variable {cal} {clock : Bytes → Readings} {task : ScheduledTask}

theorem isTaskName_taskPath (id : Bytes) : IsTaskName (taskPath id) := by
  have hlen : 4 ≤ (bytes "task-").length := by decide
  constructor
  · rw [taskPath, List.length_append, List.length_append]
    omega
  · exact List.suffix_append _ _

theorem loadEntry_saved (text : Bytes) :
    loadEntry cal clock (taskPath task.id, text) = loadFile cal (clock (taskPath task.id)) text :=
  if_pos (isTaskName_taskPath task.id)

/-- In a directory it is only the file of the task that matters. -/
theorem restored_file_iff :
    (∀ (dir : Directory) (listing : List (Bytes × Bytes)), Others cal clock dir task →
      listing.Perm (saveTask cal dir task).entries →
        ∃ back, (loadTasks cal clock listing).get task.id = some back ∧ SameTask task back) ↔
    ∃ back, loadFile cal (clock (taskPath task.id)) (taskText cal task) = some back ∧
      SameTask task back := by
  constructor
  · intro h
    have hothers : Others cal clock Map.empty task := fun _ he => absurd he List.not_mem_nil
    obtain ⟨back, hback, hsame⟩ := h Map.empty _ hothers (.refl _)
    obtain ⟨-, e, he, hload⟩ := loaded_from hback
    refine ⟨back, ?_, hsame⟩
    rcases Map.mem_insert he with rfl | ⟨-, he⟩
    · rwa [loadEntry_saved] at hload
    · cases he
  · rintro ⟨back, hback, hsame⟩ dir listing hothers hperm
    have hmem : (taskPath task.id, taskText cal task) ∈ listing :=
      hperm.symm.subset (Map.mem_insert_self _ _ _)
    obtain ⟨back', hback'⟩ :=
      exists_loaded hmem ((loadEntry_saved (taskText cal task)).trans hback)
    rw [hsame.id] at hback'
    refine ⟨back', hback', ?_⟩
    obtain ⟨hid, e, he, hload⟩ := loaded_from hback'
    rcases Map.mem_insert (hperm.subset he) with rfl | ⟨hne, he⟩
    · rw [loadEntry_saved, hback] at hload
      obtain rfl := Option.some.inj hload
      exact hsame
    · exact absurd hid (hothers e he hne back' hload)

theorem dropped_file_iff :
    (∀ (dir : Directory) (listing : List (Bytes × Bytes)),
      listing.Perm (saveTask cal dir task).entries →
        ∀ id back, (loadTasks cal clock listing).get id = some back →
          ∃ e ∈ dir.entries, e.1 ≠ taskPath task.id ∧ loadEntry cal clock e = some back) ↔
    loadFile cal (clock (taskPath task.id)) (taskText cal task) = none := by
  constructor
  · intro h
    cases hload : loadFile cal (clock (taskPath task.id)) (taskText cal task) with
    | none => rfl
    | some back =>
      have hmem : (taskPath task.id, taskText cal task) ∈ (saveTask cal Map.empty task).entries :=
        Map.mem_insert_self _ _ _
      obtain ⟨back', hback'⟩ :=
        exists_loaded hmem ((loadEntry_saved (taskText cal task)).trans hload)
      obtain ⟨e, he, -⟩ := h Map.empty _ (.refl _) _ back' hback'
      cases he
  · intro h dir listing hperm id back hback
    obtain ⟨-, e, he, hload⟩ := loaded_from hback
    rcases Map.mem_insert (hperm.subset he) with rfl | ⟨hne, he⟩
    · rw [loadEntry_saved, h] at hload
      cases hload
    · exact ⟨e, he, hne, hload⟩

theorem task_round_trips_iff (ht : TimeTexts cal) (h : IsTask cal task) :
    RoundTrips cal clock task ↔ Fits task := by
  constructor
  · intro hr
    constructor
    · intro hl
      exact (loadFile_live_iff ht _ h hl).mp (restored_file_iff.mp (hr.restored hl))
    · intro hl
      exact (loadFile_ended_iff ht _ h hl).mp (dropped_file_iff.mp (hr.dropped hl))
  · intro hf
    constructor
    · intro hl
      exact restored_file_iff.mpr ((loadFile_live_iff ht _ h hl).mpr (hf.live hl))
    · intro hl
      exact dropped_file_iff.mpr ((loadFile_ended_iff ht _ h hl).mpr (hf.ended hl))

end Directories

section Tasks

variable {cal : Calendar}

/-- The digits of an id. -/
theorem mem_hex (n : ℕ) : ∀ b ∈ hex n, b ∈ bytes "0123456789abcdef" := by
  have hdigit : ∀ d < 16, UInt8.ofNat (Nat.digitChar d).toNat ∈ bytes "0123456789abcdef" := by
    decide
  unfold hex
  induction n using Nat.strongRecOn with
  | ind n ih =>
    intro b hb
    by_cases hn : n < 16
    · rw [Nat.toDigits_of_lt_base hn, List.map_singleton] at hb
      obtain rfl := List.mem_singleton.mp hb
      exact hdigit n hn
    · rw [Nat.toDigits_of_base_le (by decide) (by omega), List.map_append] at hb
      rcases List.mem_append.mp hb with hb | hb
      · exact ih (n / 16) (by omega) b hb
      · obtain rfl := List.mem_singleton.mp hb
        exact hdigit (n % 16) (Nat.mod_lt n (by decide))

theorem not_mem_generateTaskId {c : UInt8} (hc : c ∉ bytes "-0123456789abcdef") (now : Time)
    (drawn : ℕ) : c ∉ generateTaskId now drawn := by
  have hsplit : bytes "-0123456789abcdef" = bytes "-" ++ bytes "0123456789abcdef" := by decide
  rw [hsplit, List.mem_append, not_or] at hc
  unfold generateTaskId
  rw [List.mem_append, List.mem_append, not_or, not_or]
  exact ⟨⟨fun hm => hc.2 (mem_hex _ c hm), hc.1⟩, fun hm => hc.2 (mem_hex _ c hm)⟩

/-- A schedule that starts with a quote names no type. -/
theorem parseSchedule_quote {expr : Bytes} (h : expr.head? = some 0x22) (task : ScheduledTask) :
    (parseSchedule cal expr task).2 = false := by
  cases expr with
  | nil => cases h
  | cons c s =>
    obtain rfl : c = 0x22 := Option.some.inj h
    obtain ⟨w, hw⟩ : ∃ w, (word (0x22 :: s)).1.map toLower = 0x22 :: w := by
      rw [word, List.dropWhile_cons_of_neg (by decide)]
      dsimp only
      rw [List.takeWhile_cons_of_pos (by decide)]
      exact ⟨_, rfl⟩
    have hne : ∀ type : Bytes, type.head? ≠ some 0x22 → 0x22 :: w ≠ type := by
      rintro type ht rfl
      exact ht rfl
    unfold parseSchedule
    dsimp only
    rw [hw, if_neg (hne (bytes "daily") (by decide)), if_neg (hne (bytes "interval") (by decide)),
      if_neg (hne (bytes "once") (by decide)), if_neg (hne (bytes "weekly") (by decide))]

theorem created_task {id expr prompt session : Bytes} {createdAt now : Time}
    {task : ScheduledTask} (h : created cal id expr prompt session createdAt now = some task) :
    (parseSchedule cal expr (newTask id expr prompt session createdAt)).2 = true ∧
      SameButSchedule (newTask id expr prompt session createdAt) task := by
  have hf := parseSchedule_frame cal expr (newTask id expr prompt session createdAt)
  unfold created at h
  dsimp only at h
  split_ifs at h with hp
  obtain rfl := Option.some.inj h
  exact ⟨hp, hf.id, hf.scheduleExpr, hf.prompt, hf.sessionId, hf.status, hf.createdAt, hf.lastRun,
    hf.runCount, hf.failCount, hf.maxRetries, hf.history⟩

theorem isTask_created {now₀ : Time} {drawn : ℕ} {expr prompt session : Bytes}
    {createdAt now : Time} {task : ScheduledTask}
    (h : created cal (generateTaskId now₀ drawn) expr prompt session createdAt now = some task) :
    IsTask cal task := by
  obtain ⟨hp, hf⟩ := created_task h
  have hid : task.id = generateTaskId now₀ drawn := hf.id
  have hexpr : task.scheduleExpr = expr := hf.scheduleExpr
  have hrun : task.runCount = 0 := hf.runCount
  have hfail : task.failCount = 0 := hf.failCount
  have hhist : task.history = [] := hf.history
  constructor
  · rw [hid, generateTaskId]
    simp [bytes]
  · rw [hid]
    constructor
    · exact not_mem_generateTaskId (by decide) now₀ drawn
    · exact not_mem_generateTaskId (by decide) now₀ drawn
  · intro hq
    rw [hexpr] at hq
    rw [parseSchedule_quote hq] at hp
    cases hp
  · omega
  · rw [hhist]
    exact fun _ he => absurd he List.not_mem_nil

theorem isTask_passTask {now : Time} {clock : Bytes → Time} {id : Bytes} {task : ScheduledTask}
    (h : IsTask cal task) : IsTask cal (passTask cal now clock id task) := by
  unfold passTask
  split_ifs
  · exact ⟨h.named, h.id, h.schedule, h.failures, h.history⟩
  · exact ⟨h.named, h.id, h.schedule, h.failures, h.history⟩
  · exact h

theorem isTask_executed {t : Time} {durationMs : ℤ} {outcome : Outcome} {lastRun : Time}
    {task : ScheduledTask} (h : IsTask cal task) (hd : -2 ^ 31 ≤ durationMs ∧ durationMs < 2 ^ 31) :
    IsTask cal (executed task (formatTime cal t) durationMs outcome lastRun) := by
  have hentry : IsEntry cal (entryOf (formatTime cal t) durationMs outcome) := by
    cases outcome with
    | returned result => exact ⟨⟨t, rfl⟩, .inl rfl, hd⟩
    | threw what => exact ⟨⟨t, rfl⟩, .inr rfl, hd⟩
  have hhist : ∀ e ∈ (executed task (formatTime cal t) durationMs outcome lastRun).history,
      IsEntry cal e := by
    intro e he
    rcases List.mem_cons.mp (List.mem_of_mem_take he) with rfl | he
    · exact hentry
    · exact h.history e he
  have hfailures := h.failures
  cases outcome with
  | returned result =>
    refine ⟨h.named, h.id, h.schedule, ?_, hhist⟩
    simp only [executed, settle]
    omega
  | threw what =>
    refine ⟨h.named, h.id, h.schedule, ?_, hhist⟩
    simp only [executed, settle]
    omega

end Tasks

section Runs

variable {cal : Calendar} {s t : State} {e : Event}

def fresh : State := { tasks := Map.empty, files := fun _ => none }

/-- What the program puts into its events: the id it draws, and in an entry the formatted time
and a duration that is an `int`. -/
def Genuine (cal : Calendar) : Event → Prop
  | .create id .. => ∃ now drawn, id = generateTaskId now drawn
  | .finish timestamp durationMs .. =>
    (∃ t, timestamp = formatTime cal t) ∧ -2 ^ 31 ≤ durationMs ∧ durationMs < 2 ^ 31
  | _ => True

/-- A scheduler that starts without tasks. -/
def lifetime (cal : Calendar) : System State Event where
  Init s := s = fresh
  Step s e t := step cal s e = some t ∧ Genuine cal e

/-- All tasks of a scheduler, the one being executed included. -/
structure AllTasks (cal : Calendar) (s : State) : Prop where
  stored : ∀ id task, s.tasks.get id = some task → IsTask cal task
  held : ∀ task ∈ held s.executor, IsTask cal task

theorem step_stored (h : step cal s e = some t) (hg : Genuine cal e) (hs : AllTasks cal s)
    {id : Bytes} {task : ScheduledTask} (ht : t.tasks.get id = some task) : IsTask cal task := by
  rcases step_get h id with ⟨he, -⟩ | ⟨_, _, _, -, he⟩ | ⟨_, task', -, hex, -, -, he⟩ |
    ⟨_, _, _, _, _, _, task', rfl, hc, he⟩ | ⟨_, task', -, hget, he⟩
  · exact hs.stored id task (he ▸ ht)
  · rw [he] at ht
    obtain ⟨task', ht', rfl⟩ := Option.map_eq_some_iff.mp ht
    exact isTask_passTask (hs.stored id task' ht')
  · obtain rfl : task' = task := Option.some.inj (he.symm.trans ht)
    apply hs.held
    rw [hex]
    rfl
  · obtain rfl : task' = task := Option.some.inj (he.symm.trans ht)
    obtain ⟨now, drawn, rfl⟩ := hg
    exact isTask_created hc
  · obtain rfl : { task' with status := .cancelled } = task := Option.some.inj (he.symm.trans ht)
    have h' := hs.stored id task' hget
    exact ⟨h'.named, h'.id, h'.schedule, h'.failures, h'.history⟩

theorem step_executing (h : step cal s e = some t) (hg : Genuine cal e) (hs : AllTasks cal s) :
    ∀ task ∈ held t.executor, IsTask cal task := by
  cases step_cases h with
  | copy hex hget hc =>
    intro task ht
    obtain rfl := Option.some.inj ht
    exact hs.stored _ _ hget
  | start hex =>
    intro task ht
    apply hs.held
    rw [hex]
    exact ht
  | @finish timestamp durationMs outcome lastRun task hex =>
    intro task' ht
    obtain rfl := Option.some.inj ht
    obtain ⟨⟨time, rfl⟩, hd⟩ := hg
    apply isTask_executed _ hd
    apply hs.held
    rw [hex]
    rfl
  | dequeue | skip | writeBack | discard => exact fun _ ht => nomatch ht
  | _ => exact hs.held

theorem run_tasks {tr : List (State × Event)} (h : Run (lifetime cal) tr s) : AllTasks cal s := by
  refine h.invariant (I := AllTasks cal) ?_ ?_
  · intro s hs
    obtain rfl : s = fresh := hs
    constructor
    · intro id task hg
      cases hg.symm.trans (Map.get_empty id)
    · exact fun _ ht => nomatch ht
  · rintro s e t hs ⟨hstep, hg⟩
    exact ⟨fun id task ht => step_stored hstep hg hs ht, step_executing hstep hg hs⟩

/-- A task of any run comes back from its file exactly when its texts fit there. -/
theorem round_trips_iff (ht : TimeTexts cal) (clock : Bytes → Readings)
    {tr : List (State × Event)} (h : Run (lifetime cal) tr s) {id : Bytes} {task : ScheduledTask}
    (hg : s.tasks.get id = some task) : RoundTrips cal clock task ↔ Fits task :=
  task_round_trips_iff ht ((run_tasks h).stored id task hg)

end Runs

section Restart

variable {cal : Calendar} {clock : Bytes → Readings} {s : State}

theorem run_scheduler {tr : List (State × Event)} (h : Run (lifetime cal) tr s) :
    Run (scheduler cal) tr s := by
  apply h.mono
  · intro s hs
    obtain rfl : s = fresh := hs
    refine ⟨?_, rfl, rfl, rfl⟩
    intro id task hg
    cases hg.symm.trans (Map.get_empty id)
  · rintro s e t ⟨hs, -⟩
    exact hs

/-- What was saved last under an id is a task of that id. -/
theorem run_files {tr : List (State × Event)} (h : Run (lifetime cal) tr s) {id : Bytes}
    {task : ScheduledTask} (hf : s.files id = some task) : task.id = id ∧ IsTask cal task := by
  induction h with
  | @init s h =>
    obtain rfl : s = fresh := h
    cases hf
  | @step tr s e t hr hs ih =>
    have hkeyed := run_keyed (run_scheduler hr)
    rcases step_files hs.1 hkeyed id with he | ⟨task', he, hg⟩
    · exact ih (he ▸ hf)
    · obtain rfl : task' = task := Option.some.inj (he.symm.trans hf)
      exact ⟨step_keyed hs.1 hkeyed id task' hg, (run_tasks (hr.step hs)).stored id task' hg⟩

/-- The directory with what was saved last under each id, listed in some order. -/
def Lists (cal : Calendar) (files : Bytes → Option ScheduledTask)
    (listing : List (Bytes × Bytes)) : Prop :=
  ∀ e, e ∈ listing ↔ ∃ id task, files id = some task ∧ e = (taskPath id, taskText cal task)

/-- A scheduler that starts on the files of another one takes over its active and paused tasks,
if the texts of all tasks fit into their files. -/
theorem restart (ht : TimeTexts cal) {tr : List (State × Event)} (h : Run (lifetime cal) tr s)
    (hfits : ∀ id, ∀ task ∈ s.files id, Fits task) {listing : List (Bytes × Bytes)}
    (hl : Lists cal s.files listing) (id : Bytes) :
    (∀ back ∈ (loadTasks cal clock listing).get id,
      ∃ task ∈ s.files id, Live task ∧ SameTask task back) ∧
    ∀ task ∈ s.files id, Live task → ((loadTasks cal clock listing).get id).isSome := by
  constructor
  · intro back hback
    obtain ⟨hid, e, he, hload⟩ := loaded_from hback
    obtain ⟨id', task, hf, rfl⟩ := (hl e).mp he
    obtain ⟨rfl, htask⟩ := run_files h hf
    rw [loadEntry_saved] at hload
    have hlive : Live task := by
      by_contra hno
      rw [(loadFile_ended_iff ht _ htask hno).mpr ((hfits _ task hf).ended hno)] at hload
      cases hload
    obtain ⟨back', hback', hsame⟩ :=
      (loadFile_live_iff ht (clock (taskPath task.id)) htask hlive).mpr
        ((hfits _ task hf).live hlive)
    obtain rfl : back = back' := Option.some.inj (hload.symm.trans hback')
    rw [hsame.id] at hid
    exact ⟨task, hid ▸ hf, hlive, hsame⟩
  · intro task hf hlive
    obtain ⟨rfl, htask⟩ := run_files h hf
    obtain ⟨back, hback, hsame⟩ :=
      (loadFile_live_iff ht (clock (taskPath task.id)) htask hlive).mpr
        ((hfits _ task hf).live hlive)
    have hmem : (taskPath task.id, taskText cal task) ∈ listing := (hl _).mpr ⟨_, task, hf, rfl⟩
    obtain ⟨back', hback'⟩ := exists_loaded hmem ((loadEntry_saved (taskText cal task)).trans hback)
    rw [hsame.id] at hback'
    rw [hback']
    rfl

end Restart

namespace Sample

open TaskScheduler.Sample

theorem formatTime_utc (t : Time) : ∃ y m d H M S : ℤ,
    formatTime utc t = fourDigits y ++ 0x2D :: (twoDigits m ++ 0x2D :: (twoDigits d ++
      0x54 :: (twoDigits H ++ 0x3A :: (twoDigits M ++ 0x3A :: twoDigits S)))) := by
  have hformat : bytes "%Y-%m-%dT%H:%M:%S" = [0x25, 0x59, 0x2D, 0x25, 0x6D, 0x2D, 0x25, 0x64, 0x54,
    0x25, 0x48, 0x3A, 0x25, 0x4D, 0x3A, 0x25, 0x53] := by decide
  have hdate : formatTime utc t = formatTm (gmtime (toTimeT t)) (bytes "%Y-%m-%dT%H:%M:%S") := rfl
  rw [hdate, hformat]
  simp only [formatTm]
  exact ⟨_, _, _, _, _, _, rfl⟩

theorem mem_twoDigits (n : ℤ) : ∀ b ∈ twoDigits n, JsonValue.isDigit b = true := by
  have hdigit : ∀ d < 10, JsonValue.isDigit (0x30 + UInt8.ofNat d) = true := by decide
  intro b hb
  simp only [twoDigits, List.mem_cons, List.not_mem_nil, or_false] at hb
  rcases hb with rfl | rfl
  · exact hdigit _ (Nat.mod_lt _ (by decide))
  · exact hdigit _ (Nat.mod_lt _ (by decide))

theorem utc_times : TimeTexts utc := by
  intro t
  obtain ⟨y, m, d, H, M, S, ht⟩ := formatTime_utc t
  rw [ht]
  constructor
  · exact List.append_ne_nil_of_left_ne_nil (List.cons_ne_nil _ _) _
  · intro b hb
    simp only [fourDigits, List.mem_append, List.mem_cons] at hb
    rcases hb with (hb | hb) | rfl | hb | rfl | hb | rfl | hb | rfl | hb | rfl | hb
    all_goals first
      | exact .inl (mem_twoDigits _ _ hb)
      | exact .inr (by decide)

def clock : Bytes → Readings := fun _ => ⟨fun _ => second 0, second 50000, second 50000⟩

/-- A task that has been executed once. -/
def executedOnce : List Event :=
  [createTask 0x1234 "daily 09:00" 150, passAt 32400, .dequeue, .copy, .start, finishAt 32401,
    .writeBack true]

theorem executedOnce_genuine : ∀ e ∈ executedOnce, Genuine utc e := by
  intro e he
  simp only [executedOnce, List.mem_cons, List.not_mem_nil, or_false] at he
  rcases he with rfl | rfl | rfl | rfl | rfl | rfl | rfl
  · exact ⟨second 100, 0x1234, rfl⟩
  · trivial
  · trivial
  · trivial
  · trivial
  · exact ⟨⟨second 32401, by decide⟩, by decide⟩
  · trivial

theorem executed_once_comes_back : ∃ tr s task, Run (lifetime utc) tr s ∧
    s.tasks.get (taskId 0x1234) = some task ∧ task.runCount = 1 ∧ RoundTrips utc clock task := by
  obtain ⟨tr, s, h, hp⟩ := Run.of_execute_mem (M := lifetime utc) (s := fresh)
    (fun s t e he hs => ⟨hs, executedOnce_genuine e he⟩) rfl
    (fun _ s => (s.tasks.get (taskId 0x1234)).any fun task => task.runCount = 1 ∧ Fits task)
    (by decide)
  obtain ⟨task, hg, htask⟩ := (Option.any_eq_true _ _).mp hp
  obtain ⟨hrun, hfits⟩ := of_decide_eq_true htask
  exact ⟨tr, s, task, h, hg, hrun, (round_trips_iff utc_times clock h hg).mpr hfits⟩

end Sample

namespace Counterexample

open TaskScheduler.Sample TaskRoundTrip.Sample

/-- The prompt has a rule of its own, and the task is cancelled. -/
def ruledPrompt : List Event :=
  [.create (taskId 0x1234) (bytes "daily 09:00") (bytes "a\n---\nb") (bytes "default") (second 150)
    (second 150) true, .cancel (taskId 0x1234) true]

theorem ruledPrompt_genuine : ∀ e ∈ ruledPrompt, Genuine utc e := by
  intro e he
  simp only [ruledPrompt, List.mem_cons, List.not_mem_nil, or_false] at he
  rcases he with rfl | rfl
  · exact ⟨second 100, 0x1234, rfl⟩
  · trivial

theorem cancelled_task_comes_back : ∃ tr s task back, Run (lifetime utc) tr s ∧
    s.tasks.get (taskId 0x1234) = some task ∧ task.status = .cancelled ∧
    (loadTasks utc clock (saveTask utc Map.empty task).entries).get task.id = some back ∧
    back.status = .active ∧ ¬ RoundTrips utc clock task := by
  obtain ⟨tr, s, h, hp⟩ := Run.of_execute_mem (M := lifetime utc) (s := fresh)
    (fun s t e he hs => ⟨hs, ruledPrompt_genuine e he⟩) rfl
    (fun _ s => (s.tasks.get (taskId 0x1234)).any fun task => task.status = .cancelled ∧
      ((loadTasks utc clock (saveTask utc Map.empty task).entries).get task.id).any fun back =>
        back.status = .active)
    (by decide)
  obtain ⟨task, hg, htask⟩ := (Option.any_eq_true _ _).mp hp
  obtain ⟨hstatus, hload⟩ := of_decide_eq_true htask
  obtain ⟨back, hback, hactive⟩ := (Option.any_eq_true _ _).mp hload
  refine ⟨tr, s, task, back, h, hg, hstatus, hback, of_decide_eq_true hactive, ?_⟩
  intro hr
  have hlive : ¬ Live task := by
    unfold Live
    rw [hstatus]
    decide
  obtain ⟨e, he, -⟩ := hr.dropped hlive Map.empty _ (.refl _) _ back hback
  cases he

end Counterexample

end TaskRoundTrip
