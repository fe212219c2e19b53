import TizenClaw.OrderedMap
import TizenClaw.TaskSchedule
import TizenClaw.TransitionSystem
import Mathlib.Logic.Function.Basic

/-! The scheduler with its two threads. Each locked section of a thread is one step, and so are
the start and the end of an execution, which holds no lock. -/
namespace TaskScheduler

open ByteString OrderedMap TaskSchedule TransitionSystem

abbrev Tasks := Map Bytes ScheduledTask

section Execute

def kMaxHistoryEntries : ℕ := 50

/-- What `ProcessPrompt` comes to. -/
inductive Outcome where
  | returned (result : Bytes)
  | threw (what : Bytes)
  deriving DecidableEq, Repr

def summary (result : Bytes) : Bytes :=
  if 200 < result.length then result.take 197 ++ bytes "..." else result

/-- Status and failure count after an execution. -/
def settle (task : ScheduledTask) : Outcome → ScheduledTask
  | .returned _ => { task with failCount := 0 }
  | .threw _ =>
    let failCount := task.failCount + 1
    { task with
      failCount := failCount
      status := if task.maxRetries ≤ failCount then .failed else task.status }

def entryOf (timestamp : Bytes) (durationMs : ℤ) : Outcome → TaskExecEntry
  | .returned result =>
    { timestamp := timestamp, status := bytes "success", durationMs := durationMs
      resultSummary := summary result }
  | .threw what =>
    { timestamp := timestamp, status := bytes "failed", durationMs := durationMs
      resultSummary := what }

/-- `ExecuteTask` on its copy, up to the write-back. -/
def executed (task : ScheduledTask) (timestamp : Bytes) (durationMs : ℤ) (outcome : Outcome)
    (lastRun : Time) : ScheduledTask :=
  { settle task outcome with
    lastRun := lastRun
    runCount := task.runCount + 1
    history := (entryOf timestamp durationMs outcome :: task.history).take kMaxHistoryEntries }

end Execute

inductive SchedulerPhase where
  | scanning
  | waiting (deadline : Time)
  deriving DecidableEq, Repr

inductive ExecutorPhase where
  | idle
  | dequeued (id : Bytes)
  | copied (task : ScheduledTask)
  | executing (task : ScheduledTask)
  | finished (task : ScheduledTask)
  deriving DecidableEq, Repr

/-- `files` is what was saved last under each id. -/
structure State where
  tasks : Tasks
  queue : List Bytes := []
  files : Bytes → Option ScheduledTask
  scheduler : SchedulerPhase := .scanning
  executor : ExecutorPhase := .idle

/-- Every save says whether its file could be written. -/
inductive Event where
  | pass (now : Time) (clock : Bytes → Time) (written : Bytes → Bool)
  | wake
  | dequeue
  | copy
  | start
  | finish (timestamp : Bytes) (durationMs : ℤ) (outcome : Outcome) (lastRun : Time)
  | writeBack (written : Bool)
  | create (id expr prompt session : Bytes) (createdAt now : Time) (written : Bool)
  | cancel (id : Bytes) (written : Bool)

section Pass

variable (cal : Calendar) (now : Time) (clock : Bytes → Time)

/-- The task is due in this pass. -/
def Due (task : ScheduledTask) : Prop := task.status = .active ∧ task.nextRun ≤ now

instance (task : ScheduledTask) : Decidable (Due now task) := inferInstanceAs (Decidable (_ ∧ _))

/-- The loop body on one task; `clock` gives the reading of `ComputeNextRun`. -/
def passTask (id : Bytes) (task : ScheduledTask) : ScheduledTask :=
  if Due now task then
    if task.scheduleType = some .once then { task with status := .completed }
    else computeNextRun cal task (clock id)
  else task

def pushed (tasks : Tasks) : List Bytes :=
  (tasks.entries.filter fun e => Due now e.2).map Prod.fst

/-- Due tasks are skipped before the minimum is taken. -/
def earliest (tasks : Tasks) : Time :=
  ((tasks.entries.filter fun e => e.2.status = .active ∧ ¬ Due now e.2).map
    fun e => e.2.nextRun).foldl min (now + hours 24)

end Pass

section Step

variable (cal : Calendar)

def save (files : Bytes → Option ScheduledTask) (written : Bool) (task : ScheduledTask) :
    Bytes → Option ScheduledTask :=
  if written then Function.update files task.id (some task) else files

/-- The files after a pass, which saves every task it found due. -/
def passFiles (files : Bytes → Option ScheduledTask) (tasks : Tasks) (now : Time)
    (clock : Bytes → Time) (written : Bytes → Bool) : Bytes → Option ScheduledTask :=
  fun id =>
    match tasks.get id with
    | some task =>
      if Due now task ∧ written id then some (passTask cal now clock id task) else files id
    | none => files id

def newTask (id expr prompt session : Bytes) (createdAt : Time) : ScheduledTask :=
  { id := id, scheduleExpr := expr, prompt := prompt, sessionId := session, createdAt := createdAt }

/-- The task that `CreateTask` stores, if it accepts the schedule. -/
def created (id expr prompt session : Bytes) (createdAt now : Time) : Option ScheduledTask :=
  let parsed := parseSchedule cal expr (newTask id expr prompt session createdAt)
  if parsed.2 then some (computeNextRun cal parsed.1 now) else none

def step (s : State) : Event → Option State
  | .pass now clock written => match s.scheduler with
    | .scanning => some { s with
        tasks := s.tasks.mapValues (passTask cal now clock)
        queue := s.queue ++ pushed now s.tasks
        files := passFiles cal s.files s.tasks now clock written
        scheduler := .waiting (earliest now s.tasks) }
    | .waiting _ => none
  | .wake => match s.scheduler with
    | .waiting _ => some { s with scheduler := .scanning }
    | .scanning => none
  | .dequeue => match s.executor, s.queue with
    | .idle, id :: queue => some { s with queue := queue, executor := .dequeued id }
    | _, _ => none
  | .copy => match s.executor with
    | .dequeued id => match s.tasks.get id with
      | none => some { s with executor := .idle }
      | some task =>
        if task.status = .cancelled then some { s with executor := .idle }
        else some { s with executor := .copied task }
    | _ => none
  | .start => match s.executor with
    | .copied task => some { s with executor := .executing task }
    | _ => none
  | .finish timestamp durationMs outcome lastRun => match s.executor with
    | .executing task =>
      some { s with executor := .finished (executed task timestamp durationMs outcome lastRun) }
    | _ => none
  | .writeBack written => match s.executor with
    | .finished task =>
      if s.tasks.contains task.id then some { s with
        tasks := s.tasks.insert task.id task
        files := save s.files written task
        executor := .idle }
      else some { s with executor := .idle }
    | _ => none
  | .create id expr prompt session createdAt now written =>
    match created cal id expr prompt session createdAt now with
    | some task => some { s with
        tasks := s.tasks.insert task.id task
        files := save s.files written task
        -- `notify_all` under the lock of the tasks
        scheduler := .scanning }
    | none => some s
  | .cancel id written => match s.tasks.get id with
    | none => some s
    | some task =>
      let task := { task with status := .cancelled }
      some { s with
        tasks := s.tasks.insert id task
        files := save s.files written task }

end Step

/-- A map whose keys are the ids of its tasks; in the source only `tasks_[task.id] = task` fills
it. -/
def Keyed (tasks : Tasks) : Prop := ∀ id task, tasks.get id = some task → task.id = id

/-- One run from a start on any tasks, with nothing queued yet. -/
def scheduler (cal : Calendar) : System State Event where
  Init s := Keyed s.tasks ∧ s.queue = [] ∧ s.executor = .idle ∧ s.scheduler = .scanning
  Step s e t := step cal s e = some t

/-- Evaluating the step function finds runs through one event. -/
theorem exists_run (cal : Calendar) (start : State) (hs : (scheduler cal).Init start)
    (es₁ : List Event) (e : Event) (es₂ : List Event)
    (p : List (State × Event) → State → List (State × Event) → State → Bool)
    (h : ((execute (step cal) start es₁).any fun a => (step cal a.2 e).any fun v =>
      (execute (step cal) v es₂).any fun b => p a.1 a.2 b.1 b.2) = true) :
    ∃ tr₁ u tr₂ t, Run (scheduler cal) (tr₁ ++ (u, e) :: tr₂) t ∧ p tr₁ u tr₂ t = true := by
  obtain ⟨⟨tr₁, u⟩, h₁, h⟩ := (Option.any_eq_true _ _).mp h
  obtain ⟨v, hv, h⟩ := (Option.any_eq_true _ _).mp h
  obtain ⟨⟨tr₂, t⟩, h₂, hp⟩ := (Option.any_eq_true _ _).mp h
  refine ⟨tr₁, u, tr₂, t, ?_, hp⟩
  have hM : ∀ s e t, step cal s e = some t → (scheduler cal).Step s e t := fun _ _ _ h => h
  have hr := (Run.execute hM (Run.init hs) h₁).step (hM u e v hv)
  simpa using Run.execute hM hr h₂

section PassTask

variable {cal : Calendar} {now : Time} {clock : Bytes → Time}

@[simp] theorem passTask_id (id : Bytes) (task : ScheduledTask) :
    (passTask cal now clock id task).id = task.id := by
  unfold passTask
  split_ifs
  · rfl
  · rfl
  · rfl

@[simp] theorem passTask_scheduleType (id : Bytes) (task : ScheduledTask) :
    (passTask cal now clock id task).scheduleType = task.scheduleType := by
  unfold passTask
  split_ifs
  · rfl
  · rfl
  · rfl

theorem passTask_of_not_due {id : Bytes} {task : ScheduledTask} (h : ¬ Due now task) :
    passTask cal now clock id task = task := if_neg h

theorem passTask_once {id : Bytes} {task : ScheduledTask} (h : Due now task)
    (ho : task.scheduleType = some .once) :
    passTask cal now clock id task = { task with status := .completed } := by
  rw [passTask, if_pos h, if_pos ho]

theorem passTask_repeating {id : Bytes} {task : ScheduledTask} (h : Due now task)
    (ho : task.scheduleType ≠ some .once) :
    passTask cal now clock id task = computeNextRun cal task (clock id) := by
  rw [passTask, if_pos h, if_neg ho]

theorem mem_pushed {tasks : Tasks} {id : Bytes} :
    id ∈ pushed now tasks ↔ ∃ task, tasks.get id = some task ∧ Due now task := by
  unfold pushed
  constructor
  · intro h
    obtain ⟨e, he, rfl⟩ := List.mem_map.mp h
    rw [List.mem_filter, decide_eq_true_eq] at he
    exact ⟨e.2, Map.mem_iff_get.mp he.1, he.2⟩
  · rintro ⟨task, ht, hd⟩
    apply List.mem_map.mpr
    refine ⟨(id, task), ?_, rfl⟩
    rw [List.mem_filter, decide_eq_true_eq]
    exact ⟨Map.mem_iff_get.mpr ht, hd⟩

theorem pushed_nodup (tasks : Tasks) : (pushed now tasks).Nodup :=
  (List.filter_sublist.map Prod.fst).nodup tasks.nodup

end PassTask

section Steps

variable {cal : Calendar} {s t : State} {e : Event}

/-- The ways a step goes. -/
inductive Moves (cal : Calendar) (s : State) : Event → State → Prop where
  | pass {now clock written} : s.scheduler = .scanning →
      Moves cal s (.pass now clock written) { s with
        tasks := s.tasks.mapValues (passTask cal now clock)
        queue := s.queue ++ pushed now s.tasks
        files := passFiles cal s.files s.tasks now clock written
        scheduler := .waiting (earliest now s.tasks) }
  | wake {deadline} : s.scheduler = .waiting deadline →
      Moves cal s .wake { s with scheduler := .scanning }
  | dequeue {id queue} : s.executor = .idle → s.queue = id :: queue →
      Moves cal s .dequeue { s with queue := queue, executor := .dequeued id }
  | skip {id} : s.executor = .dequeued id → Moves cal s .copy { s with executor := .idle }
  | copy {id task} : s.executor = .dequeued id → s.tasks.get id = some task →
      task.status ≠ .cancelled → Moves cal s .copy { s with executor := .copied task }
  | start {task} : s.executor = .copied task →
      Moves cal s .start { s with executor := .executing task }
  | finish {timestamp durationMs outcome lastRun task} : s.executor = .executing task →
      Moves cal s (.finish timestamp durationMs outcome lastRun) { s with
        executor := .finished (executed task timestamp durationMs outcome lastRun) }
  | writeBack {written task} : s.executor = .finished task → s.tasks.contains task.id →
      Moves cal s (.writeBack written) { s with
        tasks := s.tasks.insert task.id task
        files := save s.files written task
        executor := .idle }
  | discard {written task} : s.executor = .finished task → ¬ s.tasks.contains task.id →
      Moves cal s (.writeBack written) { s with executor := .idle }
  | create {id expr prompt session createdAt now written task} :
      created cal id expr prompt session createdAt now = some task →
      Moves cal s (.create id expr prompt session createdAt now written) { s with
        tasks := s.tasks.insert task.id task
        files := save s.files written task
        scheduler := .scanning }
  | refuse {id expr prompt session createdAt now written} :
      created cal id expr prompt session createdAt now = none →
      Moves cal s (.create id expr prompt session createdAt now written) s
  | cancel {id written task} : s.tasks.get id = some task →
      Moves cal s (.cancel id written) { s with
        tasks := s.tasks.insert id { task with status := .cancelled }
        files := save s.files written { task with status := .cancelled } }
  | unknown {id written} : s.tasks.get id = none → Moves cal s (.cancel id written) s

theorem step_cases (h : step cal s e = some t) : Moves cal s e t := by
  cases e with
  | pass now clock written =>
    simp only [step] at h
    split at h
    · obtain rfl := Option.some.inj h
      exact .pass ‹_›
    · cases h
  | wake =>
    simp only [step] at h
    split at h
    · obtain rfl := Option.some.inj h
      exact .wake ‹_›
    · cases h
  | dequeue =>
    simp only [step] at h
    split at h
    · obtain rfl := Option.some.inj h
      exact .dequeue ‹_› ‹_›
    · cases h
  | copy =>
    simp only [step] at h
    split at h
    · split at h
      · obtain rfl := Option.some.inj h
        exact .skip ‹_›
      · split_ifs at h
        · obtain rfl := Option.some.inj h
          exact .skip ‹_›
        · obtain rfl := Option.some.inj h
          exact .copy ‹_› ‹_› ‹_›
    · cases h
  | start =>
    simp only [step] at h
    split at h
    · obtain rfl := Option.some.inj h
      exact .start ‹_›
    · cases h
  | finish timestamp durationMs outcome lastRun =>
    simp only [step] at h
    split at h
    · obtain rfl := Option.some.inj h
      exact .finish ‹_›
    · cases h
  | writeBack written =>
    simp only [step] at h
    split at h
    · split_ifs at h
      · obtain rfl := Option.some.inj h
        exact .writeBack ‹_› ‹_›
      · obtain rfl := Option.some.inj h
        exact .discard ‹_› ‹_›
    · cases h
  | create id expr prompt session createdAt now written =>
    simp only [step] at h
    split at h
    · obtain rfl := Option.some.inj h
      exact .create ‹_›
    · obtain rfl := Option.some.inj h
      exact .refuse ‹_›
  | cancel id written =>
    simp only [step] at h
    split at h
    · obtain rfl := Option.some.inj h
      exact .unknown ‹_›
    · obtain rfl := Option.some.inj h
      exact .cancel ‹_›

/-- The task an execution works on. -/
def held : ExecutorPhase → Option ScheduledTask
  | .idle | .dequeued _ => none
  | .copied task | .executing task | .finished task => some task

theorem created_frame {id expr prompt session : Bytes} {createdAt now : Time}
    {task : ScheduledTask} (h : created cal id expr prompt session createdAt now = some task) :
    task.id = id ∧ task.status = .active := by
  have hf := parseSchedule_frame cal expr (newTask id expr prompt session createdAt)
  unfold created at h
  dsimp only at h
  split_ifs at h
  obtain rfl := Option.some.inj h
  exact ⟨hf.id, hf.status⟩

/-- The step starts `ExecuteTask` on a copy of the task. -/
def Starts (id : Bytes) (x : State × Event) : Prop :=
  x.2 matches .start ∧ ∃ task ∈ held x.1.executor, task.id = id

instance (id : Bytes) (x : State × Event) : Decidable (Starts id x) :=
  inferInstanceAs (Decidable (_ ∧ _))

/-- `tasks_[task.id] = task` -/
theorem get_stored {task : ScheduledTask} {id : Bytes} (h : task.id = id) (tasks : Tasks) :
    (tasks.insert task.id task).get id = some task := by
  rw [h, Map.get_insert_self]

theorem get_stored_other {task : ScheduledTask} {id : Bytes} (h : task.id ≠ id) (tasks : Tasks) :
    (tasks.insert task.id task).get id = tasks.get id :=
  Map.get_insert_other (Ne.symm h) _ _

/-- What a step makes of the task under an id. -/
theorem step_get (h : step cal s e = some t) (id : Bytes) :
    (t.tasks.get id = s.tasks.get id ∧ ∀ now clock written, e ≠ .pass now clock written) ∨
    (∃ now clock written, e = .pass now clock written ∧
      t.tasks.get id = (s.tasks.get id).map (passTask cal now clock id)) ∨
    (∃ written task, e = .writeBack written ∧ s.executor = .finished task ∧ task.id = id ∧
      (s.tasks.get id).isSome ∧ t.tasks.get id = some task) ∨
    (∃ expr prompt session createdAt now written task,
      e = .create id expr prompt session createdAt now written ∧
      created cal id expr prompt session createdAt now = some task ∧
      t.tasks.get id = some task) ∨
    (∃ written task, e = .cancel id written ∧ s.tasks.get id = some task ∧
      t.tasks.get id = some { task with status := .cancelled }) := by
  cases step_cases h with
  | pass => exact .inr (.inl ⟨_, _, _, rfl, Map.get_mapValues _ _ _⟩)
  | @writeBack written task hex hc =>
    by_cases hid : task.id = id
    · have hc' : (s.tasks.get id).isSome := by
        rw [← hid]
        exact hc
      exact .inr (.inr (.inl ⟨written, task, rfl, hex, hid, hc', get_stored hid s.tasks⟩))
    · exact .inl ⟨get_stored_other hid s.tasks, nofun⟩
  | @create id' expr prompt session createdAt now written task hc =>
    have hid := (created_frame hc).1
    by_cases he : id' = id
    · subst he
      exact .inr (.inr (.inr (.inl ⟨expr, prompt, session, createdAt, now, written, task, rfl, hc,
        get_stored hid s.tasks⟩)))
    · exact .inl ⟨get_stored_other (fun hc => he (hid.symm.trans hc)) s.tasks, nofun⟩
  | @cancel id' written task ht =>
    by_cases he : id' = id
    · subst he
      exact .inr (.inr (.inr (.inr ⟨written, task, rfl, ht, Map.get_insert_self _ _ _⟩)))
    · exact .inl ⟨Map.get_insert_other (Ne.symm he) _ _, nofun⟩
  | _ => exact .inl ⟨rfl, nofun⟩

/-- An accepted new task takes an id that is not in use. -/
def Fresh (cal : Calendar) (s : State) : Event → Prop
  | .create id expr prompt session createdAt now _ =>
      (created cal id expr prompt session createdAt now).isSome → ¬ s.tasks.contains id
  | _ => True

instance (cal : Calendar) (s : State) : (e : Event) → Decidable (Fresh cal s e)
  | .create .. => inferInstanceAs (Decidable (_ → ¬ _))
  | .pass .. | .wake | .dequeue | .copy | .start | .finish .. | .writeBack _ | .cancel .. =>
    isTrue trivial

/-- How an execution changes its copy. -/
structure Continues (a b : ScheduledTask) : Prop where
  id : b.id = a.id
  nextRun : b.nextRun = a.nextRun
  scheduleType : b.scheduleType = a.scheduleType
  status : b.status = a.status ∨ b.status = .failed

theorem Continues.refl (a : ScheduledTask) : Continues a a := ⟨rfl, rfl, rfl, .inl rfl⟩

theorem executed_continues (task : ScheduledTask) (timestamp : Bytes) (durationMs : ℤ)
    (outcome : Outcome) (lastRun : Time) :
    Continues task (executed task timestamp durationMs outcome lastRun) := by
  cases outcome with
  | returned result => exact ⟨rfl, rfl, rfl, .inl rfl⟩
  | threw what =>
    refine ⟨rfl, rfl, rfl, ?_⟩
    by_cases hm : task.maxRetries ≤ task.failCount + 1
    · exact .inr (if_pos hm)
    · exact .inl (if_neg hm)

/-- A copy is taken from the map, and only the execution changes it. -/
theorem step_held (h : step cal s e = some t) {task : ScheduledTask}
    (ht : task ∈ held t.executor) :
    (∃ task₀ ∈ held s.executor, Continues task₀ task) ∨
    (e = .copy ∧ ∃ id, s.executor = .dequeued id ∧ s.tasks.get id = some task ∧
      task.status ≠ .cancelled) := by
  have same : ∀ u : State, u.executor = s.executor → task ∈ held u.executor →
      ∃ task₀ ∈ held s.executor, Continues task₀ task :=
    fun u hu hm => ⟨task, hu ▸ hm, .refl task⟩
  cases step_cases h with
  | copy hex hget hc =>
    obtain rfl := Option.some.inj ht
    exact .inr ⟨rfl, _, hex, hget, hc⟩
  | start hex =>
    refine .inl ⟨task, ?_, .refl task⟩
    rw [hex]
    exact ht
  | @finish timestamp durationMs outcome lastRun task₀ hex =>
    obtain rfl := Option.some.inj ht
    refine .inl ⟨task₀, ?_, executed_continues _ _ _ _ _⟩
    rw [hex]
    rfl
  | dequeue | skip | writeBack | discard => cases ht
  | _ => exact .inl (same _ rfl ht)

/-- Nothing removes a task. -/
theorem step_contains (h : step cal s e = some t) {id : Bytes} (hc : s.tasks.contains id) :
    t.tasks.contains id := by
  unfold Map.contains at hc ⊢
  rcases step_get h id with ⟨he, -⟩ | ⟨_, _, _, -, he⟩ | ⟨_, _, -, -, -, -, he⟩ |
    ⟨_, _, _, _, _, _, _, -, -, he⟩ | ⟨_, _, -, -, he⟩
  · rw [he]
    exact hc
  · rw [he, Option.isSome_map]
    exact hc
  · rw [he]
    rfl
  · rw [he]
    rfl
  · rw [he]
    rfl

theorem step_keyed (h : step cal s e = some t) (hk : Keyed s.tasks) : Keyed t.tasks := by
  intro id task ht
  rcases step_get h id with ⟨he, -⟩ | ⟨_, _, _, -, he⟩ | ⟨_, task', -, -, hid, -, he⟩ |
    ⟨_, _, _, _, _, _, task', -, hid, he⟩ | ⟨_, task', -, hs, he⟩
  · exact hk id task (he ▸ ht)
  · rw [he] at ht
    obtain ⟨task', ht', rfl⟩ := Option.map_eq_some_iff.mp ht
    rw [passTask_id]
    exact hk id task' ht'
  · obtain rfl : task' = task := Option.some.inj (he.symm.trans ht)
    exact hid
  · obtain rfl : task' = task := Option.some.inj (he.symm.trans ht)
    exact (created_frame hid).1
  · obtain rfl : { task' with status := .cancelled } = task := Option.some.inj (he.symm.trans ht)
    exact hk id task' hs

/-- What a step saves under an id is what it leaves in the map. -/
theorem step_files (h : step cal s e = some t) (hk : Keyed s.tasks) (id : Bytes) :
    t.files id = s.files id ∨ ∃ task, t.files id = some task ∧ t.tasks.get id = some task := by
  have stored : ∀ (written : Bool) (task : ScheduledTask),
      save s.files written task id = s.files id ∨
      ∃ task', save s.files written task id = some task' ∧
        (s.tasks.insert task.id task).get id = some task' := by
    intro written task
    unfold save
    split_ifs
    · by_cases hid : task.id = id
      · rw [← hid, Function.update_self]
        exact .inr ⟨task, rfl, Map.get_insert_self _ _ _⟩
      · exact .inl (Function.update_of_ne (Ne.symm hid) _ _)
    · exact .inl rfl
  cases step_cases h with
  | pass =>
    unfold passFiles
    dsimp only
    rw [Map.get_mapValues]
    cases hg : s.tasks.get id with
    | none => exact .inl rfl
    | some task =>
      dsimp only
      split_ifs
      · exact .inr ⟨_, rfl, rfl⟩
      · exact .inl rfl
  | writeBack | create => exact stored _ _
  | @cancel id' written task ht =>
    obtain rfl := hk id' task ht
    exact stored written { task with status := .cancelled }
  | _ => exact .inl rfl

theorem run_keyed {tr : List (State × Event)} (h : Run (scheduler cal) tr s) :
    Keyed s.tasks := by
  refine h.invariant (I := fun s => Keyed s.tasks) (fun s (hi : (scheduler cal).Init s) => hi.1) ?_
  intro s e t hI hs
  exact step_keyed hs hI

theorem run_held_stored {tr : List (State × Event)} (h : Run (scheduler cal) tr s) :
    ∀ copy ∈ held s.executor, s.tasks.contains copy.id := by
  induction h with
  | init h =>
    intro copy hc
    rw [h.2.2.1] at hc
    cases hc
  | @step tr s e t hr hs ih =>
    intro copy hc
    rcases step_held hs hc with ⟨copy₀, hc₀, hcont⟩ | ⟨-, id, -, hg, -⟩
    · rw [hcont.id]
      exact step_contains hs (ih copy₀ hc₀)
    · apply step_contains hs
      rw [run_keyed hr id copy hg]
      unfold Map.contains
      rw [hg]
      rfl

end Steps

namespace Sample

def second (n : ℤ) : Time := n * 10 ^ 9

def taskId (drawn : ℕ) : Bytes := generateTaskId (second 100) drawn

def start : State := { tasks := Map.empty, files := fun _ => none }

theorem start_init (cal : Calendar) : (scheduler cal).Init start := by
  refine ⟨?_, rfl, rfl, rfl⟩
  intro id task h
  cases h

/-- A call of `CreateTask` that draws the id in the second 100. -/
def createTask (drawn : ℕ) (expr : String) (n : ℤ) : Event :=
  .create (taskId drawn) (bytes expr) (bytes "check the battery") (bytes "default") (second n)
    (second n) true

def passAt (n : ℤ) : Event := .pass (second n) (fun _ => second n) fun _ => true

def finishAt (n : ℤ) : Event :=
  .finish (utc.strftime (bytes "%Y-%m-%dT%H:%M:%S") (gmtime n)) 1000 (.returned (bytes "done"))
    (second n)

end Sample

end TaskScheduler
