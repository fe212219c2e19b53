import Mathlib.Logic.Relation
import TizenClaw.ByteString
import TizenClaw.TransitionSystem
import TizenClaw.WaitQueue

/-! The threads of the task scheduler: the timer thread, the executor, the callers that take the
mutex of the tasks, and starting and stopping. -/
namespace SchedulerThreads

open ByteString WaitQueue TransitionSystem

/-- Where the thread of `SchedulerLoop` stands. It holds the mutex of the tasks in `passing`, and
its wait has no predicate. -/
inductive Timer where
  | head
  | entering
  | passing
  | blocked
  | waking
  | done
  deriving DecidableEq, Repr

/-- A caller that creates a task notifies the timer thread before it gives the mutex back. -/
inductive TasksHolder where
  | scheduler
  | caller (creating : Bool)
  deriving DecidableEq, Repr

/-- What the thread in `Stop` does next. -/
inductive StopPhase where
  | idle
  | storing
  | wakingScheduler
  | wakingExecutor
  | joiningScheduler
  | joiningExecutor
  deriving DecidableEq, Repr

structure State where
  running : Bool := false
  scheduler : Timer := .done
  tasks : Option TasksHolder := none
  queue : Queue Bytes := {}
  stop : StopPhase := .idle
  deriving DecidableEq, Repr

inductive Event where
  | start
  | stop
  | scheduler
  | timeout
  | lock (creating : Bool)
  | notify
  | unlock
  | queue (m : Move Bytes)
  deriving DecidableEq, Repr

def wakeScheduler (s : State) : State :=
  if s.scheduler = .blocked then { s with scheduler := .waking } else s

/-- `SchedulerLoop`. A pass ends in the wait; what it puts into the queue are steps of the
queue. -/
def schedulerLoop (s : State) : Option State :=
  match s.scheduler with
  | .head => some { s with scheduler := if s.running then .entering else .done }
  | .entering =>
    if s.tasks = none then some { s with scheduler := .passing, tasks := some .scheduler } else none
  | .passing =>
    if s.queue.announcing = 0 ∧ (s.queue.holder = none ∨ s.queue.holder = some .consumer) then
      some { s with scheduler := .blocked, tasks := none }
    else none
  | .blocked => none
  | .waking => if s.tasks = none then some { s with scheduler := .head } else none
  | .done => none

/-- The executor takes from the queue; the timer thread puts, one task after the other, in a
pass. -/
def mayMove (s : State) : Move Bytes → Bool
  | .consume => true
  | .wake => true
  | .lock _ => s.scheduler = .passing ∧ s.queue.announcing = 0
  | .push => s.scheduler = .passing
  | .notify => s.scheduler = .passing

/-- One thread starts and stops the scheduler. Callers take the mutex of the tasks at any time;
what the executor does with a task counts among them. -/
def step (s : State) : Event → Option State
  | .start =>
    if s.stop = .idle then
      some (if s.running then s
        else { s with
          running := true, scheduler := .head, queue := { s.queue with consumer := .head } })
    else none
  | .stop =>
    match s.stop with
    | .idle => some (if s.running then { s with stop := .storing } else s)
    | .storing => some { s with running := false, stop := .wakingScheduler }
    | .wakingScheduler => some { wakeScheduler s with stop := .wakingExecutor }
    | .wakingExecutor => some { s with queue := s.queue.signal, stop := .joiningScheduler }
    | .joiningScheduler =>
      if s.scheduler = .done then some { s with stop := .joiningExecutor } else none
    | .joiningExecutor =>
      if s.queue.consumer = .done then some { s with stop := .idle } else none
  | .scheduler => schedulerLoop s
  | .timeout => if s.scheduler = .blocked then some { s with scheduler := .waking } else none
  | .lock creating =>
    if s.tasks = none then some { s with tasks := some (.caller creating) } else none
  | .notify =>
    if s.tasks = some (.caller true) then
      some { wakeScheduler s with tasks := some (.caller false) }
    else none
  | .unlock => if s.tasks = some (.caller false) then some { s with tasks := none } else none
  | .queue m =>
    if mayMove s m then
      (s.queue.move (fun ids id => ids ++ [id]) s.running m).map fun q => { s with queue := q }
    else none

def threads : System State Event where
  Init s := s = {}
  Step s e t := step s e = some t

/-- `Stop` has notified the timer thread. -/
def NotifiedScheduler (s : State) : Prop :=
  s.stop = .wakingExecutor ∨ s.stop = .joiningScheduler ∨ s.stop = .joiningExecutor

def NotifiedExecutor (s : State) : Prop := s.stop = .joiningScheduler ∨ s.stop = .joiningExecutor

/-- `Stop` has notified a loop, but its thread is blocked, and nobody is about to notify it
again. -/
def Lost (s : State) : Prop :=
  s.running = false ∧
    (NotifiedScheduler s ∧ s.scheduler = .blocked ∧ s.tasks ≠ some (.caller true) ∨
      NotifiedExecutor s ∧ s.queue.consumer = .blocked ∧ ¬ Producing s.queue)

def CanJoin (s : State) : Prop :=
  ∃ t, Relation.ReflTransGen (fun s t => ∃ e, step s e = some t) s t ∧ t.stop = .idle ∧
    t.scheduler = .done ∧ t.queue.consumer = .done

/-- `Stop` notifies the timer thread only when that does not stand between reading the flag as
set and the block, and the executor only when that does not stand between the test of its wait
and the block. -/
def Timely (s : State) (e : Event) : Prop :=
  e = .stop →
    (s.stop = .wakingScheduler → s.scheduler ≠ .entering ∧ s.scheduler ≠ .passing) ∧
    (s.stop = .wakingExecutor → s.queue.consumer ≠ .parking)

instance (s : State) (e : Event) : Decidable (Timely s e) :=
  inferInstanceAs (Decidable (_ → _ ∧ _))

/-- The timer thread ends without blocking again. -/
def Ending (t : Timer) : Prop := t = .head ∨ t = .waking ∨ t = .done

structure Inv (s : State) : Prop where
  held : Held s.queue
  mutex : s.tasks = some .scheduler ↔ s.scheduler = .passing
  producing : Producing s.queue → s.scheduler = .passing
  stopped : s.stop = .wakingScheduler ∨ NotifiedScheduler s → s.running = false
  ending : NotifiedScheduler s → Ending s.scheduler
  awake : NotifiedExecutor s → Awake s.queue
  left : s.stop = .joiningExecutor → s.scheduler = .done
  joined : s.stop = .idle → s.running = false → s.scheduler = .done ∧ s.queue.consumer = .done

variable {s t : State} {e : Event}

theorem wakeScheduler_inv (hI : Inv s) : Inv (wakeScheduler s) := by
  unfold wakeScheduler
  split_ifs with hb
  · constructor <;> grind [Inv, Ending, NotifiedScheduler, NotifiedExecutor]
  · exact hI

/-- A caller may take the mutex of the tasks and give it back. -/
theorem Inv.caller (hI : Inv s) (hn : s.tasks ≠ some .scheduler) {x : Option TasksHolder}
    (hx : x ≠ some .scheduler) : Inv { s with tasks := x } := by
  have hmutex : x = some .scheduler ↔ s.scheduler = .passing := by
    rw [← hI.mutex]
    exact iff_of_false hx hn
  exact ⟨hI.held, hmutex, hI.producing, hI.stopped, hI.ending, hI.awake, hI.left, hI.joined⟩

theorem start_inv (hI : Inv s) (hs : step s .start = some t) : Inv t := by
  simp only [step, Option.ite_none_right_eq_some, Option.some.injEq] at hs
  obtain ⟨hi, rfl⟩ := hs
  cases hr : s.running with
  | true => exact hI
  | false =>
    obtain ⟨hs, hd⟩ := hI.joined hi hr
    have hheld := hI.held
    have hmutex := hI.mutex
    have hproducing := hI.producing
    constructor
    · simpa [Held, hd] using hheld
    · simpa [hs] using hmutex
    · simpa [Producing, hs] using hproducing
    all_goals simp [hi, NotifiedScheduler, NotifiedExecutor]

theorem scheduler_inv (hI : Inv s) (hs : schedulerLoop s = some t) : Inv t := by
  unfold schedulerLoop at hs
  split at hs
  · obtain rfl := Option.some.inj hs
    constructor <;> grind [Inv, Ending, NotifiedScheduler, NotifiedExecutor]
  · simp only [Option.ite_none_right_eq_some, Option.some.injEq] at hs
    obtain ⟨hn, rfl⟩ := hs
    constructor <;> grind [Inv, Ending, NotifiedScheduler, NotifiedExecutor]
  · simp only [Option.ite_none_right_eq_some, Option.some.injEq] at hs
    obtain ⟨hn, rfl⟩ := hs
    -- a pass ends only when it is not in the middle of putting a task
    have hp : ¬ Producing s.queue := by
      rintro (⟨x, hx⟩ | ha)
      · simp [hx] at hn
      · omega
    constructor <;> grind [Inv, Ending, NotifiedScheduler, NotifiedExecutor]
  · cases hs
  · simp only [Option.ite_none_right_eq_some, Option.some.injEq] at hs
    obtain ⟨hn, rfl⟩ := hs
    constructor <;> grind [Inv, Ending, NotifiedScheduler, NotifiedExecutor]
  · cases hs

theorem stop_inv (hI : Inv s) (hp : Timely s .stop) (hs : step s .stop = some t) : Inv t := by
  obtain ⟨htimer, hexecutor⟩ := hp rfl
  simp only [step] at hs
  split at hs
  · rename_i hi
    obtain rfl := Option.some.inj hs
    cases hr : s.running with
    | true => constructor <;> grind [Inv, NotifiedScheduler, NotifiedExecutor]
    | false => exact hI
  · obtain rfl := Option.some.inj hs
    constructor <;> grind [Inv, NotifiedScheduler, NotifiedExecutor]
  · rename_i hn
    obtain rfl := Option.some.inj hs
    have hw := wakeScheduler_inv hI
    have hending : Ending (wakeScheduler s).scheduler := by
      obtain ⟨he, hpass⟩ := htimer hn
      unfold wakeScheduler
      split_ifs with hb
      · exact .inr (.inl rfl)
      · cases hc : s.scheduler <;> simp_all [Ending]
    have hrunning : (wakeScheduler s).running = false := by
      have hr := hI.stopped (.inl hn)
      unfold wakeScheduler
      split_ifs <;> exact hr
    constructor <;> grind [Inv, NotifiedScheduler, NotifiedExecutor]
  · rename_i hn
    obtain rfl := Option.some.inj hs
    have hnotified : NotifiedScheduler s := .inl hn
    refine ⟨signal_held hI.held, hI.mutex, ?_, fun _ => hI.stopped (.inr hnotified),
      fun _ => hI.ending hnotified, fun _ => signal_awake (hexecutor hn), by simp, by simp⟩
    rw [Producing, signal_holder, signal_announcing]
    exact hI.producing
  · rename_i hj
    simp only [Option.ite_none_right_eq_some, Option.some.injEq] at hs
    obtain ⟨hd, rfl⟩ := hs
    constructor <;> grind [Inv, NotifiedScheduler, NotifiedExecutor]
  · rename_i hj
    simp only [Option.ite_none_right_eq_some, Option.some.injEq] at hs
    obtain ⟨hd, rfl⟩ := hs
    constructor <;> grind [Inv, NotifiedScheduler, NotifiedExecutor]

theorem queue_inv {m : Move Bytes} (hI : Inv s) (hs : step s (.queue m) = some t) : Inv t := by
  simp only [step, Option.ite_none_right_eq_some, Option.map_eq_some_iff] at hs
  obtain ⟨hm, q, hq, rfl⟩ := hs
  refine ⟨move_held hq hI.held, hI.mutex, fun hp => ?_, hI.stopped, hI.ending,
    fun hn => ?_, hI.left,
    fun hi hr => ⟨(hI.joined hi hr).1, move_done hq (hI.joined hi hr).2⟩⟩
  · cases m with
    | consume => exact hI.producing (consume_producing hq hp)
    | wake =>
      simp only [Queue.move, Option.ite_none_right_eq_some, Option.some.injEq] at hq
      obtain ⟨-, rfl⟩ := hq
      exact hI.producing hp
    | lock x =>
      simp only [mayMove, Bool.decide_and, Bool.and_eq_true, decide_eq_true_eq] at hm
      exact hm.1
    | push => simpa [mayMove] using hm
    | notify => simpa [mayMove] using hm
  · rw [hI.stopped (.inr (.inr hn))] at hq
    exact move_awake hq (hI.awake hn)

theorem step_inv (hI : Inv s) (hp : Timely s e) (hs : step s e = some t) : Inv t := by
  cases e with
  | start => exact start_inv hI hs
  | stop => exact stop_inv hI hp hs
  | scheduler => exact scheduler_inv hI hs
  | timeout =>
    simp only [step, Option.ite_none_right_eq_some, Option.some.injEq] at hs
    obtain ⟨hb, rfl⟩ := hs
    constructor <;> grind [Inv, Ending, NotifiedScheduler, NotifiedExecutor]
  | lock creating =>
    simp only [step, Option.ite_none_right_eq_some, Option.some.injEq] at hs
    obtain ⟨hn, rfl⟩ := hs
    exact hI.caller (by simp [hn]) (by simp)
  | notify =>
    simp only [step, Option.ite_none_right_eq_some, Option.some.injEq] at hs
    obtain ⟨hn, rfl⟩ := hs
    have hw : (wakeScheduler s).tasks = s.tasks := by
      unfold wakeScheduler
      split_ifs <;> rfl
    exact (wakeScheduler_inv hI).caller (by simp [hw, hn]) (by simp)
  | unlock =>
    simp only [step, Option.ite_none_right_eq_some, Option.some.injEq] at hs
    obtain ⟨hn, rfl⟩ := hs
    exact hI.caller (by simp [hn]) (by simp)
  | queue m => exact queue_inv hI hs

theorem init_inv : Inv {} := by
  constructor
  · simp [Held]
  · simp
  · simp [Producing]
  all_goals simp [NotifiedScheduler, NotifiedExecutor]

section Join

theorem CanJoin.of_step (hs : step s e = some t) (h : CanJoin t) : CanJoin s := by
  obtain ⟨u, hu, hd⟩ := h
  exact ⟨u, .head ⟨e, hs⟩ hu, hd⟩

theorem CanJoin.after (hI : Inv s) (hs : step s e = some t) (hne : e ≠ .stop)
    (h : Inv t → CanJoin t) : CanJoin s := by
  have hp : Timely s e := fun he => absurd he hne
  exact .of_step hs (h (step_inv hI hp hs))

/-- The executor takes its last steps. -/
theorem canJoin_executor (hI : Inv s) (hj : s.stop = .joiningExecutor) : CanJoin s := by
  induction hn : s.queue.consumer.remaining using Nat.strong_induction_on generalizing s with
  | _ n ih =>
    have hnotified : NotifiedExecutor s := .inr hj
    have hs := hI.left hj
    by_cases hd : s.queue.consumer = .done
    · have hstep : step s .stop = some { s with stop := .idle } := by
        simp [step, hj, hd]
      exact ⟨_, .single ⟨_, hstep⟩, rfl, hs, hd⟩
    · have hu : Unlocked s.queue := by
        intro x hx
        have hpass := hI.producing (.inl ⟨x, hx⟩)
        rw [hs] at hpass
        cases hpass
      obtain ⟨r, hr, hlt, -⟩ := consume_progress (hI.awake hnotified) hI.held hu hd
      have hstep : step s (.queue .consume) = some { s with queue := r } := by
        simp [step, mayMove, Queue.move, hI.stopped (.inr (.inr hnotified)), hr]
      exact .after hI hstep (by simp) fun hr => ih _ (hn ▸ hlt) hr hj rfl

theorem canJoin_done (hI : Inv s) (hj : NotifiedExecutor s) (hd : s.scheduler = .done) :
    CanJoin s := by
  rcases hj with hj | hj
  · have hstep : step s .stop = some { s with stop := .joiningExecutor } := by
      simp [step, hj, hd]
    have hp : Timely s .stop := fun _ => ⟨by simp [hj], by simp [hj]⟩
    exact .of_step hstep (canJoin_executor (step_inv hI hp hstep) rfl)
  · exact canJoin_executor hI hj

theorem canJoin_head (hI : Inv s) (hj : NotifiedExecutor s) (hh : s.scheduler = .head) :
    CanJoin s := by
  have hstep : step s .scheduler = some { s with scheduler := .done } := by
    simp [step, schedulerLoop, hh, hI.stopped (.inr (.inr hj))]
  exact .after hI hstep (by simp) fun hr => canJoin_done hr hj rfl

/-- The timer thread takes its last steps once no caller holds the mutex. -/
theorem canJoin_free (hI : Inv s) (hj : NotifiedExecutor s) (hn : s.tasks = none) : CanJoin s := by
  rcases hI.ending (.inr hj) with hh | hw | hd
  · exact canJoin_head hI hj hh
  · have hstep : step s .scheduler = some { s with scheduler := .head } := by
      simp [step, schedulerLoop, hw, hn]
    exact .after hI hstep (by simp) fun hr => canJoin_head hr hj rfl
  · exact canJoin_done hI hj hd

theorem canJoin_unlock (hI : Inv s) (hj : NotifiedExecutor s)
    (hc : s.tasks = some (.caller false)) : CanJoin s := by
  have hstep : step s .unlock = some { s with tasks := none } := by
    simp [step, hc]
  exact .after hI hstep (by simp) fun hr => canJoin_free hr hj rfl

theorem canJoin_of_notified (hI : Inv s) (hj : NotifiedExecutor s) : CanJoin s := by
  have hending := hI.ending (.inr hj)
  cases hc : s.tasks with
  | none => exact canJoin_free hI hj hc
  | some holder =>
    cases holder with
    | scheduler =>
      have hpass := hI.mutex.mp hc
      rcases hending with hh | hw | hd
      · rw [hh] at hpass; cases hpass
      · rw [hw] at hpass; cases hpass
      · rw [hd] at hpass; cases hpass
    | caller creating =>
      cases creating with
      | false => exact canJoin_unlock hI hj hc
      | true =>
        have hb : s.scheduler ≠ .blocked := by
          intro hb
          rw [hb] at hending
          simp [Ending] at hending
        have hstep : step s .notify = some { s with tasks := some (.caller false) } := by
          simp [step, hc, wakeScheduler, hb]
        exact .after hI hstep (by simp) fun hr => canJoin_unlock hr hj rfl

end Join

theorem run_inv {tr} (h : Run threads tr s) (hp : ∀ x ∈ tr, Timely x.1 x.2) : Inv s := by
  apply h.guarded_invariant (P := Timely) _ _ hp
  · rintro s rfl
    exact init_inv
  · intro s e t hI hp hs
    exact step_inv hI hp hs

theorem run_wakes {tr} (h : Run threads tr s) (hp : ∀ x ∈ tr, Timely x.1 x.2) :
    ¬ Lost s ∧ (NotifiedExecutor s → CanJoin s) := by
  have hI := run_inv h hp
  constructor
  · rintro ⟨-, ⟨hn, hb, -⟩ | ⟨hn, hb, -⟩⟩
    · have hending := hI.ending hn
      rw [hb] at hending
      simp [Ending] at hending
    · exact (hI.awake hn).2 hb
  · exact canJoin_of_notified hI

end SchedulerThreads
