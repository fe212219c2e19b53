import Mathlib.Logic.Relation
import TizenClaw.TransitionSystem
import TizenClaw.WaitQueue

/-! The event bus: publishers, the dispatcher thread, and starting and stopping it. -/
namespace EventBus

open WaitQueue TransitionSystem

/-- What the thread in `Stop` does next. -/
inductive StopPhase where
  | idle
  | storing
  | notifying
  | joining
  deriving DecidableEq, Repr

/-- The content of the events plays no part. -/
structure State (α : Type*) where
  running : Bool := false
  queue : Queue α := {}
  stop : StopPhase := .idle

inductive Event (α : Type*) where
  | start
  | stop
  | queue (m : Move α)
  deriving DecidableEq, Repr

variable {α : Type*}

def kMaxQueueSize : ℕ := 100

/-- `Publish` drops the oldest event of a full queue. -/
def put (events : List α) (event : α) : List α :=
  (if kMaxQueueSize ≤ events.length then events.tail else events) ++ [event]

/-- One thread starts and stops the bus; publishers come and go. A stopped bus has been
joined. -/
def step (s : State α) : Event α → Option (State α)
  | .start =>
    if s.stop = .idle then
      some (if s.running then s
        else { s with running := true, queue := { s.queue with consumer := .head } })
    else none
  | .stop =>
    match s.stop with
    | .idle => some (if s.running then { s with stop := .storing } else s)
    | .storing => some { s with running := false, stop := .notifying }
    | .notifying => some { s with queue := s.queue.signal, stop := .joining }
    | .joining => if s.queue.consumer = .done then some { s with stop := .idle } else none
  | .queue m => (s.queue.move put s.running m).map fun q => { s with queue := q }

def bus (α : Type*) : System (State α) (Event α) where
  Init s := s = {}
  Step s e t := step s e = some t

/-- `Stop` has notified, but the dispatcher is blocked, and nobody is about to notify again. -/
def Lost (s : State α) : Prop :=
  s.running = false ∧ s.stop = .joining ∧ s.queue.consumer = .blocked ∧ ¬ Producing s.queue

/-- `Stop` can still return. -/
def CanJoin (s : State α) : Prop :=
  ∃ t, Relation.ReflTransGen (fun s t => ∃ e, step s e = some t) s t ∧ t.stop = .idle ∧
    t.queue.consumer = .done

/-- `Stop` does not notify while the dispatcher is between the test of its wait and the block. -/
def Timely (s : State α) (e : Event α) : Prop :=
  e = .stop → s.stop = .notifying → s.queue.consumer ≠ .parking

instance (s : State Unit) (e : Event Unit) : Decidable (Timely s e) :=
  inferInstanceAs (Decidable (_ → _ → _))

structure Inv (s : State α) : Prop where
  held : Held s.queue
  stopped : s.stop = .notifying ∨ s.stop = .joining → s.running = false
  awake : s.stop = .joining → Awake s.queue
  joined : s.stop = .idle → s.running = false → s.queue.consumer = .done

theorem step_inv {s t : State α} {e : Event α} (hI : Inv s) (hp : Timely s e)
    (hs : step s e = some t) : Inv t := by
  cases e with
  | start =>
    simp only [step, Option.ite_none_right_eq_some, Option.some.injEq] at hs
    obtain ⟨hi, rfl⟩ := hs
    cases hr : s.running with
    | true => exact hI
    | false =>
      have hd := hI.joined hi hr
      refine ⟨?_, by simp [hi], by simp [hi], by simp⟩
      simpa [Held, hd] using hI.held
  | stop =>
    simp only [step] at hs
    split at hs
    · rename_i hi
      obtain rfl := Option.some.inj hs
      cases hr : s.running with
      | true => exact ⟨hI.held, by simp, by simp, by simp⟩
      | false => exact hI
    · obtain rfl := Option.some.inj hs
      exact ⟨hI.held, by simp, by simp, by simp⟩
    · rename_i hn
      obtain rfl := Option.some.inj hs
      exact ⟨signal_held hI.held, fun _ => hI.stopped (.inl hn),
        fun _ => signal_awake (hp rfl hn), by simp⟩
    · rename_i hj
      simp only [Option.ite_none_right_eq_some, Option.some.injEq] at hs
      obtain ⟨hd, rfl⟩ := hs
      exact ⟨hI.held, by simp, by simp, fun _ _ => hd⟩
  | queue m =>
    obtain ⟨q, hq, rfl⟩ := Option.map_eq_some_iff.mp hs
    refine ⟨move_held hq hI.held, hI.stopped, fun hj => ?_, fun hi hr => ?_⟩
    · rw [hI.stopped (.inr hj)] at hq
      exact move_awake hq (hI.awake hj)
    · exact move_done hq (hI.joined hi hr)

theorem init_inv : Inv ({} : State α) := by
  constructor
  · simp [Held]
  · simp
  · simp
  · simp

section Join

variable {s t : State α}

theorem CanJoin.of_step {e : Event α} (hs : step s e = some t) (h : CanJoin t) : CanJoin s := by
  obtain ⟨u, hu, hd⟩ := h
  exact ⟨u, .head ⟨e, hs⟩ hu, hd⟩

theorem timely_queue (m : Move α) : Timely s (.queue m) := nofun

/-- The dispatcher takes its last steps, and `Stop` joins it. -/
theorem canJoin_of_unlocked (hI : Inv s) (hj : s.stop = .joining) (hu : Unlocked s.queue) :
    CanJoin s := by
  induction hn : s.queue.consumer.remaining using Nat.strong_induction_on generalizing s with
  | _ n ih =>
    by_cases hd : s.queue.consumer = .done
    · have hs : step s .stop = some { s with stop := .idle } := by
        simp [step, hj, hd]
      exact ⟨_, .single ⟨_, hs⟩, rfl, hd⟩
    · obtain ⟨r, hr, hlt, hur⟩ := consume_progress (hI.awake hj) hI.held hu hd
      have hs : step s (.queue .consume) = some { s with queue := r } := by
        simp [step, Queue.move, hI.stopped (.inr hj), hr]
      exact .of_step hs (ih _ (hn ▸ hlt) (step_inv hI (timely_queue _) hs) hj hur rfl)

theorem canJoin_of_joining (hI : Inv s) (hj : s.stop = .joining) : CanJoin s := by
  by_cases hu : Unlocked s.queue
  · exact canJoin_of_unlocked hI hj hu
  · simp only [Unlocked, not_forall, not_not] at hu
    obtain ⟨x, hx⟩ := hu
    -- the publisher in the way puts its event and gives the mutex back
    have hs : step s (.queue .push) = some { s with queue :=
        { s.queue with
          entries := put s.queue.entries x, holder := none,
          announcing := s.queue.announcing + 1 } } := by
      simp [step, Queue.move, hx]
    apply CanJoin.of_step hs
    exact canJoin_of_unlocked (step_inv hI (timely_queue _) hs) hj (by simp [Unlocked])

end Join

theorem run_inv {tr} {s : State α} (h : Run (bus α) tr s)
    (hp : ∀ x ∈ tr, Timely x.1 x.2) : Inv s := by
  apply h.guarded_invariant (P := Timely) _ _ hp
  · rintro s rfl
    exact init_inv
  · intro s e t hI hp hs
    exact step_inv hI hp hs

/-- If `Stop` never notifies between the test and the block of the dispatcher, no wake-up is
lost. -/
theorem run_wakes {tr} {s : State α} (h : Run (bus α) tr s) (hp : ∀ x ∈ tr, Timely x.1 x.2) :
    ¬ Lost s ∧ (s.stop = .joining → CanJoin s) := by
  have hI := run_inv h hp
  constructor
  · rintro ⟨-, hj, hb, -⟩
    exact (hI.awake hj).2 hb
  · exact canJoin_of_joining hI

end EventBus
