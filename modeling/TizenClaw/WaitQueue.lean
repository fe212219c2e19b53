import Mathlib.Data.Nat.Basic

/-! A queue under a mutex, with a condition variable and the one thread that takes from it as
long as a flag is set. The flag is outside of the mutex. -/
namespace WaitQueue

/-- Where the consumer stands. It reads the flag at the head of its loop, waits until there is an
entry or the flag is down, and takes an entry; between the test of the wait and the block the
thread is `parking`. -/
inductive Consumer where
  | head
  | entering
  | testing
  | parking
  | blocked
  | waking
  | serving
  | outside
  | done
  deriving DecidableEq, Repr

inductive Holder (α : Type*) where
  | consumer
  | producer (x : α)
  deriving DecidableEq, Repr

/-- `announcing` counts the producers that are about to notify. -/
structure Queue (α : Type*) where
  entries : List α := []
  holder : Option (Holder α) := none
  announcing : ℕ := 0
  consumer : Consumer := .done
  deriving DecidableEq, Repr

inductive Move (α : Type*) where
  | consume
  | wake
  | lock (x : α)
  | push
  | notify
  deriving DecidableEq, Repr

variable {α : Type*}

section Moves

/-- A notification, for the one thread that waits. -/
def Queue.signal (q : Queue α) : Queue α :=
  if q.consumer = .blocked then { q with consumer := .waking } else q

/-- The consumer's next step, where it has one. -/
def Queue.consume (running : Bool) (q : Queue α) : Option (Queue α) :=
  match q.consumer with
  | .head => some { q with consumer := if running then .entering else .done }
  | .entering | .waking =>
    if q.holder.isNone then some { q with consumer := .testing, holder := some .consumer } else none
  | .testing =>
    some { q with consumer := if q.entries.isEmpty && running then .parking else .serving }
  | .parking => some { q with consumer := .blocked, holder := none }
  | .blocked => none
  | .serving =>
    match q.entries with
    | [] => some { q with consumer := if running then .head else .done, holder := none }
    | _ :: rest => some { q with entries := rest, consumer := .outside, holder := none }
  | .outside => some { q with consumer := .head }
  | .done => none

/-- One step of a thread on the queue. A wait may end without a notification. -/
def Queue.move (put : List α → α → List α) (running : Bool) (q : Queue α) :
    Move α → Option (Queue α)
  | .consume => q.consume running
  | .wake => if q.consumer = .blocked then some { q with consumer := .waking } else none
  | .lock x => if q.holder.isNone then some { q with holder := some (.producer x) } else none
  | .push =>
    match q.holder with
    | some (.producer x) =>
      some { q with entries := put q.entries x, holder := none, announcing := q.announcing + 1 }
    | _ => none
  | .notify =>
    if 0 < q.announcing then some ({ q with announcing := q.announcing - 1 } : Queue α).signal
    else none

end Moves

/-- The consumer neither waits nor is about to. -/
def Awake (q : Queue α) : Prop := q.consumer ≠ .parking ∧ q.consumer ≠ .blocked

/-- A producer that has not yet notified. -/
def Producing (q : Queue α) : Prop := (∃ x, q.holder = some (.producer x)) ∨ 0 < q.announcing

/-- The consumer holds the mutex where it does. -/
def Held (q : Queue α) : Prop :=
  q.holder = some .consumer ↔
    q.consumer = .testing ∨ q.consumer = .parking ∨ q.consumer = .serving

variable {put : List α → α → List α} {running : Bool} {q r : Queue α} {m : Move α}

section Signal

theorem signal_awake (h : q.consumer ≠ .parking) : Awake q.signal := by
  unfold Queue.signal
  split_ifs with hb
  · exact ⟨by simp, by simp⟩
  · exact ⟨h, hb⟩

theorem signal_held (h : Held q) : Held q.signal := by
  unfold Queue.signal
  split_ifs with hb
  · simpa [Held, hb] using h
  · exact h

theorem signal_holder (q : Queue α) : q.signal.holder = q.holder := by
  unfold Queue.signal
  split_ifs <;> rfl

theorem signal_announcing (q : Queue α) : q.signal.announcing = q.announcing := by
  unfold Queue.signal
  split_ifs <;> rfl

end Signal

section Steps

/-- With the flag down the consumer does not go to sleep. -/
theorem consume_awake (h : q.consume false = some r) (ha : Awake q) : Awake r := by
  unfold Queue.consume at h
  unfold Awake at ha ⊢
  split at h
  all_goals grind

theorem move_awake (h : q.move put false m = some r) (ha : Awake q) : Awake r := by
  cases m with
  | consume => exact consume_awake h ha
  | wake =>
    simp only [Queue.move, if_neg ha.2] at h
    cases h
  | lock x =>
    simp only [Queue.move, Option.ite_none_right_eq_some, Option.some.injEq] at h
    obtain ⟨-, rfl⟩ := h
    exact ha
  | push =>
    simp only [Queue.move] at h
    split at h
    · obtain rfl := Option.some.inj h
      exact ha
    · cases h
  | notify =>
    simp only [Queue.move, Option.ite_none_right_eq_some, Option.some.injEq] at h
    obtain ⟨-, rfl⟩ := h
    exact signal_awake ha.1

theorem consume_held (h : q.consume running = some r) (hh : Held q) : Held r := by
  unfold Queue.consume at h
  unfold Held at hh ⊢
  split at h
  all_goals grind

theorem move_held (h : q.move put running m = some r) (hh : Held q) : Held r := by
  cases m with
  | consume => exact consume_held h hh
  | wake =>
    simp only [Queue.move, Option.ite_none_right_eq_some, Option.some.injEq] at h
    obtain ⟨hb, rfl⟩ := h
    simpa [Held, hb] using hh
  | lock x =>
    simp only [Queue.move, Option.ite_none_right_eq_some, Option.some.injEq] at h
    obtain ⟨hn, rfl⟩ := h
    rw [Option.isNone_iff_eq_none] at hn
    simpa [Held, hn] using hh
  | push =>
    simp only [Queue.move] at h
    split at h
    · rename_i x hx
      obtain rfl := Option.some.inj h
      simpa [Held, hx] using hh
    · cases h
  | notify =>
    simp only [Queue.move, Option.ite_none_right_eq_some, Option.some.injEq] at h
    obtain ⟨-, rfl⟩ := h
    exact signal_held hh

theorem consume_producing (h : q.consume running = some r) (hp : Producing r) : Producing q := by
  unfold Queue.consume at h
  unfold Producing at hp ⊢
  split at h
  all_goals grind

theorem move_done (h : q.move put running m = some r) (hd : q.consumer = .done) :
    r.consumer = .done := by
  cases m with
  | consume => simp [Queue.move, Queue.consume, hd] at h
  | wake => simp [Queue.move, hd] at h
  | lock x =>
    simp only [Queue.move, Option.ite_none_right_eq_some, Option.some.injEq] at h
    obtain ⟨-, rfl⟩ := h
    exact hd
  | push =>
    simp only [Queue.move] at h
    split at h
    · obtain rfl := Option.some.inj h
      exact hd
    · cases h
  | notify =>
    simp only [Queue.move, Option.ite_none_right_eq_some, Option.some.injEq] at h
    obtain ⟨-, rfl⟩ := h
    simp [Queue.signal, hd]

/-- The steps of the consumer to its end when the flag is down and it is awake. -/
def Consumer.remaining : Consumer → ℕ
  | .done => 0
  | .head => 1
  | .outside => 2
  | .serving => 3
  | .testing => 4
  | .entering | .waking => 5
  | .parking | .blocked => 0

/-- No producer is between taking the mutex and giving it back. -/
def Unlocked (q : Queue α) : Prop := ∀ x, q.holder ≠ some (.producer x)

theorem consume_progress (ha : Awake q) (hh : Held q) (hu : Unlocked q) (hd : q.consumer ≠ .done) :
    ∃ r, q.consume false = some r ∧ r.consumer.remaining < q.consumer.remaining ∧ Unlocked r := by
  have hn : q.consumer = .entering ∨ q.consumer = .waking → q.holder = none := by
    intro hw
    cases hq : q.holder with
    | none => rfl
    | some o =>
      cases o with
      | producer x => exact absurd hq (hu x)
      | consumer =>
        have hc := hh.mp hq
        rcases hw with hw | hw <;> simp [hw] at hc
  unfold Unlocked at hu ⊢
  unfold Queue.consume
  cases hc : q.consumer with
  | head => exact ⟨_, rfl, by simp [Consumer.remaining], hu⟩
  | entering =>
    rw [hn (.inl hc)]
    exact ⟨_, rfl, by simp [Consumer.remaining], by simp⟩
  | waking =>
    rw [hn (.inr hc)]
    exact ⟨_, rfl, by simp [Consumer.remaining], by simp⟩
  | testing => exact ⟨_, rfl, by simp [Consumer.remaining], hu⟩
  | parking => exact absurd hc ha.1
  | blocked => exact absurd hc ha.2
  | serving =>
    cases q.entries with
    | nil => exact ⟨_, rfl, by simp [Consumer.remaining], by simp⟩
    | cons x rest => exact ⟨_, rfl, by simp [Consumer.remaining], by simp⟩
  | outside => exact ⟨_, rfl, by simp [Consumer.remaining], hu⟩
  | done => exact absurd hc hd

end Steps

end WaitQueue
