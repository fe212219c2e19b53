import Mathlib.Data.Int.ModEq
import Mathlib.Logic.Relation
import TizenClaw.TransitionSystem

/-! The accept loop of the daemon and the threads it starts for its clients. The loop compares the
count of clients with the limit; each thread raises and lowers the count itself. -/
namespace IpcServerLoop

open TransitionSystem

def kMaxConcurrentClients : ℕ := 4

/-- Where the accept loop stands: behind `accept` and the credentials, and behind the limit. -/
inductive LoopPhase where
  | accepting
  | authorized
  | admitted
  | stopped
  deriving DecidableEq, Repr

/-- Where a client thread stands. `handling` is inside `HandleIpcClient`. -/
inductive Place where
  | spawned
  | counted
  | handling
  | handled
  | ended
  deriving DecidableEq, Repr

structure State where
  loop : LoopPhase := .accepting
  activeClients : ℤ := 0
  threads : List Place := []
  deriving DecidableEq, Repr

/-- `accept` says whether a client came that may connect. -/
inductive Event where
  | accept (allowed : Bool)
  | checkLimit
  | spawn
  | stop
  | advance (i : ℕ)
  deriving DecidableEq, Repr

section Step

/-- The next action of a client thread, and what it adds to the count. -/
def Place.next : Place → Option (Place × ℤ)
  | .spawned => some (.counted, 1)
  | .counted => some (.handling, 0)
  | .handling => some (.handled, 0)
  | .handled => some (.ended, -1)
  | .ended => none

def step (s : State) : Event → Option State
  | .accept allowed =>
    if s.loop = .accepting then some (if allowed then { s with loop := .authorized } else s)
    else none
  | .checkLimit =>
    if s.loop = .authorized then
      -- a busy client is answered and closed
      some (if kMaxConcurrentClients ≤ s.activeClients then { s with loop := .accepting }
        else { s with loop := .admitted })
    else none
  | .spawn =>
    if s.loop = .admitted then
      some { s with loop := .accepting, threads := s.threads ++ [.spawned] }
    else none
  | .stop => if s.loop = .accepting then some { s with loop := .stopped } else none
  | .advance i => (s.threads[i]?).bind fun p => p.next.map fun x =>
    { s with
      activeClients := (s.activeClients + x.2).bmod (2 ^ 32)
      threads := s.threads.set i x.1 }

def server : System State Event where
  Init s := s = {}
  Step s e t := step s e = some t

end Step

section Count

/-- The threads whose handler is running, or still to come. -/
def Place.live : Place → Bool
  | .spawned => true
  | .counted => true
  | .handling => true
  | _ => false

/-- The threads that have raised the count and not yet lowered it. -/
def Place.held : Place → Bool
  | .counted => true
  | .handling => true
  | .handled => true
  | _ => false

def running (s : State) : ℕ := s.threads.countP (· = .handling)
def live (s : State) : ℕ := s.threads.countP Place.live
def held (s : State) : ℕ := s.threads.countP Place.held

/-- However the threads that are there go on, no more handlers than allowed run at once. -/
def Advance (s t : State) : Prop := ∃ i, step s (.advance i) = some t

def Capped (s : State) : Prop :=
  ∀ t, Relation.ReflTransGen Advance s t → running t ≤ kMaxConcurrentClients

/-- A thread is started only while fewer than allowed are under way, counted or not. -/
def Roomy (s : State) (e : Event) : Prop := e = .spawn → live s < kMaxConcurrentClients

instance (s : State) (e : Event) : Decidable (Roomy s e) := inferInstanceAs (Decidable (_ → _))

theorem countP_set_add (p : Place → Bool) {l : List Place} {i : ℕ} {a : Place}
    (h : l[i]? = some a) (b : Place) :
    (l.set i b).countP p + (if p a then 1 else 0) = l.countP p + if p b then 1 else 0 := by
  obtain ⟨hi, rfl⟩ := List.getElem?_eq_some_iff.mp h
  have hle : (if p l[i] then 1 else 0) ≤ l.countP p := by
    by_cases hp : p l[i] = true
    · rw [if_pos hp]
      exact List.countP_pos_iff.mpr ⟨_, List.getElem_mem hi, hp⟩
    · rw [if_neg hp]
      exact Nat.zero_le _
  rw [List.countP_set hi]
  omega

/-- What a step of a thread does. -/
theorem advance_some {s t : State} {i : ℕ} (h : step s (.advance i) = some t) :
    ∃ a x, s.threads[i]? = some a ∧ a.next = some x ∧
      t = { s with
        activeClients := (s.activeClients + x.2).bmod (2 ^ 32)
        threads := s.threads.set i x.1 } := by
  obtain ⟨a, ha, h⟩ := Option.bind_eq_some_iff.mp h
  obtain ⟨x, hx, rfl⟩ := Option.map_eq_some_iff.mp h
  exact ⟨a, x, ha, hx, rfl⟩

theorem live_advance {s t : State} (h : Advance s t) : live t ≤ live s := by
  obtain ⟨i, h⟩ := h
  obtain ⟨a, x, ha, hx, rfl⟩ := advance_some h
  have hc := countP_set_add Place.live ha x.1
  unfold live
  cases a <;> cases hx <;> simp only [Place.live] at hc ⊢ <;> grind

theorem running_le_live (s : State) : running s ≤ live s := by
  apply List.countP_mono_left
  intro p _ hp
  obtain rfl := of_decide_eq_true hp
  rfl

/-- How many actions the threads are away from all running at once. -/
def ahead (s : State) : ℕ :=
  2 * s.threads.countP (· = .spawned) + s.threads.countP (· = .counted)

theorem live_eq (s : State) :
    live s = s.threads.countP (· = .spawned) + s.threads.countP (· = .counted) + running s := by
  unfold live running
  induction s.threads with
  | nil => rfl
  | cons p l ih =>
    cases p <;> simp [List.countP_cons, Place.live, ih] <;> omega

theorem exists_waiting {s : State} (h : ahead s ≠ 0) :
    ∃ i : ℕ, s.threads[i]? = some .spawned ∨ s.threads[i]? = some .counted := by
  by_contra hno
  have hnone : ∀ p : Place, p = .spawned ∨ p = .counted → s.threads.countP (· = p) = 0 := by
    intro p hp
    apply List.countP_eq_zero.mpr
    intro q hq he
    obtain rfl := of_decide_eq_true he
    obtain ⟨i, hi⟩ := List.mem_iff_getElem?.mp hq
    rcases hp with rfl | rfl
    · exact hno ⟨i, .inl hi⟩
    · exact hno ⟨i, .inr hi⟩
  apply h
  rw [ahead, hnone .spawned (.inl rfl), hnone .counted (.inr rfl)]

theorem exists_nearer {s : State} (h : ahead s ≠ 0) :
    ∃ t, Advance s t ∧ live t = live s ∧ ahead t < ahead s := by
  obtain ⟨i, hi⟩ := exists_waiting h
  rcases hi with hi | hi
  · refine ⟨{ s with activeClients := (s.activeClients + 1).bmod (2 ^ 32)
                     threads := s.threads.set i .counted }, ⟨i, by simp [step, hi, Place.next]⟩, ?_⟩
    have hl := countP_set_add Place.live hi .counted
    have hs := countP_set_add (· = .spawned) hi .counted
    have hc := countP_set_add (· = .counted) hi .counted
    simp only [Place.live, decide_true, reduceCtorEq, decide_false, if_true, Bool.false_eq_true,
      if_false] at hl hs hc
    unfold live ahead
    constructor
    · dsimp only
      omega
    · dsimp only
      omega
  · refine ⟨{ s with activeClients := (s.activeClients + 0).bmod (2 ^ 32)
                     threads := s.threads.set i .handling },
      ⟨i, by simp [step, hi, Place.next]⟩, ?_⟩
    have hl := countP_set_add Place.live hi .handling
    have hs := countP_set_add (· = .spawned) hi .handling
    have hc := countP_set_add (· = .counted) hi .handling
    simp only [Place.live, decide_true, reduceCtorEq, decide_false, if_true, Bool.false_eq_true,
      if_false] at hl hs hc
    unfold live ahead
    constructor
    · dsimp only
      omega
    · dsimp only
      omega

/-- All threads under way can come to run at once. -/
theorem exists_all_running (s : State) :
    ∃ t, Relation.ReflTransGen Advance s t ∧ running t = live s := by
  induction hn : ahead s using Nat.strong_induction_on generalizing s with
  | _ n ih =>
    by_cases hz : ahead s = 0
    · refine ⟨s, .refl, ?_⟩
      have he := live_eq s
      unfold ahead at hz
      omega
    · obtain ⟨u, hu, hlive, hlt⟩ := exists_nearer hz
      obtain ⟨t, ht, hr⟩ := ih (ahead u) (hn ▸ hlt) u rfl
      exact ⟨t, .head hu ht, hr.trans hlive⟩

theorem live_advances {s t : State} (h : Relation.ReflTransGen Advance s t) : live t ≤ live s := by
  induction h with
  | refl => exact le_rfl
  | tail _ h ih => exact (live_advance h).trans ih

theorem capped_iff (s : State) : Capped s ↔ live s ≤ kMaxConcurrentClients := by
  constructor
  · intro h
    obtain ⟨t, ht, hr⟩ := exists_all_running s
    rw [← hr]
    exact h t ht
  · intro h t ht
    exact (running_le_live t).trans ((live_advances ht).trans h)

end Count

section Runs

variable {tr : List (State × Event)} {s t : State} {e : Event}

/-- The accept loop leaves the count alone and only adds a thread. -/
theorem step_cases (h : step s e = some t) :
    (∃ i, e = .advance i) ∨
    e = .spawn ∧ t.threads = s.threads ++ [.spawned] ∧ t.activeClients = s.activeClients ∨
    e ≠ .spawn ∧ t.threads = s.threads ∧ t.activeClients = s.activeClients := by
  cases e with
  | accept allowed =>
    simp only [step] at h
    split_ifs at h
    · obtain rfl := Option.some.inj h
      exact .inr (.inr ⟨nofun, rfl, rfl⟩)
    · obtain rfl := Option.some.inj h
      exact .inr (.inr ⟨nofun, rfl, rfl⟩)
  | checkLimit =>
    simp only [step] at h
    split_ifs at h
    · obtain rfl := Option.some.inj h
      exact .inr (.inr ⟨nofun, rfl, rfl⟩)
    · obtain rfl := Option.some.inj h
      exact .inr (.inr ⟨nofun, rfl, rfl⟩)
  | spawn =>
    simp only [step] at h
    split_ifs at h
    obtain rfl := Option.some.inj h
    exact .inr (.inl ⟨rfl, rfl, rfl⟩)
  | stop =>
    simp only [step] at h
    split_ifs at h
    obtain rfl := Option.some.inj h
    exact .inr (.inr ⟨nofun, rfl, rfl⟩)
  | advance i => exact .inl ⟨i, rfl⟩

/-- Only a spawn brings a thread under way. -/
theorem live_step (h : step s e = some t) :
    e = .spawn ∧ live t = live s + 1 ∨ e ≠ .spawn ∧ live t ≤ live s := by
  rcases step_cases h with ⟨i, rfl⟩ | ⟨rfl, ht, -⟩ | ⟨hne, ht, -⟩
  · exact .inr ⟨nofun, live_advance ⟨i, h⟩⟩
  · refine .inl ⟨rfl, ?_⟩
    rw [live, ht, List.countP_append]
    rfl
  · refine .inr ⟨hne, ?_⟩
    rw [live, ht]
    exact le_rfl

/-- The count is the number of threads between their two updates, as a 32-bit integer. -/
theorem activeClients_eq (h : Run server tr s) :
    s.activeClients = (held s : ℤ).bmod (2 ^ 32) := by
  refine h.invariant (I := fun s => s.activeClients = (held s : ℤ).bmod (2 ^ 32)) ?_ ?_
  · rintro s rfl
    rfl
  · intro s e t hI hs
    rcases step_cases hs with ⟨i, rfl⟩ | ⟨rfl, ht, ha⟩ | ⟨-, ht, ha⟩
    · obtain ⟨a, x, ha, hx, rfl⟩ := advance_some hs
      have hc := countP_set_add Place.held ha x.1
      have heq : ((s.threads.set i x.1).countP Place.held : ℤ) = held s + x.2 := by
        unfold held
        cases a <;> cases hx <;> simp only [Place.held] at hc ⊢ <;> grind
      change (s.activeClients + x.2).bmod (2 ^ 32) = _
      rw [hI, Int.bmod_add_bmod]
      exact congrArg (Int.bmod · (2 ^ 32)) heq.symm
    · have hheld : held t = held s := by
        rw [held, ht, List.countP_append]
        rfl
      rw [ha, hheld, hI]
    · have hheld : held t = held s := by rw [held, ht, held]
      rw [ha, hheld, hI]

/-- When no thread is left between its two updates the count is zero again. -/
theorem activeClients_zero (h : Run server tr s) (hend : ∀ p ∈ s.threads, p = .ended) :
    s.activeClients = 0 := by
  have hheld : held s = 0 := by
    apply List.countP_eq_zero.mpr
    intro p hp
    rw [hend p hp]
    exact Bool.false_ne_true
  rw [activeClients_eq h, hheld]
  rfl

theorem live_le (h : Run server tr s) (hp : ∀ x ∈ tr, Roomy x.1 x.2) :
    live s ≤ kMaxConcurrentClients := by
  refine h.guarded_invariant (P := Roomy) (I := fun s => live s ≤ kMaxConcurrentClients) ?_ ?_ hp
  · rintro s rfl
    exact Nat.zero_le _
  · intro s e t hI hr hs
    rcases live_step hs with ⟨rfl, hl⟩ | ⟨-, hl⟩
    · have hlt := hr rfl
      omega
    · exact hl.trans hI

/-- The limit holds after every step of a run, whatever the threads do next, exactly if the loop
starts a thread only while fewer than allowed are under way. -/
theorem capped_run_iff (h : Run server tr s) :
    (∀ x ∈ tr, ∀ t ∈ step x.1 x.2, Capped t) ↔ ∀ x ∈ tr, Roomy x.1 x.2 := by
  constructor
  · intro hc x hx he
    obtain ⟨-, -, t, -, -, hs⟩ := h.split hx
    have hle := (capped_iff t).mp (hc x hx t hs)
    rcases live_step hs with ⟨-, hl⟩ | ⟨hne, -⟩
    · omega
    · exact absurd he hne
  · intro hp x hx t ht
    obtain ⟨tr₁, tr₂, -, rfl, hr, -⟩ := h.split hx
    have hpre : ∀ y ∈ tr₁ ++ [x], Roomy y.1 y.2 := by
      intro y hy
      apply hp
      rcases List.mem_append.mp hy with hy | hy
      · exact List.mem_append_left _ hy
      · exact List.mem_append_right _ (List.mem_singleton.mp hy ▸ List.mem_cons_self)
    exact (capped_iff t).mpr (live_le (hr.step ht) hpre)

/-- In a run that starts a thread only while fewer than allowed are under way, no more handlers than
allowed run in any state; in every run the count is back at zero when all threads have ended. -/
theorem cap_holds (h : Run server tr s) :
    ((∀ x ∈ tr, Roomy x.1 x.2) → running s ≤ kMaxConcurrentClients) ∧
    ((∀ x ∈ tr, ∀ t ∈ step x.1 x.2, Capped t) ↔ ∀ x ∈ tr, Roomy x.1 x.2) ∧
    ((∀ p ∈ s.threads, p = .ended) → s.activeClients = 0) :=
  ⟨fun hp => (running_le_live s).trans (live_le h hp), capped_run_iff h, activeClients_zero h⟩

end Runs

namespace Counterexample

/-- A client that may connect comes and gets a thread. -/
def connect : List Event := [.accept true, .checkLimit, .spawn]

/-- Five clients get their threads before the first thread runs. -/
def burst : List Event :=
  connect ++ connect ++ connect ++ connect ++ connect ++
    (List.range 5).map .advance ++ (List.range 5).map .advance

theorem five_handlers :
    ∃ tr s, Run server tr s ∧ ¬ running s ≤ kMaxConcurrentClients := by
  obtain ⟨tr, s, hr, hp⟩ := Run.of_execute (M := server) (fun _ _ _ h => h) (s := {}) rfl burst
    (fun _ s => running s = 5) (by decide)
  refine ⟨tr, s, hr, ?_⟩
  rw [of_decide_eq_true hp]
  decide

/-- Five clients, each counted before the next one comes; the last one is turned away. -/
def orderly : List Event :=
  (List.range 4).flatMap (fun i => connect ++ [.advance i, .advance i]) ++
    [.accept true, .checkLimit]

theorem orderly_capped : ∃ tr s, Run server tr s ∧ running s = 4 ∧
    running s ≤ kMaxConcurrentClients ∧ (∀ x ∈ tr, Roomy x.1 x.2) := by
  obtain ⟨tr, s, hr, hp⟩ := Run.of_execute (M := server) (fun _ _ _ h => h) (s := {}) rfl orderly
    (fun tr s => running s = 4 ∧ ∀ x ∈ tr, Roomy x.1 x.2) (by decide)
  obtain ⟨hfour, hroom⟩ := of_decide_eq_true hp
  exact ⟨tr, s, hr, hfour, (cap_holds hr).1 hroom, hroom⟩

end Counterexample

end IpcServerLoop
