import Mathlib.Algebra.Order.Group.Nat
import TizenClaw.TransitionSystem

/-! A loop that hands its requests to workers and takes their results back, and the stop that waits
until no worker is left before it ends the loop. -/
namespace WorkerDrain

open TransitionSystem

/-- Where the loop stands: between two callbacks, behind the look at the flag for a request, before
the notification for a result, or behind its end. -/
inductive Loop (α : Type) where
  | idle
  | admitted (a : α)
  | announcing
  | gone
  deriving DecidableEq, Repr

/-- Where the stop stands. Between `testing` and the block it holds the mutex. -/
inductive Stop where
  | idle
  | entering
  | testing
  | parking
  | blocked
  | waking
  | quitting
  | joining
  | done
  deriving DecidableEq, Repr

/-- Whether the stop has seen that no worker is left. -/
def Stop.drained : Stop → Bool
  | .quitting | .joining | .done => true
  | _ => false

/-- Whether the stop holds the mutex of the notification. -/
def Stop.holds : Stop → Bool
  | .testing | .parking => true
  | _ => false

/-- The requests that were handed over and those that were answered are kept for the statements. -/
structure State (α : Type) where
  running : Bool := true
  pending : ℕ := 0
  loop : Loop α := .idle
  working : List α := []
  posted : List α := []
  stop : Stop := .idle
  quit : Bool := false
  accepted : List α := []
  answered : List α := []
  deriving DecidableEq, Repr

inductive Event (α : Type) where
  | request (a : α)
  | count
  | finish (i : ℕ)
  | callback
  | announce
  | leave
  | stop
  | spurious
  | restart
  deriving DecidableEq, Repr

variable {α : Type}

/-- The stop's next step, where it has one. -/
def State.halt (s : State α) : Option (State α) :=
  match s.stop with
  | .idle => if s.running then some { s with running := false, stop := .entering } else none
  | .entering | .waking => some { s with stop := .testing }
  | .testing => some { s with stop := if s.pending = 0 then .quitting else .parking }
  | .parking => some { s with stop := .blocked }
  | .quitting => some { s with quit := true, stop := .joining }
  | .joining => if s.loop matches .gone then some { s with stop := .done } else none
  | .blocked | .done => none

/-- A callback that does not always notify does so for the last worker. The loop is started again
only where no worker of the old one is left. -/
def step (always : α → Bool) (s : State α) : Event α → Option (State α)
  | .request a => match s.loop with
    | .idle => some (if s.running then { s with loop := .admitted a } else s)
    | _ => none
  | .count => match s.loop with
    | .admitted a => some { s with
        pending := s.pending + 1
        working := s.working ++ [a]
        accepted := s.accepted ++ [a]
        loop := .idle }
    | _ => none
  | .finish i => match s.working[i]? with
    | some a => some { s with working := s.working.eraseIdx i, posted := s.posted ++ [a] }
    | none => none
  | .callback => match s.loop, s.posted with
    | .idle, a :: rest => some { s with
        pending := s.pending - 1
        posted := rest
        answered := s.answered ++ [a]
        loop := if always a ∨ s.pending = 1 then .announcing else .idle }
    | _, _ => none
  | .announce => match s.loop with
    | .announcing =>
      if s.stop.holds then none
      else some { s with loop := .idle, stop := if s.stop = .blocked then .waking else s.stop }
    | _ => none
  | .leave => match s.loop with
    | .idle => if s.quit then some { s with loop := .gone } else none
    | _ => none
  | .stop => s.halt
  | .spurious => if s.stop = .blocked then some { s with stop := .waking } else none
  | .restart =>
    if s.stop = .done ∧ s.working = [] ∧ s.posted = [] then some { s with
      running := true
      loop := .idle
      stop := .idle
      quit := false }
    else none

variable {always : α → Bool} {s t : State α} {e : Event α}

section Moves

/-- What a step can do, and when. -/
inductive Moves (always : α → Bool) (s : State α) : Event α → State α → Prop where
  | refuse (a : α) (hl : s.loop = .idle) (hrun : s.running = false) : Moves always s (.request a) s
  | take (a : α) (hl : s.loop = .idle) (hrun : s.running = true) :
      Moves always s (.request a) { s with loop := .admitted a }
  | count (a : α) (hl : s.loop = .admitted a) : Moves always s .count { s with
      pending := s.pending + 1
      working := s.working ++ [a]
      accepted := s.accepted ++ [a]
      loop := .idle }
  | finish (i : ℕ) (a : α) (hi : s.working[i]? = some a) :
      Moves always s (.finish i) { s with working := s.working.eraseIdx i, posted := s.posted ++ [a] }
  | callback (a : α) (rest : List α) (hl : s.loop = .idle) (hp : s.posted = a :: rest) :
      Moves always s .callback { s with
        pending := s.pending - 1
        posted := rest
        answered := s.answered ++ [a]
        loop := if always a ∨ s.pending = 1 then .announcing else .idle }
  | announce (hl : s.loop = .announcing) (hh : s.stop.holds = false) : Moves always s .announce
      { s with loop := .idle, stop := if s.stop = .blocked then .waking else s.stop }
  | leave (hl : s.loop = .idle) (hq : s.quit = true) : Moves always s .leave { s with loop := .gone }
  | flag (hs : s.stop = .idle) (hrun : s.running = true) :
      Moves always s .stop { s with running := false, stop := .entering }
  | enter (hs : s.stop = .entering ∨ s.stop = .waking) :
      Moves always s .stop { s with stop := .testing }
  | pass (hs : s.stop = .testing) (hp : s.pending = 0) :
      Moves always s .stop { s with stop := .quitting }
  | park (hs : s.stop = .testing) (hp : s.pending ≠ 0) :
      Moves always s .stop { s with stop := .parking }
  | block (hs : s.stop = .parking) : Moves always s .stop { s with stop := .blocked }
  | quit (hs : s.stop = .quitting) : Moves always s .stop { s with quit := true, stop := .joining }
  | join (hs : s.stop = .joining) (hl : s.loop = .gone) :
      Moves always s .stop { s with stop := .done }
  | spurious (hs : s.stop = .blocked) : Moves always s .spurious { s with stop := .waking }
  | restart (hs : s.stop = .done) (hw : s.working = []) (hp : s.posted = []) :
      Moves always s .restart { s with running := true, loop := .idle, stop := .idle, quit := false }

theorem halt_moves (hs : s.halt = some t) : Moves always s .stop t := by
  unfold State.halt at hs
  split at hs
  next hstop =>
    split_ifs at hs with hrun
    obtain rfl := Option.some.inj hs
    exact .flag hstop hrun
  next hstop =>
    obtain rfl := Option.some.inj hs
    exact .enter (Or.inl hstop)
  next hstop =>
    obtain rfl := Option.some.inj hs
    exact .enter (Or.inr hstop)
  next hstop =>
    obtain rfl := Option.some.inj hs
    split_ifs with hp
    · exact .pass hstop hp
    · exact .park hstop hp
  next hstop =>
    obtain rfl := Option.some.inj hs
    exact .block hstop
  next hstop =>
    obtain rfl := Option.some.inj hs
    exact .quit hstop
  next hstop =>
    split at hs
    next hl =>
      obtain rfl := Option.some.inj hs
      exact .join hstop hl
    · cases hs
  · cases hs
  · cases hs

theorem step_moves (hs : step always s e = some t) : Moves always s e t := by
  cases e with
  | request a =>
    simp only [step] at hs
    split at hs
    next hl =>
      obtain rfl := Option.some.inj hs
      split_ifs with hrun
      · exact .take a hl hrun
      · exact .refuse a hl (Bool.eq_false_of_not_eq_true hrun)
    · cases hs
  | count =>
    simp only [step] at hs
    split at hs
    next a hl =>
      obtain rfl := Option.some.inj hs
      exact .count a hl
    · cases hs
  | finish i =>
    simp only [step] at hs
    split at hs
    next a hi =>
      obtain rfl := Option.some.inj hs
      exact .finish i a hi
    · cases hs
  | callback =>
    simp only [step] at hs
    split at hs
    next a rest hl hp =>
      obtain rfl := Option.some.inj hs
      exact .callback a rest hl hp
    · cases hs
  | announce =>
    simp only [step] at hs
    split at hs
    next hl =>
      cases hh : s.stop.holds with
      | true =>
        rw [if_pos hh] at hs
        cases hs
      | false =>
        rw [hh] at hs
        obtain rfl := Option.some.inj hs
        exact .announce hl hh
    · cases hs
  | leave =>
    simp only [step] at hs
    split at hs
    next hl =>
      split_ifs at hs with hq
      obtain rfl := Option.some.inj hs
      exact .leave hl hq
    · cases hs
  | stop => exact halt_moves hs
  | spurious =>
    simp only [step] at hs
    split_ifs at hs with hstop
    obtain rfl := Option.some.inj hs
    exact .spurious hstop
  | restart =>
    simp only [step] at hs
    split_ifs at hs with h
    obtain rfl := Option.some.inj hs
    exact .restart h.1 h.2.1 h.2.2

end Moves

section Soundness

theorem eraseIdx_perm {l : List α} {i : ℕ} (h : i < l.length) : (l[i] :: l.eraseIdx i).Perm l := by
  rw [List.eraseIdx_eq_take_drop_succ]
  calc (l[i] :: (l.take i ++ l.drop (i + 1))).Perm (l.take i ++ l[i] :: l.drop (i + 1)) :=
        List.perm_middle.symm
    _ = l := by rw [List.getElem_cons_drop, List.take_append_drop]

/-- Every request that was handed over is with a worker, on its way back, or answered; and who waits
for the workers is told. -/
structure Sound (s : State α) : Prop where
  counted : s.pending = s.working.length + s.posted.length
  kept : s.accepted.Perm (s.answered ++ (s.posted ++ s.working))
  woken : s.stop = .parking ∨ s.stop = .blocked → 0 < s.pending ∨ s.loop = .announcing
  quiet : s.stop ≠ .idle → s.running = false
  departed : s.loop = .gone → s.quit = true
  quitted : s.quit = true → s.stop = .joining ∨ s.stop = .done
  joining : s.stop = .joining → s.quit = true
  ended : s.stop = .done → s.loop = .gone

/-- A loop that has not ended shows that the stop has not returned. -/
theorem Sound.live (h : Sound s) (hl : s.loop ≠ .gone) : s.stop ≠ .done := fun hs => hl (h.ended hs)

theorem sound_init : Sound ({} : State α) :=
  ⟨rfl, List.Perm.nil, by simp, by simp, by simp, by simp, by simp, by simp⟩

theorem Sound.halted (h : Sound s) {stop : Stop} (hrun : t.running = false ∨ stop = .idle)
    (ht : t = { s with running := t.running, quit := t.quit, stop := stop })
    (hw : stop = .parking ∨ stop = .blocked → 0 < s.pending ∨ s.loop = .announcing)
    (hov : s.loop = .gone → t.quit = true)
    (hq : t.quit = true → stop = .joining ∨ stop = .done)
    (hj : stop = .joining → t.quit = true) (hd : stop = .done → s.loop = .gone) : Sound t := by
  rw [ht]
  exact ⟨h.counted, h.kept, hw, fun hne => hrun.resolve_right hne, hov, hq, hj, hd⟩

theorem Sound.finish (h : Sound s) {i : ℕ} {a : α} (hi : s.working[i]? = some a) :
    Sound { s with working := s.working.eraseIdx i, posted := s.posted ++ [a] } := by
  obtain ⟨hlt, rfl⟩ := List.getElem?_eq_some_iff.mp hi
  refine ⟨?_, ?_, h.woken, h.quiet, h.departed, h.quitted, h.joining, h.ended⟩
  · have := h.counted
    simp only [List.length_append, List.length_singleton, List.length_eraseIdx_of_lt hlt]
    omega
  · refine h.kept.trans (List.Perm.append_left _ ?_)
    rw [List.append_assoc]
    refine List.Perm.append_left _ ?_
    exact (eraseIdx_perm hlt).symm

theorem Sound.callback (h : Sound s) {a : α} {rest : List α}
    (hl : s.loop = .idle) (hp : s.posted = a :: rest) : Sound { s with
      pending := s.pending - 1
      posted := rest
      answered := s.answered ++ [a]
      loop := if always a ∨ s.pending = 1 then .announcing else .idle } := by
  have hcounted := h.counted
  rw [hp, List.length_cons] at hcounted
  refine ⟨?_, ?_, ?_, h.quiet, ?_, h.quitted, h.joining, fun hs => absurd hs (h.live (by rw [hl]; simp))⟩
  · dsimp only
    omega
  · have hkept := h.kept
    rw [hp] at hkept
    simpa using hkept
  · intro hs
    dsimp only
    by_cases hc : always a = true ∨ s.pending = 1
    · exact Or.inr (if_pos hc)
    · left
      rw [not_or] at hc
      omega
  · intro hover
    dsimp only at hover
    split_ifs at hover

theorem Sound.announce (h : Sound s) (hl : s.loop = .announcing) (hh : s.stop.holds = false) :
    Sound { s with loop := .idle, stop := if s.stop = .blocked then .waking else s.stop } := by
  by_cases hb : s.stop = .blocked
  · rw [if_pos hb]
    refine ⟨h.counted, h.kept, by simp, fun _ => h.quiet (by rw [hb]; simp), by simp, ?_, by simp,
      by simp⟩
    intro hq
    rcases h.quitted hq with hs | hs <;> rw [hb] at hs <;> cases hs
  · rw [if_neg hb]
    refine ⟨h.counted, h.kept, ?_, h.quiet, by simp, h.quitted, h.joining,
      fun hs => absurd hs (h.live (by rw [hl]; simp))⟩
    rintro (hs | hs)
    · dsimp only at hs
      rw [hs] at hh
      cases hh
    · exact absurd hs hb

theorem sound_step (h : Sound s) (hs : step always s e = some t) : Sound t := by
  cases step_moves hs with
  | refuse => exact h
  | take a hl hrun =>
    exact ⟨h.counted, h.kept, fun hp => absurd hrun (by
      rw [h.quiet (by rcases hp with hp | hp <;> rw [hp] <;> simp)]
      simp), h.quiet, by simp, h.quitted, h.joining, fun hs => absurd hs (h.live (by rw [hl]; simp))⟩
  | count a hl =>
    refine ⟨?_, ?_, fun _ => Or.inl (Nat.succ_pos _), h.quiet, by simp, h.quitted, h.joining,
      fun hs => absurd hs (h.live (by rw [hl]; simp))⟩
    · have := h.counted
      simp only [List.length_append, List.length_singleton]
      omega
    · rw [← List.append_assoc s.posted, ← List.append_assoc s.answered]
      exact h.kept.append_right [a]
  | finish i a hi => exact h.finish hi
  | callback a rest hl hp => exact h.callback hl hp
  | announce hl hh => exact h.announce hl hh
  | leave hl hq =>
    refine ⟨h.counted, h.kept, ?_, h.quiet, fun _ => hq, h.quitted, h.joining, fun _ => rfl⟩
    intro hp
    rcases h.quitted hq with hs | hs <;> rw [hs] at hp <;> simp at hp
  | flag hstop hrun =>
    refine h.halted (Or.inl rfl) rfl (by simp) h.departed ?_ (by simp) (by simp)
    intro hq
    rcases h.quitted hq with hs | hs <;> rw [hstop] at hs <;> cases hs
  | enter hstop =>
    have hne : s.stop ≠ .idle := by rcases hstop with hstop | hstop <;> rw [hstop] <;> simp
    refine h.halted (Or.inl (h.quiet hne)) rfl (by simp) h.departed ?_ (by simp) (by simp)
    intro hq
    rcases h.quitted hq with hs | hs <;> rw [hs] at hstop <;> simp at hstop
  | pass hstop hp =>
    refine h.halted (Or.inl (h.quiet (by rw [hstop]; simp))) rfl (by simp) h.departed ?_ (by simp) (by simp)
    intro hq
    rcases h.quitted hq with hs | hs <;> rw [hstop] at hs <;> cases hs
  | park hstop hp =>
    refine h.halted (Or.inl (h.quiet (by rw [hstop]; simp))) rfl
      (fun _ => Or.inl (Nat.pos_of_ne_zero hp)) h.departed ?_ (by simp) (by simp)
    intro hq
    rcases h.quitted hq with hs | hs <;> rw [hstop] at hs <;> cases hs
  | block hstop =>
    refine h.halted (Or.inl (h.quiet (by rw [hstop]; simp))) rfl (fun _ => h.woken (Or.inl hstop))
      h.departed ?_ (by simp) (by simp)
    intro hq
    rcases h.quitted hq with hs | hs <;> rw [hstop] at hs <;> cases hs
  | quit hstop =>
    exact h.halted (Or.inl (h.quiet (by rw [hstop]; simp))) rfl (by simp) (fun _ => rfl)
      (fun _ => Or.inl rfl) (fun _ => rfl) (by simp)
  | join hstop hl =>
    exact h.halted (Or.inl (h.quiet (by rw [hstop]; simp))) rfl (by simp) h.departed
      (fun _ => Or.inr rfl) (by simp) (fun _ => hl)
  | spurious hstop =>
    refine h.halted (Or.inl (h.quiet (by rw [hstop]; simp))) rfl (by simp) h.departed ?_ (by simp) (by simp)
    intro hq
    rcases h.quitted hq with hs | hs <;> rw [hstop] at hs <;> cases hs
  | restart hstop hw hp =>
    exact ⟨h.counted, h.kept, by simp, by simp, by simp, by simp, by simp, by simp⟩

end Soundness

section Answers

/-- Once the stop has seen that no worker is left, every request that was handed over is answered. -/
def AllAnswered (s : State α) : Prop := s.stop.drained = true → s.answered.Perm s.accepted

/-- A request that got past the flag is handed over behind the stop's look at the workers. -/
def Late (s : State α) (e : Event α) : Prop := e = .count ∧ s.stop.drained = true

theorem Sound.none_left (h : Sound s) (ha : s.answered.Perm s.accepted) :
    s.posted = [] ∧ s.working = [] := by
  have hlen := (ha.trans h.kept).length_eq
  simp only [List.length_append] at hlen
  exact ⟨List.eq_nil_of_length_eq_zero (by omega), List.eq_nil_of_length_eq_zero (by omega)⟩

theorem Sound.answered_of_pending (h : Sound s) (hp : s.pending = 0) :
    s.answered.Perm s.accepted := by
  have hcounted := h.counted
  have hposted : s.posted = [] := List.eq_nil_of_length_eq_zero (by omega)
  have hworking : s.working = [] := List.eq_nil_of_length_eq_zero (by omega)
  have hkept := h.kept
  rw [hposted, hworking, List.append_nil, List.append_nil] at hkept
  exact hkept.symm

/-- A step that takes no request over keeps the answers complete. -/
theorem allAnswered_step (h : Sound s) (hi : AllAnswered s) (hs : step always s e = some t) :
    AllAnswered t ↔ ¬ Late s e := by
  have hother : e ≠ .count → (AllAnswered t → (AllAnswered t ↔ ¬ Late s e)) :=
    fun he ht => iff_of_true ht fun hlate => he hlate.1
  cases step_moves hs with
  | refuse => exact hother (by simp) hi
  | take => exact hother (by simp) hi
  | count a hl =>
    cases hd : s.stop.drained with
    | false =>
      refine iff_of_true (fun hdrained => ?_) (fun hlate => ?_)
      · rw [hd] at hdrained
        cases hdrained
      · rw [hlate.2] at hd
        cases hd
    | true =>
      refine iff_of_false (fun ht => ?_) (fun hno => hno ⟨rfl, hd⟩)
      have hlen := (ht hd).length_eq
      rw [(hi hd).length_eq, List.length_append, List.length_singleton] at hlen
      omega
  | finish i a ha =>
    refine hother (by simp) fun hd => ?_
    rw [(h.none_left (hi hd)).2] at ha
    cases ha
  | callback a rest hl hp =>
    refine hother (by simp) fun hd => ?_
    rw [(h.none_left (hi hd)).1] at hp
    cases hp
  | announce hl hh =>
    refine hother (by simp) fun hd => hi ?_
    dsimp only at hd
    split_ifs at hd
    · cases hd
    · exact hd
  | leave => exact hother (by simp) hi
  | flag => exact hother (by simp) fun hd => by cases hd
  | enter => exact hother (by simp) fun hd => by cases hd
  | pass hstop hp => exact hother (by simp) fun _ => h.answered_of_pending hp
  | park => exact hother (by simp) fun hd => by cases hd
  | block => exact hother (by simp) fun hd => by cases hd
  | quit hstop => exact hother (by simp) fun _ => hi (by rw [hstop]; rfl)
  | join hstop => exact hother (by simp) fun _ => hi (by rw [hstop]; rfl)
  | spurious => exact hother (by simp) fun hd => by cases hd
  | restart => exact hother (by simp) fun hd => by cases hd

end Answers

section Progress

/-- The steps of the loop, the workers and the stop itself. -/
def Event.own : Event α → Bool
  | .request _ | .spurious | .restart => false
  | _ => true

def Loop.rank : Loop α → ℕ
  | .admitted _ => 14
  | .announcing => 5
  | .idle => 1
  | .gone => 0

def Stop.rank : Stop → ℕ
  | .idle => 8
  | .entering | .waking => 7
  | .testing => 6
  | .parking => 5
  | .blocked => 4
  | .quitting => 3
  | .joining => 2
  | .done => 0

/-- How many steps are left to do, at most. -/
def State.rank (s : State α) : ℕ :=
  s.loop.rank + 10 * s.working.length + 8 * s.posted.length + s.stop.rank

theorem rank_step (ho : e.own = true) (hs : step always s e = some t) : t.rank < s.rank := by
  unfold State.rank
  cases step_moves hs with
  | refuse | take | spurious | restart => cases ho
  | count a hl =>
    simp only [hl, Loop.rank, List.length_append, List.length_singleton]
    omega
  | finish i a hi =>
    obtain ⟨hlt, -⟩ := List.getElem?_eq_some_iff.mp hi
    simp only [List.length_append, List.length_singleton, List.length_eraseIdx_of_lt hlt]
    omega
  | callback a rest hl hp =>
    have hloop : Loop.rank (if always a = true ∨ s.pending = 1 then (.announcing : Loop α) else .idle) ≤
        5 := by
      split_ifs
      · exact Nat.le_refl _
      · exact Nat.le_of_ble_eq_true rfl
    simp only [hl, hp, List.length_cons, Loop.rank] at hloop ⊢
    omega
  | announce hl hh =>
    by_cases hb : s.stop = .blocked
    · simp only [hl, hb, if_true, Loop.rank, Stop.rank]
      omega
    · simp only [hl, hb, if_false, Loop.rank]
      omega
  | leave hl hq =>
    simp only [hl, Loop.rank]
    omega
  | flag hstop | pass hstop | park hstop | block hstop | quit hstop | join hstop =>
    simp only [hstop, Stop.rank]
    omega
  | enter hstop =>
    rcases hstop with hstop | hstop <;> simp only [hstop, Stop.rank] <;> omega

/-- As long as the stop has not returned, there is a step to take. -/
theorem Sound.goes_on (always : α → Bool) (h : Sound s) (hstop : s.stop ≠ .idle)
    (hdone : s.stop ≠ .done) :
    ∃ e, e.own = true ∧ (step always s e).isSome := by
  have hloop : s.stop = .blocked ∨ (s.stop = .joining ∧ s.loop ≠ .gone) →
      ∃ e, e.own = true ∧ (step always s e).isSome := by
    intro hw
    cases hl : s.loop with
    | admitted a => exact ⟨.count, rfl, by simp [step, hl]⟩
    | announcing =>
      have hh : s.stop.holds = false := by rcases hw with hw | ⟨hw, -⟩ <;> rw [hw] <;> rfl
      exact ⟨.announce, rfl, by simp [step, hl, hh]⟩
    | gone =>
      rcases hw with hw | ⟨-, hno⟩
      · rcases h.quitted (h.departed hl) with hs | hs <;> rw [hw] at hs <;> cases hs
      · exact absurd hl hno
    | idle =>
      rcases hw with hw | ⟨hw, -⟩
      · have hpos := (h.woken (Or.inr hw)).resolve_right (by rw [hl]; simp)
        rw [h.counted] at hpos
        cases hp : s.posted with
        | cons a rest => exact ⟨.callback, rfl, by simp [step, hl, hp]⟩
        | nil =>
          rw [hp, List.length_nil, Nat.add_zero] at hpos
          exact ⟨.finish 0, rfl, by simp [step, List.getElem?_eq_getElem hpos]⟩
      · exact ⟨.leave, rfl, by simp [step, hl, h.joining hw]⟩
  cases hs : s.stop with
  | idle => exact absurd hs hstop
  | done => exact absurd hs hdone
  | blocked => exact hloop (Or.inl hs)
  | joining =>
    by_cases hl : s.loop = .gone
    · exact ⟨.stop, rfl, by simp [step, State.halt, hs, hl]⟩
    · exact hloop (Or.inr ⟨hs, hl⟩)
  | entering | testing | parking | waking | quitting =>
    exact ⟨.stop, rfl, by simp [step, State.halt, hs]⟩

end Progress

section Front

variable {σ ρ : Type}

/-- The loop with what it decides on requests by. -/
structure Front (σ α : Type) where
  config : σ
  drain : State α := {}

/-- A start loads what requests are decided on by, and may fail to. -/
inductive FrontEvent (σ ρ α : Type) where
  | request (r : ρ)
  | start (load : σ → σ × Bool)
  | inside (e : Event α)

/-- The steps that do not come from outside. -/
def Event.inside : Event α → Bool
  | .request _ | .restart => false
  | _ => true

/-- A request is refused without a look at the flag, or is a request to the loop. -/
def frontStep (always : α → Bool) (gate : σ → ρ → Option α) (s : Front σ α) :
    FrontEvent σ ρ α → Option (Front σ α)
  | .request r => match gate s.config r with
    | none => if s.drain.loop matches .idle then some s else none
    | some a => (step always s.drain (.request a)).map fun d => { s with drain := d }
  | .start load => (step always s.drain .restart).map fun d =>
      { config := (load s.config).1, drain := if (load s.config).2 then d else s.drain }
  | .inside e => if e.inside then (step always s.drain e).map fun d => { s with drain := d } else none

def front (always : α → Bool) (gate : σ → ρ → Option α) (config : σ) :
    System (Front σ α) (FrontEvent σ ρ α) where
  Init s := s = { config }
  Step s e t := frontStep always gate s e = some t

variable {gate : σ → ρ → Option α} {config : σ} {f g : Front σ α} {x : FrontEvent σ ρ α}
  {tr : List (Front σ α × FrontEvent σ ρ α)}

/-- What a step of the front does to the loop. -/
inductive FrontMoves (always : α → Bool) (gate : σ → ρ → Option α) (f : Front σ α) :
    FrontEvent σ ρ α → Front σ α → Prop where
  | refuse (r : ρ) (hg : gate f.config r = none) : FrontMoves always gate f (.request r) f
  | request (r : ρ) (a : α) (d : State α) (hg : gate f.config r = some a)
      (hd : step always f.drain (.request a) = some d) :
      FrontMoves always gate f (.request r) { f with drain := d }
  | start (load : σ → σ × Bool) (d : State α) (hd : step always f.drain .restart = some d)
      (hl : (load f.config).2 = true) :
      FrontMoves always gate f (.start load) { config := (load f.config).1, drain := d }
  | fail (load : σ → σ × Bool) (hl : (load f.config).2 = false) :
      FrontMoves always gate f (.start load) { f with config := (load f.config).1 }
  | inside (e : Event α) (d : State α) (he : e.inside = true) (hd : step always f.drain e = some d) :
      FrontMoves always gate f (.inside e) { f with drain := d }

theorem front_moves (hs : frontStep always gate f x = some g) : FrontMoves always gate f x g := by
  cases x with
  | request r =>
    cases hg : gate f.config r with
    | none =>
      simp only [frontStep, hg] at hs
      split_ifs at hs
      obtain rfl := Option.some.inj hs
      exact .refuse r hg
    | some a =>
      simp only [frontStep, hg] at hs
      obtain ⟨d, hd, rfl⟩ := Option.map_eq_some_iff.mp hs
      exact .request r a d hg hd
  | start load =>
    obtain ⟨d, hd, rfl⟩ := Option.map_eq_some_iff.mp hs
    cases hl : (load f.config).2 with
    | true =>
      rw [if_pos rfl]
      exact .start load d hd hl
    | false => exact .fail load hl
  | inside e =>
    simp only [frontStep] at hs
    split_ifs at hs with he
    obtain ⟨d, hd, rfl⟩ := Option.map_eq_some_iff.mp hs
    exact .inside e d he hd

theorem front_sound_step (h : Sound f.drain) (hs : frontStep always gate f x = some g) :
    Sound g.drain := by
  cases front_moves hs with
  | refuse | fail => exact h
  | request r a d hg hd => exact sound_step h hd
  | start load d hd hl => exact sound_step h hd
  | inside e d he hd => exact sound_step h hd

theorem front_sound (hr : Run (front always gate config) tr f) : Sound f.drain := by
  apply hr.invariant
  · rintro f rfl
    exact sound_init
  · intro f x g h hs
    exact front_sound_step h hs

/-- A request is handed over behind the stop's look at the workers. -/
def FrontLate (f : Front σ α) (x : FrontEvent σ ρ α) : Prop :=
  x = .inside .count ∧ f.drain.stop.drained = true

theorem front_allAnswered_iff (hr : Run (front always gate config) tr f) :
    ((∀ x ∈ tr, AllAnswered x.1.drain) ∧ AllAnswered f.drain) ↔ ∀ x ∈ tr, ¬ FrontLate x.1 x.2 := by
  have hi : ∀ f : Front σ α, (front always gate config).Init f →
      AllAnswered f.drain ∧ Sound f.drain := by
    rintro f rfl
    refine ⟨fun hd => ?_, sound_init⟩
    cases hd
  refine (hr.relative_invariant_iff (P := fun f x => ¬ FrontLate f x) hi ?_ ?_).1
  · intro f x g _ h hs
    exact front_sound_step h hs
  · intro f x g hi h hs
    cases front_moves hs with
    | refuse r hg => exact iff_of_true hi fun hlate => by cases hlate.1
    | fail load hl => exact iff_of_true hi fun hlate => by cases hlate.1
    | request r a d hg hd =>
      refine (allAnswered_step h hi hd).trans (iff_of_true (fun hlate => ?_) (fun hlate => ?_))
      · cases hlate.1
      · cases hlate.1
    | start load d hd hl =>
      refine (allAnswered_step h hi hd).trans (iff_of_true (fun hlate => ?_) (fun hlate => ?_))
      · cases hlate.1
      · cases hlate.1
    | inside e d he hd =>
      refine (allAnswered_step h hi hd).trans (not_congr ?_)
      exact and_congr_left fun _ => ⟨congrArg FrontEvent.inside, FrontEvent.inside.inj⟩

/-- The request that stands behind the look at the flag. -/
def Loop.next : Loop α → List α
  | .admitted a => [a]
  | _ => []

/-- What a request is handed over as, if it comes in time and is not refused. -/
def admission (gate : σ → ρ → Option α) (x : Front σ α × FrontEvent σ ρ α) : Option α :=
  match x.2 with
  | .request r => if x.1.drain.running then gate x.1.config r else none
  | _ => none

theorem accepted_step (h : Sound s) (hs : step always s e = some t) :
    t.accepted ++ t.loop.next = s.accepted ++ s.loop.next ++ match e with
      | .request a => if s.running then [a] else []
      | _ => [] := by
  cases step_moves hs with
  | refuse a hl hrun => simp [hrun]
  | take a hl hrun => simp [hrun, hl, Loop.next]
  | count a hl => simp [hl, Loop.next]
  | callback a rest hl hp =>
    dsimp only
    split_ifs <;> simp [hl, Loop.next]
  | announce hl hh => simp [hl, Loop.next]
  | leave hl hq => simp [hl, Loop.next]
  | restart hstop hw hp => simp [h.ended hstop, Loop.next]
  | _ => simp

/-- What the loop hands over is what the front lets through, in the order of the requests. -/
theorem front_accepted (hr : Run (front always gate config) tr f) :
    f.drain.accepted ++ f.drain.loop.next = tr.filterMap (admission gate) := by
  induction hr with
  | init hi =>
    obtain rfl := hi
    rfl
  | @step tr f x g hr hs ih =>
    have h := front_sound hr
    rw [List.filterMap_append, ← ih]
    cases front_moves hs with
    | refuse r hg => simp [admission, hg]
    | fail load hl => simp [admission]
    | request r a d hg hd =>
      rw [accepted_step h hd]
      cases hrun : f.drain.running <;> simp [admission, hg, hrun]
    | start load d hd hl =>
      rw [accepted_step h hd]
      simp [admission]
    | inside e d he hd =>
      rw [accepted_step h hd]
      cases e with
      | request a => cases he
      | _ => simp [admission]

/-- The stop of a front returns. -/
theorem front_stop_returns (hr : Run (front always gate config) tr f) (hstop : f.drain.stop ≠ .idle)
    (hdone : f.drain.stop ≠ .done) :
    (∃ e : Event α, e.own = true ∧ (frontStep always gate f (.inside e)).isSome) ∧
      ∀ e g, e.own = true → frontStep always gate f (.inside e) = some g →
        g.drain.rank < f.drain.rank := by
  have hinside : ∀ e : Event α, e.own = true → e.inside = true := by
    intro e ho
    cases e <;> first | rfl | cases ho
  constructor
  · obtain ⟨e, ho, hs⟩ := (front_sound hr).goes_on always hstop hdone
    refine ⟨e, ho, ?_⟩
    rw [frontStep, if_pos (hinside e ho), Option.isSome_map]
    exact hs
  · intro e g ho hs
    rw [frontStep, if_pos (hinside e ho)] at hs
    obtain ⟨d, hd, rfl⟩ := Option.map_eq_some_iff.mp hs
    exact rank_step ho hd

end Front

end WorkerDrain
