import TizenClaw.ByteString
import Mathlib.Data.UInt

/-! Well-formed UTF-8, as a machine that keeps the ranges of the continuation bytes it still
expects: the table of the Unicode standard, without overlong forms, surrogates or values
past U+10FFFF. -/
namespace Utf8

open ByteString

abbrev Range := UInt8 × UInt8

/-- The continuation bytes a leading byte announces; `none` for a byte that leads nothing. -/
def leadRanges (b : UInt8) : Option (List Range) :=
  if b ≤ 0x7F then some []
  else if 0xC2 ≤ b ∧ b ≤ 0xDF then some [(0x80, 0xBF)]
  else if b = 0xE0 then some [(0xA0, 0xBF), (0x80, 0xBF)]
  else if b = 0xED then some [(0x80, 0x9F), (0x80, 0xBF)]
  else if 0xE1 ≤ b ∧ b ≤ 0xEF then some [(0x80, 0xBF), (0x80, 0xBF)]
  else if b = 0xF0 then some [(0x90, 0xBF), (0x80, 0xBF), (0x80, 0xBF)]
  else if 0xF1 ≤ b ∧ b ≤ 0xF3 then some [(0x80, 0xBF), (0x80, 0xBF), (0x80, 0xBF)]
  else if b = 0xF4 then some [(0x80, 0x8F), (0x80, 0xBF), (0x80, 0xBF)]
  else none

def step (pending : List Range) (b : UInt8) : Option (List Range) :=
  match pending with
  | [] => leadRanges b
  | (lo, hi) :: p => if lo ≤ b ∧ b ≤ hi then some p else none

def run (pending : List Range) : Bytes → Option (List Range)
  | [] => some pending
  | b :: s => (step pending b).bind fun p => run p s

/-- A sequence of complete characters. -/
def valid (s : Bytes) : Bool := run [] s = some []

@[simp] theorem run_nil (p : List Range) : run p [] = some p := rfl

theorem run_cons (p : List Range) (b : UInt8) (s : Bytes) :
    run p (b :: s) = (step p b).bind fun q => run q s := rfl

theorem run_append (p : List Range) (s t : Bytes) :
    run p (s ++ t) = (run p s).bind fun q => run q t := by
  induction s generalizing p with
  | nil => simp
  | cons b s ih =>
    rw [List.cons_append, run_cons, run_cons]
    cases step p b with
    | none => rfl
    | some q => simpa using ih q

@[simp] theorem valid_nil : valid [] = true := rfl

theorem valid_iff (s : Bytes) : valid s = true ↔ run [] s = some [] := by simp [valid]

theorem valid_append {s : Bytes} (h : valid s = true) (t : Bytes) :
    valid (s ++ t) = valid t := by
  rw [valid_iff] at h
  simp [valid, run_append, h]

theorem step_ascii {b : UInt8} (h : b ≤ 0x7F) : step [] b = some [] := by
  simp [step, leadRanges, h]

theorem ascii_of_all {s : Bytes} (h : s.all (fun b => decide (b ≤ 0x7F)) = true) :
    ∀ b ∈ s, b ≤ 0x7F := fun b hb => of_decide_eq_true (List.all_eq_true.mp h b hb)

theorem valid_ascii {s : Bytes} (h : ∀ b ∈ s, b ≤ 0x7F) : valid s = true := by
  induction s with
  | nil => rfl
  | cons b s ih =>
    have hb := step_ascii (h b (by simp))
    have hs := (valid_iff s).mp (ih fun c hc => h c (by simp [hc]))
    rw [valid_iff, run_cons, hb]
    exact hs

/-- The continuation bytes still expected are no ASCII characters, so none is escaped. -/
def Tails (p : List Range) : Prop := ∀ r ∈ p, 0x80 ≤ r.1

theorem leadRanges_tails {b : UInt8} {q : List Range}
    (h : leadRanges b = some q) : Tails q := by
  unfold leadRanges at h
  split_ifs at h
  all_goals
    obtain rfl := Option.some.inj h
    simp [Tails]

theorem step_tails {p q : List Range} {b : UInt8} (hp : Tails p)
    (h : step p b = some q) : Tails q := by
  cases p with
  | nil => exact leadRanges_tails h
  | cons r p =>
    simp only [step] at h
    split_ifs at h
    obtain rfl := Option.some.inj h
    exact fun x hx => hp x (by simp [hx])

theorem run_tails {s : Bytes} {p q : List Range} (hp : Tails p) (h : run p s = some q) :
    Tails q := by
  induction s generalizing p with
  | nil =>
    obtain rfl := Option.some.inj h
    exact hp
  | cons b s ih =>
    rw [run_cons] at h
    obtain ⟨r, hr, hs⟩ := Option.bind_eq_some_iff.mp h
    exact ih (step_tails hp hr) hs

/-- A prefix cut inside a character stays ill-formed whatever ASCII text follows. -/
theorem invalid_of_pending {s t : Bytes} {r : Range} {p : List Range} {b : UInt8}
    (hs : run [] s = some (r :: p)) (hr : 0x80 ≤ r.1) (hb : b ≤ 0x7F) :
    valid (s ++ b :: t) = false := by
  have hstep : step (r :: p) b = none := by
    obtain ⟨lo, hi⟩ := r
    have : ¬ lo ≤ b := by
      intro h
      have := UInt8.le_trans hr (UInt8.le_trans h hb)
      revert this
      decide
    simp [step, this]
  simp [valid, run_append, hs, run_cons, hstep]

/-- Well-formed text that starts with an ASCII character does not hide what is wrong before it. -/
theorem valid_append_ascii (s : Bytes) {t : Bytes} {b : UInt8} (hb : b ≤ 0x7F)
    (ht : valid (b :: t) = true) : valid (s ++ b :: t) = valid s := by
  cases hs : run [] s with
  | none => simp [valid, run_append, hs]
  | some p =>
    cases p with
    | nil =>
      have h : valid s = true := (valid_iff s).mpr hs
      rw [valid_append h, ht, h]
    | cons r p =>
      have hr : 0x80 ≤ r.1 := run_tails (p := []) (by simp [Tails]) hs r (by simp)
      rw [invalid_of_pending hs hr hb]
      simp [valid, hs]

theorem valid_append_head (s : Bytes) {t : Bytes} (hh : ∀ b ∈ t.head?, b ≤ 0x7F)
    (ht : valid t = true) : valid (s ++ t) = valid s := by
  cases t with
  | nil => rw [List.append_nil]
  | cons b t => exact valid_append_ascii s (hh b rfl) ht

end Utf8
