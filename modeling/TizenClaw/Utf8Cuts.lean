import TizenClaw.Utf8

/-! Well-formed text that is cut after a number of bytes: it stays well-formed exactly if the cut
falls between two characters, which the byte behind it tells. -/
namespace Utf8

open ByteString

/-- A byte that does not begin a character. -/
def Continues (b : UInt8) : Prop := 0x80 ≤ b ∧ b ≤ 0xBF

instance (b : UInt8) : Decidable (Continues b) := inferInstanceAs (Decidable (_ ∧ _))

/-- Behind this many bytes the text ends or a character begins. -/
def Boundary (s : Bytes) (n : ℕ) : Prop := ∀ b, s[n]? = some b → ¬ Continues b

instance (s : Bytes) (n : ℕ) : Decidable (Boundary s n) :=
  match h : s[n]? with
  | none => isTrue fun b hb => by rw [h] at hb; cases hb
  | some b => decidable_of_iff (¬ Continues b) (by
      constructor
      · intro hc b' hb'
        rw [h] at hb'
        exact Option.some.inj hb' ▸ hc
      · intro hall
        exact hall b h)

/-- What is expected inside a character are continuation bytes. -/
def Inner (p : List Range) : Prop := ∀ r ∈ p, 0x80 ≤ r.1 ∧ r.2 ≤ 0xBF

theorem leadRanges_inner {b : UInt8} {q : List Range} (h : leadRanges b = some q) : Inner q := by
  unfold leadRanges at h
  split_ifs at h
  all_goals
    obtain rfl := Option.some.inj h
    simp [Inner]

theorem step_inner {p q : List Range} {b : UInt8} (hp : Inner p) (h : step p b = some q) :
    Inner q := by
  cases p with
  | nil => exact leadRanges_inner h
  | cons r p =>
    simp only [step] at h
    split_ifs at h
    obtain rfl := Option.some.inj h
    intro x hx
    exact hp x (List.mem_cons_of_mem r hx)

theorem run_inner {s : Bytes} {p q : List Range} (hp : Inner p) (h : run p s = some q) :
    Inner q := by
  induction s generalizing p with
  | nil =>
    obtain rfl := Option.some.inj h
    exact hp
  | cons b s ih =>
    rw [run_cons] at h
    obtain ⟨r, hr, hs⟩ := Option.bind_eq_some_iff.mp h
    exact ih (step_inner hp hr) hs

theorem inner_nil : Inner [] := fun _ hr => absurd hr List.not_mem_nil

/-- No character begins with a continuation byte. -/
theorem not_continues_of_lead {b : UInt8} {q : List Range} (h : leadRanges b = some q) :
    ¬ Continues b := by
  rintro ⟨hlo, hhi⟩
  revert h
  rw [UInt8.le_iff_toNat_le] at hlo hhi
  simp only [leadRanges, UInt8.le_iff_toNat_le, ← UInt8.toNat_inj, UInt8.reduceToNat] at *
  split_ifs
  all_goals first | omega | simp

theorem valid_take_iff {s : Bytes} (h : valid s = true) (n : ℕ) :
    valid (s.take n) = true ↔ Boundary s n := by
  rw [valid_iff, ← List.take_append_drop n s, run_append] at h
  obtain ⟨p, hp, hrest⟩ := Option.bind_eq_some_iff.mp h
  have hbyte : s[n]? = (s.drop n).head? := by rw [List.head?_drop]
  rw [valid_iff, hp, Boundary, hbyte]
  cases p with
  | nil =>
    refine iff_of_true rfl fun b hb => ?_
    obtain ⟨rest, hdrop⟩ := List.head?_eq_some_iff.mp hb
    rw [hdrop, run_cons] at hrest
    obtain ⟨q, hq, -⟩ := Option.bind_eq_some_iff.mp hrest
    exact not_continues_of_lead hq
  | cons r p =>
    refine iff_of_false (by simp) fun hall => ?_
    cases hdrop : s.drop n with
    | nil =>
      rw [hdrop] at hrest
      cases hrest
    | cons b rest =>
      rw [hdrop, run_cons] at hrest
      obtain ⟨q, hq, -⟩ := Option.bind_eq_some_iff.mp hrest
      have hr := run_inner inner_nil hp r List.mem_cons_self
      simp only [step] at hq
      split_ifs at hq with hb
      exact hall b (by rw [hdrop]; rfl) ⟨UInt8.le_trans hr.1 hb.1, UInt8.le_trans hb.2 hr.2⟩

/-- An ASCII character stands apart from the text around it. -/
theorem valid_apart {s t : Bytes} {b : UInt8} (hb : b ≤ 0x7F) (h : valid (s ++ b :: t) = true) :
    valid s = true ∧ valid t = true := by
  have hrun := h
  rw [valid_iff, run_append] at hrun
  obtain ⟨p, hp, -⟩ := Option.bind_eq_some_iff.mp hrun
  cases p with
  | nil =>
    have hs := (valid_iff s).mpr hp
    have hone : valid [b] = true := by
      rw [valid_iff, run_cons, step_ascii hb]
      rfl
    rw [valid_append hs, ← List.singleton_append, valid_append hone] at h
    exact ⟨hs, h⟩
  | cons r p =>
    have hr : 0x80 ≤ r.1 := run_tails (fun _ hm => absurd hm List.not_mem_nil) hp r
      List.mem_cons_self
    rw [invalid_of_pending hp hr hb] at h
    cases h

theorem boundary_of_length_le {s : Bytes} {n : ℕ} (h : s.length ≤ n) : Boundary s n := by
  intro b hb
  rw [List.getElem?_eq_none h] at hb
  cases hb

end Utf8
