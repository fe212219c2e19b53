import TizenClaw.OtaUpdater
import TizenClaw.TaskFrontmatter
import Mathlib.Data.List.Lex
import Mathlib.Order.PiLex

/-! The order of versions: what an updater takes for newer, against the lexicographic order of
sequences of numbers. -/
namespace VersionOrder

open ByteString ByteLines JsonValue JsonParse TaskSchedule TaskFrontmatter OtaUpdater

section Comparison

variable {a b : Bytes}

theorem newerParts_iff {l r : List ℤ} (h : l.length = r.length) :
    newerParts l r = true ↔ l < r := by
  induction l generalizing r with
  | nil =>
    obtain rfl := List.eq_nil_of_length_eq_zero h.symm
    simp [newerParts]
  | cons x l ih =>
    cases r with
    | nil => cases h
    | cons y r =>
      rw [newerParts, List.cons_lt_cons_iff, ← ih (Nat.succ.inj h)]
      rcases lt_trichotomy x y with hlt | rfl | hgt
      · simp [hlt]
      · simp
      · simp [hgt, hgt.not_gt, hgt.ne']

/-- The three parts that are compared. -/
def comparedParts (v : Bytes) : List ℤ := (parseVersion v).take 3

theorem comparedParts_length (v : Bytes) : (comparedParts v).length = 3 := by
  have hlength : 3 ≤ (parseVersion v).length := by
    simp only [parseVersion, List.length_append, List.length_replicate]
    omega
  rw [comparedParts, List.length_take]
  omega

theorem isNewerVersion_iff (a b : Bytes) :
    isNewerVersion a b = true ↔ comparedParts a < comparedParts b :=
  newerParts_iff ((comparedParts_length a).trans (comparedParts_length b).symm)

/-- On all texts the comparison is a strict order. -/
theorem isNewerVersion_strictOrder : IsStrictOrder Bytes fun a b => isNewerVersion a b = true where
  irrefl a h := lt_irrefl _ ((isNewerVersion_iff a a).mp h)
  trans a b c hab hbc := by
    rw [isNewerVersion_iff] at *
    exact hab.trans hbc

theorem isNewerVersion_asymm (h : isNewerVersion a b = true) : ¬ isNewerVersion b a = true := by
  rw [isNewerVersion_iff] at *
  exact h.not_gt

end Comparison

section Numbers

/-- A version of numbers between dots, each of them in any number of digits. -/
def Dotted (v : Bytes) (parts : List ℕ) : Prop :=
  ∃ digits : List Bytes, (∀ ds ∈ digits, ds ≠ [] ∧ ∀ b ∈ ds, isDigit b = true) ∧
    v = List.intercalate [0x2E] digits ∧ parts = digits.map digitsValue

/-- A version as a sequence, whose missing parts are zero. -/
def sequence (parts : List ℕ) : Lex (ℕ → ℕ) := toLex fun i => parts.getD i 0

/-- What a part is read as. -/
def readPart (n : ℕ) : ℕ := if n < 2 ^ 31 then n else 0

variable {v : Bytes} {l r parts : List ℕ} {i : ℕ}

theorem pieces_dotted {sep : UInt8} {ps : List Bytes} (h : ∀ p ∈ ps, p ≠ [] ∧ sep ∉ p) :
    pieces sep (List.intercalate [sep] ps) = ps := by
  induction ps with
  | nil => rfl
  | cons p ps ih =>
    rw [List.forall_mem_cons] at h
    cases ps with
    | nil => simpa [List.intercalate] using pieces_last h.1.2 h.1.1
    | cons q ps => rw [intercalate_cons, List.singleton_append, pieces_piece h.1.2, ih h.2]

theorem parseVersion_dotted (h : Dotted v parts) :
    parseVersion v =
      parts.map (fun n => (readPart n : ℤ)) ++ List.replicate (3 - parts.length) 0 := by
  obtain ⟨digits, hd, rfl, rfl⟩ := h
  have hpieces : pieces 0x2E (List.intercalate [0x2E] digits) = digits := by
    refine pieces_dotted fun ds hds => ⟨(hd ds hds).1, fun hdot => ?_⟩
    exact absurd ((hd ds hds).2 _ hdot) (by decide)
  have hparts : digits.map (fun ds => (stoi ds).getD 0) =
      (digits.map digitsValue).map fun n => (readPart n : ℤ) := by
    rw [List.map_map]
    refine List.map_congr_left fun ds hds => ?_
    rw [stoi_digits (hd ds hds).1 (hd ds hds).2, Function.comp_apply, readPart]
    split_ifs <;> rfl
  rw [parseVersion, hpieces, hparts]
  simp only [List.length_map]

theorem comparedParts_get (h : Dotted v parts) (hi : i < (comparedParts v).length) :
    (comparedParts v)[i] = readPart (parts.getD i 0) := by
  simp only [comparedParts, List.getElem_take, parseVersion_dotted h]
  rw [List.getElem_append]
  by_cases hlt : i < parts.length
  · simp [hlt]
  · simp [hlt, readPart]

end Numbers

section Order

variable {a b : Bytes} {l r : List ℕ} {i : ℕ}

/-- What the comparison sees of a sequence. -/
def seen (parts : List ℕ) (i : ℕ) : ℕ := readPart (parts.getD i 0)

/-- The sequences are read alike between two places. -/
def SeenAlike (l r : List ℕ) (i k : ℕ) : Prop := ∀ j, i ≤ j → j < k → seen l j = seen r j

theorem isNewerVersion_seen (hl : Dotted a l) (hr : Dotted b r) :
    isNewerVersion a b = true ↔ ∃ k < 3, SeenAlike l r 0 k ∧ seen l k < seen r k := by
  rw [isNewerVersion_iff, List.lt_iff_exists]
  have hla := comparedParts_length a
  have hlb := comparedParts_length b
  constructor
  · rintro (⟨-, hlt⟩ | ⟨k, hk, hk', halike, hlt⟩)
    · omega
    · rw [hla] at hk
      refine ⟨k, hk, fun j _ hj => ?_, ?_⟩
      · have hj3 := halike j hj
        rw [comparedParts_get hl, comparedParts_get hr] at hj3
        exact_mod_cast hj3
      · rw [comparedParts_get hl, comparedParts_get hr] at hlt
        exact_mod_cast hlt
  · rintro ⟨k, hk, halike, hlt⟩
    refine Or.inr ⟨k, hla.symm ▸ hk, hlb.symm ▸ hk, fun j hj => ?_, ?_⟩
    · rw [comparedParts_get hl, comparedParts_get hr]
      exact_mod_cast halike j (Nat.zero_le j) hj
    · rw [comparedParts_get hl, comparedParts_get hr]
      exact_mod_cast hlt

/-- The first place where two sequences differ. -/
def FirstDifference (l r : List ℕ) (i : ℕ) : Prop :=
  (∀ j < i, l.getD j 0 = r.getD j 0) ∧ l.getD i 0 ≠ r.getD i 0

/-- Where the versions first differ, both parts are within 32 bits and among the first three, or
the installed version is the greater one behind these, or both parts are read alike and what is
read of the rest of the three is in the order of the parts. -/
def Decided (l r : List ℕ) : Prop :=
  ∀ i, FirstDifference l r i →
    (i < 3 ∧ l.getD i 0 < 2 ^ 31 ∧ r.getD i 0 < 2 ^ 31) ∨
    (3 ≤ i ∧ r.getD i 0 < l.getD i 0) ∨
    (i < 3 ∧ seen l i = seen r i ∧
      (l.getD i 0 < r.getD i 0 ↔
        ∃ k < 3, i < k ∧ SeenAlike l r (i + 1) k ∧ seen l k < seen r k))

theorem FirstDifference.sequence_lt_iff (h : FirstDifference l r i) :
    sequence l < sequence r ↔ l.getD i 0 < r.getD i 0 := by
  constructor
  · rintro ⟨k, halike, hlt⟩
    rcases lt_trichotomy k i with hk | rfl | hk
    · exact absurd (h.1 k hk) hlt.ne
    · exact hlt
    · exact absurd (halike i hk) h.2
  · intro hlt
    exact ⟨i, h.1, hlt⟩

theorem FirstDifference.seenAlike (h : FirstDifference l r i) : SeenAlike l r 0 i :=
  fun j _ hj => congrArg readPart (h.1 j hj)

/-- The first part that differs decides, unless it is read alike. -/
theorem FirstDifference.newer_iff (h : FirstDifference l r i) (hl : Dotted a l)
    (hr : Dotted b r) : isNewerVersion a b = true ↔
      i < 3 ∧ (seen l i < seen r i ∨ seen l i = seen r i ∧
        ∃ k < 3, i < k ∧ SeenAlike l r (i + 1) k ∧ seen l k < seen r k) := by
  rw [isNewerVersion_seen hl hr]
  constructor
  · rintro ⟨k, hk, halike, hlt⟩
    rcases lt_trichotomy k i with hki | rfl | hki
    · exact absurd (h.seenAlike k (Nat.zero_le k) hki) hlt.ne
    · exact ⟨hk, Or.inl hlt⟩
    · refine ⟨hki.trans hk, Or.inr ⟨halike i (Nat.zero_le i) hki, k, hk, hki, ?_, hlt⟩⟩
      exact fun j _ hj => halike j (Nat.zero_le j) hj
  · rintro ⟨hi, hlt | ⟨heq, k, hk, hki, halike, hlt⟩⟩
    · exact ⟨i, hi, h.seenAlike, hlt⟩
    · refine ⟨k, hk, fun j _ hj => ?_, hlt⟩
      rcases lt_trichotomy j i with hji | rfl | hji
      · exact h.seenAlike j (Nat.zero_le j) hji
      · exact heq
      · exact halike j hji hj

theorem sequence_cases (l r : List ℕ) : sequence l = sequence r ∨ ∃ i, FirstDifference l r i := by
  by_cases h : ∃ i, l.getD i 0 ≠ r.getD i 0
  · refine Or.inr ⟨Nat.find h, fun j hj => ?_, Nat.find_spec h⟩
    exact not_not.mp (Nat.find_min h hj)
  · refine Or.inl (congrArg toLex (funext fun i => ?_))
    exact not_not.mp fun hi => h ⟨i, hi⟩

theorem FirstDifference.unique {k : ℕ} (h : FirstDifference l r i) (hk : FirstDifference l r k) :
    k = i := by
  rcases lt_trichotomy k i with hlt | heq | hgt
  · exact absurd (h.1 k hlt) hk.2
  · exact heq
  · exact absurd (hk.1 i hgt) h.2

/-- The condition at one place, whatever the rest says. -/
theorem decided_at {x y : ℕ} {rest : Prop} (hne : x ≠ y) :
    (i < 3 ∧ (readPart x < readPart y ∨ readPart x = readPart y ∧ rest) ↔ x < y) ↔
      (i < 3 ∧ x < 2 ^ 31 ∧ y < 2 ^ 31) ∨ (3 ≤ i ∧ y < x) ∨
        (i < 3 ∧ readPart x = readPart y ∧ (x < y ↔ rest)) := by
  unfold readPart
  by_cases hrest : rest
  · simp only [hrest, and_true, iff_true]
    split_ifs <;> omega
  · simp only [hrest, and_false, or_false, iff_false]
    split_ifs <;> omega

/-- Versions are compared as sequences of numbers exactly if they are decided among the parts that
are read. Whatever the texts are, the comparison is a strict order and not true both ways. -/
theorem version_order_iff {a b : Bytes} {l r : List ℕ} (hl : Dotted a l) (hr : Dotted b r) :
    ((isNewerVersion a b = true ↔ sequence l < sequence r) ↔ Decided l r) ∧
      (IsStrictOrder Bytes fun a b => isNewerVersion a b = true) ∧
      ∀ a b, isNewerVersion a b = true → ¬ isNewerVersion b a = true := by
  refine ⟨?_, isNewerVersion_strictOrder, fun a b => isNewerVersion_asymm⟩
  rcases sequence_cases l r with heq | ⟨i, hi⟩
  · have hsame : ∀ j, l.getD j 0 = r.getD j 0 := congrFun (toLex.injective heq)
    refine iff_of_true ?_ fun i hi => absurd (hsame i) hi.2
    rw [isNewerVersion_seen hl hr, heq]
    refine iff_of_false ?_ (lt_irrefl _)
    rintro ⟨k, -, -, hlt⟩
    exact hlt.ne (congrArg readPart (hsame k))
  · have hdecided : Decided l r ↔ _ :=
      ⟨fun h => h i hi, fun h k hk => (hi.unique hk).symm ▸ h⟩
    rw [hdecided, hi.newer_iff hl hr, hi.sequence_lt_iff]
    exact decided_at hi.2

end Order

namespace Counterexample

theorem dotted_four : Dotted (bytes "1.2.3.1") [1, 2, 3, 1] :=
  ⟨[bytes "1", bytes "2", bytes "3", bytes "1"], by decide, by decide, by decide⟩

theorem dotted_three : Dotted (bytes "1.2.3") [1, 2, 3] :=
  ⟨[bytes "1", bytes "2", bytes "3"], by decide, by decide, by decide⟩

theorem dotted_two : Dotted (bytes "1.10") [1, 10] :=
  ⟨[bytes "1", bytes "10"], by decide, by decide, by decide⟩

/-- The fourth part is not looked at. -/
theorem fourth_part_ignored : ¬ ∀ (a b : Bytes) (l r : List ℕ), Dotted a l → Dotted b r →
    (isNewerVersion a b = true ↔ sequence l < sequence r) := by
  intro h
  have hlt : sequence [1, 2, 3] < sequence [1, 2, 3, 1] := by
    refine ⟨3, fun j hj => ?_, by decide⟩
    interval_cases j <;> rfl
  have hnewer := (h _ _ _ _ dotted_three dotted_four).mpr hlt
  exact absurd hnewer (by decide)

/-- `1.10` is newer than `1.2.3`. -/
theorem minor_update : isNewerVersion (bytes "1.2.3") (bytes "1.10") = true ↔
    sequence [1, 2, 3] < sequence [1, 10] := by
  refine (version_order_iff dotted_three dotted_two).1.mpr fun i hi => ?_
  have hone : FirstDifference [1, 2, 3] [1, 10] 1 := by
    refine ⟨fun j hj => ?_, by decide⟩
    interval_cases j
    rfl
  obtain rfl := hone.unique hi
  exact Or.inl (by decide)

end Counterexample

end VersionOrder
