import Mathlib.Data.List.Basic

/-! Greedy segmentation of lists into longest pieces, where the first piece may be of another kind
than those that continue it. -/
namespace GreedySegments

variable {α : Type*}

/-- A piece is the longest nonempty front of a list that is allowed before what is left. -/
structure Longest (P : List α → List α → Prop) (p rest : List α) : Prop where
  ne_nil : p ≠ []
  allowed : P p rest
  longest : ∀ q r, q ≠ [] → q ++ r = p ++ rest → P q r → q.length ≤ p.length

/-- No front of the list is allowed. -/
def Stuck (P : List α → List α → Prop) (s : List α) : Prop :=
  ∀ p rest, p ≠ [] → p ++ rest = s → ¬ P p rest

/-- A list is segmented into longest pieces, from the first one or from one that continues. -/
inductive Greedy (P : Bool → List α → List α → Prop) : Bool → List α → List (List α) → Prop where
  | nil {first} : Greedy P first [] []
  | cons {first p rest ps} : Longest (P first) p rest → Greedy P false rest ps →
      Greedy P first (p ++ rest) (p :: ps)

variable {P : Bool → List α → List α → Prop} {Q : List α → List α → Prop} {first : Bool}
  {s p q rest r : List α} {ps qs : List (List α)}

theorem Longest.unique (h : Longest Q p rest) (h' : Longest Q q r) (heq : p ++ rest = q ++ r) :
    p = q ∧ rest = r := by
  have hle := h.longest q r h'.ne_nil heq.symm h'.allowed
  have hge := h'.longest p rest h.ne_nil heq h.allowed
  exact List.append_inj heq (Nat.le_antisymm hge hle)

theorem Longest.not_stuck (h : Longest Q p rest) : ¬ Stuck Q (p ++ rest) :=
  fun hs => hs p rest h.ne_nil rfl h.allowed

theorem Greedy.cons_inv (h : Greedy P first s (p :: ps)) :
    ∃ rest, s = p ++ rest ∧ Longest (P first) p rest ∧ Greedy P false rest ps := by
  cases h with
  | cons hl hg => exact ⟨_, rfl, hl, hg⟩

/-- There is at most one segmentation into longest pieces. -/
theorem Greedy.unique (h : Greedy P first s ps) (h' : Greedy P first s qs) : ps = qs := by
  induction h generalizing qs with
  | nil =>
    cases qs with
    | nil => rfl
    | cons q qs =>
      obtain ⟨rest, heq, hl, -⟩ := h'.cons_inv
      exact absurd (List.append_eq_nil_iff.mp heq.symm).1 hl.ne_nil
  | @cons first p rest ps hl hg ih =>
    generalize hs : p ++ rest = s at h'
    cases h' with
    | nil => exact absurd (List.append_eq_nil_iff.mp hs).1 hl.ne_nil
    | cons hl' hg' =>
      obtain ⟨rfl, rfl⟩ := hl.unique hl' hs
      rw [ih hg']

/-- The pieces make up the list. -/
theorem Greedy.flatten (h : Greedy P first s ps) : ps.flatten = s := by
  induction h with
  | nil => rfl
  | cons _ _ ih => rw [List.flatten_cons, ih]

/-- One piece that is all of the list is a longest one. -/
theorem longest_of_all (hne : p ≠ []) (h : Q p []) : Longest Q p [] := by
  refine ⟨hne, h, fun q r _ heq _ => ?_⟩
  rw [List.append_nil] at heq
  rw [← heq, List.length_append]
  exact Nat.le_add_right _ _

/-- A longest piece stays the longest one under a condition that it meets. -/
theorem Longest.restrict {Q' : List α → List α → Prop} (h : Longest Q p rest) (h' : Q' p rest)
    (hsub : ∀ q r, Q' q r → Q q r) : Longest Q' p rest :=
  ⟨h.ne_nil, h', fun q r hne heq hq => h.longest q r hne heq (hsub q r hq)⟩

end GreedySegments
