import TizenClaw.ByteLines
import TizenClaw.PathResolution

/-! The texts of paths: names without slashes, and the components that a text is read as. The system
sees a text up to its first NUL. -/
namespace PosixPath

open ByteString ByteLines PathResolution

abbrev slash : UInt8 := 0x2F

def IsName (t : Bytes) : Prop :=
  t ≠ [] ∧ slash ∉ t ∧ 0 ∉ t ∧ t ≠ bytes "." ∧ t ≠ bytes ".."

instance (t : Bytes) : Decidable (IsName t) := inferInstanceAs (Decidable (_ ∧ _))

abbrev FileName := { t : Bytes // IsName t }

abbrev Place := List FileName

def component (t : Bytes) : Component FileName :=
  if h : IsName t then .name ⟨t, h⟩ else if t = bytes ".." then .parent else .here

def untilNul (s : Bytes) : Bytes := s.takeWhile (· ≠ 0)

def components (s : Bytes) : List (Component FileName) :=
  ((untilNul s).splitOn slash).map component

def pathOf (s : Bytes) : Path FileName :=
  ⟨(untilNul s).head? = some slash, components s⟩

section Texts

variable {s t a b : Bytes}

theorem untilNul_of_nul_free (h : 0 ∉ s) : untilNul s = s := by
  apply List.takeWhile_eq_self_iff.mpr
  intro x hx
  simp only [ne_eq, decide_eq_true_eq]
  rintro rfl
  exact h hx

theorem untilNul_append (h : 0 ∉ a) (b : Bytes) : untilNul (a ++ b) = a ++ untilNul b := by
  apply List.takeWhile_append_of_pos
  intro x hx
  simp only [ne_eq, decide_eq_true_eq]
  rintro rfl
  exact h hx

theorem untilNul_isPrefix (s : Bytes) : untilNul s <+: s := List.takeWhile_prefix _

theorem component_name {n : FileName} : component t = .name n ↔ n.1 = t := by
  unfold component
  split_ifs with h hp
  · rw [Component.name.injEq, Subtype.ext_iff]
    exact eq_comm
  · refine iff_of_false (by simp) ?_
    rintro rfl
    exact h n.2
  · refine iff_of_false (by simp) ?_
    rintro rfl
    exact h n.2

theorem component_parent : component t = .parent ↔ t = bytes ".." := by
  unfold component
  split_ifs with h hp
  · exact iff_of_false (by simp) h.2.2.2.2
  · exact iff_of_true rfl hp
  · exact iff_of_false (by simp) hp

theorem components_append (h : 0 ∉ a) (b : Bytes) :
    components (a ++ slash :: b) = components a ++ components b := by
  have hs : untilNul (slash :: b) = slash :: untilNul b :=
    List.takeWhile_cons_of_pos (by decide)
  unfold components
  rw [untilNul_append h, hs, List.splitOn_append_cons_self, List.map_append,
    untilNul_of_nul_free h]

theorem components_of_isName (h : IsName t) : components t = [.name ⟨t, h⟩] := by
  unfold components
  rw [untilNul_of_nul_free h.2.2.1, List.splitOn_eq_singleton h.2.1, List.map_singleton,
    (component_name (n := ⟨t, h⟩)).mpr rfl]

theorem untilNul_of_mem (h : 0 ∈ a) (b : Bytes) : untilNul (a ++ b) = untilNul a := by
  obtain ⟨l, r, rfl, hl⟩ := List.eq_append_cons_of_mem h
  have hcut : ∀ c : Bytes, untilNul (l ++ 0 :: c) = l := by
    intro c
    have hz : untilNul (0 :: c) = [] := List.takeWhile_cons_of_neg (by simp)
    rw [untilNul_append hl, hz, List.append_nil]
  rw [List.append_assoc, List.cons_append, hcut, hcut]

theorem components_of_mem (h : 0 ∈ a) (b : Bytes) : components (a ++ b) = components a := by
  unfold components
  rw [untilNul_of_mem h]

/-- A text of one piece. -/
theorem components_of_slash_free (h : slash ∉ s) : components s = [component (untilNul s)] := by
  have hn : slash ∉ untilNul s := fun hm => h ((untilNul_isPrefix s).subset hm)
  unfold components
  rw [List.splitOn_eq_singleton hn, List.map_singleton]

theorem mem_intercalate {c : UInt8} {p : Bytes} {l : List Bytes} (h : p ∈ l) :
    ∃ u v, [c].intercalate l = u ++ p ++ v ∧ (u = [] ∨ ∃ u', u = u' ++ [c]) ∧
      (v = [] ∨ ∃ v', v = c :: v') := by
  induction l with
  | nil => cases h
  | cons q l ih =>
    cases l with
    | nil =>
      obtain rfl := List.mem_singleton.mp h
      exact ⟨[], [], by simp, Or.inl rfl, Or.inl rfl⟩
    | cons r l =>
      rw [List.intercalate_cons_cons]
      rcases List.mem_cons.mp h with rfl | h
      · exact ⟨[], [c] ++ [c].intercalate (r :: l), by simp, Or.inl rfl, Or.inr ⟨_, rfl⟩⟩
      · obtain ⟨u, v, he, hu, hv⟩ := ih h
        refine ⟨q ++ [c] ++ u, v, by rw [he]; simp, ?_, hv⟩
        rcases hu with rfl | ⟨u', rfl⟩
        · exact Or.inr ⟨q, by simp⟩
        · exact Or.inr ⟨q ++ [c] ++ u', by simp⟩

/-- A piece stands between slashes or at an end of the text. -/
theorem mem_splitOn {c : UInt8} {p : Bytes} (h : p ∈ s.splitOn c) :
    ∃ u v, s = u ++ p ++ v ∧ (u = [] ∨ ∃ u', u = u' ++ [c]) ∧ (v = [] ∨ ∃ v', v = c :: v') := by
  have hp := mem_intercalate (c := c) h
  rwa [List.intercalate_splitOn] at hp

theorem infix_of_mem_splitOn {c : UInt8} {p : Bytes} (h : p ∈ s.splitOn c) : p <:+: s := by
  obtain ⟨u, v, hs, -, -⟩ := mem_splitOn h
  exact ⟨u, v, hs.symm⟩

/-- A text without two dots in a row has no step to a parent. -/
theorem parent_not_mem (h : find (bytes "..") s = none) : .parent ∉ components s := by
  intro hm
  obtain ⟨t, ht, he⟩ := List.mem_map.mp hm
  rw [component_parent] at he
  subst he
  have hin : bytes ".." <:+: s :=
    (infix_of_mem_splitOn ht).trans (untilNul_isPrefix s).isInfix
  have hnone := find_none_of_infix (by decide) hin h
  have hself : find (bytes "..") (bytes "..") = some 0 := by decide
  rw [hself] at hnone
  cases hnone

theorem parent_not_mem_append (ha : .parent ∉ components a) (hb : .parent ∉ components b) :
    .parent ∉ components (a ++ slash :: b) := by
  by_cases h0 : 0 ∈ a
  · rw [components_of_mem h0]
    exact ha
  · rw [components_append h0, List.mem_append]
    exact not_or.mpr ⟨ha, hb⟩

end Texts

end PosixPath
