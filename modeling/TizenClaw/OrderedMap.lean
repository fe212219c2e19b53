import Mathlib.Data.List.Nodup
import Mathlib.Data.List.Sort

/-! Maps as lists of entries in the order of their keys, with one entry for each key. -/
namespace OrderedMap

structure Map (κ α : Type*) where
  entries : List (κ × α)
  nodup : (entries.map Prod.fst).Nodup

variable {κ α : Type*}

theorem mem_of_lookup [BEq κ] [LawfulBEq κ] {l : List (κ × α)} {k : κ} {v : α}
    (h : l.lookup k = some v) : (k, v) ∈ l := by
  obtain ⟨l₁, l₂, rfl, -⟩ := List.lookup_eq_some_iff.mp h
  exact List.mem_append_right l₁ List.mem_cons_self

theorem lookup_of_mem [BEq κ] [LawfulBEq κ] {l : List (κ × α)}
    (hn : (l.map Prod.fst).Nodup) {k : κ} {v : α} (h : (k, v) ∈ l) : l.lookup k = some v := by
  induction l with
  | nil => cases h
  | cons e l ih =>
    rw [List.map_cons, List.nodup_cons] at hn
    rcases List.mem_cons.mp h with he | h
    · rw [← he, List.lookup_cons_self]
    · have hne : (k == e.1) = false := by
        apply beq_false_of_ne
        intro hk
        apply hn.1
        rw [← hk]
        exact List.mem_map_of_mem h
      rw [List.lookup_cons, hne]
      exact ih hn.2 h

/-- With distinct keys the order of the entries is of no matter. -/
theorem lookup_perm [BEq κ] [LawfulBEq κ] {l l' : List (κ × α)} (hn : (l.map Prod.fst).Nodup)
    (hp : l.Perm l') (k : κ) : l'.lookup k = l.lookup k := by
  cases hl : l.lookup k with
  | none =>
    rw [List.lookup_eq_none_iff] at hl ⊢
    exact fun x hx => hl x (hp.mem_iff.mpr hx)
  | some v =>
    apply lookup_of_mem ((hp.map Prod.fst).nodup_iff.mp hn)
    exact hp.mem_iff.mp (mem_of_lookup hl)

namespace Map

def empty : Map κ α := ⟨[], List.nodup_nil⟩

section Values

/-- New values under the same keys. -/
def mapValues {β : Type*} (f : κ → α → β) (m : Map κ α) : Map κ β where
  entries := m.entries.map fun e => (e.1, f e.1 e.2)
  nodup := by
    rw [List.map_map]
    exact m.nodup

end Values

section Sorted

variable [LT κ]

/-- The entries in the order of their keys. -/
def Sorted (m : Map κ α) : Prop := (m.entries.map Prod.fst).Pairwise (· < ·)

theorem sorted_empty : (empty : Map κ α).Sorted := List.Pairwise.nil

theorem orderedInsert_keys [DecidableLT κ] [Trans (· < · : κ → κ → Prop) (· < ·) (· < ·)]
    [Std.Trichotomous (· < · : κ → κ → Prop)] {k : κ} {v : α} {l : List (κ × α)}
    (hl : (l.map Prod.fst).Pairwise (· < ·)) (hk : k ∉ l.map Prod.fst) :
    ((l.orderedInsert (fun a b => a.1 < b.1) (k, v)).map Prod.fst).Pairwise (· < ·) := by
  induction l with
  | nil => exact List.pairwise_singleton _ _
  | cons e l ih =>
    rw [List.map_cons, List.mem_cons, not_or] at hk
    rw [List.map_cons, List.pairwise_cons] at hl
    rw [List.orderedInsert_cons]
    by_cases hlt : k < e.1
    · rw [if_pos hlt, List.map_cons, List.map_cons, List.pairwise_cons, List.pairwise_cons]
      refine ⟨?_, hl⟩
      intro x hx
      rcases List.mem_cons.mp hx with rfl | hx
      · exact hlt
      · exact Trans.trans hlt (hl.1 x hx)
    · have hgt : e.1 < k := by
        by_contra hno
        exact hk.1 (Std.Trichotomous.trichotomous _ _ hlt hno)
      rw [if_neg hlt, List.map_cons, List.pairwise_cons]
      refine ⟨?_, ih hl.2 hk.2⟩
      intro x hx
      have hp := (List.perm_orderedInsert (fun a b : κ × α => a.1 < b.1) (k, v) l).map Prod.fst
      rcases List.mem_cons.mp (hp.subset hx) with rfl | hx
      · exact hgt
      · exact hl.1 x hx

end Sorted

variable [DecidableEq κ]

def get (m : Map κ α) (k : κ) : Option α := m.entries.lookup k

def contains (m : Map κ α) (k : κ) : Bool := (m.get k).isSome

theorem get_empty (k : κ) : (empty : Map κ α).get k = none := rfl

section Lookup

theorem mem_iff_get {m : Map κ α} {k : κ} {v : α} : (k, v) ∈ m.entries ↔ m.get k = some v :=
  ⟨lookup_of_mem m.nodup, mem_of_lookup⟩

theorem get_mapValues {β : Type*} (f : κ → α → β) (m : Map κ α) (k : κ) :
    (m.mapValues f).get k = (m.get k).map (f k) := by
  change (m.entries.map fun e => (e.1, f e.1 e.2)).lookup k = (m.entries.lookup k).map (f k)
  induction m.entries with
  | nil => rfl
  | cons e l ih =>
    rw [List.map_cons, List.lookup_cons, List.lookup_cons]
    cases hk : k == e.1 with
    | true =>
      obtain rfl := eq_of_beq hk
      rfl
    | false => exact ih

end Lookup

section Insert

/-- The value under a key, in its place. -/
def replace (k : κ) (v : α) (l : List (κ × α)) : List (κ × α) :=
  l.map fun e => if e.1 = k then (k, v) else e

theorem replace_keys (k : κ) (v : α) (l : List (κ × α)) :
    (replace k v l).map Prod.fst = l.map Prod.fst := by
  rw [replace, List.map_map]
  apply List.map_congr_left
  intro e _
  by_cases h : e.1 = k
  · simp [h]
  · simp [h]

variable [LT κ] [DecidableLT κ]

/-- `m[k] = v` -/
def insert (k : κ) (v : α) (m : Map κ α) : Map κ α where
  entries :=
    if k ∈ m.entries.map Prod.fst then replace k v m.entries
    else m.entries.orderedInsert (fun a b => a.1 < b.1) (k, v)
  nodup := by
    split_ifs with h
    · rw [replace_keys]
      exact m.nodup
    · have hp :=
        (List.perm_orderedInsert (fun a b : κ × α => a.1 < b.1) (k, v) m.entries).map Prod.fst
      apply hp.nodup_iff.mpr
      rw [List.map_cons, List.nodup_cons]
      exact ⟨h, m.nodup⟩

theorem mem_insert {k : κ} {v : α} {m : Map κ α} {e : κ × α} (h : e ∈ (m.insert k v).entries) :
    e = (k, v) ∨ (e.1 ≠ k ∧ e ∈ m.entries) := by
  unfold insert at h
  dsimp only at h
  split_ifs at h with hk
  · obtain ⟨x, hx, rfl⟩ := List.mem_map.mp h
    by_cases hxk : x.1 = k
    · left
      rw [if_pos hxk]
    · right
      rw [if_neg hxk]
      exact ⟨hxk, hx⟩
  · rcases List.mem_cons.mp ((List.perm_orderedInsert _ _ _).subset h) with h | h
    · exact .inl h
    · right
      refine ⟨fun he => hk ?_, h⟩
      rw [← he]
      exact List.mem_map_of_mem h

theorem mem_insert_self (k : κ) (v : α) (m : Map κ α) : (k, v) ∈ (m.insert k v).entries := by
  unfold insert
  dsimp only
  split_ifs with hk
  · obtain ⟨x, hx, hxk⟩ := List.mem_map.mp hk
    apply List.mem_map.mpr
    refine ⟨x, hx, ?_⟩
    rw [if_pos hxk]
  · apply (List.perm_orderedInsert _ _ _).symm.subset
    exact List.mem_cons_self

theorem mem_insert_other {k : κ} {v : α} {m : Map κ α} {e : κ × α} (hne : e.1 ≠ k)
    (h : e ∈ m.entries) : e ∈ (m.insert k v).entries := by
  unfold insert
  dsimp only
  split_ifs with hk
  · apply List.mem_map.mpr
    refine ⟨e, h, ?_⟩
    rw [if_neg hne]
  · apply (List.perm_orderedInsert _ _ _).symm.subset
    exact List.mem_cons_of_mem _ h

@[simp] theorem get_insert_self (k : κ) (v : α) (m : Map κ α) : (m.insert k v).get k = some v :=
  mem_iff_get.mp (mem_insert_self k v m)

theorem get_insert_other {k l : κ} (h : l ≠ k) (v : α) (m : Map κ α) :
    (m.insert k v).get l = m.get l := by
  cases hg : m.get l with
  | some w => exact mem_iff_get.mp (mem_insert_other h (mem_iff_get.mpr hg))
  | none =>
    cases hg' : (m.insert k v).get l with
    | none => rfl
    | some w =>
      rcases mem_insert (mem_iff_get.mpr hg') with he | ⟨-, he⟩
      · exact absurd (congrArg Prod.fst he) h
      · rw [mem_iff_get.mp he] at hg
        cases hg

theorem length_insert_le (k : κ) (v : α) (m : Map κ α) :
    (m.insert k v).entries.length ≤ m.entries.length + 1 := by
  unfold insert
  dsimp only
  split_ifs with hk
  · rw [replace, List.length_map]
    exact Nat.le_succ _
  · rw [List.orderedInsert_length]

theorem insert_sorted [Trans (· < · : κ → κ → Prop) (· < ·) (· < ·)]
    [Std.Trichotomous (· < · : κ → κ → Prop)] {m : Map κ α} (h : m.Sorted) (k : κ) (v : α) :
    (m.insert k v).Sorted := by
  unfold Sorted insert
  dsimp only
  split_ifs with hk
  · rw [replace_keys]
    exact h
  · exact orderedInsert_keys h hk

end Insert

section Erase

/-- `m.erase(k)` -/
def erase (k : κ) (m : Map κ α) : Map κ α where
  entries := m.entries.filter fun e => e.1 ≠ k
  nodup := m.nodup.sublist (List.filter_sublist.map Prod.fst)

theorem mem_erase {k : κ} {m : Map κ α} {e : κ × α} :
    e ∈ (m.erase k).entries ↔ e ∈ m.entries ∧ e.1 ≠ k := by
  simp [erase]

@[simp] theorem get_erase_self (k : κ) (m : Map κ α) : (m.erase k).get k = none := by
  cases h : (m.erase k).get k with
  | none => rfl
  | some v => exact absurd rfl (mem_erase.mp (mem_iff_get.mpr h)).2

theorem get_erase_other {k l : κ} (h : l ≠ k) (m : Map κ α) : (m.erase k).get l = m.get l := by
  cases hg : m.get l with
  | some v => exact mem_iff_get.mp (mem_erase.mpr ⟨mem_iff_get.mpr hg, h⟩)
  | none =>
    cases hg' : (m.erase k).get l with
    | none => rfl
    | some v =>
      rw [mem_iff_get.mp (mem_erase.mp (mem_iff_get.mpr hg')).1] at hg
      cases hg

theorem erase_sorted [LT κ] {m : Map κ α} (h : m.Sorted) (k : κ) : (m.erase k).Sorted :=
  h.sublist (List.filter_sublist.map Prod.fst)

end Erase

end Map

end OrderedMap
