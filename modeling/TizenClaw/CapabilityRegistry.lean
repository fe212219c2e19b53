import TizenClaw.ByteString
import TizenClaw.OrderedMap

/-! The registry of capabilities, and the overlaps it detects: tools of one category whose sources
have different priorities. -/
namespace CapabilityRegistry

open ByteString OrderedMap

inductive CapabilitySource where
  | skill
  | customSkill
  | action
  | builtin
  | systemCli
  | cli
  | rpk
  deriving DecidableEq, Repr

/-- A lower number is a higher priority. -/
def sourcePriority : CapabilitySource → ℕ
  | .skill => 0
  | .customSkill => 1
  | .action => 2
  | .builtin => 3
  | .systemCli => 4
  | .cli => 5
  | .rpk => 6

structure Capability where
  category : Bytes := []
  source : CapabilitySource := .skill
  deriving DecidableEq, Repr

/-- The names stay in order, as in the map of the source. -/
structure Registry where
  capabilities : Map Bytes Capability
  sorted : capabilities.Sorted

abbrev Tool := Bytes × CapabilitySource

section Registry

def Registry.empty : Registry := ⟨Map.empty, Map.sorted_empty⟩

def Registry.get (r : Registry) (name : Bytes) : Option Capability := r.capabilities.get name

def Registry.register (r : Registry) (name : Bytes) (cap : Capability) : Registry :=
  ⟨r.capabilities.insert name cap, Map.insert_sorted r.sorted name cap⟩

def Registry.unregister (r : Registry) (name : Bytes) : Registry :=
  ⟨r.capabilities.erase name, Map.erase_sorted r.sorted name⟩

end Registry

section Detect

def categoryOf (cap : Capability) : Bytes :=
  if cap.category = [] then bytes "general" else cap.category

def addTool (m : Map Bytes (List Tool)) (e : Bytes × Capability) : Map Bytes (List Tool) :=
  m.insert (categoryOf e.2) ((m.get (categoryOf e.2)).getD [] ++ [(e.1, e.2.source)])

def byCategory (r : Registry) : Map Bytes (List Tool) :=
  r.capabilities.entries.foldl addTool Map.empty

/-- The best tool so far, and its priority. -/
def pickBest (best : Option Bytes × ℕ) (tool : Tool) : Option Bytes × ℕ :=
  if sourcePriority tool.2 < best.2 then (some tool.1, sourcePriority tool.2) else best

def overlapsIn (tools : List Tool) : List (Bytes × Bytes) :=
  if tools.length < 2 then []
  else match tools.foldl pickBest (none, 99) with
    | (none, _) => []
    | (some best, prio) =>
      (tools.filter fun t => prio < sourcePriority t.2).map fun t => (t.1, best)

/-- Pairs of a tool and the one that is preferred to it. -/
def detectOverlaps (r : Registry) : List (Bytes × Bytes) :=
  (byCategory r).entries.flatMap fun e => overlapsIn e.2

end Detect

section Best

variable (r : Registry)

/-- A tool of the category that no other tool of the category has priority over. -/
def IsBest (cat name : Bytes) : Prop :=
  ∃ cap, r.get name = some cap ∧ categoryOf cap = cat ∧
    ∀ n c, r.get n = some c → categoryOf c = cat →
      sourcePriority cap.source ≤ sourcePriority c.source

/-- The first of these by name. -/
def IsFirstBest (cat name : Bytes) : Prop :=
  IsBest r cat name ∧ ∀ other, IsBest r cat other → other ≠ name → name < other

/-- The tools of a category in the order of their names. -/
def toolsIn (cat : Bytes) : List Tool :=
  (r.capabilities.entries.filter fun e => categoryOf e.2 = cat).map fun e => (e.1, e.2.source)

variable {r}

theorem mem_toolsIn {cat name : Bytes} {src : CapabilitySource} :
    (name, src) ∈ toolsIn r cat ↔
      ∃ cap, r.get name = some cap ∧ categoryOf cap = cat ∧ cap.source = src := by
  unfold toolsIn
  constructor
  · intro h
    obtain ⟨e, he, hx⟩ := List.mem_map.mp h
    obtain ⟨rfl, rfl⟩ := Prod.mk.inj hx
    obtain ⟨he, hc⟩ := List.mem_filter.mp he
    exact ⟨e.2, Map.mem_iff_get.mp he, of_decide_eq_true hc, rfl⟩
  · rintro ⟨cap, hg, hc, rfl⟩
    apply List.mem_map.mpr
    refine ⟨(name, cap), List.mem_filter.mpr ⟨Map.mem_iff_get.mpr hg, decide_eq_true hc⟩, rfl⟩

theorem toolsIn_sorted (cat : Bytes) : ((toolsIn r cat).map Prod.fst).Pairwise (· < ·) := by
  unfold toolsIn
  rw [List.map_map]
  exact r.sorted.sublist (List.filter_sublist.map Prod.fst)

theorem isBest_iff {cat name : Bytes} :
    IsBest r cat name ↔ ∃ src, (name, src) ∈ toolsIn r cat ∧
      ∀ t ∈ toolsIn r cat, sourcePriority src ≤ sourcePriority t.2 := by
  constructor
  · rintro ⟨cap, hg, hc, hle⟩
    refine ⟨cap.source, mem_toolsIn.mpr ⟨cap, hg, hc, rfl⟩, ?_⟩
    rintro ⟨n, src⟩ ht
    obtain ⟨c, hn, hcat, rfl⟩ := mem_toolsIn.mp ht
    exact hle n c hn hcat
  · rintro ⟨src, hm, hle⟩
    obtain ⟨cap, hg, hc, rfl⟩ := mem_toolsIn.mp hm
    refine ⟨cap, hg, hc, ?_⟩
    intro n c hn hcat
    exact hle (n, c.source) (mem_toolsIn.mpr ⟨c, hn, hcat, rfl⟩)

end Best

section Grouping

variable {r : Registry}

theorem get_foldl_addTool (cat : Bytes) (l : List (Bytes × Capability))
    (m : Map Bytes (List Tool)) :
    ((l.foldl addTool m).get cat).getD [] =
      (m.get cat).getD [] ++
        (l.filter fun e => categoryOf e.2 = cat).map fun e => (e.1, e.2.source) := by
  induction l generalizing m with
  | nil => simp
  | cons e l ih =>
    rw [List.foldl_cons, ih, addTool]
    by_cases hc : categoryOf e.2 = cat
    · rw [hc, Map.get_insert_self, List.filter_cons_of_pos (by simpa using hc), List.map_cons]
      simp
    · rw [Map.get_insert_other (Ne.symm hc), List.filter_cons_of_neg (by simpa using hc)]

theorem get_byCategory (cat : Bytes) : ((byCategory r).get cat).getD [] = toolsIn r cat :=
  get_foldl_addTool cat r.capabilities.entries Map.empty

theorem mem_detectOverlaps_tools {x : Bytes × Bytes} :
    x ∈ detectOverlaps r ↔ ∃ cat, x ∈ overlapsIn (toolsIn r cat) := by
  unfold detectOverlaps
  rw [List.mem_flatMap]
  constructor
  · rintro ⟨e, he, hx⟩
    have hg : (byCategory r).get e.1 = some e.2 := Map.mem_iff_get.mp he
    refine ⟨e.1, ?_⟩
    rw [← get_byCategory, hg]
    exact hx
  · rintro ⟨cat, hx⟩
    rw [← get_byCategory] at hx
    cases hg : (byCategory r).get cat with
    | none =>
      rw [hg] at hx
      cases hx
    | some tools =>
      rw [hg] at hx
      exact ⟨(cat, tools), Map.mem_iff_get.mpr hg, hx⟩

end Grouping

section Pick

/-- The loop ends with the first tool of the least priority number, if any is below the start. -/
theorem foldl_pickBest (tools : List Tool) (acc : Option Bytes × ℕ) :
    tools.foldl pickBest acc = acc ∧ (∀ t ∈ tools, acc.2 ≤ sourcePriority t.2) ∨
    ∃ front t back, tools = front ++ t :: back ∧
      tools.foldl pickBest acc = (some t.1, sourcePriority t.2) ∧
      (∀ u ∈ front, sourcePriority t.2 < sourcePriority u.2) ∧
      (∀ u ∈ back, sourcePriority t.2 ≤ sourcePriority u.2) ∧ sourcePriority t.2 < acc.2 := by
  induction tools generalizing acc with
  | nil => exact .inl ⟨rfl, nofun⟩
  | cons a tools ih =>
    rw [List.foldl_cons]
    by_cases ha : sourcePriority a.2 < acc.2
    · have hp : pickBest acc a = (some a.1, sourcePriority a.2) := if_pos ha
      rw [hp]
      rcases ih (some a.1, sourcePriority a.2) with ⟨he, hle⟩ |
        ⟨front, t, back, rfl, he, hf, hb, hlt⟩
      · exact .inr ⟨[], a, tools, rfl, he, nofun, hle, ha⟩
      · refine .inr ⟨a :: front, t, back, rfl, he, ?_, hb, hlt.trans ha⟩
        intro u hu
        rcases List.mem_cons.mp hu with rfl | hu
        · exact hlt
        · exact hf u hu
    · have hp : pickBest acc a = acc := if_neg ha
      rw [hp]
      rcases ih acc with ⟨he, hle⟩ | ⟨front, t, back, rfl, he, hf, hb, hlt⟩
      · refine .inl ⟨he, ?_⟩
        intro u hu
        rcases List.mem_cons.mp hu with rfl | hu
        · exact not_lt.mp ha
        · exact hle u hu
      · refine .inr ⟨a :: front, t, back, rfl, he, ?_, hb, hlt⟩
        intro u hu
        rcases List.mem_cons.mp hu with rfl | hu
        · exact hlt.trans_le (not_lt.mp ha)
        · exact hf u hu

theorem sourcePriority_lt (src : CapabilitySource) : sourcePriority src < 99 := by
  cases src <;> decide

variable {r : Registry} {cat : Bytes}

/-- A category with a tool has a first best one, and the loop finds it. -/
theorem foldl_pickBest_toolsIn (hne : toolsIn r cat ≠ []) :
    ∃ best prio, (toolsIn r cat).foldl pickBest (none, 99) = (some best, prio) ∧
      IsFirstBest r cat best ∧
      ∀ name src, (name, src) ∈ toolsIn r cat →
        (prio < sourcePriority src ↔ ¬ IsBest r cat name) := by
  rcases foldl_pickBest (toolsIn r cat) (none, 99) with ⟨-, hle⟩ |
    ⟨front, t, back, hs, he, hf, hb, -⟩
  · obtain ⟨t, ht⟩ := List.exists_mem_of_ne_nil _ hne
    have := hle t ht
    have := sourcePriority_lt t.2
    omega
  · have hmin : ∀ u ∈ toolsIn r cat, sourcePriority t.2 ≤ sourcePriority u.2 := by
      intro u hu
      rw [hs] at hu
      rcases List.mem_append.mp hu with hu | hu
      · exact (hf u hu).le
      · rcases List.mem_cons.mp hu with rfl | hu
        · exact le_rfl
        · exact hb u hu
    have hmem : t ∈ toolsIn r cat := by
      rw [hs]
      exact List.mem_append_right _ List.mem_cons_self
    have hbest : IsBest r cat t.1 := isBest_iff.mpr ⟨t.2, hmem, hmin⟩
    refine ⟨t.1, _, he, ⟨hbest, ?_⟩, ?_⟩
    · intro other ho hne
      obtain ⟨src, hsrc, hle⟩ := isBest_iff.mp ho
      have hsorted := toolsIn_sorted (r := r) cat
      rw [hs, List.map_append, List.map_cons, List.pairwise_append, List.pairwise_cons] at hsorted
      have hpos := hsrc
      rw [hs] at hpos
      rcases List.mem_append.mp hpos with hu | hu
      · exact absurd (hle t hmem) (not_le.mpr (hf _ hu))
      · rcases List.mem_cons.mp hu with hu | hu
        · exact absurd (congrArg Prod.fst hu) hne
        · exact hsorted.2.1.1 _ (List.mem_map_of_mem hu)
    · intro name src hm
      constructor
      · intro hlt hbest'
        obtain ⟨src', hm', hle⟩ := isBest_iff.mp hbest'
        obtain ⟨c, hc, -, rfl⟩ := mem_toolsIn.mp hm
        obtain ⟨c', hc', -, rfl⟩ := mem_toolsIn.mp hm'
        obtain rfl := Option.some.inj (hc.symm.trans hc')
        exact absurd (hle t hmem) (not_le.mpr hlt)
      · intro hnb
        by_contra hge
        apply hnb
        refine isBest_iff.mpr ⟨src, hm, ?_⟩
        intro u hu
        exact (not_lt.mp hge).trans (hmin u hu)

theorem IsFirstBest.unique {a b : Bytes} (ha : IsFirstBest r cat a) (hb : IsFirstBest r cat b) :
    a = b := by
  by_contra hne
  have hab := ha.2 b hb.1 (Ne.symm hne)
  have hba := hb.2 a ha.1 hne
  exact List.lt_asymm hab hba

/-- A tool that is not among the best is not alone in its category. -/
theorem two_tools {name : Bytes} {src : CapabilitySource} (hm : (name, src) ∈ toolsIn r cat)
    (hnb : ¬ IsBest r cat name) : ¬ (toolsIn r cat).length < 2 := by
  intro hlen
  obtain ⟨t, ht⟩ := List.length_eq_one_iff.mp
    (show (toolsIn r cat).length = 1 by have := List.length_pos_of_mem hm; omega)
  apply hnb
  refine isBest_iff.mpr ⟨src, hm, ?_⟩
  intro u hu
  rw [ht] at hm hu
  obtain rfl := List.mem_singleton.mp hm
  obtain rfl := List.mem_singleton.mp hu
  exact le_rfl

/-- Exactly the tools that are not among the best of their category are redirected, to the first
of those. -/
theorem mem_detectOverlaps {lower higher : Bytes} :
    (lower, higher) ∈ detectOverlaps r ↔ ∃ cap, r.get lower = some cap ∧
      ¬ IsBest r (categoryOf cap) lower ∧ IsFirstBest r (categoryOf cap) higher := by
  rw [mem_detectOverlaps_tools]
  constructor
  · rintro ⟨cat, hx⟩
    unfold overlapsIn at hx
    split_ifs at hx with hlen
    · cases hx
    · have hne : toolsIn r cat ≠ [] := by
        intro he
        rw [he] at hlen
        exact hlen (by decide)
      obtain ⟨best, prio, he, hfirst, hlt⟩ := foldl_pickBest_toolsIn hne
      rw [he] at hx
      obtain ⟨t, ht, hp⟩ := List.mem_map.mp hx
      obtain ⟨ht, hprio⟩ := List.mem_filter.mp ht
      obtain ⟨rfl, rfl⟩ := Prod.mk.inj hp
      obtain ⟨cap, hg, hc, hsrc⟩ := mem_toolsIn.mp ht
      obtain rfl := hc
      exact ⟨cap, hg, (hlt t.1 t.2 ht).mp (of_decide_eq_true hprio), hfirst⟩
  · rintro ⟨cap, hg, hnb, hfirst⟩
    have ht : (lower, cap.source) ∈ toolsIn r (categoryOf cap) :=
      mem_toolsIn.mpr ⟨cap, hg, rfl, rfl⟩
    have hne : toolsIn r (categoryOf cap) ≠ [] := List.ne_nil_of_mem ht
    obtain ⟨best, prio, he, hbest, hlt⟩ := foldl_pickBest_toolsIn hne
    obtain rfl := hbest.unique hfirst
    refine ⟨categoryOf cap, ?_⟩
    unfold overlapsIn
    rw [if_neg (two_tools ht hnb), he]
    apply List.mem_map.mpr
    exact ⟨_, List.mem_filter.mpr ⟨ht, decide_eq_true ((hlt _ _ ht).mpr hnb)⟩, rfl⟩

end Pick

end CapabilityRegistry
