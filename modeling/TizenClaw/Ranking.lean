import Mathlib.Data.List.Nodup
import Mathlib.Data.List.Sort
import Mathlib.Order.Defs.LinearOrder

/-! Rankings by falling scores, and the first entries of them. -/
namespace Ranking

variable {α β σ : Type*} [LinearOrder σ]

def Falling (score : α → σ) (l : List α) : Prop := l.Pairwise fun a b => score b ≤ score a

/-- A sort may leave equal scores in any order. -/
structure Sorts (score : α → σ) (sort : List α → List α) : Prop where
  perm : ∀ l, (sort l).Perm l
  falling : ∀ l, Falling score (sort l)

/-- The list has the `k` best of all, each as often as it is there, the better ones first. -/
structure Top (score : α → σ) (k : ℕ) (all top : List α) : Prop where
  length : top.length = min k all.length
  falling : Falling score top
  best : ∃ rest, (top ++ rest).Perm all ∧ ∀ a ∈ top, ∀ b ∈ rest, score b ≤ score a

section Tops

variable {score : α → σ} {sort : List α → List α} {k : ℕ} {all top : List α}

theorem Falling.top_take {l : List α} (h : Falling score l) (k : ℕ) :
    Top score k l (l.take k) where
  length := List.length_take
  falling := List.Pairwise.sublist (List.take_sublist k l) h
  best := by
    refine ⟨l.drop k, by rw [List.take_append_drop], ?_⟩
    have hsplit := List.pairwise_append.mp ((List.take_append_drop k l).symm ▸ h)
    exact hsplit.2.2

theorem Top.perm {all' : List α} (h : Top score k all top) (hp : all.Perm all') :
    Top score k all' top where
  length := by rw [h.length, hp.length_eq]
  falling := h.falling
  best := by
    obtain ⟨rest, hrest, hle⟩ := h.best
    exact ⟨rest, hrest.trans hp, hle⟩

/-- All counts that reach to the end are alike. -/
theorem Top.of_min_eq {k' : ℕ} (h : Top score k all top)
    (hk : min k all.length = min k' all.length) : Top score k' all top where
  length := h.length.trans hk
  falling := h.falling
  best := h.best

theorem Sorts.top_take (h : Sorts score sort) (all : List α) (k : ℕ) :
    Top score k all ((sort all).take k) :=
  (h.falling all).top_take k |>.perm (h.perm all)

/-- The best of all entries stand for the best of what they are entries for. -/
theorem Top.map {f : α → β} {score' : β → σ} (h : Top score k all top)
    (hf : ∀ a ∈ all, score' (f a) = score a) : Top score' k (all.map f) (top.map f) := by
  obtain ⟨rest, hperm, hle⟩ := h.best
  have htop : ∀ a ∈ top, score' (f a) = score a :=
    fun a ha => hf a (hperm.subset (List.mem_append_left rest ha))
  have hrest : ∀ a ∈ rest, score' (f a) = score a :=
    fun a ha => hf a (hperm.subset (List.mem_append_right top ha))
  refine ⟨by rw [List.length_map, List.length_map, h.length], ?_, rest.map f, ?_, ?_⟩
  · refine List.pairwise_map.mpr (h.falling.imp_of_mem fun ha hb hab => ?_)
    rwa [htop _ ha, htop _ hb]
  · rw [← List.map_append]
    exact hperm.map f
  · intro b hb c hc
    obtain ⟨a, ha, rfl⟩ := List.mem_map.mp hb
    obtain ⟨a', ha', rfl⟩ := List.mem_map.mp hc
    rw [htop a ha, hrest a' ha']
    exact hle a ha a' ha'

theorem sorts_mergeSort (score : α → σ) :
    Sorts score fun l => l.mergeSort fun a b => score b ≤ score a where
  perm l := List.mergeSort_perm l _
  falling l := by
    have htrans : ∀ a b c : α, decide (score b ≤ score a) = true →
        decide (score c ≤ score b) = true → decide (score c ≤ score a) = true := by
      intro a b c hab hbc
      rw [decide_eq_true_eq] at hab hbc ⊢
      exact hbc.trans hab
    have htotal : ∀ a b : α,
        (decide (score b ≤ score a) || decide (score a ≤ score b)) = true := by
      intro a b
      rw [Bool.or_eq_true, decide_eq_true_eq, decide_eq_true_eq]
      exact le_total _ _
    exact (List.pairwise_mergeSort htrans htotal l).imp fun hab => of_decide_eq_true hab

end Tops

end Ranking
