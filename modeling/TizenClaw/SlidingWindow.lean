import Mathlib.Algebra.Order.Group.Defs
import Mathlib.Data.List.Induction
import Mathlib.Data.List.TakeWhile
import Mathlib.Tactic.Abel

/-! Sliding windows over logs of times: a limit that is kept where a time is added is kept in every
window of the same length. -/
namespace SlidingWindow

variable {α : Type*} [LinearOrder α]

/-- How many times of a log are in a closed interval. -/
def within (lo hi : α) (log : List α) : ℕ := log.countP fun t => lo ≤ t ∧ t ≤ hi

variable {lo hi t : α} {log : List α}

@[simp] theorem within_nil : within lo hi [] = 0 := rfl

theorem within_append (l m : List α) : within lo hi (l ++ m) = within lo hi l + within lo hi m :=
  List.countP_append

theorem within_snoc : within lo hi (log ++ [t]) =
    within lo hi log + if lo ≤ t ∧ t ≤ hi then 1 else 0 := by
  rw [within_append]
  simp [within, List.countP_cons]

theorem within_mono {lo' hi' : α} (h : ∀ t ∈ log, lo ≤ t → t ≤ hi → lo' ≤ t ∧ t ≤ hi') :
    within lo hi log ≤ within lo' hi' log := by
  refine List.countP_mono_left fun t ht hin => ?_
  rw [decide_eq_true_eq] at hin ⊢
  exact h t ht hin.1 hin.2

theorem within_eq_zero (h : ∀ t ∈ log, t < lo) : within lo hi log = 0 := by
  refine List.countP_eq_zero.mpr fun t ht hin => ?_
  rw [decide_eq_true_eq] at hin
  exact absurd hin.1 (h t ht).not_ge

/-- The times that are left after the front of a sorted log has expired. -/
theorem length_dropWhile (hs : log.Pairwise (· ≤ ·)) (hle : ∀ t ∈ log, t ≤ hi) :
    (log.dropWhile fun t => t < lo).length = within lo hi log := by
  induction log with
  | nil => rfl
  | cons t log ih =>
    rw [List.pairwise_cons] at hs
    rw [List.forall_mem_cons] at hle
    by_cases ht : t < lo
    · rw [List.dropWhile_cons_of_pos (by simpa using ht), ih hs.2 hle.2, within, within,
        List.countP_cons_of_neg (by simp [ht.not_ge])]
    · have hall : within lo hi (t :: log) = (t :: log).length := by
        refine List.countP_eq_length.mpr fun u hu => ?_
        rw [decide_eq_true_eq]
        rcases List.mem_cons.mp hu with rfl | hu
        · exact ⟨not_lt.mp ht, hle.1⟩
        · exact ⟨(not_lt.mp ht).trans (hs.1 u hu), hle.2 u hu⟩
      rw [List.dropWhile_cons_of_neg (by simpa using ht), hall]

theorem dropWhile_split (lo : α) (log : List α) : ∃ expired,
    log = expired ++ log.dropWhile (fun t => t < lo) ∧ ∀ t ∈ expired, t < lo := by
  refine ⟨log.takeWhile fun t => t < lo, List.takeWhile_append_dropWhile.symm, fun t ht => ?_⟩
  simpa using List.mem_takeWhile_imp ht

variable [AddCommGroup α]

/-- A log to which each time was added while fewer than the limit were in the window that ends
there. -/
inductive Limited (w : α) (limit : ℤ) : List α → Prop where
  | nil : Limited w limit []
  | snoc {log : List α} {t : α} : Limited w limit log → (∀ u ∈ log, u ≤ t) →
      within (t - w) t log < limit → Limited w limit (log ++ [t])

theorem Limited.pairwise {w : α} {limit : ℤ} (h : Limited w limit log) :
    log.Pairwise (· ≤ ·) := by
  induction h with
  | nil => exact List.Pairwise.nil
  | snoc _ hle _ ih =>
    refine List.pairwise_append.mpr ⟨ih, List.pairwise_singleton _ _, fun u hu v hv => ?_⟩
    obtain rfl := List.mem_singleton.mp hv
    exact hle u hu

variable [IsOrderedAddMonoid α]

/-- No window of this length has more times than the limit, wherever it is. -/
theorem Limited.window {w : α} {limit : ℤ} (h : Limited w limit log) (s : α) :
    (within s (s + w) log : ℤ) ≤ max limit 0 := by
  induction h with
  | nil => simp
  | @snoc log t _ hle hlt ih =>
    rw [within_snoc]
    by_cases hin : s ≤ t ∧ t ≤ s + w
    · have hmono : within s (s + w) log ≤ within (t - w) t log := by
        refine within_mono fun u hu hsu _ => ⟨?_, hle u hu⟩
        exact (sub_le_iff_le_add.mpr hin.2).trans hsu
      rw [if_pos hin]
      omega
    · rw [if_neg hin, add_zero]
      exact ih

end SlidingWindow
