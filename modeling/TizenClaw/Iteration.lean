import Mathlib.Data.Nat.Find

/-! Iteration of a deterministic machine, and when it ends. -/
namespace Iteration

variable {σ ρ : Type*} (step : σ → σ ⊕ ρ)

/-- The result within a number of steps. -/
def run : ℕ → σ → Option ρ
  | 0, _ => none
  | n + 1, s => match step s with
    | .inl t => run n t
    | .inr r => some r

/-- The state after a number of steps, while the machine has not ended. -/
def after : ℕ → σ → Option σ
  | 0, s => some s
  | n + 1, s => match step s with
    | .inl t => after n t
    | .inr _ => none

def Halts (s : σ) : Prop := ∃ n r, run step n s = some r

variable {step}

theorem run_inl {s t : σ} (h : step s = .inl t) (n : ℕ) : run step (n + 1) s = run step n t := by
  rw [run, h]

theorem after_inl {s t : σ} (h : step s = .inl t) (n : ℕ) :
    after step (n + 1) s = after step n t := by
  rw [after, h]

theorem halts_inl {s t : σ} (h : step s = .inl t) : Halts step s ↔ Halts step t := by
  constructor
  · rintro ⟨n, r, hr⟩
    cases n with
    | zero => cases hr
    | succ n => exact ⟨n, r, (run_inl h n).symm.trans hr⟩
  · rintro ⟨n, r, hr⟩
    exact ⟨n + 1, r, (run_inl h n).trans hr⟩

theorem halts_inr {s : σ} {r : ρ} (h : step s = .inr r) : Halts step s := by
  refine ⟨1, r, ?_⟩
  rw [run, h]

theorem after_add (m n : ℕ) (s : σ) :
    after step (m + n) s = (after step m s).bind (after step n) := by
  induction m generalizing s with
  | zero => rw [Nat.zero_add, after, Option.bind_some]
  | succ m ih =>
    rw [Nat.add_right_comm]
    cases h : step s with
    | inl t => rw [after_inl h, after_inl h, ih]
    | inr r => simp only [after, h, Option.bind_none]

/-- A machine that ended has no states after its last one. -/
theorem after_of_run {n : ℕ} {s : σ} {r : ρ} (h : run step n s = some r) {m : ℕ} (hm : n ≤ m) :
    after step m s = none := by
  induction n generalizing s m with
  | zero => cases h
  | succ n ih =>
    obtain ⟨m, rfl⟩ : ∃ k, m = k + 1 := ⟨m - 1, by omega⟩
    cases hs : step s with
    | inl t =>
      rw [run_inl hs] at h
      rw [after_inl hs]
      exact ih h (by omega)
    | inr r' => simp only [after, hs]

theorem halts_after {n : ℕ} {s t : σ} (h : after step n s = some t) :
    Halts step s ↔ Halts step t := by
  induction n generalizing s with
  | zero =>
    obtain rfl := Option.some.inj h
    rfl
  | succ n ih =>
    cases hs : step s with
    | inl u =>
      rw [after_inl hs] at h
      rw [halts_inl hs]
      exact ih h
    | inr r =>
      simp only [after, hs] at h
      cases h

theorem halts_of_after_none {n : ℕ} {s : σ} (h : after step n s = none) : Halts step s := by
  induction n generalizing s with
  | zero => cases h
  | succ n ih =>
    cases hs : step s with
    | inl t =>
      rw [after_inl hs] at h
      exact (halts_inl hs).mpr (ih h)
    | inr r => exact halts_inr hs

theorem after_invariant {I : σ → Prop} (hI : ∀ s t, I s → step s = .inl t → I t) {n : ℕ}
    {s t : σ} (hs : I s) (h : after step n s = some t) : I t := by
  induction n generalizing s with
  | zero =>
    obtain rfl := Option.some.inj h
    exact hs
  | succ n ih =>
    cases hst : step s with
    | inl u =>
      rw [after_inl hst] at h
      exact ih (hI s u hs hst) h
    | inr r =>
      simp only [after, hst] at h
      cases h

/-- The result comes from a state that the machine reaches. -/
theorem result_of_run {I : σ → Prop} (hI : ∀ s t, I s → step s = .inl t → I t) {n : ℕ} {s : σ}
    {r : ρ} (hs : I s) (h : run step n s = some r) : ∃ t, I t ∧ step t = .inr r := by
  induction n generalizing s with
  | zero => cases h
  | succ n ih =>
    cases hst : step s with
    | inl u =>
      rw [run_inl hst] at h
      exact ih (hI s u hs hst) h
    | inr r' =>
      simp only [run, hst] at h
      obtain rfl := Option.some.inj h
      exact ⟨s, hs, hst⟩

theorem run_after {m : ℕ} {s t : σ} (h : after step m s = some t) (n : ℕ) :
    run step (m + n) s = run step n t := by
  induction m generalizing s with
  | zero =>
    obtain rfl := Option.some.inj h
    rw [Nat.zero_add]
  | succ m ih =>
    cases hst : step s with
    | inl u =>
      rw [after_inl hst] at h
      rw [Nat.add_right_comm, run_inl hst]
      exact ih h
    | inr r =>
      simp only [after, hst] at h
      cases h

/-- A machine with more to its states runs like the one without it. -/
theorem after_map {τ κ : Type*} {step' : τ → τ ⊕ κ} {f : σ → τ} {g : ρ → κ}
    (h : ∀ s, Sum.map f g (step s) = step' (f s)) (n : ℕ) (s : σ) :
    (after step n s).map f = after step' n (f s) := by
  induction n generalizing s with
  | zero => rfl
  | succ n ih =>
    have hst := h s
    cases hs : step s with
    | inl t =>
      rw [hs, Sum.map_inl] at hst
      rw [after_inl hs, after_inl hst.symm]
      exact ih t
    | inr r =>
      rw [hs, Sum.map_inr] at hst
      simp only [after, hs, ← hst, Option.map_none]

theorem run_map {τ κ : Type*} {step' : τ → τ ⊕ κ} {f : σ → τ} {g : ρ → κ}
    (h : ∀ s, Sum.map f g (step s) = step' (f s)) (n : ℕ) (s : σ) :
    (run step n s).map g = run step' n (f s) := by
  induction n generalizing s with
  | zero => rfl
  | succ n ih =>
    have hst := h s
    cases hs : step s with
    | inl t =>
      rw [hs, Sum.map_inl] at hst
      rw [run_inl hs, run_inl hst.symm]
      exact ih t
    | inr r =>
      rw [hs, Sum.map_inr] at hst
      simp only [run, hs, ← hst, Option.map_some]

/-- Machines whose steps correspond give corresponding results. -/
theorem run_related {τ κ φ : Type*} {step' : τ → τ ⊕ κ} {R : σ → τ → Prop} {f : ρ → φ} {g : κ → φ}
    (hR : ∀ s t, R s t → Sum.LiftRel R (fun r k => f r = g k) (step s) (step' t)) {s : σ} {t : τ}
    (h : R s t) (n : ℕ) : (run step n s).map f = (run step' n t).map g := by
  induction n generalizing s t with
  | zero => rfl
  | succ n ih =>
    have hst := hR s t h
    cases hs : step s with
    | inl s' =>
      rw [hs] at hst
      cases ht : step' t with
      | inl t' =>
        rw [ht] at hst
        rw [run_inl hs, run_inl ht]
        exact ih (Sum.liftRel_inl_inl.mp hst)
      | inr k =>
        rw [ht] at hst
        cases hst
    | inr r =>
      rw [hs] at hst
      cases ht : step' t with
      | inl t' =>
        rw [ht] at hst
        cases hst
      | inr k =>
        rw [ht] at hst
        simp only [run, hs, ht, Option.map_some, Sum.liftRel_inr_inr.mp hst]

/-- Machines that take the same steps along a run take the same run. -/
theorem agree {step' : σ → σ ⊕ ρ} {I : σ → Prop} (hI : ∀ s t, I s → step s = .inl t → I t)
    (h : ∀ s, I s → step s = step' s) {s : σ} (hs : I s) (n : ℕ) :
    after step n s = after step' n s ∧ run step n s = run step' n s := by
  induction n generalizing s with
  | zero => exact ⟨rfl, rfl⟩
  | succ n ih =>
    have hst := h s hs
    cases hstep : step s with
    | inl t =>
      rw [hstep] at hst
      rw [after_inl hstep, after_inl hst.symm, run_inl hstep, run_inl hst.symm]
      exact ih (hI s t hs hstep)
    | inr r =>
      rw [hstep] at hst
      simp only [after, run, hstep, ← hst, and_self]

/-- Machines with the same run from a state take the same step in it. -/
theorem step_eq_of_same {step' : σ → σ ⊕ ρ} {s : σ}
    (h : ∀ n, after step n s = after step' n s ∧ run step n s = run step' n s) :
    step s = step' s := by
  obtain ⟨hafter, hrun⟩ := h 1
  cases hs : step s with
  | inl t =>
    cases ht : step' s with
    | inl u =>
      rw [after_inl hs, after_inl ht] at hafter
      rw [Option.some.inj hafter]
    | inr r => simp only [after, hs, ht, reduceCtorEq] at hafter
  | inr r =>
    cases ht : step' s with
    | inl u => simp only [after, hs, ht, reduceCtorEq] at hafter
    | inr r' =>
      simp only [run, hs, ht, Option.some.injEq] at hrun
      rw [hrun]

/-- They have the same run from all states on it. -/
theorem same_after {step' : σ → σ ⊕ ρ} {s t : σ} {m : ℕ}
    (h : ∀ n, after step n s = after step' n s ∧ run step n s = run step' n s)
    (ht : after step m s = some t) (n : ℕ) :
    after step n t = after step' n t ∧ run step n t = run step' n t := by
  have ht' : after step' m s = some t := (h m).1.symm.trans ht
  obtain ⟨hafter, hrun⟩ := h (m + n)
  rw [after_add, after_add, ht, ht', Option.bind_some, Option.bind_some] at hafter
  rw [run_after ht, run_after ht'] at hrun
  exact ⟨hafter, hrun⟩

/-- A machine that can always go on does not end. -/
theorem not_halts {I : σ → Prop} (hI : ∀ s, I s → ∃ t, step s = .inl t ∧ I t) {s : σ} (hs : I s) :
    ¬ Halts step s := by
  rintro ⟨n, r, hr⟩
  induction n generalizing s with
  | zero => cases hr
  | succ n ih =>
    obtain ⟨t, hst, ht⟩ := hI s hs
    rw [run_inl hst] at hr
    exact ih ht hr

section Measure

variable {turns : σ → Prop} (μ : σ → ℕ)

/-- Without steps that may raise the measure the machine ends. -/
theorem halts_of_decreasing (hμ : ∀ s t, step s = .inl t → ¬ turns s → μ t < μ s) {s : σ}
    (h : ∀ n t, after step n s = some t → ¬ turns t) : Halts step s := by
  induction hm : μ s using Nat.strong_induction_on generalizing s with
  | _ m ih =>
    cases hs : step s with
    | inr r => exact halts_inr hs
    | inl t =>
      rw [halts_inl hs]
      have hlt := hμ s t hs (h 0 s rfl)
      rw [hm] at hlt
      apply ih (μ t) hlt _ rfl
      intro n u hu
      exact h (n + 1) u ((after_inl hs n).trans hu)

/-- The machine ends exactly if only finitely many of its steps may raise the measure. -/
theorem halts_iff (hμ : ∀ s t, step s = .inl t → ¬ turns s → μ t < μ s) (s : σ) :
    Halts step s ↔ ∃ N, ∀ n ≥ N, ∀ t, after step n s = some t → ¬ turns t := by
  constructor
  · rintro ⟨N, r, hr⟩
    refine ⟨N, fun n hn t ht => ?_⟩
    rw [after_of_run hr hn] at ht
    cases ht
  · rintro ⟨N, hN⟩
    cases ha : after step N s with
    | none => exact halts_of_after_none ha
    | some t =>
      rw [halts_after ha]
      apply halts_of_decreasing μ hμ
      intro n u hu
      apply hN (N + n) (Nat.le_add_right N n) u
      rw [after_add, ha, Option.bind_some, hu]

end Measure

end Iteration
