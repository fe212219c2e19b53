import Mathlib.Data.List.Induction

/-! Finite runs of labelled transition systems. A run keeps, with each event, the state the
event was taken in, so that conditions on steps are conditions on the recorded pairs. -/
namespace TransitionSystem

structure System (σ ε : Type*) where
  Init : σ → Prop
  Step : σ → ε → σ → Prop

variable {σ ε : Type*} {M : System σ ε}

/-- The trace lists (state before, event) from the oldest step to the newest. -/
inductive Run (M : System σ ε) : List (σ × ε) → σ → Prop where
  | init {s} : M.Init s → Run M [] s
  | step {tr s e t} : Run M tr s → M.Step s e t → Run M (tr ++ [(s, e)]) t

def Reachable (M : System σ ε) (s : σ) : Prop := ∃ tr, Run M tr s

theorem Run.invariant {I : σ → Prop} (hi : ∀ s, M.Init s → I s)
    (hs : ∀ s e t, I s → M.Step s e t → I t) {tr s} (h : Run M tr s) : I s := by
  induction h with
  | init h => exact hi _ h
  | step _ h ih => exact hs _ _ _ ih h

/-- The runs of a system with fewer starts and steps. -/
theorem Run.mono {M' : System σ ε} (hi : ∀ s, M.Init s → M'.Init s)
    (hs : ∀ s e t, M.Step s e t → M'.Step s e t) {tr s} (h : Run M tr s) : Run M' tr s := by
  induction h with
  | init h => exact .init (hi _ h)
  | step _ h ih => exact ih.step (hs _ _ _ h)

/-- An invariant that each step keeps only under a condition on the step holds at the end
of every run all of whose steps meet the condition. -/
theorem Run.guarded_invariant {I : σ → Prop} {P : σ → ε → Prop} (hi : ∀ s, M.Init s → I s)
    (hs : ∀ s e t, I s → P s e → M.Step s e t → I t) {tr s} (h : Run M tr s)
    (hp : ∀ x ∈ tr, P x.1 x.2) : I s := by
  induction h with
  | init h => exact hi _ h
  | @step tr s e t _ h ih =>
    exact hs s e t (ih fun x hx => hp x (by simp [hx])) (hp (s, e) (by simp)) h

/-- Where each step keeps a property exactly under a condition, the property holds in all states of
a run exactly if all its steps meet the condition. Another invariant may be used that is kept as long
as the property holds. -/
theorem Run.relative_invariant_iff {I J : σ → Prop} {P : σ → ε → Prop}
    (hi : ∀ s, M.Init s → I s ∧ J s) (hj : ∀ s e t, I s → J s → M.Step s e t → J t)
    (hs : ∀ s e t, I s → J s → M.Step s e t → (I t ↔ P s e)) {tr s} (h : Run M tr s) :
    (((∀ x ∈ tr, I x.1) ∧ I s) ↔ ∀ x ∈ tr, P x.1 x.2) ∧ ((∀ x ∈ tr, I x.1) → J s) := by
  induction h with
  | init h => exact ⟨iff_of_true ⟨by simp, (hi _ h).1⟩ (by simp), fun _ => (hi _ h).2⟩
  | @step tr s e t _ h ih =>
    obtain ⟨ih, hJ⟩ := ih
    rw [List.forall_mem_append, List.forall_mem_append, List.forall_mem_singleton,
      List.forall_mem_singleton]
    refine ⟨?_, fun hI => hj s e t hI.2 (hJ hI.1) h⟩
    constructor
    · rintro ⟨hI, ht⟩
      exact ⟨ih.mp hI, (hs s e t hI.2 (hJ hI.1) h).mp ht⟩
    · rintro ⟨hp, he⟩
      obtain ⟨hI, hIs⟩ := ih.mpr hp
      exact ⟨⟨hI, hIs⟩, (hs s e t hIs (hJ hI) h).mpr he⟩

theorem Run.invariant_iff {I : σ → Prop} {P : σ → ε → Prop} (hi : ∀ s, M.Init s → I s)
    (hs : ∀ s e t, I s → M.Step s e t → (I t ↔ P s e)) {tr s} (h : Run M tr s) :
    ((∀ x ∈ tr, I x.1) ∧ I s) ↔ ∀ x ∈ tr, P x.1 x.2 :=
  (h.relative_invariant_iff (J := fun _ => True) (fun s hs => ⟨hi s hs, trivial⟩)
    (fun _ _ _ _ _ _ => trivial) fun s e t hI _ => hs s e t hI).1

/-- Two conditions on steps that agree in every state of an invariant agree on runs, where meeting
them keeps the invariant. -/
theorem Run.steps_iff {I : σ → Prop} {P Q : σ → ε → Prop} (hi : ∀ s, M.Init s → I s)
    (hs : ∀ s e t, I s → M.Step s e t → (P s e ↔ Q s e))
    (hQ : ∀ s e t, I s → Q s e → M.Step s e t → I t) {tr s} (h : Run M tr s) :
    (∀ x ∈ tr, P x.1 x.2) ↔ ∀ x ∈ tr, Q x.1 x.2 := by
  induction h with
  | init _ => simp
  | @step tr s e t hr h ih =>
    rw [List.forall_mem_append, List.forall_mem_append, List.forall_mem_singleton,
      List.forall_mem_singleton, ih]
    exact and_congr_right fun htr => hs s e t (hr.guarded_invariant hi hQ htr) h

/-- What holds in a state of the run holds in all later ones. -/
def Lasting {ι : Type*} (I : ι → σ → Prop) (tr : List (σ × ε)) (s : σ) : Prop :=
  ∀ tr₁ x tr₂, tr = tr₁ ++ x :: tr₂ → ∀ i, I i x.1 → (∀ y ∈ tr₂, I i y.1) ∧ I i s

/-- Facts last in a run exactly if all its steps meet the condition under which a step keeps them. -/
theorem Run.lasting_iff {ι : Type*} {I : ι → σ → Prop} {J : σ → Prop} {P : σ → ε → Prop}
    (hi : ∀ s, M.Init s → J s) (hj : ∀ s e t, J s → M.Step s e t → J t)
    (hs : ∀ s e t, J s → M.Step s e t → ((∀ i, I i s → I i t) ↔ P s e)) {tr s} (h : Run M tr s) :
    Lasting I tr s ↔ ∀ x ∈ tr, P x.1 x.2 := by
  induction h with
  | init _ => exact iff_of_true (fun tr₁ x tr₂ he => by simp at he) (by simp)
  | @step tr s e t hr h ih =>
    have hstep := hs s e t (hr.invariant hi hj) h
    rw [List.forall_mem_append, List.forall_mem_singleton, ← ih, ← hstep]
    constructor
    · intro hl
      refine ⟨?_, fun i hI => (hl tr (s, e) [] rfl i hI).2⟩
      rintro tr₁ x tr₂ rfl i hI
      have hall := (hl tr₁ x (tr₂ ++ [(s, e)]) (by simp) i hI).1
      rw [List.forall_mem_append, List.forall_mem_singleton] at hall
      exact hall
    · rintro ⟨hl, ht⟩ tr₁ x tr₂ he i hI
      cases tr₂ using List.reverseRecOn with
      | nil =>
        obtain ⟨-, hx⟩ := List.append_inj' he rfl
        obtain rfl := List.singleton_inj.mp hx
        exact ⟨by simp, ht i hI⟩
      | append_singleton tr₂ y =>
        rw [← List.cons_append, ← List.append_assoc] at he
        obtain ⟨htr, hy⟩ := List.append_inj' he rfl
        obtain rfl := List.singleton_inj.mp hy
        obtain ⟨hall, hIs⟩ := hl tr₁ x tr₂ htr i hI
        rw [List.forall_mem_append, List.forall_mem_singleton]
        exact ⟨⟨hall, hIs⟩, ht i hIs⟩

/-- A run up to one of its steps, and that step. -/
theorem Run.split {tr s} (h : Run M tr s) {x : σ × ε} (hx : x ∈ tr) :
    ∃ tr₁ tr₂ t, tr = tr₁ ++ x :: tr₂ ∧ Run M tr₁ x.1 ∧ M.Step x.1 x.2 t := by
  induction h with
  | init => simp at hx
  | @step tr s e t hr h ih =>
    rcases List.mem_append.mp hx with hx | hx
    · obtain ⟨tr₁, tr₂, u, rfl, hr', hu⟩ := ih hx
      exact ⟨tr₁, tr₂ ++ [(s, e)], u, by simp, hr', hu⟩
    · obtain rfl := List.mem_singleton.mp hx
      exact ⟨tr, [], t, by simp, hr, h⟩

theorem Run.last {tr s} {x : σ × ε} (h : Run M (tr ++ [x]) s) :
    Run M tr x.1 ∧ M.Step x.1 x.2 s := by
  generalize hl : tr ++ [x] = l at h
  cases h with
  | init h => simp at hl
  | @step tr' u e s hr hs =>
    obtain ⟨rfl, hx⟩ := List.append_inj' hl rfl
    obtain rfl := List.singleton_inj.mp hx
    exact ⟨hr, hs⟩

/-- What one step establishes and the later steps keep holds in all later states. -/
theorem Run.since {I : σ → Prop} {P : σ → ε → Prop} {tr₁ tr₂ s} {x : σ × ε}
    (h : Run M (tr₁ ++ x :: tr₂) s) (hi : ∀ t, Run M tr₁ x.1 → M.Step x.1 x.2 t → I t)
    (hs : ∀ s e t, I s → P s e → M.Step s e t → I t) (hp : ∀ y ∈ tr₂, P y.1 y.2) :
    I s ∧ ∀ y ∈ tr₂, I y.1 := by
  induction tr₂ using List.reverseRecOn generalizing s with
  | nil =>
    obtain ⟨hr, hx⟩ := Run.last h
    exact ⟨hi s hr hx, by simp⟩
  | append_singleton tr y ih =>
    rw [← List.cons_append, ← List.append_assoc] at h
    obtain ⟨hr, hy⟩ := Run.last h
    obtain ⟨hu, htr⟩ := ih hr fun z hz => hp z (List.mem_append_left _ hz)
    constructor
    · exact hs _ _ _ hu (hp y (by simp)) hy
    · intro z hz
      rcases List.mem_append.mp hz with hz | hz
      · exact htr z hz
      · obtain rfl := List.mem_singleton.mp hz
        exact hu

/-- Runs of a step function, for systems whose steps are computed. -/
def execute (step : σ → ε → Option σ) : σ → List ε → Option (List (σ × ε) × σ)
  | s, [] => some ([], s)
  | s, e :: es => (step s e).bind fun t => (execute step t es).map fun x => ((s, e) :: x.1, x.2)

theorem Run.execute_mem {step : σ → ε → Option σ} {es : List ε}
    (hM : ∀ s t, ∀ e ∈ es, step s e = some t → M.Step s e t) {tr tr' s t} (h : Run M tr s)
    (he : execute step s es = some (tr', t)) : Run M (tr ++ tr') t := by
  induction es generalizing tr tr' s with
  | nil =>
    simp only [execute, Option.some.injEq, Prod.mk.injEq] at he
    obtain ⟨rfl, rfl⟩ := he
    simpa using h
  | cons e es ih =>
    obtain ⟨u, hu, he⟩ := Option.bind_eq_some_iff.mp he
    obtain ⟨⟨tr'', t'⟩, hx, he⟩ := Option.map_eq_some_iff.mp he
    obtain ⟨rfl, rfl⟩ := Prod.mk.inj he
    have hM' : ∀ s t, ∀ x ∈ es, step s x = some t → M.Step s x t :=
      fun s t x hx => hM s t x (List.mem_cons_of_mem e hx)
    simpa using ih hM' (h.step (hM s u e List.mem_cons_self hu)) hx

theorem Run.execute {step : σ → ε → Option σ} (hM : ∀ s e t, step s e = some t → M.Step s e t)
    {tr tr' s t} {es : List ε} (h : Run M tr s)
    (he : TransitionSystem.execute step s es = some (tr', t)) : Run M (tr ++ tr') t :=
  h.execute_mem (fun s t e _ => hM s e t) he

/-- A run that is found by computing it. -/
theorem Run.of_execute_mem {step : σ → ε → Option σ} {es : List ε}
    (hM : ∀ s t, ∀ e ∈ es, step s e = some t → M.Step s e t) {s : σ} (hi : M.Init s)
    (p : List (σ × ε) → σ → Bool)
    (h : ((TransitionSystem.execute step s es).any fun x => p x.1 x.2) = true) :
    ∃ tr t, Run M tr t ∧ p tr t = true := by
  obtain ⟨⟨tr, t⟩, hx, hp⟩ := (Option.any_eq_true _ _).mp h
  exact ⟨tr, t, by simpa using Run.execute_mem hM (.init hi) hx, hp⟩

theorem Run.of_execute {step : σ → ε → Option σ} (hM : ∀ s e t, step s e = some t → M.Step s e t)
    {s : σ} (hi : M.Init s) (es : List ε) (p : List (σ × ε) → σ → Bool)
    (h : ((TransitionSystem.execute step s es).any fun x => p x.1 x.2) = true) :
    ∃ tr t, Run M tr t ∧ p tr t = true :=
  Run.of_execute_mem (fun s t e _ => hM s e t) hi p h

end TransitionSystem
