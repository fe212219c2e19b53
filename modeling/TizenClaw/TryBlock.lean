import Mathlib.Data.List.Forall2

/-! Blocks that may throw, over a state: what a block did before the exception stays done. -/
namespace TryBlock

/-- A part of such a block. -/
abbrev Action (ε σ α : Type) := ExceptT ε (StateM σ) α

variable {ε σ α β : Type}

/-- The block with a handler that drops every exception. -/
def attempt (x : Action ε σ Unit) (s : σ) : σ := (x.run s).2

theorem run_bind {x : Action ε σ α} {f : α → Action ε σ β} {s t : σ} {a : α}
    (h : x.run s = (.ok a, t)) : (x >>= f).run s = (f a).run t := by
  change ExceptT.bindCont f (x.run s).1 (x.run s).2 = _
  rw [h]
  rfl

/-- Behind an exception nothing is done. -/
theorem run_bind_error {x : Action ε σ α} {s t : σ} {e : ε} (h : x.run s = (.error e, t))
    (f : α → Action ε σ β) : (x >>= f).run s = (.error e, t) := by
  change ExceptT.bindCont f (x.run s).1 (x.run s).2 = _
  rw [h]
  rfl

theorem run_lift {x : Except ε α} {a : α} (h : x = .ok a) (s : σ) :
    (liftM x : Action ε σ α).run s = (.ok a, s) := by
  rw [h]
  rfl

theorem run_lift_error {x : Except ε α} {e : ε} (h : x = .error e) (s : σ) :
    (liftM x : Action ε σ α).run s = (.error e, s) := by
  rw [h]
  rfl

theorem run_liftM (x : Except ε α) (s : σ) : (liftM x : Action ε σ α).run s = (x, s) := by
  cases x with
  | error e => rfl
  | ok a => rfl

theorem run_modify (g : σ → σ) (s : σ) : (modify g : Action ε σ PUnit).run s = (.ok ⟨⟩, g s) := rfl

theorem run_get (s : σ) : (get : Action ε σ σ).run s = (.ok s, s) := rfl

/-- A handler goes on from the state that the exception left behind. -/
theorem run_tryCatch (x : Action ε σ α) (f : ε → Action ε σ α) (s : σ) :
    (tryCatch x f).run s = match x.run s with
      | (.ok a, t) => (.ok a, t)
      | (.error e, t) => (f e).run t := by
  change (match (x.run s).1 with
    | .ok a => pure (.ok a)
    | .error e => (f e).run : StateM σ (Except ε α)) (x.run s).2 = _
  rcases x.run s with ⟨r, t⟩
  cases r with
  | ok a => rfl
  | error e => rfl

theorem attempt_run {x : Action ε σ Unit} {s t : σ} {r : Except ε Unit} (h : x.run s = (r, t)) :
    attempt x s = t := by
  rw [attempt, h]

/-- A loop without exceptions is a fold of what its rounds do. -/
theorem run_forM {γ : Type} {l : List β} {xs : List γ} {f : β → Action ε σ PUnit} {g : σ → γ → σ}
    (h : List.Forall₂ (fun c b => ∀ s, (f b).run s = (.ok ⟨⟩, g s c)) xs l) (s : σ) :
    (l.forM f).run s = (.ok ⟨⟩, xs.foldl g s) := by
  induction h generalizing s with
  | nil => rfl
  | cons hb _ ih => exact (run_bind (hb s)).trans (ih _)

section Leads

/-- What held before the block leads to what holds behind it, however the block ends. -/
def Leads (I J : σ → Prop) (x : Action ε σ α) : Prop := ∀ s, I s → J (x.run s).2

variable {I J K : σ → Prop}

theorem leads_bind {x : Action ε σ α} {f : α → Action ε σ β} (hx : Leads I J x)
    (hf : ∀ a, Leads J K (f a)) (h : ∀ s, J s → K s) : Leads I K (x >>= f) := by
  intro s hs
  have hx' := hx s hs
  change K (ExceptT.bindCont f (x.run s).1 (x.run s).2).2
  cases (x.run s).1 with
  | error e => exact h _ hx'
  | ok a => exact hf a _ hx'

theorem leads_pure (a : α) (h : ∀ s, I s → J s) : Leads I J (pure a : Action ε σ α) := h

end Leads

/-- Whatever happens, the invariant is kept. -/
def Keeps (I : σ → Prop) (x : Action ε σ α) : Prop := ∀ s, I s → I (x.run s).2

variable {I : σ → Prop}

theorem keeps_pure (a : α) : Keeps I (pure a : Action ε σ α) := fun _ h => h

theorem keeps_lift (x : Except ε α) : Keeps I (liftM x : Action ε σ α) := by
  cases x with
  | error e => exact fun _ h => h
  | ok a => exact fun _ h => h

theorem keeps_modify {g : σ → σ} (h : ∀ s, I s → I (g s)) :
    Keeps I (modify g : Action ε σ PUnit) := h

theorem keeps_get : Keeps I (get : Action ε σ σ) := fun _ h => h

theorem keeps_bind {x : Action ε σ α} {f : α → Action ε σ β} (hx : Keeps I x)
    (hf : ∀ a, Keeps I (f a)) : Keeps I (x >>= f) :=
  leads_bind hx hf fun _ h => h

theorem keeps_ite {c : Prop} [Decidable c] {x y : Action ε σ α} (hx : Keeps I x) (hy : Keeps I y) :
    Keeps I (if c then x else y) := by
  by_cases hc : c
  · rw [if_pos hc]
    exact hx
  · rw [if_neg hc]
    exact hy

theorem keeps_forM {l : List β} {f : β → Action ε σ PUnit} (h : ∀ a ∈ l, Keeps I (f a)) :
    Keeps I (l.forM f) := by
  induction l with
  | nil => exact keeps_pure ()
  | cons a l ih =>
    exact keeps_bind (h a List.mem_cons_self) fun _ =>
      ih fun b hb => h b (List.mem_cons_of_mem a hb)

section Ends

/-- How a block ends: in a good value and state, or in an exception that is tolerated. -/
def Ends (tolerated : ε → Prop) (x : Action ε σ α) (good : α → σ → Prop) (s : σ) : Prop :=
  match x.run s with
  | (.ok a, t) => good a t
  | (.error e, _) => tolerated e

variable {tolerated : ε → Prop} {s : σ}

theorem ends_ok {x : Action ε σ α} {good : α → σ → Prop} {a : α} {t : σ}
    (h : x.run s = (.ok a, t)) : Ends tolerated x good s ↔ good a t := by
  rw [Ends, h]

theorem ends_error {x : Action ε σ α} {good : α → σ → Prop} {e : ε} {t : σ}
    (h : x.run s = (.error e, t)) : Ends tolerated x good s ↔ tolerated e := by
  rw [Ends, h]

theorem ends_pure (a : α) (good : α → σ → Prop) :
    Ends tolerated (pure a : Action ε σ α) good s ↔ good a s := Iff.rfl

theorem ends_bind (x : Action ε σ α) (f : α → Action ε σ β) (good : β → σ → Prop) :
    Ends tolerated (x >>= f) good s ↔
      Ends tolerated x (fun a t => Ends tolerated (f a) good t) s := by
  rcases h : x.run s with ⟨r, t⟩
  cases r with
  | ok a => rw [ends_ok h, Ends, Ends, run_bind h]
  | error e => rw [ends_error h, ends_error (run_bind_error h f)]

/-- A handler ends the block from the state that the exception left behind. -/
theorem ends_tryCatch (x : Action ε σ α) (f : ε → Action ε σ α) (good : α → σ → Prop) :
    Ends tolerated (tryCatch x f) good s ↔ match x.run s with
      | (.ok a, t) => good a t
      | (.error e, t) => Ends tolerated (f e) good t := by
  have hcatch := run_tryCatch x f s
  rcases h : x.run s with ⟨r, t⟩
  rw [h] at hcatch
  cases r with
  | ok a => exact ends_ok hcatch
  | error e =>
    rw [Ends, hcatch]
    rfl

/-- Values that are good in the same cases. -/
theorem ends_congr (x : Action ε σ α) {good good' : α → σ → Prop}
    (h : ∀ a t, good a t ↔ good' a t) : Ends tolerated x good s ↔ Ends tolerated x good' s := by
  rcases hx : x.run s with ⟨r, t⟩
  cases r with
  | ok a => rw [ends_ok hx, ends_ok hx, h]
  | error e => rw [ends_error hx, ends_error hx]

end Ends

end TryBlock
