import Mathlib.Data.Nat.Basic

/-! Bodies of a recursive function as trees. A body asks its surroundings and calls the function;
an answer or a result decides how it goes on. -/
namespace NestedCalls

/-- `α` are the answers, `ι` the arguments and `ρ` the results of the function. -/
inductive Body (α ι ρ : Type) where
  | done (r : ρ)
  | ask (next : α → Body α ι ρ)
  | call (x : ι) (next : ρ → Body α ι ρ)

/-- A result, the number of answers used so far, and the number of calls made. -/
structure Outcome (ρ : Type) where
  result : ρ
  position : ℕ
  calls : ℕ
  deriving DecidableEq, Repr

variable {α ι ρ : Type}

def Body.bind (b : Body α ι ρ) (next : ρ → Body α ι ρ) : Body α ι ρ :=
  match b with
  | .done r => next r
  | .ask k => .ask fun a => (k a).bind next
  | .call x k => .call x fun r => (k r).bind next

/-- A body whose calls are made by `callee`. The surroundings answer in the order of the
questions. -/
def exec (answers : ℕ → α) (callee : ι → ℕ → Option (Outcome ρ)) :
    Body α ι ρ → ℕ → Option (Outcome ρ)
  | .done r, pos => some ⟨r, pos, 0⟩
  | .ask next, pos => exec answers callee (next (answers pos)) (pos + 1)
  | .call x next, pos =>
    (callee x pos).bind fun o =>
      (exec answers callee (next o.result) o.position).map fun p =>
        { p with calls := o.calls + 1 + p.calls }

variable (body : ι → Body α ι ρ) (answers : ℕ → α)

/-- The function, with a bound on the depth to which its calls may nest. -/
def run : ℕ → ι → ℕ → Option (Outcome ρ)
  | 0, _, _ => none
  | depth + 1, x, pos => exec answers (run depth) (body x) pos

/-- The call returns, at some depth, and makes no more nested calls than given. -/
def ReturnsWithin (x : ι) (n : ℕ) : Prop :=
  ∃ depth o, run body answers depth x 0 = some o ∧ o.calls ≤ n

variable {body answers}

/-- The result of a body and the position behind it, without the count of its calls. -/
def play (answers : ℕ → α) (callee : ι → ℕ → Option (Outcome ρ)) (b : Body α ι ρ) (pos : ℕ) :
    Option (ρ × ℕ) :=
  (exec answers callee b pos).map fun o => (o.result, o.position)

section Play

variable {callee : ι → ℕ → Option (Outcome ρ)}

@[simp] theorem play_done (r : ρ) (pos : ℕ) :
    play answers callee (.done r) pos = some (r, pos) := rfl

@[simp] theorem play_ask (next : α → Body α ι ρ) (pos : ℕ) :
    play answers callee (.ask next) pos = play answers callee (next (answers pos)) (pos + 1) := rfl

theorem play_call (x : ι) (next : ρ → Body α ι ρ) (pos : ℕ) :
    play answers callee (.call x next) pos =
      (callee x pos).bind fun o => play answers callee (next o.result) o.position := by
  unfold play
  rw [exec]
  cases callee x pos with
  | none => rfl
  | some o =>
    rw [Option.bind_some, Option.bind_some, Option.map_map]
    rfl

theorem play_bind (b : Body α ι ρ) (next : ρ → Body α ι ρ) (pos : ℕ) :
    play answers callee (b.bind next) pos =
      (play answers callee b pos).bind fun x => play answers callee (next x.1) x.2 := by
  induction b generalizing pos with
  | done r => rfl
  | ask k ih => exact ih (answers pos) (pos + 1)
  | call x k ih =>
    rw [Body.bind, play_call, play_call, Option.bind_assoc]
    cases callee x pos with
    | none => rfl
    | some o => exact ih o.result o.position

end Play

section Asked

/-- What a body and the bodies it calls were answered, each with the argument it was asked for. -/
def asked (answers : ℕ → α) (callee : ι → ℕ → Option (Outcome ρ)) (inner : ι → ℕ → List (ι × α))
    (x : ι) : Body α ι ρ → ℕ → List (ι × α)
  | .done _, _ => []
  | .ask next, pos =>
    (x, answers pos) :: asked answers callee inner x (next (answers pos)) (pos + 1)
  | .call y next, pos =>
    inner y pos ++ (callee y pos).elim [] fun o =>
      asked answers callee inner x (next o.result) o.position

/-- The answers to a call, as far as its nested calls return within the depth. -/
def askedIn (body : ι → Body α ι ρ) (answers : ℕ → α) : ℕ → ι → ℕ → List (ι × α)
  | 0, _, _ => []
  | depth + 1, x, pos =>
    asked answers (run body answers depth) (askedIn body answers depth) x (body x) pos

end Asked

/-- Arguments whose bodies cannot get past the calls with such arguments never return. -/
theorem run_none {P : ι → ℕ → Prop}
    (h : ∀ callee, (∀ x pos, P x pos → callee x pos = none) →
      ∀ x pos, P x pos → exec answers callee (body x) pos = none)
    (depth : ℕ) {x : ι} {pos : ℕ} (hx : P x pos) : run body answers depth x pos = none := by
  induction depth generalizing x pos with
  | zero => rfl
  | succ depth ih => exact h _ (fun x pos hx => ih hx) x pos hx

theorem not_returnsWithin {P : ι → ℕ → Prop}
    (h : ∀ callee, (∀ x pos, P x pos → callee x pos = none) →
      ∀ x pos, P x pos → exec answers callee (body x) pos = none)
    {x : ι} (hx : P x 0) (n : ℕ) : ¬ ReturnsWithin body answers x n := by
  rintro ⟨depth, o, ho, -⟩
  rw [run_none h depth hx] at ho
  cases ho

end NestedCalls
