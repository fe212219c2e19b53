import TizenClaw.AutonomousTrigger
import Mathlib.Algebra.Order.Ring.Rat

/-! The conditions of the trigger rules: what is asked of the fields of an event, against the
comparisons that are made. -/
namespace TriggerConditions

open ByteString JsonValue AutonomousTrigger

section Values

/-- The exact number that a value is. -/
def number (value : NumberText → ℚ) : Json → Option ℚ
  | .int i => some i
  | .float t => some (value t)
  | _ => none

mutual

/-- Equality of values, in which integers and floats are numbers alike. -/
def same (value : NumberText → ℚ) : Json → Json → Bool
  | .int a, .int b => a = b
  | .int a, .float t => (a : ℚ) = value t
  | .float t, .int b => value t = b
  | .float t, .float u => value t = value u
  | .null, .null => true
  | .bool a, .bool b => a = b
  | .str a, .str b => a = b
  | .arr a, .arr b => sameList value a b
  | .obj a, .obj b => sameMembers value a b
  | _, _ => false

def sameList (value : NumberText → ℚ) : List Json → List Json → Bool
  | [], [] => true
  | a :: l, b :: m => same value a b && sameList value l m
  | _, _ => false

def sameMembers (value : NumberText → ℚ) : List (Bytes × Json) → List (Bytes × Json) → Bool
  | [], [] => true
  | (j, a) :: l, (k, b) :: m => j = k && same value a b && sameMembers value l m
  | _, _ => false

end

inductive Operator where
  | eq
  | lt
  | gt
  | lte
  | gte
  deriving DecidableEq, Repr

def Operator.text : Operator → Bytes
  | .eq => bytes "$eq"
  | .lt => bytes "$lt"
  | .gt => bytes "$gt"
  | .lte => bytes "$lte"
  | .gte => bytes "$gte"

/-- The order that an operator asks for. -/
def Operator.orders {α : Type} [LinearOrder α] (a b : α) : Operator → Bool
  | .eq => a = b
  | .lt => a < b
  | .gt => b < a
  | .lte => a ≤ b
  | .gte => b ≤ a

/-- An ordering is of two numbers and false of everything else. -/
def Operator.holds (value : NumberText → ℚ) (val expected : Json) : Operator → Bool
  | .eq => same value val expected
  | op => match number value val, number value expected with
    | some a, some b => op.orders a b
    | _, _ => false

def operator? (op : Bytes) : Option Operator :=
  [Operator.eq, .lt, .gt, .lte, .gte].find? fun o => o.text = op

end Values

section Checks

/-- What a condition asks of the data: a field that is missing, or a comparison of one. -/
inductive Check where
  | missing
  | compare (val : Json) (op : Bytes) (expected : Json)

/-- The checks of a field; without operators it is to be equal. -/
def fieldChecks (data : List (Bytes × Json)) (x : Bytes × Json) : List Check :=
  match data.lookup x.1 with
  | none => [.missing]
  | some val => match x.2 with
    | .obj m => m.map fun y => .compare val y.1 y.2
    | expected => [.compare val Operator.eq.text expected]

def checks (condition data : List (Bytes × Json)) : List Check :=
  condition.flatMap (fieldChecks data)

/-- The check is true of the data. -/
def Check.holds (value : NumberText → ℚ) : Check → Bool
  | .missing => false
  | .compare val op expected => (operator? op).any (Operator.holds value val expected)

/-- All that the condition asks for is true. -/
def Reference (value : NumberText → ℚ) (condition data : List (Bytes × Json)) : Prop :=
  ∀ c ∈ checks condition data, c.holds value = true

variable {D : Type} [LinearOrder D] (v : Values D)

/-- The check does not end the evaluation. -/
def Check.passes : Check → Bool
  | .missing => false
  | .compare val op expected => evalOp v val op expected

/-- The operator is unknown, or an ordering of something that is no number. -/
def Check.Ignored (value : NumberText → ℚ) : Check → Prop
  | .missing => False
  | .compare val op expected => match operator? op with
    | none => True
    | some .eq => False
    | some _ => number value val = none ∨ number value expected = none

/-- The comparison of the library is not that of the values. -/
def Check.Misjudged (value : NumberText → ℚ) (c : Check) : Prop :=
  ¬ c.Ignored value ∧ c.passes v ≠ c.holds value

variable {v} {value : NumberText → ℚ} {condition data : List (Bytes × Json)} {c : Check}

theorem operator?_eq_some {op : Bytes} {o : Operator} : operator? op = some o ↔ o.text = op := by
  constructor
  · intro h
    simpa using List.find?_some h
  · rintro rfl
    cases o <;> decide

theorem operator?_eq_none {op : Bytes} : operator? op = none ↔ ∀ o : Operator, o.text ≠ op := by
  unfold operator?
  rw [List.find?_eq_none]
  constructor
  · intro h o
    have ho := h o (by cases o <;> simp)
    simpa using ho
  · intro h o _
    simpa using h o

@[simp] theorem text_inj {o o' : Operator} : o.text = o'.text ↔ o = o' := by
  cases o <;> cases o' <;> decide

/-- An operator that the code knows makes its comparison; others pass. -/
theorem evalOp_eq (val : Json) (op : Bytes) (expected : Json) : evalOp v val op expected =
    match operator? op with
    | none => true
    | some .eq => v.equal val expected
    | some o => match v.toDouble val, v.toDouble expected with
      | some a, some b => o.orders a b
      | _, _ => true := by
  have htexts : evalOp v val op expected =
      if op = Operator.eq.text ∧ v.equal val expected = false then false
      else match v.toDouble val, v.toDouble expected with
        | some a, some b =>
          if op = Operator.lt.text then ¬ a ≥ b
          else if op = Operator.gt.text then ¬ a ≤ b
          else if op = Operator.lte.text then ¬ a > b
          else if op = Operator.gte.text then ¬ a < b
          else true
        | _, _ => true := rfl
  rw [htexts]
  cases h : operator? op with
  | none =>
    have hne : ∀ o : Operator, op ≠ o.text := fun o => Ne.symm (operator?_eq_none.mp h o)
    simp only [hne, false_and, if_false]
    split <;> rfl
  | some o =>
    obtain rfl := operator?_eq_some.mp h
    cases o with
    | eq =>
      cases v.equal val expected
      · simp
      · simp only [text_inj, reduceCtorEq, Bool.true_eq_false, and_false, if_false]
        split <;> rfl
    | lt | gt | lte | gte =>
      simp only [text_inj, reduceCtorEq, false_and, if_false, if_true]
      cases v.toDouble val <;> cases v.toDouble expected <;> simp [Operator.orders]

theorem evalCondition_eq (condition data : List (Bytes × Json)) :
    evalCondition v (.obj condition) (.obj data) =
      (checks condition data).all fun c => c.passes v := by
  rw [checks, List.all_flatMap, evalCondition]
  apply congrArg (condition.all ·)
  funext x
  obtain ⟨key, ops⟩ := x
  simp only [Json.member?, fieldChecks]
  cases data.lookup key with
  | none => rfl
  | some val =>
    have heq : ∀ expected, evalOp v val Operator.eq.text expected = v.equal val expected := by
      intro expected
      rw [evalOp_eq, operator?_eq_some.mpr rfl]
    cases ops with
    | obj m =>
      dsimp only
      rw [List.all_map]
      rfl
    | _ => simp [Check.passes, heq]

theorem not_ignored_of_holds (h : c.holds value = true) : ¬ c.Ignored value := by
  cases c with
  | missing => exact id
  | compare val op expected =>
    obtain ⟨o, ho, hholds⟩ := (Option.any_eq_true _ _).mp h
    simp only [Check.Ignored, ho]
    cases o with
    | eq => exact id
    | lt | gt | lte | gte =>
      simp only [Operator.holds] at hholds
      split at hholds
      · rename_i a b ha hb
        simp [ha, hb]
      · cases hholds

/-- What the conversion of the numbers makes of a library. -/
structure Library (v : Values D) (value : NumberText → ℚ) : Prop where
  /-- The numbers are the values that are converted. -/
  isSome : ∀ j, (v.toDouble j).isSome = (number value j).isSome
  /-- A conversion does not turn an order around. -/
  monotone : ∀ j k p q a b, number value j = some p → number value k = some q →
    v.toDouble j = some a → v.toDouble k = some b → p ≤ q → a ≤ b

/-- A check that is ignored passes, whatever the values are. -/
theorem passes_of_ignored (hv : Library v value) (h : c.Ignored value) : c.passes v = true := by
  cases c with
  | missing => cases h
  | compare val op expected =>
    rw [Check.passes, evalOp_eq]
    simp only [Check.Ignored] at h
    have hnone : ∀ j, number value j = none → v.toDouble j = none := by
      intro j hj
      have hsome := hv.isSome j
      rw [hj] at hsome
      simpa using hsome
    split
    · rfl
    · rename_i ho
      rw [ho] at h
      cases h
    · rename_i o hne ho
      rw [ho] at h
      cases o with
      | eq => cases h
      | lt | gt | lte | gte =>
        rcases h with h | h
        · rw [hnone _ h]
        · rw [hnone _ h]
          split <;> simp_all

theorem orders_congr {α β : Type} [LinearOrder α] [LinearOrder β] {a b : α} {p q : β}
    (hlt : a < b ↔ p < q) (hgt : b < a ↔ q < p) (o : Operator) :
    o.orders a b = o.orders p q := by
  have heq : a = b ↔ p = q := by
    rw [le_antisymm_iff, le_antisymm_iff, ← not_lt, ← not_lt, ← not_lt, ← not_lt, hlt, hgt]
  cases o with
  | eq => simp only [Operator.orders, heq]
  | lt => simp only [Operator.orders, hlt]
  | gt => simp only [Operator.orders, hgt]
  | lte => simp only [Operator.orders, ← not_lt, hgt]
  | gte => simp only [Operator.orders, ← not_lt, hlt]

/-- An ordering that is not ignored is one of numbers. -/
theorem numbers_of_not_ignored {val expected : Json} {o : Operator} (ho : o ≠ .eq)
    (hi : ¬ (Check.compare val o.text expected).Ignored value) :
    ∃ p q, number value val = some p ∧ number value expected = some q := by
  have hop : operator? o.text = some o := operator?_eq_some.mpr rfl
  cases hp : number value val with
  | none => cases o <;> simp [Check.Ignored, hop, hp] at hi ho
  | some p =>
    cases hq : number value expected with
    | none => cases o <;> simp [Check.Ignored, hop, hq] at hi ho
    | some q => exact ⟨p, q, rfl, rfl⟩

/-- An ordering is misjudged only of different numbers that have one double. -/
theorem misjudged_rounded (hv : Library v value) {val expected : Json} {o : Operator}
    (ho : o ≠ .eq) (h : (Check.compare val o.text expected).Misjudged v value) :
    ∃ p q, number value val = some p ∧ number value expected = some q ∧ p ≠ q ∧
      v.toDouble val = v.toDouble expected := by
  obtain ⟨hi, hne⟩ := h
  have hop : operator? o.text = some o := operator?_eq_some.mpr rfl
  obtain ⟨p, q, hp, hq⟩ := numbers_of_not_ignored ho hi
  have hdouble : ∀ j r, number value j = some r → ∃ a, v.toDouble j = some a := by
    intro j r hr
    have hsome := hv.isSome j
    rw [hr] at hsome
    exact Option.isSome_iff_exists.mp hsome
  obtain ⟨a, ha⟩ := hdouble val p hp
  obtain ⟨b, hb⟩ := hdouble expected q hq
  have hpasses : (Check.compare val o.text expected).passes v = o.orders a b := by
    rw [Check.passes, evalOp_eq, hop]
    cases o <;> simp [ha, hb] at ho ⊢
  have hholds : (Check.compare val o.text expected).holds value = o.orders p q := by
    rw [Check.holds, hop]
    cases o <;> simp [Operator.holds, hp, hq] at ho ⊢
  rw [hpasses, hholds] at hne
  have hle : p ≤ q → a ≤ b := hv.monotone _ _ p q a b hp hq ha hb
  have hge : q ≤ p → b ≤ a := hv.monotone _ _ q p b a hq hp hb ha
  refine ⟨p, q, hp, hq, ?_, ?_⟩
  · rintro rfl
    have hab : a = b := le_antisymm (hle le_rfl) (hge le_rfl)
    subst hab
    exact hne (orders_congr (by simp) (by simp) o)
  · rw [ha, hb]
    by_contra hab
    have hab : a ≠ b := fun h => hab (congrArg some h)
    refine hne (orders_congr ⟨fun hlt => ?_, fun hlt => ?_⟩ ⟨fun hgt => ?_, fun hgt => ?_⟩ o)
    · exact lt_of_not_ge fun h => (hge h).not_gt hlt
    · exact lt_of_le_of_ne (hle hlt.le) hab
    · exact lt_of_not_ge fun h => (hle h).not_gt hgt
    · exact lt_of_le_of_ne (hge hgt.le) hab.symm

end Checks

namespace Counterexample

/-- Integers that are doubles, compared as they are. -/
def integers : Values ℚ where
  toDouble j := number (fun _ => 0) j
  equal := same fun _ => 0

def level : Bytes := bytes "level"

/-- There is no operator `$ne`. -/
def unequal : List (Bytes × Json) := [(level, .obj [(bytes "$ne", .int 5)])]

end Counterexample

end TriggerConditions
