import TizenClaw.BoundsClamping
import TizenClaw.JsonParse
import Mathlib.Algebra.Order.AbsoluteValue.Basic
import Mathlib.Tactic.Linarith

/-! The bounds on numeric arguments: which numbers get past them, as integers, floats or texts, and
what is left of their enforcement. -/
namespace BoundsEnforcement

open ByteString JsonValue UserProfileStore SafetyChecks SafetyConfig BoundsClamping
open JsonParse (digitsValue)

section Numerals

def sign : Bytes → Bool × Bytes
  | 0x2D :: s => (true, s)
  | 0x2B :: s => (false, s)
  | s => (false, s)

/-- The exponent at the end of a numeral. -/
def exponent : Bytes → Option ℤ
  | [] => some 0
  | e :: s =>
    let (negative, digits) := sign s
    if (e = 0x65 ∨ e = 0x45) ∧ digits ≠ [] ∧ ∀ b ∈ digits, isDigit b then
      some (if negative then -digitsValue digits else digitsValue digits)
    else none

def fraction : Bytes → Bytes × Bytes
  | 0x2E :: s => (s.takeWhile isDigit, s.dropWhile isDigit)
  | s => ([], s)

/-- The number that a decimal numeral stands for, whatever its size. -/
def decimalNumber (s : Bytes) : Option ℚ :=
  let (negative, s) := sign s
  let whole := s.takeWhile isDigit
  let (decimals, s) := fraction (s.dropWhile isDigit)
  if whole ++ decimals = [] then none
  else (exponent s).map fun e : ℤ =>
    (if negative then -1 else 1) * digitsValue (whole ++ decimals) *
      (10 : ℚ) ^ (e - (decimals.length : ℤ))

end Numerals

section Arguments

variable (num : NumericLibrary)

/-- The number that a value denotes. A float is the double that it is. -/
def denoted : Json → Option ℚ
  | .int i => some i
  | .float t => match num.ofFloat t with
    | .finite q => some q
    | _ => none
  | .str s => decimalNumber s
  | _ => none

/-- The number that the argument of a bound denotes. -/
def argument (args : Json) (b : SafetyBound) : Option ℚ :=
  (args.member? b.paramName).bind (denoted num)

/-- The double that the argument of a bound is converted to, unless the conversion throws. -/
def converted (args : Json) (b : SafetyBound) : Option Double :=
  (args.member? b.paramName).bind (numericValue num)

/-- All numeric arguments of a call are within all their bounds. -/
def Enforced (g : SafetyGuard) (name : Bytes) (args : Json) : Prop :=
  ∀ b ∈ boundsOf g name, ∀ q ∈ argument num args b, q ∈ range b

/-- The double of the argument is outside of the bound. -/
def Seen (args : Json) (b : SafetyBound) : Prop :=
  ∃ d ∈ converted num args b, d.lt b.minValue = true ∨ b.maxValue.lt d = true

/-- The argument denotes a number outside of the bound, and its double, if it has one, is not. -/
def Escapes (args : Json) (b : SafetyBound) : Prop :=
  (∃ q ∈ argument num args b, q ∉ range b) ∧ ¬ Seen num args b

variable {num} {g : SafetyGuard} {name : Bytes} {args : Json} {role : UserRole} {b : SafetyBound}

theorem checkBound_eq_none_iff_seen : checkBound num args b = none ↔ ¬ Seen num args b := by
  rw [checkBound_eq_none, Seen, not_exists]
  refine forall_congr' fun d => ?_
  rw [validateParam_allowed, not_and]
  simp [converted]

/-- A call is allowed if neither its role nor the device is against it, and no double of its
arguments is outside of a bound. -/
theorem validate_allowed_iff : (validate num g name args role).allowed = true ↔
    ¬ Restricted g role name ∧ isExcludedTool g name = false ∧
      ∀ b ∈ boundsOf g name, ¬ Seen num args b := by
  by_cases hr : Restricted g role name
  · exact iff_of_false (by simp [validate_restricted hr]) fun h => h.1 hr
  · have hguest : ¬ (role = .guest ∧ name ∈ g.guestRestrictedTools) := fun h => hr (Or.inl h)
    have hchild : ¬ ((role = .child ∨ role = .guest) ∧ name ∈ g.childRestrictedTools) :=
      fun h => hr (Or.inr h)
    have hbounds : ((g.bounds.lookup name).bind fun bs => bs.findSome? (checkBound num args)) =
        none ↔ ∀ b ∈ boundsOf g name, ¬ Seen num args b := by
      unfold boundsOf
      cases g.bounds.lookup name with
      | none => simp
      | some bs => simp [List.findSome?_eq_none_iff, checkBound_eq_none_iff_seen]
    rw [← hbounds, validate, if_neg hguest, if_neg hchild]
    cases hx : isExcludedTool g name with
    | true => simp
    | false =>
      cases hb : (g.bounds.lookup name).bind fun bs => bs.findSome? (checkBound num args) with
      | some r => simp [boundViolation_denies hb]
      | none =>
        simp only [hr, Bool.false_eq_true, if_false, not_false_eq_true, and_self, iff_true]
        split_ifs <;> rfl

/-- An allowed call has all its numbers within their bounds exactly if it is refused for its role,
for the device or for the double of an argument, or no argument escapes its bounds. -/
theorem bounds_enforced_iff (num : NumericLibrary) (g : SafetyGuard) (name : Bytes) (args : Json)
    (role : UserRole) :
    ((validate num g name args role).allowed = true → Enforced num g name args) ↔
      Restricted g role name ∨ isExcludedTool g name = true ∨
        (∃ b ∈ boundsOf g name, Seen num args b) ∨
          ∀ b ∈ boundsOf g name, ¬ Escapes num args b := by
  rw [validate_allowed_iff]
  by_cases hr : Restricted g role name
  · simp [hr]
  cases hx : isExcludedTool g name with
  | true => simp
  | false =>
    by_cases hseen : ∃ b ∈ boundsOf g name, Seen num args b
    · obtain ⟨b, hb, hs⟩ := hseen
      exact iff_of_true (fun h => absurd hs (h.2.2 b hb)) (Or.inr (Or.inr (Or.inl ⟨b, hb, hs⟩)))
    · have hnone : ∀ b ∈ boundsOf g name, ¬ Seen num args b := fun b hb hs => hseen ⟨b, hb, hs⟩
      simp only [hr, hseen, Bool.false_eq_true, false_or, not_false_eq_true, true_and]
      constructor
      · rintro h b hb ⟨⟨q, hq, hout⟩, -⟩
        exact hout (h (fun b hb => hnone b hb) b hb q hq)
      · intro h _ b hb q hq
        by_contra hout
        exact h b hb ⟨⟨q, hq, hout⟩, hnone b hb⟩

/-- A number that is converted to the nearest double escapes a bound exactly if it is rounded to the
limit that it passes. -/
theorem rounded_outside_iff {doubles : Set ℚ} {lo hi q d : ℚ} (hlo : b.minValue = .finite lo)
    (hhi : b.maxValue = .finite hi) (hmin : lo ∈ doubles) (hmax : hi ∈ doubles) (hle : lo ≤ hi)
    (hnear : ∀ e ∈ doubles, |q - d| ≤ |q - e|) :
    (q ∉ range b ∧ d ∈ range b) ↔ (q < lo ∧ d = lo) ∨ (hi < q ∧ d = hi) := by
  rw [range_eq_Icc hlo hhi, Set.mem_Icc, Set.mem_Icc]
  constructor
  · rintro ⟨hq, hd⟩
    rcases lt_or_ge q lo with hlt | hge
    · have hcloser := hnear lo hmin
      rw [abs_sub_comm, abs_sub_comm q lo, abs_of_nonneg (by linarith), abs_of_pos (by linarith)]
        at hcloser
      exact Or.inl ⟨hlt, le_antisymm (by linarith) hd.1⟩
    · have hgt : hi < q := not_le.mp fun h => hq ⟨hge, h⟩
      have hcloser := hnear hi hmax
      rw [abs_of_nonneg (by linarith), abs_of_pos (by linarith)] at hcloser
      exact Or.inr ⟨hgt, le_antisymm hd.2 (by linarith)⟩
  · rintro (⟨hlt, rfl⟩ | ⟨hgt, rfl⟩)
    · exact ⟨fun h => hlt.not_ge h.1, le_rfl, hle⟩
    · exact ⟨fun h => hgt.not_ge h.2, hle, le_rfl⟩

end Arguments

namespace Counterexample

/-- Numbers that a double has are taken as they are, and those that are too large throw. -/
def numbers : NumericLibrary where
  ofInt i := .finite i
  ofFloat _ := .finite 0
  stod s := (decimalNumber s).bind fun q => if |q| < 2 ^ 1024 then some (.finite q) else none
  toText _ := []

def tool : Bytes := bytes "set_temperature"

def param : Bytes := bytes "celsius"

def limits : SafetyBound := ⟨param, .finite 0, .finite 100, [], []⟩

def guard : SafetyGuard where
  bounds := [(tool, [limits])]

def huge : Json := .obj [(param, .str (bytes "1e999"))]

theorem decimalNumber_huge : decimalNumber (bytes "1e999") = some (10 ^ 999) := by
  have hsign : sign (bytes "1e999") = (false, bytes "1e999") := by decide
  have hwhole : (bytes "1e999").takeWhile isDigit = bytes "1" := by decide
  have hrest : fraction ((bytes "1e999").dropWhile isDigit) = ([], bytes "e999") := by decide
  have hexponent : exponent (bytes "e999") = some 999 := by decide
  have hdigits : digitsValue (bytes "1" ++ []) = 1 := by decide
  have hone : bytes "1" ++ [] ≠ [] := by decide
  simp only [decimalNumber, hsign, hwhole, hrest, hexponent, if_neg hone, hdigits]
  norm_num

theorem converted_huge : converted numbers huge limits = none := by
  have hlarge : ¬ |(10 : ℚ) ^ 999| < 2 ^ 1024 := by
    rw [abs_of_pos (by positivity), not_lt]
    calc (2 : ℚ) ^ 1024 ≤ 2 ^ (3 * 999) := pow_le_pow_right₀ one_le_two (by decide)
      _ = (2 ^ 3) ^ 999 := pow_mul 2 3 999
      _ ≤ 10 ^ 999 := pow_le_pow_left₀ (by norm_num) (by norm_num) 999
  have hmember : huge.member? limits.paramName = some (.str (bytes "1e999")) := by decide
  rw [converted, hmember]
  simp only [Option.bind_some, numericValue, numbers, decimalNumber_huge, if_neg hlarge]

/-- A text that no double is large enough for is taken for no number at all. -/
theorem huge_text_allowed : ¬ ∀ (num : NumericLibrary) (g : SafetyGuard) (name : Bytes)
    (args : Json) (role : UserRole), (validate num g name args role).allowed = true →
      Enforced num g name args := by
  intro h
  have hallowed : (validate numbers guard tool huge .admin).allowed = true := by
    rw [validate_allowed_iff]
    refine ⟨by decide, by decide, fun b hb => ?_⟩
    obtain rfl : b = limits := by simpa [boundsOf, guard] using hb
    rintro ⟨d, hd, -⟩
    rw [converted_huge] at hd
    cases hd
  have hin := h numbers guard tool huge .admin hallowed limits (by simp [boundsOf, guard])
    (10 ^ 999)
    (by
      have hmember : huge.member? limits.paramName = some (.str (bytes "1e999")) := by decide
      rw [argument, hmember]
      exact decimalNumber_huge)
  rw [range_eq_Icc rfl rfl] at hin
  have hgt : (100 : ℚ) < 10 ^ 999 :=
    calc (100 : ℚ) = 10 ^ 2 := by norm_num
      _ < 10 ^ 999 := pow_lt_pow_right₀ (by norm_num) (by decide)
  exact absurd hin.2 hgt.not_ge

end Counterexample

end BoundsEnforcement
