import TizenClaw.JsonDump
import TizenClaw.UserProfileStore
import Mathlib.Algebra.Order.Ring.Rat

/-! The safety guard: roles, device exclusions, bounds on numeric arguments, confirmation and
rate limits. -/
namespace SafetyChecks

open ByteString JsonValue UserProfileStore

inductive Double where
  | nan
  | posInf
  | negInf
  | finite (q : ℚ)
  deriving DecidableEq, Repr

/-- Comparison with a NaN is false. -/
def Double.lt : Double → Double → Bool
  | .nan, _ | _, .nan => false
  | .negInf, .negInf => false
  | .negInf, _ => true
  | _, .negInf => false
  | .posInf, _ => false
  | _, .posInf => true
  | .finite p, .finite q => p < q

/-- Conversions to binary floating point and its decimal output. -/
structure NumericLibrary where
  ofInt : ℤ → Double
  ofFloat : NumberText → Double
  stod : Bytes → Option Double
  toText : Double → Bytes

structure SafetyBound where
  paramName : Bytes
  minValue : Double
  maxValue : Double
  unit : Bytes
  description : Bytes

structure ActionRateRule where
  maxCalls : ℤ
  windowSeconds : ℤ

structure DeviceProfile where
  deviceType : Bytes := []
  excludedTools : List Bytes := []

structure SafetyGuard where
  bounds : List (Bytes × List SafetyBound) := []
  rateRules : List (Bytes × ActionRateRule) := []
  confirmationTools : List Bytes := []
  childRestrictedTools : List Bytes := []
  guestRestrictedTools : List Bytes := []
  deviceProfile : DeviceProfile := {}

structure SafetyCheckResult where
  allowed : Bool := true
  requiresConfirmation : Bool := false
  reason : Bytes := []
  safeValue : Bytes := []

/-- `rate_history_`: the times of the recorded calls of a tool. -/
abbrev RateHistory := Bytes → List ℤ

section Checks

variable (num : NumericLibrary) (g : SafetyGuard)

def isExcludedTool (name : Bytes) : Bool := name ∈ g.deviceProfile.excludedTools

/-- What both sides of a bound report; `side` names the limit that is passed. -/
def boundViolation (bound : SafetyBound) (value limit : Double) (side : Bytes) :
    SafetyCheckResult :=
  { allowed := false
    reason := bytes "Safety violation: " ++ bound.paramName ++ bytes " value " ++
      num.toText value ++ bytes " " ++ bound.unit ++ side ++ num.toText limit ++ bytes " " ++
      bound.unit ++
      if bound.description = [] then [] else bytes " (" ++ bound.description ++ bytes ")"
    safeValue := num.toText limit }

def validateParam (bound : SafetyBound) (value : Double) : SafetyCheckResult :=
  if value.lt bound.minValue then
    boundViolation num bound value bound.minValue (bytes " is below minimum safe limit of ")
  else if bound.maxValue.lt value then
    boundViolation num bound value bound.maxValue (bytes " exceeds maximum safe limit of ")
  else {}

/-- The number an argument stands for; anything else is not checked. -/
def numericValue : Json → Option Double
  | .int i => some (num.ofInt i)
  | .float t => some (num.ofFloat t)
  | .str s => num.stod s
  | _ => none

def checkBound (args : Json) (bound : SafetyBound) : Option SafetyCheckResult :=
  ((args.member? bound.paramName).bind (numericValue num)).bind fun value =>
    let result := validateParam num bound value
    if result.allowed then none else some result

def validate (name : Bytes) (args : Json) (role : UserRole) : SafetyCheckResult :=
  if role = .guest ∧ name ∈ g.guestRestrictedTools then
    { allowed := false
      reason := bytes "Guest users are not allowed to use the '" ++ name ++ bytes "' action." }
  else if (role = .child ∨ role = .guest) ∧ name ∈ g.childRestrictedTools then
    { allowed := false
      reason := bytes "This action ('" ++ name ++
        bytes "') is restricted for child/guest users." }
  else if isExcludedTool g name then
    { allowed := false
      reason := bytes "Tool '" ++ name ++ bytes "' is not available on this " ++
        g.deviceProfile.deviceType ++ bytes " device" }
  else match (g.bounds.lookup name).bind fun bs => bs.findSome? (checkBound num args) with
    | some violation => violation
    | none =>
      if name ∈ g.confirmationTools then
        { requiresConfirmation := true
          reason := bytes "This action requires user confirmation before execution" }
      else {}

/-- Whether the call is refused, and the history with this call recorded if it is not. -/
def checkActionRateLimit (history : RateHistory) (now : ℤ) (name : Bytes) : Bool × RateHistory :=
  match g.rateRules.lookup name with
  | none => (false, history)
  | some rule =>
    let recent := (history name).dropWhile fun t => t < now - rule.windowSeconds
    if rule.maxCalls ≤ recent.length then (true, Function.update history name recent)
    else (false, Function.update history name (recent ++ [now]))

/-- The tools a role may not use, which is what the role lists of the configuration say. -/
def Restricted (role : UserRole) (name : Bytes) : Prop :=
  role = .guest ∧ name ∈ g.guestRestrictedTools ∨
    (role = .child ∨ role = .guest) ∧ name ∈ g.childRestrictedTools

instance (role : UserRole) (name : Bytes) : Decidable (Restricted g role name) :=
  inferInstanceAs (Decidable (_ ∨ _))

end Checks

variable {num : NumericLibrary} {g : SafetyGuard}

theorem validateParam_allowed {bound : SafetyBound} {value : Double} :
    (validateParam num bound value).allowed = true ↔
      value.lt bound.minValue = false ∧ bound.maxValue.lt value = false := by
  unfold validateParam
  split_ifs with hmin hmax
  · simp [boundViolation, hmin]
  · simp [boundViolation, hmax]
  · simp [hmin, hmax]

/-- A bound refuses the arguments whose value is a number that it does not allow. -/
theorem checkBound_eq_none {args : Json} {bound : SafetyBound} :
    checkBound num args bound = none ↔
      ∀ value ∈ (args.member? bound.paramName).bind (numericValue num),
        (validateParam num bound value).allowed = true := by
  unfold checkBound
  cases (args.member? bound.paramName).bind (numericValue num) with
  | none => simp
  | some value => simp

theorem checkBound_denies {args : Json} {bound : SafetyBound} {r : SafetyCheckResult}
    (h : checkBound num args bound = some r) : r.allowed = false := by
  obtain ⟨v, -, hv⟩ := Option.bind_eq_some_iff.mp h
  dsimp only at hv
  split_ifs at hv with hr
  obtain rfl := Option.some.inj hv
  simpa using hr

theorem boundViolation_denies {name : Bytes} {args : Json} {r : SafetyCheckResult}
    (h : ((g.bounds.lookup name).bind fun bs => bs.findSome? (checkBound num args)) = some r) :
    r.allowed = false := by
  obtain ⟨bs, -, hb⟩ := Option.bind_eq_some_iff.mp h
  obtain ⟨b, -, hr⟩ := List.exists_of_findSome?_eq_some hb
  exact checkBound_denies hr

theorem validate_restricted {role : UserRole} {name : Bytes} (h : Restricted g role name)
    (args : Json) : (validate num g name args role).allowed = false := by
  unfold validate
  rcases h with h | h
  · simp [h]
  · split_ifs
    all_goals simp_all

/-- A less trusted role is restricted in at least as much. -/
theorem restricted_mono {role role' : UserRole} {name : Bytes} (hr : role'.rank ≤ role.rank)
    (h : Restricted g role name) : Restricted g role' name := by
  rcases h with ⟨rfl, h⟩ | ⟨rfl | rfl, h⟩ <;> cases role' <;> simp_all [Restricted, UserRole.rank]

/-- The confirmation field of an allowed call says whether the tool is listed. -/
theorem validate_confirmation {name : Bytes} {args : Json} {role : UserRole}
    (h : (validate num g name args role).allowed = true) :
    (validate num g name args role).requiresConfirmation = true ↔ name ∈ g.confirmationTools := by
  unfold validate at h ⊢
  cases hb : (g.bounds.lookup name).bind fun bs => bs.findSome? (checkBound num args) with
  | some r =>
    have hr := boundViolation_denies hb
    rw [hb] at h
    split_ifs at h <;> exact absurd h (by simp [hr])
  | none =>
    rw [hb] at h
    split_ifs at h ⊢ with h1 h2 h3 hc <;> simp [hc]

end SafetyChecks
