import TizenClaw.SafetyConfig
import Mathlib.Order.Interval.Set.Basic

/-! Clamping to safe values: the clamper takes the first bound of a parameter, the check takes all
of them, and bounds come from two files. -/
namespace BoundsClamping

open ByteString JsonValue SafetyChecks SafetyConfig

section Intervals

variable {α : Type*} [LinearOrder α]

/-- The value in an interval that is closest to a given one. -/
def clamp (lo hi v : α) : α := if v < lo then lo else if hi < v then hi else v

variable {lo hi v : α}

theorem clamp_of_mem (h : v ∈ Set.Icc lo hi) : clamp lo hi v = v := by
  rw [clamp, if_neg h.1.not_gt, if_neg h.2.not_gt]

theorem clamp_mem (h : lo ≤ hi) (v : α) : clamp lo hi v ∈ Set.Icc lo hi := by
  unfold clamp
  split_ifs with hlo hhi
  · exact Set.left_mem_Icc.mpr h
  · exact Set.right_mem_Icc.mpr h
  · exact ⟨not_lt.mp hlo, not_lt.mp hhi⟩

theorem range_clamp (h : lo ≤ hi) : Set.range (clamp lo hi) = Set.Icc lo hi := by
  apply Set.Subset.antisymm
  · rintro - ⟨v, rfl⟩
    exact clamp_mem h v
  · intro v hv
    exact ⟨v, clamp_of_mem hv⟩

end Intervals

section Guard

variable (num : NumericLibrary) (g : SafetyGuard) (tool param : Bytes)

/-- The first bound of a parameter. -/
def findBound : Option SafetyBound := (boundsOf g tool).find? fun b => b.paramName = param

/-- The clamped value, and whether it was clamped. -/
def clampToSafe (value : Double) : Double × Bool :=
  match findBound g tool param with
  | none => (value, false)
  | some bound =>
    if value.lt bound.minValue then (bound.minValue, true)
    else if bound.maxValue.lt value then (bound.maxValue, true)
    else (value, false)

/-- The check of the bounds allows a value of the parameter. -/
def Accepts (value : Double) : Prop :=
  ∀ b ∈ boundsOf g tool, b.paramName = param → (validateParam num b value).allowed = true

instance (value : Double) : Decidable (Accepts num g tool param value) :=
  inferInstanceAs (Decidable (∀ b ∈ _, _ → _))

/-- What clamping a number should give. -/
structure Sound (v : ℚ) : Prop where
  accepted : Accepts num g tool param (clampToSafe g tool param (.finite v)).1
  kept : Accepts num g tool param (.finite v) →
    (clampToSafe g tool param (.finite v)).1 = .finite v
  again : (clampToSafe g tool param (clampToSafe g tool param (.finite v)).1).1 =
    (clampToSafe g tool param (.finite v)).1

/-- The limits of a bound are within those of another one. -/
def Within (first b : SafetyBound) : Prop :=
  first.minValue.lt b.minValue = false ∧ b.maxValue.lt first.maxValue = false

instance (first b : SafetyBound) : Decidable (Within first b) :=
  inferInstanceAs (Decidable (_ ∧ _))

variable {num g tool param}

/-- On a call with this parameter, the bounds that `Validate` checks refuse nothing exactly if they
accept its number. -/
theorem accepts_iff_checkBound {j : Json} {value : Double} (h : numericValue num j = some value) :
    ((g.bounds.lookup tool).bind fun bs =>
      bs.findSome? (checkBound num (.obj [(param, j)]))) = none ↔
        Accepts num g tool param value := by
  have hcheck : ∀ b : SafetyBound, checkBound num (.obj [(param, j)]) b = none ↔
      (b.paramName = param → (validateParam num b value).allowed = true) := by
    intro b
    rw [checkBound_eq_none, Json.member?]
    by_cases hb : b.paramName = param
    · simp [hb, h]
    · simp [List.lookup_cons, beq_eq_false_iff_ne.mpr hb, hb]
  unfold Accepts boundsOf
  cases g.bounds.lookup tool with
  | none => simp
  | some bs => simp [List.findSome?_eq_none_iff, hcheck]

/-- The numbers that a bound allows. -/
def range (b : SafetyBound) : Set ℚ :=
  {v | (Double.finite v).lt b.minValue = false ∧ b.maxValue.lt (.finite v) = false}

theorem accepts_iff_range {v : ℚ} : Accepts num g tool param (.finite v) ↔
    ∀ b ∈ boundsOf g tool, b.paramName = param → v ∈ range b :=
  forall₂_congr fun _ _ => imp_congr_right fun _ => validateParam_allowed

theorem range_eq_Icc {b : SafetyBound} {lo hi : ℚ} (hlo : b.minValue = .finite lo)
    (hhi : b.maxValue = .finite hi) : range b = Set.Icc lo hi := by
  ext v
  simp [range, hlo, hhi, Double.lt]

theorem within_iff_subset {first b : SafetyBound} (hfirst : SafetyBoundFinite first)
    (hb : SafetyBoundFinite b) (hne : (range first).Nonempty) :
    Within first b ↔ range first ⊆ range b := by
  obtain ⟨⟨lo, hlo⟩, ⟨hi, hhi⟩⟩ := hfirst
  obtain ⟨⟨lo', hlo'⟩, ⟨hi', hhi'⟩⟩ := hb
  rw [range_eq_Icc hlo hhi] at hne ⊢
  rw [range_eq_Icc hlo' hhi', Set.Icc_subset_Icc_iff (Set.nonempty_Icc.mp hne)]
  simp [Within, hlo, hhi, hlo', hhi', Double.lt]

/-- The first bound clamps to the numbers that it allows. -/
theorem clampToSafe_finite {first : SafetyBound} {lo hi : ℚ}
    (h : findBound g tool param = some first) (hlo : first.minValue = .finite lo)
    (hhi : first.maxValue = .finite hi) (v : ℚ) :
    (clampToSafe g tool param (.finite v)).1 = .finite (clamp lo hi v) := by
  simp only [clampToSafe, h, hlo, hhi, Double.lt, decide_eq_true_eq, clamp]
  split_ifs <;> rfl

theorem clamp_unbounded (h : findBound g tool param = none) (v : ℚ) :
    Sound num g tool param v := by
  have hclamp : ∀ value, (clampToSafe g tool param value).1 = value := by
    intro value
    rw [clampToSafe, h]
  have haccept : ∀ value, Accepts num g tool param value := by
    intro value b hb hparam
    have hnone := List.find?_eq_none.mp h b hb
    exact absurd hparam (by simpa using hnone)
  exact ⟨haccept _, fun _ => hclamp _, hclamp _⟩

/-- Clamping to an interval of the accepted numbers is sound exactly if all of it is accepted. -/
theorem sound_iff_subset {first : SafetyBound} (h : findBound g tool param = some first)
    (hfinite : SafetyBoundFinite first) (hne : (range first).Nonempty) :
    (∀ v, Sound num g tool param v) ↔
      ∀ b ∈ boundsOf g tool, b.paramName = param → range first ⊆ range b := by
  obtain ⟨⟨lo, hlo⟩, ⟨hi, hhi⟩⟩ := hfinite
  have hrange := range_eq_Icc hlo hhi
  have hmem : first ∈ boundsOf g tool ∧ first.paramName = param :=
    ⟨List.mem_of_find?_eq_some h, by simpa using List.find?_some h⟩
  have hle : lo ≤ hi := by rwa [hrange, Set.nonempty_Icc] at hne
  have hclamp := clampToSafe_finite h hlo hhi
  constructor
  · intro hs b hb hparam v hv
    rw [hrange] at hv
    have haccept := (hs v).accepted
    rw [hclamp, clamp_of_mem hv, accepts_iff_range] at haccept
    exact haccept b hb hparam
  · intro hsub v
    have hin := clamp_mem hle v
    refine ⟨?_, fun hv => ?_, ?_⟩
    · rw [hclamp, accepts_iff_range]
      intro b hb hparam
      exact hsub b hb hparam (hrange.symm ▸ hin)
    · have hfirst := accepts_iff_range.mp hv first hmem.1 hmem.2
      rw [hrange] at hfirst
      rw [hclamp, clamp_of_mem hfirst]
    · rw [hclamp, hclamp, clamp_of_mem hin]

end Guard

/-- With bounds that have a common value, clamping is sound for all numbers exactly if the first
bound of the parameter is within all the others. -/
theorem clamp_sound_iff {num : NumericLibrary} (hnum : FiniteNumbers num)
    (truncate : NumberText → ℤ) (config device : Option Json) (tool param : Bytes)
    (hcommon : ∃ c, Accepts num (loaded num truncate config device) tool param (.finite c)) :
    (∀ v, Sound num (loaded num truncate config device) tool param v) ↔
      ∀ first ∈ findBound (loaded num truncate config device) tool param,
        ∀ b ∈ boundsOf (loaded num truncate config device) tool,
          b.paramName = param → Within first b := by
  have hfinite := finiteBounds_loaded hnum truncate config device
  generalize loaded num truncate config device = g at *
  cases h : findBound g tool param with
  | none => exact iff_of_true (clamp_unbounded h) (by simp)
  | some first =>
    have hmem := List.mem_of_find?_eq_some h
    have hparam : first.paramName = param := by simpa using List.find?_some h
    have hne : (range first).Nonempty := by
      obtain ⟨c, hc⟩ := hcommon
      exact ⟨c, accepts_iff_range.mp hc first hmem hparam⟩
    rw [sound_iff_subset h (hfinite tool first hmem) hne]
    simp only [Option.mem_def, Option.some.injEq, forall_eq']
    refine forall₂_congr fun b hb => imp_congr_right fun _ => ?_
    exact (within_iff_subset (hfinite tool first hmem) (hfinite tool b hb) hne).symm

namespace Counterexample

/-- A library for the numbers of the example, which are small integers. -/
def numbers : NumericLibrary := ⟨fun i => .finite i, fun _ => .finite 0, fun _ => none, fun _ => []⟩

theorem numbers_finite : FiniteNumbers numbers := ⟨fun i => ⟨i, rfl⟩, fun _ => ⟨0, rfl⟩⟩

def toZero : NumberText → ℤ := fun _ => 0

def tool : Bytes := bytes "set_temperature"

def param : Bytes := bytes "celsius"

def bound (min max : ℤ) : Json :=
  .obj [(bytes "max", .int max), (bytes "min", .int min), (bytes "param", .str param)]

def config : Json := .obj [(bytes "bounds", .obj [(tool, .arr [bound 0 100])])]

/-- The device allows less than the configuration. -/
def device : Json := .obj [(bytes "safety_bounds", .obj [(tool, .arr [bound 10 50])])]

/-- A device that allows more. -/
def largerDevice : Json := .obj [(bytes "safety_bounds", .obj [(tool, .arr [bound (-10) 200])])]

theorem device_bound_ignored : ¬ ∀ (num : NumericLibrary), FiniteNumbers num →
    ∀ (truncate : NumberText → ℤ) (config device : Option Json) (tool param : Bytes),
      (∃ c, Accepts num (loaded num truncate config device) tool param (.finite c)) →
        ∀ v, Sound num (loaded num truncate config device) tool param v := by
  intro h
  have hs := h numbers numbers_finite toZero (some config) (some device) tool param
    ⟨20, by decide⟩ 80
  exact absurd hs.accepted (by decide)

theorem larger_device_sound :
    Sound numbers (loaded numbers toZero (some config) (some largerDevice)) tool param 120 :=
  (clamp_sound_iff numbers_finite toZero (some config) (some largerDevice) tool param
    ⟨20, by decide⟩).mpr (by decide) 120

end Counterexample

end BoundsClamping
