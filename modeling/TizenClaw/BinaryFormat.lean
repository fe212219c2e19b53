import Mathlib.Algebra.Field.Rat
import Mathlib.Algebra.GroupWithZero.Basic
import Mathlib.Tactic.NormNum
import Mathlib.Tactic.Ring

/-! Binary interchange formats for floating-point numbers: the fields of a pattern, and what they
stand for. -/
namespace BinaryFormat

/-- The widths of the exponent and of the fraction. -/
structure Format where
  exponentBits : ℕ
  fractionBits : ℕ

structure Fields where
  sign : Bool
  exponent : ℕ
  fraction : ℕ

/-- Zeros keep their signs; the payload of a NaN is left out. -/
inductive Datum where
  | nan
  | infinity (negative : Bool)
  | finite (negative : Bool) (magnitude : ℚ)
  deriving DecidableEq

namespace Format

variable (f : Format)

/-- The exponent of infinities and NaNs. -/
def special : ℕ := 2 ^ f.exponentBits - 1

def bias : ℤ := 2 ^ (f.exponentBits - 1) - 1

/-- Without an exponent the first digit of the significand is 0, else 1. -/
def value (x : Fields) : Datum :=
  if x.exponent = f.special then if x.fraction = 0 then .infinity x.sign else .nan
  else if x.exponent = 0 then .finite x.sign (x.fraction * 2 ^ (1 - f.bias - f.fractionBits))
  else .finite x.sign ((2 ^ f.fractionBits + x.fraction) *
    2 ^ (x.exponent - f.bias - f.fractionBits))

def pack (x : Fields) : ℕ :=
  x.sign.toNat * 2 ^ (f.exponentBits + f.fractionBits) + x.exponent * 2 ^ f.fractionBits +
    x.fraction

def unpack (n : ℕ) : Fields where
  sign := n / 2 ^ (f.exponentBits + f.fractionBits) % 2 = 1
  exponent := n / 2 ^ f.fractionBits % 2 ^ f.exponentBits
  fraction := n % 2 ^ f.fractionBits

variable {f}

theorem unpack_pack {x : Fields} (he : x.exponent < 2 ^ f.exponentBits)
    (hf : x.fraction < 2 ^ f.fractionBits) : f.unpack (f.pack x) = x := by
  have hpack : f.pack x = 2 ^ f.fractionBits *
      (2 ^ f.exponentBits * x.sign.toNat + x.exponent) + x.fraction := by
    unfold pack
    rw [pow_add]
    ring
  have hlow : f.pack x / 2 ^ f.fractionBits = 2 ^ f.exponentBits * x.sign.toNat + x.exponent := by
    rw [hpack, Nat.mul_add_div (by positivity), Nat.div_eq_of_lt hf, Nat.add_zero]
  have hhigh : f.pack x / 2 ^ (f.exponentBits + f.fractionBits) = x.sign.toNat := by
    rw [Nat.add_comm, pow_add, ← Nat.div_div_eq_div_mul, hlow, Nat.mul_add_div (by positivity),
      Nat.div_eq_of_lt he, Nat.add_zero]
  have hexp : f.pack x / 2 ^ f.fractionBits % 2 ^ f.exponentBits = x.exponent := by
    rw [hlow, Nat.mul_add_mod, Nat.mod_eq_of_lt he]
  have hfrac : f.pack x % 2 ^ f.fractionBits = x.fraction := by
    rw [hpack, Nat.mul_add_mod, Nat.mod_eq_of_lt hf]
  unfold unpack
  rw [hhigh, hexp, hfrac]
  cases x with
  | mk sign => cases sign <;> rfl

theorem value_special (sign : Bool) (fraction : ℕ) :
    f.value ⟨sign, f.special, fraction⟩ = if fraction = 0 then .infinity sign else .nan :=
  if_pos rfl

theorem value_subnormal (h : 0 < f.special) (sign : Bool) (fraction : ℕ) :
    f.value ⟨sign, 0, fraction⟩ =
      .finite sign (fraction * 2 ^ (1 - f.bias - f.fractionBits)) := by
  unfold value
  rw [if_neg h.ne, if_pos rfl]

/-- A fraction that ends in zeros has the value of the shorter one. -/
theorem value_normal {exponent digits zeros : ℕ} (h : f.fractionBits = digits + zeros)
    (h0 : 0 < exponent) (hlt : exponent < f.special) (sign : Bool) (fraction : ℕ) :
    f.value ⟨sign, exponent, fraction * 2 ^ zeros⟩ =
      .finite sign ((2 ^ digits + fraction) * 2 ^ (exponent - f.bias - digits)) := by
  have hpow : (2 : ℚ) ^ (exponent - f.bias - digits) =
      2 ^ (exponent - f.bias - f.fractionBits) * 2 ^ zeros := by
    rw [← zpow_natCast, ← zpow_add₀ two_ne_zero, h]
    congr 1
    push_cast
    ring
  unfold value
  rw [if_neg hlt.ne, if_neg h0.ne', hpow, h]
  congr 1
  push_cast
  ring

end Format

end BinaryFormat
