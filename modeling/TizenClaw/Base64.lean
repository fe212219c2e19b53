import Mathlib.Data.List.Basic
import Mathlib.Data.UInt

/-! Base64: groups of three bytes as four digits, and a padding where the last group is shorter. -/
namespace Base64

def padding : UInt8 := 0x3D

def digit (n : ℕ) : UInt8 :=
  if n < 26 then UInt8.ofNat (0x41 + n)
  else if n < 52 then UInt8.ofNat (0x61 + (n - 26))
  else if n < 62 then UInt8.ofNat (0x30 + (n - 52))
  else if n = 62 then 0x2B else 0x2F

/-- The value of a digit; the padding counts as zero, and every other byte is skipped. -/
def rank (c : UInt8) : Option ℕ :=
  if 0x41 ≤ c ∧ c ≤ 0x5A then some (c.toNat - 0x41)
  else if 0x61 ≤ c ∧ c ≤ 0x7A then some (c.toNat - 0x61 + 26)
  else if 0x30 ≤ c ∧ c ≤ 0x39 then some (c.toNat - 0x30 + 52)
  else if c = 0x2B then some 62
  else if c = 0x2F then some 63
  else if c = padding then some 0
  else none

/-- Three bytes as one number. -/
def group (a b c : UInt8) : ℕ := a.toNat * 0x10000 + b.toNat * 0x100 + c.toNat

def encode : List UInt8 → List UInt8
  | a :: b :: c :: s =>
    let v := group a b c
    digit (v / 0x40000) :: digit (v / 0x1000 % 64) :: digit (v / 64 % 64) :: digit (v % 64) ::
      encode s
  | [a, b] =>
    let v := group a b 0
    [digit (v / 0x40000), digit (v / 0x1000 % 64), digit (v / 64 % 64), padding]
  | [a] =>
    let v := group a 0 0
    [digit (v / 0x40000), digit (v / 0x1000 % 64), padding, padding]
  | [] => []

def value (c : UInt8) : ℕ := (rank c).getD 0

/-- Four digits as one number. -/
def joined (c₁ c₂ c₃ c₄ : UInt8) : ℕ :=
  ((value c₁ * 64 + value c₂) * 64 + value c₃) * 64 + value c₄

def decodeGroups : List UInt8 → List UInt8
  | c₁ :: c₂ :: c₃ :: c₄ :: s =>
    let v := joined c₁ c₂ c₃ c₄
    UInt8.ofNat (v / 0x10000) :: ((if c₃ = padding then [] else [UInt8.ofNat (v / 0x100)]) ++
      (if c₄ = padding then [] else [UInt8.ofNat v]) ++ decodeGroups s)
  | _ => []

def decode (s : List UInt8) : List UInt8 := decodeGroups (s.filter fun c => (rank c).isSome)

theorem rank_digit : ∀ n < 64, rank (digit n) = some n := by decide

theorem digit_ne_padding : ∀ n < 64, digit n ≠ padding := by decide

theorem digit_ascii : ∀ n < 64, digit n ≤ 0x7F := by decide

theorem group_lt (a b c : UInt8) : group a b c < 0x1000000 := by
  have ha := a.toNat_lt
  have hb := b.toNat_lt
  have hc := c.toNat_lt
  unfold group
  omega

/-- The digits of a number of three bytes make it up again. -/
theorem joined_digits {v : ℕ} (h : v < 0x1000000) :
    joined (digit (v / 0x40000)) (digit (v / 0x1000 % 64)) (digit (v / 64 % 64)) (digit (v % 64)) =
      v := by
  simp only [joined, value]
  rw [rank_digit _ (by omega), rank_digit _ (by omega), rank_digit _ (by omega),
    rank_digit _ (by omega)]
  simp only [Option.getD_some]
  omega

theorem digit_zero : value (digit 0) = value padding := by decide

theorem joined_one (a : UInt8) : joined (digit (group a 0 0 / 0x40000))
    (digit (group a 0 0 / 0x1000 % 64)) padding padding = group a 0 0 := by
  have hjoined := joined_digits (group_lt a 0 0)
  have hthird : group a 0 0 / 64 % 64 = 0 := by
    simp only [group, UInt8.toNat_zero]
    omega
  have hfourth : group a 0 0 % 64 = 0 := by
    simp only [group, UInt8.toNat_zero]
    omega
  rw [hthird, hfourth] at hjoined
  simpa only [joined, digit_zero] using hjoined

theorem joined_two (a b : UInt8) : joined (digit (group a b 0 / 0x40000))
    (digit (group a b 0 / 0x1000 % 64)) (digit (group a b 0 / 64 % 64)) padding = group a b 0 := by
  have hjoined := joined_digits (group_lt a b 0)
  have hfourth : group a b 0 % 64 = 0 := by
    simp only [group, UInt8.toNat_zero]
    omega
  rw [hfourth] at hjoined
  simpa only [joined, digit_zero] using hjoined

theorem first_byte (a b c : UInt8) : UInt8.ofNat (group a b c / 0x10000) = a := by
  have hb := b.toNat_lt
  have hc := c.toNat_lt
  have h : group a b c / 0x10000 = a.toNat := by
    unfold group
    omega
  rw [h, UInt8.ofNat_toNat]

theorem second_byte (a b c : UInt8) : UInt8.ofNat (group a b c / 0x100) = b := by
  have hc := c.toNat_lt
  have h : group a b c / 0x100 = b.toNat + 256 * a.toNat := by
    unfold group
    omega
  apply UInt8.toNat_inj.mp
  have hb := b.toNat_lt
  rw [h, UInt8.toNat_ofNat']
  omega

theorem third_byte (a b c : UInt8) : UInt8.ofNat (group a b c) = c := by
  apply UInt8.toNat_inj.mp
  have hc := c.toNat_lt
  rw [UInt8.toNat_ofNat', group]
  omega

theorem encode_nil : encode [] = [] := by rw [encode]

theorem decodeGroups_encode (s : List UInt8) : decodeGroups (encode s) = s := by
  induction s using encode.induct with
  | case1 a b c s ih =>
    have hlt := group_lt a b c
    rw [encode, decodeGroups]
    rw [joined_digits hlt, if_neg (digit_ne_padding _ (by omega)),
      if_neg (digit_ne_padding _ (by omega)), first_byte, second_byte, third_byte, ih]
    rfl
  | case2 a b =>
    have hlt := group_lt a b 0
    rw [encode, decodeGroups]
    rw [joined_two, if_neg (digit_ne_padding _ (by omega)), if_pos rfl, first_byte, second_byte]
    rfl
  | case3 a =>
    rw [encode, decodeGroups]
    rw [joined_one, if_pos rfl, if_pos rfl, first_byte]
    rfl
  | case4 => rfl

/-- What is written: digits and padding. -/
theorem encode_forall {P : UInt8 → Prop} (hdigit : ∀ n < 64, P (digit n)) (hpadding : P padding)
    (s : List UInt8) : ∀ x ∈ encode s, P x := by
  induction s using encode.induct with
  | case1 a b c s ih =>
    have hlt := group_lt a b c
    rw [encode]
    simp only [List.forall_mem_cons]
    exact ⟨hdigit _ (by omega), hdigit _ (by omega), hdigit _ (by omega), hdigit _ (by omega), ih⟩
  | case2 a b =>
    have hlt := group_lt a b 0
    rw [encode]
    simp only [List.forall_mem_cons, List.not_mem_nil, false_implies, implies_true, and_true]
    exact ⟨hdigit _ (by omega), hdigit _ (by omega), hdigit _ (by omega), hpadding⟩
  | case3 a =>
    have hlt := group_lt a 0 0
    rw [encode]
    simp only [List.forall_mem_cons, List.not_mem_nil, false_implies, implies_true, and_true]
    exact ⟨hdigit _ (by omega), hdigit _ (by omega), hpadding, hpadding⟩
  | case4 => exact fun x hx => absurd hx List.not_mem_nil

theorem encode_ascii (s : List UInt8) : ∀ x ∈ encode s, x ≤ 0x7F :=
  encode_forall digit_ascii (by decide) s

theorem decode_encode (s : List UInt8) : decode (encode s) = s := by
  have hranked : ∀ x ∈ encode s, (rank x).isSome = true := by
    apply encode_forall
    · intro n hn
      rw [rank_digit n hn]
      rfl
    · decide
  rw [decode, List.filter_eq_self.mpr hranked, decodeGroups_encode]

end Base64
