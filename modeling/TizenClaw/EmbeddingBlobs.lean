import TizenClaw.BinaryFormat
import TizenClaw.ByteString
import Mathlib.Data.Nat.Bitwise

/-! Embedding vectors as blobs. The store writes floats, the knowledge databases half floats, and
the reader goes by the length of the blob. -/
namespace EmbeddingBlobs

open ByteString BinaryFormat

section Words

/-- The bytes of a word in memory, the lowest one first. -/
def wordBytes : ℕ → ℕ → Bytes
  | 0, _ => []
  | size + 1, n => UInt8.ofNat n :: wordBytes size (n / 256)

def word : Bytes → ℕ
  | [] => 0
  | b :: s => b.toNat + 256 * word s

/-- An array of words of some size. -/
def words (size : ℕ) : ℕ → Bytes → List ℕ
  | 0, _ => []
  | count + 1, s => word (s.take size) :: words size count (s.drop size)

@[simp] theorem length_wordBytes (size n : ℕ) : (wordBytes size n).length = size := by
  induction size generalizing n with
  | zero => rfl
  | succ size ih => rw [wordBytes, List.length_cons, ih]

theorem word_wordBytes {size n : ℕ} (h : n < 256 ^ size) : word (wordBytes size n) = n := by
  induction size generalizing n with
  | zero =>
    rw [pow_zero] at h
    rw [wordBytes, word]
    omega
  | succ size ih =>
    rw [pow_succ] at h
    rw [wordBytes, word, ih (by omega), UInt8.toNat_ofNat']
    omega

theorem words_flatMap {size : ℕ} {l : List ℕ} (h : ∀ n ∈ l, n < 256 ^ size) :
    words size l.length (l.flatMap (wordBytes size)) = l := by
  induction l with
  | nil => rfl
  | cons n l ih =>
    have hn := word_wordBytes (h n List.mem_cons_self)
    rw [List.flatMap_cons, List.length_cons, words,
      List.take_left' (length_wordBytes size n), List.drop_left' (length_wordBytes size n), hn,
      ih fun k hk => h k (List.mem_cons_of_mem n hk)]

theorem length_flatMap_wordBytes (size : ℕ) (l : List ℕ) :
    (l.flatMap (wordBytes size)).length = l.length * size := by
  induction l with
  | nil => simp
  | cons n l ih =>
    rw [List.flatMap_cons, List.length_append, ih, length_wordBytes, List.length_cons]
    ring

theorem length_words (size count : ℕ) (s : Bytes) : (words size count s).length = count := by
  induction count generalizing s with
  | zero => rfl
  | succ count ih => rw [words, List.length_cons, ih]

end Words

section Half

/-- Shifts the first digit of a subnormal to its place; that takes ten turns at most. -/
def normalize : ℕ → UInt32 → UInt32 → UInt32 × UInt32
  | 0, mantissa, exponent => (mantissa, exponent)
  | turns + 1, mantissa, exponent =>
    if mantissa &&& 0x00000400 = 0 then normalize turns (mantissa <<< 1) (exponent - 1)
    else (mantissa, exponent)

def assemble (sign exponent mantissa : UInt32) : UInt32 :=
  let exponent := exponent + (127 - 15)
  let mantissa := mantissa <<< 13
  (sign <<< 31) ||| (exponent <<< 23) ||| mantissa

/-- A half float as a float; both are their bits. -/
def halfToFloat (h : UInt16) : UInt32 :=
  let sign := (h.toUInt32 >>> 15) &&& 0x00000001
  let exponent := (h.toUInt32 >>> 10) &&& 0x0000001f
  let mantissa := h.toUInt32 &&& 0x000003ff
  if exponent = 0 then
    if mantissa = 0 then sign <<< 31
    else
      let x := normalize 10 mantissa exponent
      assemble sign (x.2 + 1) (x.1 &&& ~~~0x00000400)
  else if exponent = 31 then
    if mantissa = 0 then (sign <<< 31) ||| (0x7f800000 : UInt32)
    else (sign <<< 31) ||| (0x7f800000 : UInt32) ||| (mantissa <<< 13)
  else assemble sign exponent mantissa

end Half

section Blobs

def floatsToBlob (v : List UInt32) : Bytes := (v.map UInt32.toNat).flatMap (wordBytes 4)

def blobToFloats (data : Option Bytes) (size : ℤ) : List UInt32 :=
  match data with
  | none => []
  | some data =>
    if size ≤ 0 then []
    else if size % 4 = 0 then (words 4 (size / 4).toNat data).map UInt32.ofNat
    else if size % 2 = 0 then
      (words 2 (size / 2).toNat data).map fun h => halfToFloat (UInt16.ofNat h)
    else []

/-- A vector as the knowledge databases have it. -/
def halvesToBlob (v : List UInt16) : Bytes := (v.map UInt16.toNat).flatMap (wordBytes 2)

/-- The vector of a stored row. -/
def decode (blob : Bytes) : List UInt32 := blobToFloats (some blob) blob.length

end Blobs

section Values

def half : Format := ⟨5, 10⟩
def single : Format := ⟨8, 23⟩

def halfValue (h : UInt16) : Datum := half.value (half.unpack h.toNat)
def floatValue (w : UInt32) : Datum := single.value (single.unpack w.toNat)

/-- Fields that do not overlap are added. -/
theorem toNat_fields {sign exponent mantissa : UInt32} (hs : sign.toNat < 2)
    (he : exponent.toNat < 256) (hm : mantissa.toNat < 1024) :
    ((sign <<< 31) ||| (exponent <<< 23) ||| (mantissa <<< 13)).toNat =
      single.pack ⟨sign.toNat = 1, exponent.toNat, mantissa.toNat * 2 ^ 13⟩ := by
  have hsign : (sign <<< 31).toNat = sign.toNat * 2 ^ 31 := by
    rw [UInt32.toNat_shiftLeft, Nat.shiftLeft_eq]
    change sign.toNat * 2 ^ 31 % 2 ^ 32 = _
    omega
  have hexp : (exponent <<< 23).toNat = exponent.toNat * 2 ^ 23 := by
    rw [UInt32.toNat_shiftLeft, Nat.shiftLeft_eq]
    change exponent.toNat * 2 ^ 23 % 2 ^ 32 = _
    omega
  have hman : (mantissa <<< 13).toNat = mantissa.toNat * 2 ^ 13 := by
    rw [UInt32.toNat_shiftLeft, Nat.shiftLeft_eq]
    change mantissa.toNat * 2 ^ 13 % 2 ^ 32 = _
    omega
  have hhigh : sign.toNat * 2 ^ 31 ||| exponent.toNat * 2 ^ 23 =
      (sign.toNat * 256 + exponent.toNat) * 2 ^ 23 := by
    rw [← Nat.shiftLeft_eq sign.toNat, ← Nat.shiftLeft_add_eq_or_of_lt (by omega), Nat.shiftLeft_eq]
    omega
  have hbit : (decide (sign.toNat = 1)).toNat = sign.toNat := by
    rcases (by omega : sign.toNat = 0 ∨ sign.toNat = 1) with h | h <;> rw [h] <;> rfl
  rw [UInt32.toNat_or, UInt32.toNat_or, hsign, hexp, hman, hhigh, ← Nat.shiftLeft_eq,
    ← Nat.shiftLeft_add_eq_or_of_lt (by omega), Nat.shiftLeft_eq]
  unfold Format.pack single
  dsimp only
  rw [hbit]
  omega

theorem floatValue_fields {sign exponent mantissa : UInt32} (hs : sign.toNat < 2)
    (he : exponent.toNat < 256) (hm : mantissa.toNat < 1024) :
    floatValue ((sign <<< 31) ||| (exponent <<< 23) ||| (mantissa <<< 13)) =
      single.value ⟨sign.toNat = 1, exponent.toNat, mantissa.toNat * 2 ^ 13⟩ := by
  unfold floatValue
  rw [toNat_fields hs he hm, Format.unpack_pack]
  · exact he
  · change mantissa.toNat * 2 ^ 13 < 2 ^ 23
    omega

theorem and_digit_eq_zero {mantissa : UInt32} (hlt : mantissa.toNat < 2 ^ 11) :
    mantissa &&& 0x00000400 = 0 ↔ mantissa.toNat < 2 ^ 10 := by
  have hand : (mantissa &&& 0x00000400).toNat = mantissa.toNat / 2 ^ 10 % 2 * 2 ^ 10 := by
    rw [UInt32.toNat_and]
    change mantissa.toNat &&& 2 ^ 10 = _
    rw [Nat.and_two_pow, Nat.toNat_testBit]
  rw [← UInt32.toNat_inj, hand]
  change _ = 0 ↔ _
  omega

/-- Without its first digit the significand is the fraction. -/
theorem toNat_and_not_digit {mantissa : UInt32} (hle : 2 ^ 10 ≤ mantissa.toNat)
    (hlt : mantissa.toNat < 2 ^ 11) :
    (mantissa &&& ~~~0x00000400).toNat = mantissa.toNat - 2 ^ 10 := by
  have hmask : (~~~0x00000400 : UInt32).toNat % 2 ^ 11 = 2 ^ 10 - 1 := by decide
  have hand : (mantissa &&& ~~~0x00000400).toNat < 2 ^ 11 := by
    rw [UInt32.toNat_and]
    exact Nat.and_le_left.trans_lt hlt
  rw [← Nat.mod_eq_of_lt hand, UInt32.toNat_and, Nat.and_mod_two_pow, hmask,
    Nat.and_two_pow_sub_one_eq_mod]
  omega

theorem toNat_shift {mantissa : UInt32} (hlt : mantissa.toNat < 2 ^ 11) :
    (mantissa <<< 1).toNat = mantissa.toNat * 2 := by
  rw [UInt32.toNat_shiftLeft, Nat.shiftLeft_eq]
  change mantissa.toNat * 2 ^ 1 % 2 ^ 32 = _
  omega

/-- The loop shifts until the first digit is in its place, and counts down with every turn. -/
theorem normalize_spec {turns : ℕ} {mantissa : UInt32} (hlt : mantissa.toNat < 2 ^ 11)
    (hturns : 2 ^ 10 ≤ mantissa.toNat * 2 ^ turns) (exponent : UInt32) :
    ∃ k ≤ turns, (normalize turns mantissa exponent).1.toNat = mantissa.toNat * 2 ^ k ∧
      2 ^ 10 ≤ mantissa.toNat * 2 ^ k ∧ mantissa.toNat * 2 ^ k < 2 ^ 11 ∧
      ((normalize turns mantissa exponent).2.toNat + k) % 2 ^ 32 = exponent.toNat := by
  induction turns generalizing mantissa exponent with
  | zero =>
    rw [pow_zero, Nat.mul_one] at hturns
    refine ⟨0, le_refl 0, ?_⟩
    rw [pow_zero, Nat.mul_one]
    exact ⟨rfl, hturns, hlt, Nat.mod_eq_of_lt exponent.toNat_lt⟩
  | succ turns ih =>
    unfold normalize
    by_cases hm : mantissa.toNat < 2 ^ 10
    · rw [if_pos ((and_digit_eq_zero hlt).mpr hm)]
      have hshift := toNat_shift hlt
      have hmul : ∀ k, (mantissa <<< 1).toNat * 2 ^ k = mantissa.toNat * 2 ^ (k + 1) := by
        intro k
        rw [hshift, pow_succ]
        ring
      obtain ⟨k, hk, hfst, hge, hle, hsnd⟩ :=
        ih (by omega) ((hmul turns).symm ▸ hturns) (exponent - 1)
      rw [hmul] at hfst hge hle
      refine ⟨k + 1, by omega, hfst, hge, hle, ?_⟩
      have hsub : (exponent - 1).toNat = (2 ^ 32 - 1 + exponent.toNat) % 2 ^ 32 :=
        UInt32.toNat_sub exponent 1
      have := exponent.toNat_lt
      omega
    · rw [if_neg (mt (and_digit_eq_zero hlt).mp hm)]
      refine ⟨0, Nat.zero_le _, ?_⟩
      rw [pow_zero, Nat.mul_one]
      exact ⟨rfl, not_lt.mp hm, hlt, Nat.mod_eq_of_lt exponent.toNat_lt⟩

theorem bias_half : half.bias = 15 := by
  unfold Format.bias half
  norm_num

theorem bias_single : single.bias = 127 := by
  unfold Format.bias single
  norm_num

theorem floatValue_assemble {sign exponent mantissa : UInt32} (hs : sign.toNat < 2)
    (h0 : 0 < (exponent + (127 - 15)).toNat) (hlt : (exponent + (127 - 15)).toNat < 255)
    (hm : mantissa.toNat < 1024) :
    floatValue (assemble sign exponent mantissa) = .finite (sign.toNat = 1)
      ((2 ^ 10 + mantissa.toNat) * 2 ^ ((exponent + (127 - 15)).toNat - 127 - 10 : ℤ)) := by
  have hdigits : single.fractionBits = 10 + 13 := rfl
  unfold assemble
  dsimp only
  rw [floatValue_fields hs (by omega) hm, Format.value_normal hdigits h0 hlt, bias_single]
  norm_num

/-- A special exponent, with whatever fraction. -/
theorem floatValue_special {sign mantissa : UInt32} (hs : sign.toNat < 2)
    (hm : mantissa.toNat < 1024) :
    floatValue ((sign <<< 31) ||| (0x7f800000 : UInt32) ||| (mantissa <<< 13)) =
      if mantissa.toNat = 0 then .infinity (sign.toNat = 1) else .nan := by
  have hspecial : (0x7f800000 : UInt32) = (255 : UInt32) <<< 23 := by decide
  rw [hspecial, floatValue_fields hs (by decide) hm]
  refine (Format.value_special (f := single) _ _).trans ?_
  exact if_congr (by omega) rfl rfl

theorem floatValue_zero {sign : UInt32} (hs : sign.toNat < 2) :
    floatValue (sign <<< 31) = .finite (sign.toNat = 1) 0 := by
  have hfields : sign <<< 31 =
      (sign <<< 31) ||| ((0 : UInt32) <<< 23) ||| ((0 : UInt32) <<< 13) := by
    rw [UInt32.zero_shiftLeft, UInt32.zero_shiftLeft, UInt32.or_zero, UInt32.or_zero]
  rw [hfields, floatValue_fields hs (by decide) (by decide)]
  refine (Format.value_subnormal (f := single) (by decide) _ _).trans ?_
  simp

/-- A subnormal half float has a first digit of its own in a float. -/
theorem floatValue_subnormal {sign mantissa : UInt32} (hs : sign.toNat < 2)
    (h0 : 0 < mantissa.toNat) (hm : mantissa.toNat < 1024) :
    floatValue (assemble sign ((normalize 10 mantissa 0).2 + 1)
      ((normalize 10 mantissa 0).1 &&& ~~~0x00000400)) =
      .finite (sign.toNat = 1) (mantissa.toNat * 2 ^ (-24 : ℤ)) := by
  have hturns : 2 ^ 10 ≤ mantissa.toNat * 2 ^ 10 := by omega
  obtain ⟨k, hk, hfst, hge, hlt, hsnd⟩ := normalize_spec (by omega) hturns 0
  generalize normalize 10 mantissa 0 = x at hfst hsnd ⊢
  change (x.2.toNat + k) % 2 ^ 32 = 0 at hsnd
  have hexp : (x.2 + 1 + (127 - 15)).toNat = 113 - k := by
    rw [UInt32.toNat_add, UInt32.toNat_add]
    change ((x.2.toNat + 1) % 2 ^ 32 + 112) % 2 ^ 32 = 113 - k
    have := x.2.toNat_lt
    omega
  rw [← hfst] at hge hlt
  have hman := toNat_and_not_digit hge hlt
  rw [floatValue_assemble hs (by omega) (by omega) (by omega), hexp, hman, hfst]
  rw [hfst] at hge
  congr 1
  have hpow : (2 : ℚ) ^ ((113 - k : ℕ) - 127 - 10 : ℤ) * 2 ^ k = 2 ^ (-24 : ℤ) := by
    rw [← zpow_natCast, ← zpow_add₀ two_ne_zero]
    congr 1
    omega
  rw [Nat.cast_sub hge, ← hpow]
  push_cast
  ring

/-- The half float and its float stand for the same. -/
theorem floatValue_halfToFloat (h : UInt16) : floatValue (halfToFloat h) = halfValue h := by
  have hsign : ((h.toUInt32 >>> 15) &&& 0x00000001).toNat = h.toNat / 2 ^ 15 % 2 := by
    rw [UInt32.toNat_and, UInt32.toNat_shiftRight, UInt16.toNat_toUInt32, Nat.shiftRight_eq_div_pow]
    change h.toNat / 2 ^ 15 &&& 2 ^ 1 - 1 = _
    rw [Nat.and_two_pow_sub_one_eq_mod]
  have hexp : ((h.toUInt32 >>> 10) &&& 0x0000001f).toNat = h.toNat / 2 ^ 10 % 2 ^ 5 := by
    rw [UInt32.toNat_and, UInt32.toNat_shiftRight, UInt16.toNat_toUInt32, Nat.shiftRight_eq_div_pow]
    change h.toNat / 2 ^ 10 &&& 2 ^ 5 - 1 = _
    rw [Nat.and_two_pow_sub_one_eq_mod]
  have hman : (h.toUInt32 &&& 0x000003ff).toNat = h.toNat % 2 ^ 10 := by
    rw [UInt32.toNat_and, UInt16.toNat_toUInt32]
    change h.toNat &&& 2 ^ 10 - 1 = _
    rw [Nat.and_two_pow_sub_one_eq_mod]
  unfold halfToFloat
  dsimp only
  generalize (h.toUInt32 >>> 15) &&& 0x00000001 = sign at hsign ⊢
  generalize (h.toUInt32 >>> 10) &&& 0x0000001f = exponent at hexp ⊢
  generalize h.toUInt32 &&& 0x000003ff = mantissa at hman ⊢
  have hs : sign.toNat < 2 := by omega
  have he : exponent.toNat < 32 := by omega
  have hm : mantissa.toNat < 1024 := by omega
  have hvalue : halfValue h = half.value ⟨sign.toNat = 1, exponent.toNat, mantissa.toNat⟩ := by
    rw [hsign, hexp, hman]
    rfl
  rw [hvalue]
  by_cases hsub : exponent = 0
  · rw [if_pos hsub, hsub]
    have hhalf := Format.value_subnormal (f := half) (by decide) (sign.toNat = 1) mantissa.toNat
    by_cases hz : mantissa = 0
    · have h0 : mantissa.toNat = 0 := congrArg UInt32.toNat hz
      rw [if_pos hz, floatValue_zero hs]
      refine Eq.trans ?_ hhalf.symm
      rw [h0, Nat.cast_zero, zero_mul]
    · have h0 : 0 < mantissa.toNat := Nat.pos_of_ne_zero fun h => hz (UInt32.toNat_inj.mp h)
      rw [if_neg hz, floatValue_subnormal hs h0 hm]
      refine Eq.symm (hhalf.trans ?_)
      rw [bias_half]
      norm_num [half]
  · have h0 : 0 < exponent.toNat := Nat.pos_of_ne_zero fun h => hsub (UInt32.toNat_inj.mp h)
    rw [if_neg hsub]
    by_cases hspecial : exponent = 31
    · have hhalf := Format.value_special (f := half) (sign.toNat = 1) mantissa.toNat
      rw [if_pos hspecial, hspecial]
      refine Eq.trans ?_ hhalf.symm
      by_cases hz : mantissa = 0
      · have hfields : (sign <<< 31) ||| (0x7f800000 : UInt32) =
            (sign <<< 31) ||| (0x7f800000 : UInt32) ||| (mantissa <<< 13) := by
          rw [hz, UInt32.zero_shiftLeft, UInt32.or_zero]
        rw [if_pos hz, hfields, floatValue_special hs hm]
      · rw [if_neg hz, floatValue_special hs hm]
    · have hne : exponent.toNat ≠ 31 := fun h => hspecial (UInt32.toNat_inj.mp h)
      have hlt : exponent.toNat < 31 := by omega
      have hdigits : half.fractionBits = 10 + 0 := rfl
      have hhalf := Format.value_normal hdigits h0 hlt (sign.toNat = 1) mantissa.toNat
      have hadd : (exponent + (127 - 15)).toNat = exponent.toNat + 112 := by
        rw [UInt32.toNat_add]
        change (exponent.toNat + 112) % 2 ^ 32 = _
        omega
      rw [if_neg hspecial, floatValue_assemble hs (by omega) (by omega) hm, hadd]
      rw [pow_zero, Nat.mul_one, bias_half] at hhalf
      rw [hhalf]
      congr 3
      push_cast
      ring

end Values

section Decoding

/-- Vectors of floats come back as they were. -/
theorem decode_floatsToBlob (v : List UInt32) : decode (floatsToBlob v) = v := by
  have hlen : (floatsToBlob v).length = v.length * 4 := by
    unfold floatsToBlob
    rw [length_flatMap_wordBytes, List.length_map]
  have hcount : (((v.length * 4 : ℕ) : ℤ) / 4).toNat = (v.map UInt32.toNat).length := by
    rw [List.length_map]
    omega
  unfold decode blobToFloats
  dsimp only
  by_cases hv : v = []
  · rw [hv]
    rfl
  · have hpos : 0 < v.length := List.length_pos_iff.mpr hv
    rw [hlen, if_neg (by omega), if_pos (by omega), hcount]
    unfold floatsToBlob
    rw [words_flatMap, List.map_map]
    · refine (List.map_congr_left fun w _ => ?_).trans (List.map_id v)
      exact UInt32.ofNat_toNat
    · intro n hn
      obtain ⟨w, -, rfl⟩ := List.mem_map.mp hn
      exact w.toNat_lt

theorem length_halvesToBlob (v : List UInt16) : (halvesToBlob v).length = v.length * 2 := by
  unfold halvesToBlob
  rw [length_flatMap_wordBytes, List.length_map]

/-- An odd number of half floats is not a whole number of floats. -/
theorem decode_halves_odd {v : List UInt16} (h : v.length % 2 = 1) :
    decode (halvesToBlob v) = v.map halfToFloat := by
  have hcount : (((v.length * 2 : ℕ) : ℤ) / 2).toNat = (v.map UInt16.toNat).length := by
    rw [List.length_map]
    omega
  unfold decode blobToFloats
  dsimp only
  rw [length_halvesToBlob, if_neg (by omega), if_neg (by omega), if_pos (by omega), hcount]
  unfold halvesToBlob
  rw [words_flatMap, List.map_map]
  · refine List.map_congr_left fun w _ => ?_
    exact congrArg halfToFloat UInt16.ofNat_toNat
  · intro n hn
    obtain ⟨w, -, rfl⟩ := List.mem_map.mp hn
    exact w.toNat_lt

/-- An even number of half floats is taken for half as many floats. -/
theorem length_decode_halves {v : List UInt16} (h : v.length % 2 = 0) :
    (decode (halvesToBlob v)).length = v.length / 2 := by
  unfold decode blobToFloats
  dsimp only
  rw [length_halvesToBlob]
  split_ifs with h0 h4
  · rw [List.length_nil]
    omega
  · rw [List.length_map, length_words]
    omega
  · omega
  · omega

/-- Floats are decoded as they were stored, half floats exactly if their number is odd. -/
theorem decode_iff (floats : List UInt32) (v : List UInt16) (hv : v ≠ []) :
    decode (floatsToBlob floats) = floats ∧
      ((decode (halvesToBlob v)).map floatValue = v.map halfValue ↔ v.length % 2 = 1) := by
  refine ⟨decode_floatsToBlob floats, fun h => ?_, fun h => ?_⟩
  · have hpos : 0 < v.length := List.length_pos_iff.mpr hv
    by_contra hodd
    have hlen := congrArg List.length h
    rw [List.length_map, List.length_map, length_decode_halves (by omega)] at hlen
    omega
  · rw [decode_halves_odd h, List.map_map]
    exact List.map_congr_left fun w _ => floatValue_halfToFloat w

end Decoding

namespace Counterexample

/-- Two ones, as half floats. -/
def ones : List UInt16 := [0x3C00, 0x3C00]

/-- Their blob is read as one float. -/
theorem ones_misread :
    decode (halvesToBlob ones) = [0x3C003C00] ∧
      (decode (halvesToBlob ones)).map floatValue ≠ ones.map halfValue := by
  have hdecode : decode (halvesToBlob ones) = [0x3C003C00] := by decide
  refine ⟨hdecode, fun h => ?_⟩
  have hlen := congrArg List.length h
  rw [hdecode] at hlen
  exact absurd hlen (by decide)

theorem three_decoded :
    decode (floatsToBlob [0x3F800000, 0, 0]) = [0x3F800000, 0, 0] ∧
      (decode (halvesToBlob [0x3C00, 0x0001, 0xFC00])).map floatValue =
        [0x3C00, 0x0001, 0xFC00].map halfValue := by
  obtain ⟨hfloats, hhalves⟩ :=
    decode_iff [0x3F800000, 0, 0] [0x3C00, 0x0001, 0xFC00] (by decide)
  exact ⟨hfloats, hhalves.mpr (by decide)⟩

end Counterexample

end EmbeddingBlobs
