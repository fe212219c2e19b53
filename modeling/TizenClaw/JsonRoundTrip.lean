import TizenClaw.JsonParse

/-! Parsing what the serializer writes, in any layout made of whitespace, gives back the value. -/
namespace JsonRoundTrip

open ByteString JsonValue JsonParse JsonDump

section Literals

theorem bytes_null : bytes "null" = [0x6E, 0x75, 0x6C, 0x6C] := by decide
theorem bytes_true : bytes "true" = [0x74, 0x72, 0x75, 0x65] := by decide
theorem bytes_false : bytes "false" = [0x66, 0x61, 0x6C, 0x73, 0x65] := by decide
theorem bytes_brackets : bytes "[]" = [0x5B, 0x5D] := by decide
theorem bytes_braces : bytes "\x7b\x7d" = [0x7B, 0x7D] := by decide

end Literals

theorem hexValue_hexDigit : ∀ n < 16, hexValue (hexDigit n) = some n := by decide

theorem readString_shortEscape {b c : UInt8} (he : escapeByte b = [0x5C, c])
    (hc : unescape c = some b) (hu : c ≠ 0x75) (t : Bytes) :
    readString (.text []) (escapeByte b ++ t) =
      (readString (.text []) t).map fun y => (b :: y.1, y.2) := by
  rw [he]
  simp [readString, stringStep, hc, hu]
  rfl

/-- A byte of a string, escaped or not, is read back as itself. -/
theorem readString_escapeByte {p q : List Utf8.Range} {b : UInt8} (hp : Utf8.Tails p)
    (h : Utf8.step p b = some q) (t : Bytes) :
    readString (.text p) (escapeByte b ++ t) =
      (readString (.text q) t).map fun y => (b :: y.1, y.2) := by
  have plain : ¬ (StringMode.text p = .text [] ∧ b = 0x22) → ¬ b < 0x20 →
      ¬ (p = [] ∧ b = 0x5C) → readString (.text p) (b :: t) =
        (readString (.text q) t).map fun y => (b :: y.1, y.2) := by
    intro h1 h2 h3
    rw [readString, if_neg h1, stringStep, if_neg h2, if_neg h3, h]
    rfl
  cases p with
  | cons r p =>
    have hb : 0x80 ≤ b := by
      simp only [Utf8.step] at h
      split_ifs at h with hr
      exact UInt8.le_trans (hp r (by simp)) hr.1
    rw [escapeByte_high hb]
    refine plain (by simp) ?_ (by simp)
    rw [UInt8.le_iff_toNat_le] at hb
    rw [UInt8.lt_iff_toNat_lt]
    simp only [UInt8.reduceToNat] at *
    omega
  | nil =>
    by_cases hesc : b ≤ 0x7F
    · obtain rfl : [] = q := Option.some.inj ((Utf8.step_ascii hesc).symm.trans h)
      by_cases hctl : b = 0x08 ∨ b = 0x09 ∨ b = 0x0A ∨ b = 0x0C ∨ b = 0x0D ∨ b = 0x22 ∨ b = 0x5C
      · rcases hctl with rfl | rfl | rfl | rfl | rfl | rfl | rfl
        · exact readString_shortEscape (c := 0x62) (by decide) (by decide) (by decide) t
        · exact readString_shortEscape (c := 0x74) (by decide) (by decide) (by decide) t
        · exact readString_shortEscape (c := 0x6E) (by decide) (by decide) (by decide) t
        · exact readString_shortEscape (c := 0x66) (by decide) (by decide) (by decide) t
        · exact readString_shortEscape (c := 0x72) (by decide) (by decide) (by decide) t
        · exact readString_shortEscape (c := 0x22) (by decide) (by decide) (by decide) t
        · exact readString_shortEscape (c := 0x5C) (by decide) (by decide) (by decide) t
      · simp only [not_or] at hctl
        obtain ⟨h1, h2, h3, h4, h5, h6, h7⟩ := hctl
        by_cases hlow : b ≤ 0x1F
        · have hn : b.toNat ≤ 31 := by simpa [UInt8.le_iff_toNat_le] using hlow
          have he : escapeByte b =
              [0x5C, 0x75, 0x30, 0x30, hexDigit (b.toNat / 16), hexDigit (b.toNat % 16)] := by
            rw [escapeByte, if_neg h1, if_neg h2, if_neg h3, if_neg h4, if_neg h5, if_neg h6,
              if_neg h7, if_pos hlow, show bytes "\\u00" = [0x5C, 0x75, 0x30, 0x30] by decide]
            rfl
          have hv : 16 * (b.toNat / 16) + b.toNat % 16 = b.toNat := by omega
          have h0 : hexValue 0x30 = some 0 := by decide
          have hf : finishHex none b.toNat = some (.text [], [b]) := by
            simp [finishHex, encodeUtf8, show ¬ 55296 ≤ b.toNat by omega,
              show ¬ 56320 ≤ b.toNat by omega, show b.toNat < 128 by omega]
          rw [he]
          simp [readString, stringStep, h0, hexValue_hexDigit (b.toNat / 16) (by omega),
            hexValue_hexDigit (b.toNat % 16) (by omega), hv, hf]
          rfl
        · have he : escapeByte b = [b] := by
            simp [escapeByte, h1, h2, h3, h4, h5, h6, h7, hlow]
          rw [he]
          refine plain (by simp [h6]) ?_ (by simp [h7])
          rw [UInt8.le_iff_toNat_le] at hlow
          rw [UInt8.lt_iff_toNat_lt]
          simp only [UInt8.reduceToNat] at *
          omega
    · have hb : 0x80 ≤ b := by
        rw [UInt8.le_iff_toNat_le] at hesc ⊢
        simp only [UInt8.reduceToNat] at *
        omega
      rw [escapeByte_high hb]
      rw [UInt8.le_iff_toNat_le] at hb
      simp only [UInt8.reduceToNat] at hb
      refine plain ?_ ?_ ?_
      · rintro ⟨-, rfl⟩
        simp at hb
      · rw [UInt8.lt_iff_toNat_lt]
        simp only [UInt8.reduceToNat]
        omega
      · rintro ⟨-, rfl⟩
        simp at hb

theorem readString_quoted {p : List Utf8.Range} {s : Bytes} (hp : Utf8.Tails p)
    (h : Utf8.run p s = some []) (r : Bytes) :
    readString (.text p) (s.flatMap escapeByte ++ 0x22 :: r) = some (s, r) := by
  induction s generalizing p with
  | nil =>
    obtain rfl : p = [] := Option.some.inj h
    rfl
  | cons b s ih =>
    rw [Utf8.run_cons] at h
    obtain ⟨q, hq, hs⟩ := Option.bind_eq_some_iff.mp h
    rw [List.flatMap_cons, List.append_assoc, readString_escapeByte hp hq,
      ih (Utf8.step_tails hp hq) hs]
    rfl

theorem readString_quote {s : Bytes} (h : Utf8.valid s = true) (r : Bytes) :
    readString (.text []) ((quote s).tail ++ r) = some (s, r) := by
  have := readString_quoted (p := []) (by simp [Utf8.Tails]) ((Utf8.valid_iff s).mp h) r
  simpa [quote] using this

theorem digit_toNat : ∀ d < 10, (UInt8.ofNat (48 + d)).toNat - 48 = d := by decide

theorem digit_isDigit : ∀ d < 10, isDigit (UInt8.ofNat (48 + d)) = true := by decide

theorem decimal_digits (n : ℕ) : ∀ b ∈ decimal n, isDigit b = true := by
  intro b hb
  unfold decimal at hb
  split_ifs at hb with hn
  · obtain rfl := List.mem_singleton.mp hb
    decide
  · obtain ⟨d, hd, rfl⟩ := List.mem_map.mp hb
    exact digit_isDigit d (Nat.digits_lt_base (by decide) (List.mem_reverse.mp hd))

theorem decimal_ne_nil (n : ℕ) : decimal n ≠ [] := by
  unfold decimal
  split_ifs with hn
  · simp
  · simpa using Nat.digits_ne_nil_iff_ne_zero.mpr hn

theorem digitsValue_decimal (n : ℕ) : digitsValue (decimal n) = n := by
  unfold digitsValue decimal
  split_ifs with hn
  · subst n
    decide
  · have h : ((((Nat.digits 10 n).reverse.map fun d => UInt8.ofNat (48 + d)).reverse).map
        fun b => b.toNat - 48) = Nat.digits 10 n := by
      rw [← List.map_reverse, List.reverse_reverse, List.map_map]
      conv_rhs => rw [← List.map_id (Nat.digits 10 n)]
      exact List.map_congr_left fun d hd => digit_toNat d (Nat.digits_lt_base (by decide) hd)
    rw [h, Nat.ofDigits_digits]

/-- No leading zero: the most significant digit of a positive number is not 0. -/
theorem decimal_head {n : ℕ} (h : (decimal n).head? = some 0x30) : decimal n = [0x30] := by
  unfold decimal at h ⊢
  split_ifs with hn
  · rfl
  · exfalso
    rw [if_neg hn, List.head?_map, List.head?_reverse] at h
    have hne : Nat.digits 10 n ≠ [] := Nat.digits_ne_nil_iff_ne_zero.mpr hn
    rw [List.getLast?_eq_some_getLast hne] at h
    have hz := Nat.getLast_digit_ne_zero 10 hn
    have hlt : (Nat.digits 10 n).getLast hne < 10 :=
      Nat.digits_lt_base (by decide) (List.getLast_mem hne)
    have heq : UInt8.ofNat (48 + (Nat.digits 10 n).getLast hne) = 0x30 := Option.some.inj h
    have := digit_toNat _ hlt
    rw [heq] at this
    exact hz (by simpa using this.symm)

theorem takeWhile_all {p : UInt8 → Bool} {s : Bytes} (h : ∀ b ∈ s, p b = true) :
    s.takeWhile p = s := List.takeWhile_eq_self_iff.mpr h

theorem dropWhile_all {p : UInt8 → Bool} {s : Bytes} (h : ∀ b ∈ s, p b = true) :
    s.dropWhile p = [] := List.dropWhile_eq_nil_iff.mpr h

theorem isDigit_ne {b c : UInt8} (h : isDigit b = true) (hc : isDigit c = false) : b ≠ c := by
  rintro rfl
  simp [hc] at h

theorem numberKind_digits {ds : Bytes} (hd : ∀ b ∈ ds, isDigit b = true) (hne : ds ≠ [])
    (hz : ds.head? = some 0x30 → ds = [0x30]) (neg : Bool) :
    numberKind (if neg then 0x2D :: ds else ds) = some false := by
  have hu : dropSign (· = 0x2D) (if neg then 0x2D :: ds else ds) = ds := by
    cases neg with
    | true => simp [dropSign]
    | false =>
      cases ds with
      | nil => exact absurd rfl hne
      | cons c u =>
        have : c ≠ 0x2D := isDigit_ne (hd c (by simp)) (by decide)
        simp [dropSign, this]
  unfold numberKind
  simp only [hu, takeWhile_all hd, dropWhile_all hd]
  rw [if_neg]
  rintro (h | ⟨h1, h2⟩)
  · exact hne h
  · exact h2 (hz h1)

theorem numberKind_decimalInt (i : ℤ) : numberKind (decimalInt i) = some false := by
  have h := numberKind_digits (decimal_digits i.natAbs) (decimal_ne_nil _) decimal_head
    (decide (i < 0))
  simpa [decimalInt] using h

theorem integerValue_decimalInt (i : ℤ) : integerValue (decimalInt i) = i := by
  unfold decimalInt
  split_ifs with h
  · simp only [integerValue, digitsValue_decimal]
    rw [if_pos trivial]
    omega
  · cases hd : decimal i.natAbs with
    | nil => exact absurd hd (decimal_ne_nil _)
    | cons c t =>
      have hc : c ≠ 0x2D :=
        isDigit_ne (decimal_digits i.natAbs c (by simp [hd])) (by decide)
      simp only [integerValue, hc, ↓reduceIte]
      rw [← hd, digitsValue_decimal]
      omega

theorem decimalInt_numberChars (i : ℤ) : ∀ b ∈ decimalInt i, isNumberChar b = true := by
  have hd : ∀ b ∈ decimal i.natAbs, isNumberChar b = true := fun b hb => by
    simp [isNumberChar, decimal_digits _ b hb]
  intro b hb
  unfold decimalInt at hb
  split_ifs at hb
  · rcases List.mem_cons.mp hb with rfl | hb
    · decide
    · exact hd b hb
  · exact hd b hb

theorem underscore_not_mem (i : ℤ) : (0x5F : UInt8) ∉ decimalInt i := by
  intro h
  exact absurd (decimalInt_numberChars i _ h) (by decide)

theorem decimalInt_ne_nil (i : ℤ) : decimalInt i ≠ [] := by
  unfold decimalInt
  split_ifs
  · simp
  · exact decimal_ne_nil _

abbrev White (w : Bytes) : Prop := ∀ b ∈ w, isWhitespace b = true

/-- A number ends where the text ends or with a byte that no number has. -/
abbrev Delimited (r : Bytes) : Prop := ∀ b ∈ r.head?, isNumberChar b = false

theorem skipWhitespace_white {w : Bytes} (hw : White w) (s : Bytes) :
    skipWhitespace (w ++ s) = skipWhitespace s :=
  List.dropWhile_append_of_pos hw

theorem white_nil : White [] := by simp [White]
theorem white_singleton {b : UInt8} (h : isWhitespace b = true) : White [b] := by simpa [White]

theorem skipWhitespace_head {c : UInt8} (h : isWhitespace c = false) (s : Bytes) :
    skipWhitespace (c :: s) = c :: s := by simp [skipWhitespace, h]

theorem delimited_white {w : Bytes} (hw : White w) {s : Bytes} (hs : Delimited s) :
    Delimited (w ++ s) := by
  cases w with
  | nil => exact hs
  | cons b w =>
    intro c hc
    obtain rfl : b = c := by simpa using hc
    have hb := hw b (by simp)
    simp only [isWhitespace, Bool.decide_or, Bool.or_eq_true, decide_eq_true_eq] at hb
    rcases hb with rfl | rfl | rfl | rfl <;> decide

theorem delimited_nil : Delimited [] := by simp [Delimited]

theorem delimited_cons {c : UInt8} (h : isNumberChar c = false) (s : Bytes) :
    Delimited (c :: s) := by
  intro b hb
  obtain rfl : c = b := by simpa using hb
  exact h

section Storable

variable (readFloat : Bytes → Option NumberText)

/-- A float as the serializer writes it, which the reader of numbers gives back. -/
structure FloatText (t : NumberText) : Prop where
  kind : numberKind t.1 = some true
  read : readFloat t.1 = some t

mutual

/-- The values the parser can build. -/
def Storable : Json → Prop
  | .null => True
  | .bool _ => True
  | .int i => InRange i
  | .float t => FloatText readFloat t
  | .str s => Utf8.valid s = true
  | .arr l => StorableList l
  | .obj m => KeysSorted m ∧ StorableMembers m

def StorableList : List Json → Prop
  | [] => True
  | x :: xs => Storable x ∧ StorableList xs

def StorableMembers : List (Bytes × Json) → Prop
  | [] => True
  | (k, x) :: m => Utf8.valid k = true ∧ Storable x ∧ StorableMembers m

end

mutual

theorem Storable.utf8 : ∀ {j : Json}, Storable readFloat j → j.utf8 = true
  | .null, _ | .bool _, _ | .int _, _ | .float _, _ => rfl
  | .str _, h => by simpa [Storable, Json.utf8] using h
  | .arr _, h => by
    rw [Storable] at h
    rw [Json.utf8]
    exact StorableList.utf8 h
  | .obj _, h => by
    rw [Storable] at h
    rw [Json.utf8]
    exact StorableMembers.utf8 h.2

theorem StorableList.utf8 : ∀ {l : List Json}, StorableList readFloat l → utf8List l = true
  | [], _ => rfl
  | _ :: _, h => by
    rw [StorableList] at h
    rw [utf8List, Storable.utf8 h.1, StorableList.utf8 h.2]
    rfl

theorem StorableMembers.utf8 :
    ∀ {m : List (Bytes × Json)}, StorableMembers readFloat m → utf8Members m = true
  | [], _ => rfl
  | (_, _) :: _, h => by
    rw [StorableMembers] at h
    rw [utf8Members, h.1, Storable.utf8 h.2.1, StorableMembers.utf8 h.2.2]
    rfl

end

mutual

/-- The values that can be read where they are written, with members in any order. -/
def Writable : Json → Prop
  | .null => True
  | .bool _ => True
  | .int i => InRange i
  | .float t => FloatText readFloat t
  | .str s => Utf8.valid s = true
  | .arr l => WritableList l
  | .obj m => WritableMembers m

def WritableList : List Json → Prop
  | [] => True
  | x :: xs => Writable x ∧ WritableList xs

def WritableMembers : List (Bytes × Json) → Prop
  | [] => True
  | (k, x) :: m => Utf8.valid k = true ∧ Writable x ∧ WritableMembers m

end

mutual

/-- A value with its members as the parser keeps them. -/
def kept : Json → Json
  | .null => .null
  | .bool b => .bool b
  | .int i => .int i
  | .float t => .float t
  | .str s => .str s
  | .arr l => .arr (keptList l)
  | .obj m => .object (keptMembers m)

def keptList : List Json → List Json
  | [] => []
  | x :: xs => kept x :: keptList xs

def keptMembers : List (Bytes × Json) → List (Bytes × Json)
  | [] => []
  | (k, x) :: m => (k, kept x) :: keptMembers m

end

mutual

theorem Storable.writable : ∀ {j : Json}, Storable readFloat j → Writable readFloat j ∧ kept j = j
  | .null, _ | .bool _, _ => ⟨trivial, rfl⟩
  | .int _, h | .float _, h | .str _, h => by
    rw [Storable] at h
    exact ⟨h, rfl⟩
  | .arr _, h => by
    rw [Storable] at h
    obtain ⟨hw, hk⟩ := StorableList.writable h
    rw [Writable, kept, hk]
    exact ⟨hw, rfl⟩
  | .obj m, h => by
    rw [Storable] at h
    obtain ⟨hw, hk⟩ := StorableMembers.writable h.2
    rw [Writable, kept, hk, Json.object, ofMembers_sorted h.1]
    exact ⟨hw, rfl⟩

theorem StorableList.writable :
    ∀ {l : List Json}, StorableList readFloat l → WritableList readFloat l ∧ keptList l = l
  | [], _ => ⟨trivial, rfl⟩
  | _ :: _, h => by
    rw [StorableList] at h
    obtain ⟨hx, hkx⟩ := Storable.writable h.1
    obtain ⟨hl, hkl⟩ := StorableList.writable h.2
    rw [WritableList, keptList, hkx, hkl]
    exact ⟨⟨hx, hl⟩, rfl⟩

theorem StorableMembers.writable : ∀ {m : List (Bytes × Json)},
    StorableMembers readFloat m → WritableMembers readFloat m ∧ keptMembers m = m
  | [], _ => ⟨trivial, rfl⟩
  | (_, _) :: _, h => by
    rw [StorableMembers] at h
    obtain ⟨hx, hkx⟩ := Storable.writable h.2.1
    obtain ⟨hm, hkm⟩ := StorableMembers.writable h.2.2
    rw [WritableMembers, keptMembers, hkx, hkm]
    exact ⟨⟨h.1, hx, hm⟩, rfl⟩

end

mutual

/-- The fuel a value takes. -/
def size : Json → ℕ
  | .arr l => sizeList l + 1
  | .obj m => sizeMembers m + 1
  | _ => 1

def sizeList : List Json → ℕ
  | [] => 0
  | x :: xs => size x + sizeList xs + 1

def sizeMembers : List (Bytes × Json) → ℕ
  | [] => 0
  | (_, x) :: m => size x + sizeMembers m + 1

end

variable {readFloat}

theorem FloatText.ne_nil {t : NumberText} (h : FloatText readFloat t) : t.1 ≠ [] := by
  intro ht
  have hk := h.kind
  rw [ht] at hk
  exact absurd hk (by decide)

variable (lay : Layout)

mutual

theorem size_le_render : ∀ (j : Json) (level : ℕ), Writable readFloat j →
    size j ≤ (render id lay level j).length
  | .null, _, _ => by simp [size, render, bytes_null]
  | .bool true, _, _ => by simp [size, render, bytes_true]
  | .bool false, _, _ => by simp [size, render, bytes_false]
  | .int i, _, _ => by
    simp only [size, render]
    exact List.length_pos_iff.mpr (decimalInt_ne_nil i)
  | .float t, _, h => by
    rw [Writable] at h
    simp only [size, render]
    exact List.length_pos_iff.mpr h.ne_nil
  | .str s, _, _ => by simp [size, render, quote]
  | .arr [], _, _ => by simp [size, sizeList, render, bytes_brackets]
  | .arr (x :: xs), level, h => by
    rw [Writable, WritableList] at h
    have hx := size_le_render x (level + 1) h.1
    have hxs := sizeList_le_render xs (level + 1) h.2
    simp only [size, sizeList, render, List.length_cons, List.length_append, List.length_nil]
    omega
  | .obj [], _, _ => by simp [size, sizeMembers, render, bytes_braces]
  | .obj ((k, x) :: m), level, h => by
    rw [Writable, WritableMembers] at h
    have hx := size_le_render x (level + 1) h.2.1
    have hm := sizeMembers_le_render m (level + 1) h.2.2
    simp only [size, sizeMembers, render, List.length_cons, List.length_append, List.length_nil]
    omega

theorem sizeList_le_render : ∀ (l : List Json) (level : ℕ), WritableList readFloat l →
    sizeList l ≤ (renderElements id lay level l).length
  | [], _, _ => by simp [sizeList]
  | x :: xs, level, h => by
    rw [WritableList] at h
    have hx := size_le_render x level h.1
    have hxs := sizeList_le_render xs level h.2
    simp only [sizeList, renderElements, List.length_cons, List.length_append]
    omega

theorem sizeMembers_le_render : ∀ (m : List (Bytes × Json)) (level : ℕ),
    WritableMembers readFloat m → sizeMembers m ≤ (renderMembers id lay level m).length
  | [], _, _ => by simp [sizeMembers]
  | (k, x) :: m, level, h => by
    rw [WritableMembers] at h
    have hx := size_le_render x level h.2.1
    have hm := sizeMembers_le_render m level h.2.2
    simp only [sizeMembers, renderMembers, List.length_cons, List.length_append]
    omega

end

theorem number_head {c : UInt8} (h : isNumberChar c = true) :
    isWhitespace c = false ∧ c ≠ 0x22 ∧ c ≠ 0x5B ∧ c ≠ 0x5D ∧ c ≠ 0x7B ∧ c ≠ 0x7D ∧ c ≠ 0xEF ∧
      c ≠ 0x6E ∧ c ≠ 0x74 ∧ c ≠ 0x66 := by
  refine ⟨?_, ?_, ?_, ?_, ?_, ?_, ?_, ?_, ?_, ?_⟩
  · by_contra hw
    simp only [isWhitespace, Bool.decide_or, Bool.not_eq_false, Bool.or_eq_true,
      decide_eq_true_eq] at hw
    rcases hw with rfl | rfl | rfl | rfl <;> exact absurd h (by decide)
  all_goals
    rintro rfl
    exact absurd h (by decide)

theorem parseScalar_number {t r : Bytes} (hc : ∀ b ∈ t, isNumberChar b = true) (hne : t ≠ [])
    (hr : Delimited r) :
    parseScalar readFloat (t ++ r) = (numberOf readFloat t).map fun j => (j, r) := by
  have htake : (t ++ r).takeWhile isNumberChar = t := by
    rw [List.takeWhile_append_of_pos hc]
    cases r with
    | nil => simp
    | cons b r => simp [hr b (by simp)]
  have hdrop : (t ++ r).dropWhile isNumberChar = r := by
    rw [List.dropWhile_append_of_pos hc]
    cases r with
    | nil => simp
    | cons b r => simp [hr b (by simp)]
  cases t with
  | nil => exact absurd rfl hne
  | cons c t =>
    obtain ⟨-, -, -, -, -, -, -, hn, ht, hf⟩ := number_head (hc c (by simp))
    unfold parseScalar
    rw [htake, hdrop, bytes_null, bytes_true, bytes_false]
    simp [List.isPrefixOf, Ne.symm hn, Ne.symm ht, Ne.symm hf]

theorem parseValue_number {t r w : Bytes} {j : Json} {n : ℕ} (hw : White w)
    (hc : ∀ b ∈ t, isNumberChar b = true) (hne : t ≠ []) (hr : Delimited r)
    (hj : numberOf readFloat t = some j) :
    parseValue readFloat (n + 1) (w ++ (t ++ r)) = some (j, r) := by
  have hs : parseScalar readFloat (t ++ r) = (numberOf readFloat t).map fun j => (j, r) :=
    parseScalar_number hc hne hr
  cases t with
  | nil => exact absurd rfl hne
  | cons c t =>
    obtain ⟨hws, hq, ha, -, ho, -⟩ := number_head (hc c (by simp))
    rw [List.cons_append] at hs ⊢
    simp only [parseValue, skipWhitespace_white hw, skipWhitespace_head hws, ha, ho, hq,
      ↓reduceIte, hs, hj]
    rfl

/-- A byte that a value can start with: it is not skipped, is no byte order mark, closes no
container and is neither a backtick nor a number sign. -/
abbrev Opens (c : UInt8) : Prop :=
  isWhitespace c = false ∧ c ≠ 0x5D ∧ c ≠ 0x7D ∧ c ≠ 0xEF ∧ c ≠ 0x60 ∧ c ≠ 0x23

theorem number_opens {t : Bytes} (hne : t ≠ []) (hc : ∀ b ∈ t, isNumberChar b = true) :
    ∃ c u, t = c :: u ∧ Opens c := by
  cases t with
  | nil => exact absurd rfl hne
  | cons c t =>
    have hn := hc c (by simp)
    obtain ⟨hw, -, -, ha, -, ho, hb, -⟩ := number_head hn
    refine ⟨c, t, rfl, hw, ha, ho, hb, ?_, ?_⟩
    all_goals
      rintro rfl
      exact absurd hn (by decide)

theorem render_head (j : Json) (level : ℕ) (h : Writable readFloat j) :
    ∃ c t, render id lay level j = c :: t ∧ Opens c := by
  cases j with
  | null => exact ⟨0x6E, [0x75, 0x6C, 0x6C], by rw [render]; decide, by decide⟩
  | bool b =>
    cases b with
    | true => exact ⟨0x74, [0x72, 0x75, 0x65], by rw [render]; decide, by decide⟩
    | false => exact ⟨0x66, [0x61, 0x6C, 0x73, 0x65], by rw [render]; decide, by decide⟩
  | int i =>
    rw [render]
    exact number_opens (decimalInt_ne_nil i) (decimalInt_numberChars i)
  | float t =>
    rw [Writable] at h
    rw [render]
    exact number_opens h.ne_nil t.2
  | str s => exact ⟨0x22, _, by rw [render, quote], by decide⟩
  | arr l =>
    cases l with
    | nil => exact ⟨0x5B, [0x5D], by rw [render]; decide, by decide⟩
    | cons x xs => exact ⟨0x5B, _, by rw [render], by decide⟩
  | obj m =>
    cases m with
    | nil => exact ⟨0x7B, [0x7D], by rw [render]; decide, by decide⟩
    | cons x xs => exact ⟨0x7B, _, by rw [render], by decide⟩

/-- Layouts that add nothing but whitespace. -/
structure WhiteLayout : Prop where
  newline : ∀ n, White (lay.newline n)
  colon : ∃ w, lay.colon = 0x3A :: w ∧ White w

theorem whiteLayout_compact : WhiteLayout compact :=
  ⟨fun _ => white_nil, [], show bytes ":" = _ by decide, white_nil⟩

theorem whiteLayout_indented (step : ℕ) : WhiteLayout (indented step) := by
  refine ⟨fun n b hb => ?_, [0x20], show bytes ": " = _ by decide, white_singleton (by decide)⟩
  rcases List.mem_cons.mp hb with rfl | hb
  · decide
  · rw [(List.mem_replicate.mp hb).2]
    decide

variable {lay}

mutual

theorem parseValue_render (hl : WhiteLayout lay) : ∀ (j : Json) (level n : ℕ) {w r : Bytes},
    Writable readFloat j → White w → Delimited r → size j ≤ n →
      parseValue readFloat n (w ++ (render id lay level j ++ r)) = some (kept j, r)
  | .null, level, n, w, r, _, hw, _, hn => by
    obtain ⟨n, rfl⟩ : ∃ m, n = m + 1 := ⟨n - 1, by simp only [size] at hn; omega⟩
    simp only [parseValue, skipWhitespace_white hw, render, bytes_null, List.cons_append,
      List.nil_append, skipWhitespace_head (show isWhitespace 0x6E = false by decide)]
    simp [parseScalar, bytes_null, kept]
  | .bool true, level, n, w, r, _, hw, _, hn => by
    obtain ⟨n, rfl⟩ : ∃ m, n = m + 1 := ⟨n - 1, by simp only [size] at hn; omega⟩
    simp only [parseValue, skipWhitespace_white hw, render, bytes_true, List.cons_append,
      List.nil_append, skipWhitespace_head (show isWhitespace 0x74 = false by decide)]
    simp [parseScalar, bytes_null, bytes_true, kept]
  | .bool false, level, n, w, r, _, hw, _, hn => by
    obtain ⟨n, rfl⟩ : ∃ m, n = m + 1 := ⟨n - 1, by simp only [size] at hn; omega⟩
    simp only [parseValue, skipWhitespace_white hw, render, bytes_false, List.cons_append,
      List.nil_append, skipWhitespace_head (show isWhitespace 0x66 = false by decide)]
    simp [parseScalar, bytes_null, bytes_true, bytes_false, kept]
  | .int i, level, n, w, r, h, hw, hr, hn => by
    obtain ⟨n, rfl⟩ : ∃ m, n = m + 1 := ⟨n - 1, by simp only [size] at hn; omega⟩
    rw [Writable] at h
    rw [render, kept]
    refine parseValue_number hw (decimalInt_numberChars i) (decimalInt_ne_nil i) hr ?_
    simp only [numberOf, numberKind_decimalInt, integerValue_decimalInt, if_pos h]
  | .float t, level, n, w, r, h, hw, hr, hn => by
    obtain ⟨n, rfl⟩ : ∃ m, n = m + 1 := ⟨n - 1, by simp only [size] at hn; omega⟩
    rw [Writable] at h
    rw [render, kept]
    refine parseValue_number hw t.2 h.ne_nil hr ?_
    simp only [numberOf, h.kind, h.read, Option.map_some]
  | .str s, level, n, w, r, h, hw, _, hn => by
    obtain ⟨n, rfl⟩ : ∃ m, n = m + 1 := ⟨n - 1, by simp only [size] at hn; omega⟩
    rw [Writable] at h
    have hq : render id lay level (.str s) = 0x22 :: (quote s).tail := by
      rw [render, quote]
      rfl
    simp only [parseValue, skipWhitespace_white hw, hq, List.cons_append,
      skipWhitespace_head (show isWhitespace 0x22 = false by decide), readString_quote h]
    rfl
  | .arr [], level, n, w, r, _, hw, _, hn => by
    obtain ⟨n, rfl⟩ : ∃ m, n = m + 1 := ⟨n - 1, by simp only [size] at hn; omega⟩
    simp only [parseValue, skipWhitespace_white hw, render,
      bytes_brackets, List.cons_append, List.nil_append,
      skipWhitespace_head (show isWhitespace 0x5B = false by decide),
      skipWhitespace_head (show isWhitespace 0x5D = false by decide), ↓reduceIte, kept, keptList]
  | .arr (x :: xs), level, n, w, r, h, hw, _, hn => by
    obtain ⟨n, rfl⟩ : ∃ m, n = m + 1 := ⟨n - 1, by simp only [size] at hn; omega⟩
    rw [Writable] at h
    have hx : Writable readFloat x := by
      rw [WritableList] at h
      exact h.1
    obtain ⟨c, t, hc, hcw, hca, -, -⟩ := render_head lay x (level + 1) hx
    have hE := parseElements_render hl (x :: xs) (level + 1) n x xs rfl h white_nil
      (hl.newline level) r (by simp only [size] at hn; omega)
    simp only [render, List.cons_append, List.append_assoc, List.nil_append] at hE ⊢
    simp only [parseValue, skipWhitespace_white hw, skipWhitespace_white (hl.newline _),
      skipWhitespace_head (show isWhitespace 0x5B = false by decide), ↓reduceIte, hc,
      List.cons_append, skipWhitespace_head hcw, if_neg hca]
    rw [hc] at hE
    simp only [List.cons_append] at hE
    rw [hE]
    rfl
  | .obj [], level, n, w, r, _, hw, _, hn => by
    obtain ⟨n, rfl⟩ : ∃ m, n = m + 1 := ⟨n - 1, by simp only [size] at hn; omega⟩
    simp only [parseValue, skipWhitespace_white hw, render,
      bytes_braces, List.cons_append, List.nil_append,
      skipWhitespace_head (show isWhitespace 0x7B = false by decide),
      skipWhitespace_head (show isWhitespace 0x7D = false by decide), ↓reduceIte,
      show ¬ (0x7B : UInt8) = 0x5B by decide, kept, keptMembers]
    rfl
  | .obj ((k, x) :: m), level, n, w, r, h, hw, _, hn => by
    obtain ⟨n, rfl⟩ : ∃ m, n = m + 1 := ⟨n - 1, by simp only [size] at hn; omega⟩
    rw [Writable] at h
    have hM := parseMembers_render hl ((k, x) :: m) (level + 1) n k x m rfl h white_nil
      (hl.newline level) r (by simp only [size] at hn; omega)
    simp only [render, quote, List.cons_append, List.append_assoc, List.nil_append, id] at hM ⊢
    simp only [parseValue, skipWhitespace_white hw, skipWhitespace_white (hl.newline _),
      skipWhitespace_head (show isWhitespace 0x7B = false by decide),
      skipWhitespace_head (show isWhitespace 0x22 = false by decide), ↓reduceIte,
      show ¬ (0x7B : UInt8) = 0x5B by decide, show ¬ (0x22 : UInt8) = 0x7D by decide, hM]
    rfl

theorem parseElements_render (hl : WhiteLayout lay) : ∀ (l : List Json) (level n : ℕ) x xs,
    l = x :: xs → WritableList readFloat l → ∀ {w w' : Bytes}, White w → White w' →
      ∀ r, sizeList l ≤ n →
        parseElements readFloat n (w ++ (render id lay level x ++
          (renderElements id lay level xs ++ (w' ++ 0x5D :: r)))) = some (keptList l, r)
  | [], _, _, _, _, h, _, _, _, _, _, _, _ => by simp at h
  | x :: xs, level, n, _, _, rfl, h, w, w', hw, hw', r, hn => by
    rw [sizeList] at hn
    rw [WritableList] at h
    obtain ⟨n, rfl⟩ : ∃ m, n = m + 1 := ⟨n - 1, by omega⟩
    cases xs with
    | nil =>
      have hd : Delimited (w' ++ 0x5D :: r) := delimited_white hw' (delimited_cons (by decide) r)
      have hv := parseValue_render hl x level n h.1 hw hd (by omega)
      simp only [parseElements, renderElements, List.nil_append, hv, Option.bind_some,
        skipWhitespace_white hw', skipWhitespace_head (show isWhitespace 0x5D = false by decide),
        ↓reduceIte, show ¬ (0x5D : UInt8) = 0x2C by decide, keptList]
    | cons y ys =>
      have hE := parseElements_render hl (y :: ys) level n y ys rfl h.2 (hl.newline level) hw' r
        (by omega)
      have hd : ∀ s, Delimited (0x2C :: s) := delimited_cons (by decide)
      have hv := fun s => parseValue_render hl x level n h.1 hw (hd s) (by omega)
      simp only [parseElements, renderElements, List.cons_append, List.append_assoc, hv,
        Option.bind_some, skipWhitespace_head (show isWhitespace 0x2C = false by decide),
        ↓reduceIte, hE, Option.map_some, keptList]

theorem parseMembers_render (hl : WhiteLayout lay) : ∀ (m : List (Bytes × Json)) (level n : ℕ)
    k x m', m = (k, x) :: m' → WritableMembers readFloat m → ∀ {w w' : Bytes}, White w →
      White w' → ∀ r, sizeMembers m ≤ n →
        parseMembers readFloat n (w ++ (quote k ++ (lay.colon ++ (render id lay level x ++
          (renderMembers id lay level m' ++ (w' ++ 0x7D :: r)))))) = some (keptMembers m, r)
  | [], _, _, _, _, _, h, _, _, _, _, _, _, _ => by simp at h
  | (k, x) :: m, level, n, _, _, _, rfl, h, w, w', hw, hw', r, hn => by
    rw [sizeMembers] at hn
    rw [WritableMembers] at h
    obtain ⟨n, rfl⟩ : ∃ m, n = m + 1 := ⟨n - 1, by omega⟩
    obtain ⟨v, hcolon, hv⟩ := hl.colon
    have hq : quote k = 0x22 :: (quote k).tail := rfl
    have hstart : ∀ s, parseMembers readFloat (n + 1) (w ++ (quote k ++ (lay.colon ++ s))) =
        (parseValue readFloat n (v ++ s)).bind fun y => match skipWhitespace y.2 with
          | [] => none
          | d :: r =>
            if d = 0x2C then (parseMembers readFloat n r).map fun z => ((k, y.1) :: z.1, z.2)
            else if d = 0x7D then some ([(k, y.1)], r)
            else none := by
      intro s
      rw [hq]
      simp only [parseMembers, skipWhitespace_white hw, List.cons_append, ne_eq, not_true_eq_false,
        ↓reduceIte, skipWhitespace_head (show isWhitespace 0x22 = false by decide),
        readString_quote h.1, Option.bind_some, hcolon,
        skipWhitespace_head (show isWhitespace 0x3A = false by decide)]
      all_goals rfl
    rw [hstart]
    cases m with
    | nil =>
      have hd : Delimited (w' ++ 0x7D :: r) := delimited_white hw' (delimited_cons (by decide) r)
      have hx := parseValue_render hl x level n h.2.1 hv hd (by omega)
      simp only [renderMembers, List.nil_append, hx, Option.bind_some,
        skipWhitespace_white hw', skipWhitespace_head (show isWhitespace 0x7D = false by decide),
        ↓reduceIte, show ¬ (0x7D : UInt8) = 0x2C by decide, keptMembers]
    | cons kv m =>
      obtain ⟨l, y⟩ := kv
      have hM := parseMembers_render hl ((l, y) :: m) level n l y m rfl h.2.2 (hl.newline level)
        hw' r (by omega)
      have hd : ∀ s, Delimited (0x2C :: s) := delimited_cons (by decide)
      have hx := fun s => parseValue_render hl x level n h.2.1 hv (hd s) (by omega)
      simp only [renderMembers, List.cons_append, List.append_assoc, hx, Option.bind_some,
        skipWhitespace_head (show isWhitespace 0x2C = false by decide), ↓reduceIte, id, hM,
        Option.map_some, keptMembers]

end

/-- What the serializer writes in any order parses as what the parser keeps of it. -/
theorem parse_writable (hl : WhiteLayout lay) {j : Json} (h : Writable readFloat j) (level : ℕ)
    {w w' : Bytes} (hw : White w) (hw' : White w') :
    parse readFloat (w ++ (render id lay level j ++ w')) = .ok (kept j) := by
  have hbom : skipBom (w ++ (render id lay level j ++ w')) =
      some (w ++ (render id lay level j ++ w')) := by
    have skip : ∀ (c : UInt8) s, c ≠ 0xEF → skipBom (c :: s) = some (c :: s) := fun c s hc => by
      simp [skipBom, hc]
    cases w with
    | nil =>
      obtain ⟨c, t, hc, -, -, -, hb, -⟩ := render_head lay j level h
      simpa [hc] using skip c (t ++ w') hb
    | cons b w =>
      refine skip b _ ?_
      rintro rfl
      exact absurd (hw 0xEF (by simp)) (by decide)
  have hd : Delimited w' := by simpa using delimited_white hw' delimited_nil
  have hsize := size_le_render lay j level h
  have hp := parseValue_render hl j level ((w ++ (render id lay level j ++ w')).length + 1) h hw hd
    (by simp only [List.length_append]; omega)
  have hend : skipWhitespace w' = [] := by simpa [skipWhitespace] using hw'
  simp only [parse, hbom, Option.bind_some, hp, hend, ↓reduceIte]

/-- What the serializer writes parses back, also between whitespace. -/
theorem parse_render (hl : WhiteLayout lay) {j : Json} (h : Storable readFloat j) (level : ℕ)
    {w w' : Bytes} (hw : White w) (hw' : White w') :
    parse readFloat (w ++ (render id lay level j ++ w')) = .ok j := by
  obtain ⟨hwritable, hkept⟩ := h.writable
  rw [parse_writable hl hwritable level hw hw', hkept]

end Storable

end JsonRoundTrip
