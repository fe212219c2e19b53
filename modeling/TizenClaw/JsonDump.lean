import TizenClaw.JsonValue
import Mathlib.Data.Nat.Digits.Defs
import Mathlib.Data.List.Chain

/-! The serializer: compact and indented layouts, strict about UTF-8 or replacing what is
ill-formed. -/
namespace JsonDump

open ByteString JsonValue

def hexDigit (n : ℕ) : UInt8 := UInt8.ofNat (if n < 10 then 48 + n else 87 + n)

/-- Escaping is by byte: every byte of a multi-byte character is copied. -/
def escapeByte (b : UInt8) : Bytes :=
  if b = 0x08 then bytes "\\b"
  else if b = 0x09 then bytes "\\t"
  else if b = 0x0A then bytes "\\n"
  else if b = 0x0C then bytes "\\f"
  else if b = 0x0D then bytes "\\r"
  else if b = 0x22 then bytes "\\\""
  else if b = 0x5C then bytes "\\\\"
  else if b ≤ 0x1F then bytes "\\u00" ++ [hexDigit (b.toNat / 16), hexDigit (b.toNat % 16)]
  else [b]

/-- The replacing error handler. `buf` holds the bytes of the character being read: a byte
that breaks it is read again, as the possible start of another. -/
def replaceInvalid (pending : List Utf8.Range) (buf : Bytes) : Bytes → Bytes
  | [] => if pending = [] then [] else [0xEF, 0xBF, 0xBD]
  | b :: s =>
    match Utf8.step pending b with
    | some [] => buf ++ b :: replaceInvalid [] [] s
    | some p => replaceInvalid p (buf ++ [b]) s
    | none =>
      if pending = [] then [0xEF, 0xBF, 0xBD] ++ replaceInvalid [] [] s
      else match Utf8.leadRanges b with
        | some [] => [0xEF, 0xBF, 0xBD] ++ b :: replaceInvalid [] [] s
        | some p => [0xEF, 0xBF, 0xBD] ++ replaceInvalid p [b] s
        | none => [0xEF, 0xBF, 0xBD, 0xEF, 0xBF, 0xBD] ++ replaceInvalid [] [] s

def quote (s : Bytes) : Bytes := 0x22 :: (s.flatMap escapeByte ++ [0x22])

def decimal (n : ℕ) : Bytes :=
  if n = 0 then [48] else (Nat.digits 10 n).reverse.map fun d => UInt8.ofNat (48 + d)

def decimalInt (i : ℤ) : Bytes := if i < 0 then 0x2D :: decimal i.natAbs else decimal i.natAbs

/-- What is written between the tokens of a container at a nesting level. -/
structure Layout where
  newline : ℕ → Bytes
  colon : Bytes

def compact : Layout := ⟨fun _ => [], bytes ":"⟩
def indented (step : ℕ) : Layout :=
  ⟨fun level => ByteString.newline :: List.replicate (step * level) space, bytes ": "⟩

section Render

variable (fix : Bytes → Bytes) (lay : Layout)

mutual

def render (level : ℕ) : Json → Bytes
  | .null => bytes "null"
  | .bool true => bytes "true"
  | .bool false => bytes "false"
  | .int i => decimalInt i
  | .float t => t.1
  | .str s => quote (fix s)
  | .arr [] => bytes "[]"
  | .arr (x :: xs) =>
    0x5B :: (lay.newline (level + 1) ++ render (level + 1) x ++
      (renderElements (level + 1) xs ++ (lay.newline level ++ [0x5D])))
  | .obj [] => bytes "\x7b\x7d"
  | .obj ((k, x) :: m) =>
    0x7B :: (lay.newline (level + 1) ++ (quote (fix k) ++ lay.colon) ++ render (level + 1) x ++
      (renderMembers (level + 1) m ++ (lay.newline level ++ [0x7D])))

def renderElements (level : ℕ) : List Json → Bytes
  | [] => []
  | x :: xs => 0x2C :: (lay.newline level ++ render level x ++ renderElements level xs)

def renderMembers (level : ℕ) : List (Bytes × Json) → Bytes
  | [] => []
  | (k, x) :: m =>
    0x2C :: (lay.newline level ++ (quote (fix k) ++ lay.colon) ++ render level x ++
      renderMembers level m)

end

end Render

/-- `dump()` throws on ill-formed UTF-8 anywhere in the value. -/
def dumpWith (lay : Layout) (j : Json) : Except JsonException Bytes :=
  if j.utf8 then .ok (render id lay 0 j) else .error (.typeError 316)

def dump (j : Json) : Except JsonException Bytes := dumpWith compact j
def dumpIndent (step : ℕ) (j : Json) : Except JsonException Bytes := dumpWith (indented step) j

/-- `dump` with `error_handler_t::replace` never throws. -/
def dumpReplace (j : Json) : Bytes := render (replaceInvalid [] []) compact 0 j

theorem escapeByte_high {b : UInt8} (h : 0x80 ≤ b) : escapeByte b = [b] := by
  rw [UInt8.le_iff_toNat_le] at h
  simp only [escapeByte, ← UInt8.toNat_inj, UInt8.le_iff_toNat_le, UInt8.reduceToNat] at *
  simp [show b.toNat ≠ 8 by omega, show b.toNat ≠ 9 by omega, show b.toNat ≠ 10 by omega,
    show b.toNat ≠ 12 by omega, show b.toNat ≠ 13 by omega, show b.toNat ≠ 34 by omega,
    show b.toNat ≠ 92 by omega, show ¬ b.toNat ≤ 31 by omega]

theorem escapeByte_ofNat :
    ∀ n < 128, (escapeByte (UInt8.ofNat n)).all (fun c => decide (c ≤ 0x7F)) = true := by decide

theorem escapeByte_ascii {b : UInt8} (h : b ≤ 0x7F) : ∀ c ∈ escapeByte b, c ≤ 0x7F := by
  rw [UInt8.le_iff_toNat_le] at h
  have := Utf8.ascii_of_all (escapeByte_ofNat b.toNat (Nat.lt_succ_of_le h))
  rwa [UInt8.ofNat_toNat] at this

theorem run_escapeByte {p q : List Utf8.Range} {b : UInt8} (hp : Utf8.Tails p)
    (h : Utf8.step p b = some q) : Utf8.run p (escapeByte b) = some q := by
  by_cases hb : 0x80 ≤ b
  · rw [escapeByte_high hb, Utf8.run_cons, h]
    rfl
  · have hascii : b ≤ 0x7F := by
      rw [UInt8.le_iff_toNat_le] at hb ⊢
      simp only [UInt8.reduceToNat] at *
      omega
    cases p with
    | nil =>
      obtain rfl : [] = q := Option.some.inj ((Utf8.step_ascii hascii).symm.trans h)
      exact (Utf8.valid_iff _).mp (Utf8.valid_ascii (escapeByte_ascii hascii))
    | cons r p =>
      simp only [Utf8.step] at h
      split_ifs at h with hr
      exact absurd (UInt8.le_trans (hp r (by simp)) hr.1) hb

theorem quote_valid {s : Bytes} (h : Utf8.valid s = true) : Utf8.valid (quote s) = true := by
  have hrun : ∀ {s : Bytes} {p q : List Utf8.Range}, Utf8.Tails p → Utf8.run p s = some q →
      Utf8.run p (s.flatMap escapeByte) = some q := by
    intro s
    induction s with
    | nil => exact fun _ h => h
    | cons b s ih =>
      intro p q hp h
      rw [Utf8.run_cons] at h
      obtain ⟨r, hr, hs⟩ := Option.bind_eq_some_iff.mp h
      rw [List.flatMap_cons, Utf8.run_append, run_escapeByte hp hr]
      exact ih (Utf8.step_tails hp hr) hs
  have hbody : Utf8.valid (s.flatMap escapeByte) = true :=
    (Utf8.valid_iff _).mpr (hrun (by simp [Utf8.Tails]) ((Utf8.valid_iff s).mp h))
  have hopen : Utf8.valid [0x22] = true := by decide
  rw [quote, ← List.singleton_append, Utf8.valid_append hopen, Utf8.valid_append hbody]
  exact hopen

theorem isNumberChar_ascii (b : UInt8) (h : isNumberChar b = true) : b ≤ 0x7F := by
  simp only [isNumberChar, isDigit, UInt8.le_iff_toNat_le, decide_eq_true_eq] at h ⊢
  rcases h with h | rfl | rfl | rfl | rfl | rfl
  · simp only [UInt8.reduceToNat] at *
    omega
  all_goals decide

theorem decimal_ascii (n : ℕ) : ∀ b ∈ decimal n, b ≤ 0x7F := by
  intro b hb
  unfold decimal at hb
  split_ifs at hb
  · obtain rfl := List.mem_singleton.mp hb
    decide
  · obtain ⟨d, hd, rfl⟩ := List.mem_map.mp hb
    have hlt : ∀ d < 10, UInt8.ofNat (48 + d) ≤ 0x7F := by decide
    exact hlt d (Nat.digits_lt_base (by decide) (List.mem_reverse.mp hd))

theorem decimalInt_ascii (i : ℤ) : ∀ b ∈ decimalInt i, b ≤ 0x7F := by
  intro b hb
  unfold decimalInt at hb
  split_ifs at hb
  · rcases List.mem_cons.mp hb with rfl | hb
    · decide
    · exact decimal_ascii _ b hb
  · exact decimal_ascii _ b hb

/-- Layouts of well-formed text. -/
structure ValidLayout (lay : Layout) : Prop where
  newline : ∀ n, Utf8.valid (lay.newline n) = true
  colon : Utf8.valid lay.colon = true

theorem validLayout_compact : ValidLayout compact :=
  ⟨fun _ => rfl, show Utf8.valid (bytes ":") = true by decide⟩

variable {lay : Layout}

mutual

/-- What the strict serializer writes is well-formed. -/
theorem render_valid (hl : ValidLayout lay) : ∀ (j : Json) (level : ℕ), j.utf8 = true →
    Utf8.valid (render id lay level j) = true
  | .null, _, _ => by rw [render]; decide
  | .bool true, _, _ => by rw [render]; decide
  | .bool false, _, _ => by rw [render]; decide
  | .int i, _, _ => by rw [render]; exact Utf8.valid_ascii (decimalInt_ascii i)
  | .float t, _, _ => by
    rw [render]
    exact Utf8.valid_ascii fun b hb => isNumberChar_ascii b (t.2 b hb)
  | .str s, _, h => by
    rw [Json.utf8] at h
    rw [render]
    exact quote_valid h
  | .arr [], _, _ => by rw [render]; decide
  | .arr (x :: xs), level, h => by
    rw [Json.utf8, utf8List, Bool.and_eq_true] at h
    have hx := render_valid hl x (level + 1) h.1
    have hxs := renderElements_valid hl xs (level + 1) h.2
    have hopen : Utf8.valid [0x5B] = true := by decide
    have hclose : Utf8.valid [0x5D] = true := by decide
    rw [render, ← List.singleton_append, Utf8.valid_append hopen, List.append_assoc,
      Utf8.valid_append (hl.newline _), Utf8.valid_append hx, Utf8.valid_append hxs,
      Utf8.valid_append (hl.newline _), hclose]
  | .obj [], _, _ => by rw [render]; decide
  | .obj ((k, x) :: m), level, h => by
    rw [Json.utf8, utf8Members, Bool.and_eq_true, Bool.and_eq_true] at h
    have hx := render_valid hl x (level + 1) h.1.2
    have hm := renderMembers_valid hl m (level + 1) h.2
    have hopen : Utf8.valid [0x7B] = true := by decide
    have hclose : Utf8.valid [0x7D] = true := by decide
    rw [render, ← List.singleton_append, Utf8.valid_append hopen, List.append_assoc,
      List.append_assoc, List.append_assoc, Utf8.valid_append (hl.newline _), id_eq,
      Utf8.valid_append (quote_valid h.1.1), Utf8.valid_append hl.colon, Utf8.valid_append hx,
      Utf8.valid_append hm, Utf8.valid_append (hl.newline _), hclose]

theorem renderElements_valid (hl : ValidLayout lay) : ∀ (l : List Json) (level : ℕ),
    utf8List l = true → Utf8.valid (renderElements id lay level l) = true
  | [], _, _ => rfl
  | x :: xs, level, h => by
    rw [utf8List, Bool.and_eq_true] at h
    have hcomma : Utf8.valid [0x2C] = true := by decide
    rw [renderElements, ← List.singleton_append, Utf8.valid_append hcomma, List.append_assoc,
      Utf8.valid_append (hl.newline _), Utf8.valid_append (render_valid hl x level h.1),
      renderElements_valid hl xs level h.2]

theorem renderMembers_valid (hl : ValidLayout lay) : ∀ (m : List (Bytes × Json)) (level : ℕ),
    utf8Members m = true → Utf8.valid (renderMembers id lay level m) = true
  | [], _, _ => rfl
  | (k, x) :: m, level, h => by
    rw [utf8Members, Bool.and_eq_true, Bool.and_eq_true] at h
    have hcomma : Utf8.valid [0x2C] = true := by decide
    rw [renderMembers, ← List.singleton_append, Utf8.valid_append hcomma, List.append_assoc,
      List.append_assoc, List.append_assoc, Utf8.valid_append (hl.newline _), id_eq,
      Utf8.valid_append (quote_valid h.1.1), Utf8.valid_append hl.colon,
      Utf8.valid_append (render_valid hl x level h.1.2), renderMembers_valid hl m level h.2]

end

theorem dumpWith_utf8 (lay : Layout) {j : Json} (h : j.utf8 = true) :
    dumpWith lay j = .ok (render id lay 0 j) := by simp [dumpWith, h]

theorem succeeds_dumpWith (lay : Layout) (j : Json) :
    Succeeds (dumpWith lay j) ↔ j.utf8 = true := by
  unfold dumpWith
  split_ifs with h <;> simp [h]

theorem succeeds_dump (j : Json) : Succeeds (dump j) ↔ j.utf8 = true := succeeds_dumpWith compact j

/-- The text of a compact dump can itself be stored in a string. -/
theorem dump_valid {j : Json} {t : Bytes} (h : dump j = .ok t) : Utf8.valid t = true := by
  have hj : j.utf8 = true := (succeeds_dump j).mp ⟨t, h⟩
  rw [dump, dumpWith_utf8 compact hj] at h
  obtain rfl := Except.ok.inj h
  exact render_valid validLayout_compact j 0 hj

end JsonDump
