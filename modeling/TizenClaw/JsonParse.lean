import TizenClaw.JsonDump
import Mathlib.Data.Nat.Digits.Lemmas

/-! The parser. Reading a number token as a binary float and writing it back is left to a
parameter, which returns the text of the nearest float or nothing on overflow. -/
namespace JsonParse

open ByteString JsonValue

def isWhitespace (b : UInt8) : Bool := b = 0x20 ∨ b = 0x09 ∨ b = 0x0A ∨ b = 0x0D

def skipWhitespace (s : Bytes) : Bytes := s.dropWhile isWhitespace

def hexValue (b : UInt8) : Option ℕ :=
  if isDigit b then some (b.toNat - 48)
  else if 0x41 ≤ b ∧ b ≤ 0x46 then some (b.toNat - 55)
  else if 0x61 ≤ b ∧ b ≤ 0x66 then some (b.toNat - 87)
  else none

def encodeUtf8 (cp : ℕ) : Bytes :=
  if cp < 0x80 then [UInt8.ofNat cp]
  else if cp < 0x800 then [UInt8.ofNat (0xC0 + cp / 0x40), UInt8.ofNat (0x80 + cp % 0x40)]
  else if cp < 0x10000 then
    [UInt8.ofNat (0xE0 + cp / 0x1000), UInt8.ofNat (0x80 + cp / 0x40 % 0x40),
      UInt8.ofNat (0x80 + cp % 0x40)]
  else
    [UInt8.ofNat (0xF0 + cp / 0x40000), UInt8.ofNat (0x80 + cp / 0x1000 % 0x40),
      UInt8.ofNat (0x80 + cp / 0x40 % 0x40), UInt8.ofNat (0x80 + cp % 0x40)]

/-- Where the string scanner stands. `hex` still has `left` digits to read; `high` is the
surrogate a second escape has to complete. -/
inductive StringMode where
  | text (pending : List Utf8.Range)
  | escape
  | hex (high : Option ℕ) (left value : ℕ)
  | low (high : ℕ) (slash : Bool)
  deriving DecidableEq

def unescape (b : UInt8) : Option UInt8 :=
  if b = 0x22 ∨ b = 0x5C ∨ b = 0x2F then some b
  else if b = 0x62 then some 0x08
  else if b = 0x66 then some 0x0C
  else if b = 0x6E then some 0x0A
  else if b = 0x72 then some 0x0D
  else if b = 0x74 then some 0x09
  else none

/-- A complete `\uXXXX`: surrogates are accepted only as a high one and then a low one. -/
def finishHex (high : Option ℕ) (v : ℕ) : Option (StringMode × Bytes) :=
  match high with
  | none =>
    if 0xD800 ≤ v ∧ v ≤ 0xDBFF then some (.low v false, [])
    else if 0xDC00 ≤ v ∧ v ≤ 0xDFFF then none
    else some (.text [], encodeUtf8 v)
  | some h =>
    if 0xDC00 ≤ v ∧ v ≤ 0xDFFF then
      some (.text [], encodeUtf8 (0x10000 + (h - 0xD800) * 0x400 + (v - 0xDC00)))
    else none

def stringStep : StringMode → UInt8 → Option (StringMode × Bytes)
  | .text p, b =>
    if b < 0x20 then none
    else if p = [] ∧ b = 0x5C then some (.escape, [])
    else (Utf8.step p b).map fun q => (.text q, [b])
  | .escape, b =>
    if b = 0x75 then some (.hex none 4 0, [])
    else (unescape b).map fun c => (.text [], [c])
  | .hex high left value, b =>
    (hexValue b).bind fun d =>
      if 1 < left then some (.hex high (left - 1) (16 * value + d), [])
      else finishHex high (16 * value + d)
  | .low h false, b => if b = 0x5C then some (.low h true, []) else none
  | .low h true, b => if b = 0x75 then some (.hex (some h) 4 0, []) else none

/-- The rest of a string after its opening quote, and what follows the closing one. -/
def readString (m : StringMode) : Bytes → Option (Bytes × Bytes)
  | [] => none
  | b :: s =>
    if m = .text [] ∧ b = 0x22 then some ([], s)
    else (stringStep m b).bind fun x => (readString x.1 s).map fun y => (x.2 ++ y.1, y.2)

def dropSign (sign : UInt8 → Bool) : Bytes → Bytes
  | [] => []
  | c :: t => if sign c then t else c :: t

/-- `e`, an optional sign and digits. -/
def isExponent : Bytes → Bool
  | [] => false
  | e :: s =>
    let ds := dropSign (fun c => c = 0x2B ∨ c = 0x2D) s
    (e = 0x45 ∨ e = 0x65) ∧ ds ≠ [] ∧ ds.all isDigit

/-- The number grammar on a maximal run of number characters: `some true` is a float. Two
numbers never stand side by side in a text that parses, so the run is the token. -/
def numberKind (t : Bytes) : Option Bool :=
  let u := dropSign (· = 0x2D) t
  let ip := u.takeWhile isDigit
  if ip = [] ∨ (ip.head? = some 0x30 ∧ ip ≠ [0x30]) then none
  else match u.dropWhile isDigit with
    | [] => some false
    | c :: r =>
      if c = 0x2E then
        if r.takeWhile isDigit = [] then none
        else if r.dropWhile isDigit = [] ∨ isExponent (r.dropWhile isDigit) then some true
        else none
      else if isExponent (c :: r) then some true
      else none

def digitsValue (ds : Bytes) : ℕ := Nat.ofDigits 10 (ds.reverse.map fun b => b.toNat - 48)

def integerValue : Bytes → ℤ
  | [] => 0
  | c :: t => if c = 0x2D then -(digitsValue t : ℤ) else digitsValue (c :: t)

abbrev InRange (i : ℤ) : Prop := -2 ^ 63 ≤ i ∧ i < 2 ^ 64

section Parser

variable (readFloat : Bytes → Option NumberText)

/-- An integer that fits neither 64-bit type is read as a float. -/
def numberOf (t : Bytes) : Option Json :=
  match numberKind t with
  | none => none
  | some true => (readFloat t).map .float
  | some false =>
    if InRange (integerValue t) then some (.int (integerValue t)) else (readFloat t).map .float

def parseScalar (s : Bytes) : Option (Json × Bytes) :=
  if (bytes "null").isPrefixOf s then some (.null, s.drop 4)
  else if (bytes "true").isPrefixOf s then some (.bool true, s.drop 4)
  else if (bytes "false").isPrefixOf s then some (.bool false, s.drop 5)
  else (numberOf readFloat (s.takeWhile isNumberChar)).map fun j =>
    (j, s.dropWhile isNumberChar)

mutual

/-- The fuel bounds the nesting; the length of the text is always enough. -/
def parseValue : ℕ → Bytes → Option (Json × Bytes)
  | 0, _ => none
  | n + 1, s =>
    match skipWhitespace s with
    | [] => none
    | c :: r =>
      if c = 0x5B then
        match skipWhitespace r with
        | [] => none
        | d :: r' =>
          if d = 0x5D then some (.arr [], r')
          else (parseElements n (d :: r')).map fun x => (.arr x.1, x.2)
      else if c = 0x7B then
        match skipWhitespace r with
        | [] => none
        | d :: r' =>
          if d = 0x7D then some (.obj [], r')
          else (parseMembers n (d :: r')).map fun x => (.object x.1, x.2)
      else if c = 0x22 then (readString (.text []) r).map fun x => (.str x.1, x.2)
      else parseScalar readFloat (c :: r)

def parseElements : ℕ → Bytes → Option (List Json × Bytes)
  | 0, _ => none
  | n + 1, s =>
    (parseValue n s).bind fun v =>
      match skipWhitespace v.2 with
      | [] => none
      | d :: r =>
        if d = 0x2C then (parseElements n r).map fun x => (v.1 :: x.1, x.2)
        else if d = 0x5D then some ([v.1], r)
        else none

def parseMembers : ℕ → Bytes → Option (List (Bytes × Json) × Bytes)
  | 0, _ => none
  | n + 1, s =>
    match skipWhitespace s with
    | [] => none
    | c :: r =>
      if c ≠ 0x22 then none
      else (readString (.text []) r).bind fun k =>
        match skipWhitespace k.2 with
        | [] => none
        | d :: r =>
          if d ≠ 0x3A then none
          else (parseValue n r).bind fun v =>
            match skipWhitespace v.2 with
            | [] => none
            | d :: r =>
              if d = 0x2C then (parseMembers n r).map fun x => ((k.1, v.1) :: x.1, x.2)
              else if d = 0x7D then some ([(k.1, v.1)], r)
              else none

end

/-- A byte order mark is skipped; another text that starts like one is refused. -/
def skipBom : Bytes → Option Bytes
  | [] => some []
  | b :: s =>
    if b = 0xEF then match s with
      | 0xBB :: 0xBF :: r => some r
      | _ => none
    else some (b :: s)

/-- `json::parse`: one value and nothing but whitespace after it. -/
def parse (s : Bytes) : Except JsonException Json :=
  match (skipBom s).bind fun t => parseValue readFloat (t.length + 1) t with
  | some (j, r) => if skipWhitespace r = [] then .ok j else .error .parseError
  | none => .error .parseError

end Parser

end JsonParse
