import Mathlib.Data.List.Basic
import Mathlib.Data.List.DropRight

/-! Byte strings with the searching, splitting and trimming operations of `std::string`. -/
namespace ByteString

abbrev Bytes := List UInt8

instance : LawfulBEq Bytes := inferInstance

/-- A bounded quantifier is decided along the bytes, not over all values of a byte. -/
instance (priority := high) decidableForallMem {p : UInt8 → Prop} [DecidablePred p] (s : Bytes) :
    Decidable (∀ b ∈ s, p b) := List.decidableBAll p s

/-- The bytes of a literal, in UTF-8. -/
def bytes (s : String) : Bytes := s.toList.flatMap String.utf8EncodeChar

abbrev newline : UInt8 := 10
abbrev space : UInt8 := 32

/-- `find`: the position of the first occurrence of a pattern. -/
def find (pat : Bytes) : Bytes → Option ℕ
  | [] => if pat = [] then some 0 else none
  | c :: s => if pat.isPrefixOf (c :: s) then some 0 else (find pat s).map (· + 1)

/-- Repeated `std::getline`: the pieces between newlines, without an empty last piece. -/
def lines : Bytes → List Bytes
  | [] => []
  | c :: s =>
    if c = newline then [] :: lines s
    else match lines s with
      | [] => [[c]]
      | l :: ls => (c :: l) :: ls

/-- `std::getline` with a delimiter of its own. -/
def pieces (sep : UInt8) : Bytes → List Bytes
  | [] => []
  | c :: s =>
    if c = sep then [] :: pieces sep s
    else match pieces sep s with
      | [] => [[c]]
      | l :: ls => (c :: l) :: ls

def toLower (b : UInt8) : UInt8 := if 0x41 ≤ b ∧ b ≤ 0x5A then b + 0x20 else b

def trimLeft (ws : Bytes) (s : Bytes) : Bytes := s.dropWhile (fun c => ws.contains c)
def trimRight (ws : Bytes) (s : Bytes) : Bytes := s.rdropWhile (fun c => ws.contains c)

end ByteString
