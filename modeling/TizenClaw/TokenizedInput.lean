import TizenClaw.PipelineExecutor
import TizenClaw.TaskSchedule
import TizenClaw.WordPiece

/-! The input of the embedding model: the word pieces of a text, cut or padded to the length that
the model takes. -/
namespace TokenizedInput

open ByteString WordPiece
open PipelineExecutor (wrap32 wrap32_of_range wrap32_le)
open TaskSchedule (isSpace)

section Tokens

def normalizeText (text : Bytes) : Bytes := text.map toLower

/-- `std::ispunct` -/
def isPunct (b : UInt8) : Bool :=
  (0x21 ≤ b ∧ b ≤ 0x2F) ∨ (0x3A ≤ b ∧ b ≤ 0x40) ∨ (0x5B ≤ b ∧ b ≤ 0x60) ∨ (0x7B ≤ b ∧ b ≤ 0x7E)

/-- The word that was read so far, unless it is empty. -/
def pending (current : Bytes) : List Bytes := if current = [] then [] else [current]

/-- `BasicTokenize`, with the word that is being read. -/
def basicTokenize (current : Bytes) : Bytes → List Bytes
  | [] => pending current
  | c :: s =>
    if isSpace c then pending current ++ basicTokenize [] s
    else if isPunct c then pending current ++ [c] :: basicTokenize [] s
    else basicTokenize (current ++ [c]) s

/-- The ids of the pieces, and those of the special tokens. -/
structure Vocabulary where
  ids : Bytes → Option ℤ
  clsId : ℤ := 0
  sepId : ℤ := 0
  unkId : ℤ := 0
  padId : ℤ := 0

variable (v : Vocabulary)

def tokenToId (token : Bytes) : ℤ := (v.ids token).getD v.unkId

/-- The word pieces of a text. -/
def wpTokens (text : Bytes) : List Bytes :=
  (basicTokenize [] (normalizeText text)).flatMap (wordPieceTokenize fun key => (v.ids key).isSome)

def wpIds (text : Bytes) : List ℤ := (wpTokens v text).map (tokenToId v)

end Tokens

section Tokenize

/-- `TokenizedInput` -/
structure Input where
  inputIds : List ℤ
  attentionMask : List ℤ
  tokenTypeIds : List ℤ

/-- `resize` to a size that is an `int`. A negative one is more than a vector can have. -/
def resize {α : Type} (l : List α) (size : ℤ) (a : α) : Option (List α) :=
  if size < 0 then none
  else some (l.take size.toNat ++ List.replicate (size.toNat - l.length) a)

/-- The pieces that are kept for the model; the count is cut to 32 bits. -/
def truncate (maxLength : ℤ) (tokens : List Bytes) : Option (List Bytes) :=
  let maxTokens := maxLength - 2
  if wrap32 tokens.length > maxTokens then resize tokens maxTokens [] else some tokens

variable (v : Vocabulary)

def Input.push (r : Input) : Input :=
  ⟨r.inputIds ++ [v.padId], r.attentionMask ++ [0], r.tokenTypeIds ++ [0]⟩

/-- The loop that pads; it goes around at most as often as the model takes tokens. -/
def pad (maxLength : ℤ) : ℕ → Input → Input
  | 0, r => r
  | fuel + 1, r => if wrap32 r.inputIds.length < maxLength then pad maxLength fuel (r.push v) else r

/-- `Tokenize`; `none` where it throws. -/
def tokenize (text : Bytes) (maxLength : ℤ) : Option Input :=
  (truncate maxLength (wpTokens v text)).bind fun tokens =>
    let inputIds := v.clsId :: tokens.map (tokenToId v) ++ [v.sepId]
    let seqLen := wrap32 inputIds.length
    (resize [] seqLen 1).bind fun attentionMask =>
    (resize [] seqLen 0).map fun tokenTypeIds =>
      pad v maxLength maxLength.toNat ⟨inputIds, attentionMask, tokenTypeIds⟩

end Tokenize

section Shape

variable (v : Vocabulary) (text : Bytes) (n k : ℕ)

/-- An input of the length of the model, of which the first `k` places are in use. -/
structure Shape (r : Input) : Prop where
  two_le : 2 ≤ k
  le : k ≤ n
  pieces : k - 2 ≤ (wpIds v text).length
  inputIds : r.inputIds =
    v.clsId :: (wpIds v text).take (k - 2) ++ v.sepId :: List.replicate (n - k) v.padId
  attentionMask : r.attentionMask = List.replicate k 1 ++ List.replicate (n - k) 0
  tokenTypeIds : r.tokenTypeIds = List.replicate n 0

variable {v text n k} {r : Input}

theorem Shape.length_inputIds (h : Shape v text n k r) : r.inputIds.length = n := by
  have := h.two_le
  have := h.le
  have := h.pieces
  simp [h.inputIds]
  omega

theorem resize_nil {α : Type} (k : ℕ) (a : α) :
    resize [] (k : ℤ) a = some (List.replicate k a) := by
  rw [resize, if_neg (by omega)]
  simp

theorem wrap32_natCast (h : k < 2 ^ 31) : wrap32 k = k := wrap32_of_range (by omega) (by omega)

/-- The padding of an input that is not longer than the model takes. -/
theorem pad_eq (hn : n < 2 ^ 31) {d fuel : ℕ} (hlength : r.inputIds.length + d = n)
    (hfuel : d ≤ fuel) : pad v n fuel r = ⟨r.inputIds ++ List.replicate d v.padId,
      r.attentionMask ++ List.replicate d 0, r.tokenTypeIds ++ List.replicate d 0⟩ := by
  induction d generalizing fuel r with
  | zero =>
    have hsize := wrap32_natCast (k := r.inputIds.length) (by omega)
    cases fuel with
    | zero => simp [pad]
    | succ fuel =>
      rw [pad, if_neg (by omega)]
      simp
  | succ d ih =>
    have hsize := wrap32_natCast (k := r.inputIds.length) (by omega)
    obtain ⟨fuel, rfl⟩ : ∃ m, fuel = m + 1 := ⟨fuel - 1, by omega⟩
    have hpush : (r.push v).inputIds.length + d = n := by
      rw [Input.push, List.length_append, List.length_singleton]
      omega
    rw [pad, if_pos (by omega), ih hpush (by omega)]
    simp [Input.push, List.replicate_succ]

/-- Padding takes nothing away. -/
theorem length_le_pad (maxLength : ℤ) (fuel : ℕ) (r : Input) :
    r.inputIds.length ≤ (pad v maxLength fuel r).inputIds.length := by
  induction fuel generalizing r with
  | zero => exact le_rfl
  | succ fuel ih =>
    rw [pad]
    split_ifs
    · have hpush : r.inputIds.length ≤ (r.push v).inputIds.length := by simp [Input.push]
      exact hpush.trans (ih _)
    · exact le_rfl

/-- The ids of the first pieces, between those of the two tokens. -/
def framed (v : Vocabulary) (text : Bytes) (m : ℕ) : List ℤ :=
  v.clsId :: (wpIds v text).take m ++ [v.sepId]

theorem length_framed {m : ℕ} (hm : m ≤ (wpTokens v text).length) :
    (framed v text m).length = m + 2 := by
  simp [framed, wpIds, hm]

theorem tokenize_of_truncate {m : ℕ} {maxLength : ℤ} (hm : m ≤ (wpTokens v text).length)
    (hcut : truncate maxLength (wpTokens v text) = some ((wpTokens v text).take m)) :
    tokenize v text maxLength = (resize [] (wrap32 (m + 2 : ℕ)) 1).bind fun attentionMask =>
      (resize [] (wrap32 (m + 2 : ℕ)) 0).map fun tokenTypeIds =>
        pad v maxLength maxLength.toNat ⟨framed v text m, attentionMask, tokenTypeIds⟩ := by
  have hframed : v.clsId :: ((wpTokens v text).take m).map (tokenToId v) ++ [v.sepId] =
      framed v text m := by
    rw [framed, wpIds, List.map_take]
  rw [tokenize, hcut, Option.bind_some]
  dsimp only
  rw [hframed, length_framed hm]

/-- With no more pieces than the model takes beside its two tokens, the input has its shape. -/
theorem shape_of_truncate {m : ℕ} (hn : n < 2 ^ 31) (hle : m + 2 ≤ n)
    (hm : m ≤ (wpTokens v text).length)
    (hcut : truncate n (wpTokens v text) = some ((wpTokens v text).take m)) :
    ∃ r, tokenize v text n = some r ∧ Shape v text n (m + 2) r := by
  have hsize : wrap32 (m + 2 : ℕ) = (m + 2 : ℕ) := wrap32_natCast (by omega)
  have hlength : (framed v text m).length + (n - (m + 2)) = n := by
    rw [length_framed hm]
    omega
  rw [tokenize_of_truncate hm hcut, hsize, resize_nil, resize_nil]
  refine ⟨_, rfl, ?_⟩
  dsimp only
  rw [pad_eq hn hlength (by omega)]
  constructor
  · omega
  · exact hle
  · simpa [wpIds] using hm
  · simp [framed]
  · rfl
  · rw [List.replicate_append_replicate, Nat.add_sub_cancel' hle]

/-- A count of pieces that is above the limit, but not above it in 32 bits, breaks the shape. -/
theorem not_shape_of_wrapped (hmany : n < (wpTokens v text).length + 2)
    (hwrap : wrap32 (wpTokens v text).length ≤ (n : ℤ) - 2)
    (hr : tokenize v text n = some r) : ¬ Shape v text n k r := by
  intro hshape
  have hcut : truncate n (wpTokens v text) =
      some ((wpTokens v text).take (wpTokens v text).length) := by
    rw [truncate, if_neg (by omega), List.take_length]
  rw [tokenize_of_truncate le_rfl hcut] at hr
  obtain ⟨attentionMask, -, hr⟩ := Option.bind_eq_some_iff.mp hr
  obtain ⟨tokenTypeIds, -, rfl⟩ := Option.map_eq_some_iff.mp hr
  have hgrown := length_le_pad (v := v) n (n : ℤ).toNat
    ⟨framed v text (wpTokens v text).length, attentionMask, tokenTypeIds⟩
  rw [hshape.length_inputIds] at hgrown
  have hframed : (framed v text (wpTokens v text).length).length = _ := length_framed le_rfl
  dsimp only at hgrown
  omega

/-- The input of the model has its shape exactly if the pieces fit, or their count is above the
limit in 32 bits as well. -/
theorem tokenize_shape_iff (v : Vocabulary) (text : Bytes) (n : ℕ) (h2 : 2 ≤ n) (hn : n < 2 ^ 31) :
    (∃ r, tokenize v text n = some r ∧ ∃ k, Shape v text n k r) ↔
      (wpTokens v text).length + 2 ≤ n ∨ (n : ℤ) - 2 < wrap32 (wpTokens v text).length := by
  constructor
  · rintro ⟨r, hr, k, hshape⟩
    by_contra hno
    rw [not_or, not_le, not_lt] at hno
    exact not_shape_of_wrapped hno.1 hno.2 hr hshape
  · rintro (hfits | habove)
    · have hcut : truncate n (wpTokens v text) =
          some ((wpTokens v text).take (wpTokens v text).length) := by
        have hsize := wrap32_natCast (k := (wpTokens v text).length) (by omega)
        rw [truncate, if_neg (by omega), List.take_length]
      obtain ⟨r, hr, hshape⟩ := shape_of_truncate hn hfits le_rfl hcut
      exact ⟨r, hr, _, hshape⟩
    · have hcount := wrap32_le (i := (wpTokens v text).length) (by omega)
      have hkept : n - 2 ≤ (wpTokens v text).length := by omega
      have hcut : truncate n (wpTokens v text) = some ((wpTokens v text).take (n - 2)) := by
        have hsize : (n : ℤ) - 2 = (n - 2 : ℕ) := by omega
        rw [truncate, if_pos habove, resize, if_neg (by omega), hsize, Int.toNat_natCast,
          Nat.sub_eq_zero_of_le hkept, List.replicate_zero, List.append_nil]
      obtain ⟨r, hr, hshape⟩ := shape_of_truncate hn (by omega) hkept hcut
      exact ⟨r, hr, _, hshape⟩

end Shape

namespace Counterexample

/-- A vocabulary of one punctuation character. -/
def vocabulary : Vocabulary := { ids := fun key => if key = bytes "!" then some 4 else none }

theorem short_text_shape : ∃ r, tokenize vocabulary (bytes "!") 8 = some r ∧
    ∃ k, Shape vocabulary (bytes "!") 8 k r :=
  (tokenize_shape_iff vocabulary (bytes "!") 8 (by decide) (by decide)).mpr (Or.inl (by decide))

theorem basicTokenize_marks (n : ℕ) :
    basicTokenize [] (List.replicate n 0x21) = List.replicate n [0x21] := by
  induction n with
  | zero => rfl
  | succ n ih =>
    rw [List.replicate_succ, List.replicate_succ, basicTokenize, if_neg (by decide),
      if_pos (by decide), ih]
    rfl

theorem length_wpTokens_marks (n : ℕ) :
    (wpTokens vocabulary (List.replicate n 0x21)).length = n := by
  have hlower : normalizeText (List.replicate n 0x21) = List.replicate n 0x21 := by
    rw [normalizeText, List.map_replicate]
    rfl
  have hpiece : (wordPieceTokenize (fun key => (vocabulary.ids key).isSome) [0x21]).length = 1 := by
    decide
  rw [wpTokens, hlower, basicTokenize_marks, List.length_flatMap, List.map_replicate, hpiece]
  simp

/-- The count of the pieces of a text of two gigabytes is negative as an `int`. -/
theorem long_text_not_cut : ¬ ∀ (v : Vocabulary) (text : Bytes) (n : ℕ), 2 ≤ n → n < 2 ^ 31 →
    ∃ r, tokenize v text n = some r ∧ ∃ k, Shape v text n k r := by
  intro h
  obtain ⟨r, hr, k, hshape⟩ :=
    h vocabulary (List.replicate (2 ^ 31) 0x21) 128 (by decide) (by decide)
  refine not_shape_of_wrapped ?_ ?_ hr hshape
  · rw [length_wpTokens_marks]
    decide
  · rw [length_wpTokens_marks]
    decide

end Counterexample

end TokenizedInput
