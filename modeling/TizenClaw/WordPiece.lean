import TizenClaw.GreedySegments
import TizenClaw.Utf8

/-! The word pieces of the embedding model: the greedy segmentation of a word with the pieces of a
vocabulary, and what the tokenizer makes of it. -/
namespace WordPiece

open ByteString GreedySegments

section Tokenizer

variable (vocab : Bytes → Bool)

def unk : Bytes := bytes "[UNK]"

/-- A piece as it is looked up: behind the beginning of the word it has a mark. -/
def mark (first : Bool) (piece : Bytes) : Bytes := if first then piece else bytes "##" ++ piece

/-- The inner loop: the end of the piece comes down from a length. -/
def bestMatch (first : Bool) (s : Bytes) : ℕ → Option ℕ
  | 0 => none
  | n + 1 => if vocab (mark first (s.take (n + 1))) then some (n + 1) else bestMatch first s n

/-- The outer loop. What was found before a place without a match is kept. -/
def split : ℕ → Bool → Bytes → List Bytes
  | 0, _, _ => []
  | fuel + 1, first, s =>
    if s = [] then []
    else match bestMatch vocab first s s.length with
      | none => [unk]
      | some n => mark first (s.take n) :: split fuel false (s.drop n)

/-- `WordPieceTokenize`; each piece has at least one byte. -/
def wordPieceTokenize (token : Bytes) : List Bytes :=
  if token = [] then []
  else if vocab token then [token]
  else split vocab token.length true token

end Tokenizer

section Reference

variable (vocab : Bytes → Bool)

/-- A piece of the vocabulary, whatever follows. -/
def Piece (first : Bool) (p _rest : Bytes) : Prop := vocab (mark first p) = true

/-- What follows does not begin within a character. -/
def Boundary (rest : Bytes) : Prop := ∀ b ∈ rest.head?, ¬ (0x80 ≤ b ∧ b ≤ 0xBF)

/-- A piece of the vocabulary that ends between characters. -/
def CharPiece (first : Bool) (p rest : Bytes) : Prop := Piece vocab first p rest ∧ Boundary rest

/-- The pieces as they are looked up. -/
def marks : Bool → List Bytes → List Bytes
  | _, [] => []
  | first, p :: ps => mark first p :: marks false ps

/-- The pieces of the greedy segmentation at characters, or the unknown token if there is none. -/
def Segmented (word : Bytes) (result : List Bytes) : Prop :=
  (∃ ps, Greedy (CharPiece vocab) true word ps ∧ result = marks true ps) ∨
    (¬ ∃ ps, Greedy (CharPiece vocab) true word ps) ∧ result = [unk]

/-- What the loop makes of a text. -/
inductive Result : Bool → Bytes → List Bytes → Prop where
  | nil {first} : Result first [] []
  | stuck {first s} : s ≠ [] → Stuck (Piece vocab first) s → Result first s [unk]
  | cons {first p rest result} : Longest (Piece vocab first) p rest → Result false rest result →
      Result first (p ++ rest) (mark first p :: result)

variable {vocab} {first : Bool} {s p rest word : Bytes} {ps result : List Bytes}

theorem mark_inj {a b : Bytes} (h : mark first a = mark first b) : a = b := by
  cases first with
  | true => exact h
  | false => exact List.append_cancel_left h

/-- The match that is found is the longest one. -/
theorem bestMatch_some {n k : ℕ} (h : bestMatch vocab first s n = some k) :
    0 < k ∧ k ≤ n ∧ vocab (mark first (s.take k)) = true ∧
      ∀ j, k < j → j ≤ n → vocab (mark first (s.take j)) = false := by
  induction n with
  | zero => cases h
  | succ n ih =>
    rw [bestMatch] at h
    split_ifs at h with hv
    · obtain rfl := Option.some.inj h
      exact ⟨Nat.succ_pos n, le_rfl, hv, fun j hj hle => absurd hle (by omega)⟩
    · obtain ⟨hpos, hle, hk, hlater⟩ := ih h
      refine ⟨hpos, by omega, hk, fun j hj hjn => ?_⟩
      rcases Nat.lt_or_ge n j with hlt | hge
      · obtain rfl : j = n + 1 := by omega
        simpa using hv
      · exact hlater j hj hge

theorem bestMatch_none {n : ℕ} (h : bestMatch vocab first s n = none) :
    ∀ j, 0 < j → j ≤ n → vocab (mark first (s.take j)) = false := by
  induction n with
  | zero => exact fun j hpos hle => absurd hle (by omega)
  | succ n ih =>
    rw [bestMatch] at h
    split_ifs at h with hv
    intro j hpos hle
    rcases Nat.lt_or_ge n j with hlt | hge
    · obtain rfl : j = n + 1 := by omega
      simpa using hv
    · exact ih h j hpos hge

theorem stuck_of_bestMatch (h : bestMatch vocab first s s.length = none) :
    Stuck (Piece vocab first) s := by
  rintro p rest hne rfl hp
  have hnone := bestMatch_none h p.length (List.length_pos_of_ne_nil hne) (by simp)
  rw [List.take_left] at hnone
  exact absurd hp (by simp [Piece, hnone])

theorem longest_of_bestMatch {n : ℕ} (h : bestMatch vocab first s s.length = some n) :
    Longest (Piece vocab first) (s.take n) (s.drop n) := by
  obtain ⟨hpos, hle, hn, hlater⟩ := bestMatch_some h
  have hlength : (s.take n).length = n := by
    rw [List.length_take]
    omega
  refine ⟨List.ne_nil_of_length_pos (by omega), hn, fun q r hne heq hq => ?_⟩
  rw [List.take_append_drop] at heq
  rw [hlength]
  by_contra hlt
  have hq' := hlater q.length (by omega) (by rw [← heq]; simp)
  rw [← heq, List.take_left] at hq'
  exact absurd hq (by simp [Piece, hq'])

/-- As much fuel as the text has bytes is enough. -/
theorem split_result {fuel : ℕ} (h : s.length ≤ fuel) :
    Result vocab first s (split vocab fuel first s) := by
  induction fuel generalizing first s with
  | zero =>
    obtain rfl := List.eq_nil_of_length_eq_zero (Nat.le_zero.mp h)
    exact .nil
  | succ fuel ih =>
    rw [split]
    by_cases hs : s = []
    · rw [if_pos hs, hs]
      exact .nil
    rw [if_neg hs]
    cases hm : bestMatch vocab first s s.length with
    | none => exact .stuck hs (stuck_of_bestMatch hm)
    | some n =>
      have hlonger : (s.drop n).length ≤ fuel := by
        have hpos := (bestMatch_some hm).1
        rw [List.length_drop]
        omega
      have hcons := Result.cons (longest_of_bestMatch hm) (@ih false _ hlonger)
      rwa [List.take_append_drop] at hcons

theorem wordPieceTokenize_result (word : Bytes) :
    Result vocab true word (wordPieceTokenize vocab word) := by
  unfold wordPieceTokenize
  split_ifs with hnil hwhole
  · rw [hnil]
    exact .nil
  · have hcons := Result.cons (longest_of_all (Q := Piece vocab true) hnil hwhole) Result.nil
    rwa [List.append_nil] at hcons
  · exact split_result le_rfl

/-- The loop yields a segmentation into longest pieces where there is one. -/
theorem Result.of_greedy (h : Result vocab first s result)
    (hg : Greedy (Piece vocab) first s ps) : result = marks first ps := by
  induction h generalizing ps with
  | nil =>
    rw [hg.unique .nil]
    rfl
  | stuck hne hstuck =>
    cases hg with
    | nil => exact absurd rfl hne
    | cons hl _ => exact absurd hstuck hl.not_stuck
  | @cons first p rest result hl _ ih =>
    cases ps with
    | nil =>
      have hnil := hg.flatten
      exact absurd (List.append_eq_nil_iff.mp hnil.symm).1 hl.ne_nil
    | cons q ps =>
      obtain ⟨r, heq, hl', hg'⟩ := hg.cons_inv
      obtain ⟨rfl, rfl⟩ := hl.unique hl' heq
      rw [marks, ih hg']

/-- If the loop yields a segmentation at characters, it found no longer pieces in between. -/
theorem Result.greedy_of_marks (h : Result vocab first s (marks first ps))
    (hg : Greedy (CharPiece vocab) first s ps) : Greedy (Piece vocab) first s ps := by
  generalize hr : marks first ps = r at h
  induction h generalizing ps with
  | nil =>
    rw [hg.unique .nil]
    exact .nil
  | stuck hne hstuck =>
    cases hg with
    | nil => exact .nil
    | cons hl _ => exact absurd hl.allowed.1 (hstuck _ _ hl.ne_nil rfl)
  | @cons first p rest result hl _ ih =>
    cases ps with
    | nil => cases hr
    | cons q ps =>
      obtain ⟨r, heq, hl', hg'⟩ := hg.cons_inv
      obtain ⟨hmark, hrest⟩ := List.cons.inj hr
      obtain rfl := mark_inj hmark
      obtain rfl := List.append_cancel_left heq
      exact .cons hl (ih hg' hrest)

theorem Result.eq_nil (h : Result vocab first s []) : s = [] := by
  cases h
  rfl

/-- The tokenizer segments a word as it should exactly if the pieces that are longest in bytes cover
it and all end between characters, or nothing of the vocabulary begins it. -/
theorem segmented_iff (vocab : Bytes → Bool) (word : Bytes) :
    Segmented vocab word (wordPieceTokenize vocab word) ↔
      (∃ ps, Greedy (Piece vocab) true word ps ∧ Greedy (CharPiece vocab) true word ps) ∨
        word ≠ [] ∧ Stuck (Piece vocab true) word := by
  have hresult : Result vocab true word (wordPieceTokenize vocab word) :=
    wordPieceTokenize_result word
  generalize wordPieceTokenize vocab word = result at hresult ⊢
  constructor
  · rintro (⟨ps, hg, rfl⟩ | ⟨hnone, rfl⟩)
    · exact Or.inl ⟨ps, hresult.greedy_of_marks hg, hg⟩
    · generalize hr : [unk] = r at hresult
      cases hresult with
      | nil => cases hr
      | stuck hne hstuck => exact Or.inr ⟨hne, hstuck⟩
      | @cons _ p rest result hl htail =>
        obtain rfl := (List.cons.inj hr).2
        obtain rfl := htail.eq_nil
        have hwhole : Longest (CharPiece vocab true) p [] :=
          longest_of_all hl.ne_nil ⟨hl.allowed, by simp [Boundary]⟩
        exact absurd ⟨[p], .cons hwhole .nil⟩ hnone
  · rintro (⟨ps, hbytes, hchars⟩ | ⟨hne, hstuck⟩)
    · exact Or.inl ⟨ps, hchars, hresult.of_greedy hbytes⟩
    · refine Or.inr ⟨?_, ?_⟩
      · rintro ⟨ps, hg⟩
        cases hg with
        | nil => exact hne rfl
        | cons hl _ => exact hstuck _ _ hl.ne_nil rfl hl.allowed.1
      · cases hresult with
        | nil => exact absurd rfl hne
        | stuck _ _ => rfl
        | cons hl _ => exact absurd hstuck hl.not_stuck

/-- What is left of a text behind a piece that is text begins between characters. -/
theorem boundary_of_valid (h : Utf8.valid rest = true) : Boundary rest := by
  cases rest with
  | nil => simp [Boundary]
  | cons b rest =>
    intro c hc hb
    obtain rfl := Option.some.inj hc
    have hlead : Utf8.leadRanges b = none := by grind [Utf8.leadRanges]
    rw [Utf8.valid_iff, Utf8.run_cons] at h
    simp [Utf8.step, hlead] at h

/-- If the vocabulary and the word are text, the longest pieces in bytes end between characters. -/
theorem greedy_chars (hvocab : ∀ key, vocab key = true → Utf8.valid key = true)
    (hg : Greedy (Piece vocab) first s ps) (hs : Utf8.valid s = true) :
    Greedy (CharPiece vocab) first s ps := by
  induction hg with
  | nil => exact .nil
  | @cons first p rest ps hl _ ih =>
    have hp : Utf8.valid p = true := by
      have hmark := hvocab _ hl.allowed
      cases first with
      | true => exact hmark
      | false => rwa [mark, if_neg Bool.false_ne_true, Utf8.valid_append (by decide)] at hmark
    have hrest : Utf8.valid rest = true := by rwa [Utf8.valid_append hp] at hs
    exact .cons (hl.restrict ⟨hl.allowed, boundary_of_valid hrest⟩ fun q r hq => hq.1) (ih hrest)

end Reference

namespace Counterexample

/-- A vocabulary of one piece. -/
def vocab (key : Bytes) : Bool := key = bytes "ab"

/-- The piece before the unknown rest of the word is kept. -/
theorem piece_kept : wordPieceTokenize vocab (bytes "abc") = [bytes "ab", unk] := by decide

theorem unknown_rest : ¬ ∀ (vocab : Bytes → Bool) (word : Bytes),
    Segmented vocab word (wordPieceTokenize vocab word) := by
  intro h
  rcases h vocab (bytes "abc") with ⟨ps, hg, hr⟩ | ⟨-, hr⟩
  · rw [piece_kept] at hr
    generalize bytes "abc" = word at hg
    cases hg with
    | nil => cases hr
    | cons _ hg =>
      obtain ⟨-, htail⟩ := List.cons.inj hr
      cases hg with
      | nil => cases htail
      | cons _ _ =>
        -- a piece that continues the word begins with `#`
        have hhead : some (0x5B : UInt8) = some 0x23 :=
          congrArg List.head? (List.cons.inj htail).1
        cases hhead
  · rw [piece_kept] at hr
    cases hr

end Counterexample

end WordPiece
