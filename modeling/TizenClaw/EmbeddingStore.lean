import TizenClaw.EmbeddingBlobs
import TizenClaw.PipelineExecutor
import TizenClaw.Ranking

/-! The search of the document store: all rows of all tables are scored, and the best are
returned. -/
namespace EmbeddingStore

open ByteString JsonValue EmbeddingBlobs PipelineExecutor Ranking

/-- A row of a table of documents; the texts may be missing in a database from elsewhere. -/
structure Row where
  source : Option Bytes
  chunkText : Option Bytes
  embedding : Bytes

structure SearchResult (σ : Type*) where
  source : Bytes
  chunkText : Bytes
  score : σ
  deriving DecidableEq

/-- The databases of the store: its own one while it is open, the attached ones, and the files that
are attached with the first search. -/
structure Store where
  main : Option (List Row) := none
  knowledge : List (List Row) := []
  pendingPaths : List Bytes := []
  knowledgeAttached : Bool := false

section Tables

variable (attach : List (List Row) → Bytes → Option (List Row))

/-- A file that cannot be attached is left out. -/
def attachKnowledgeDB (s : Store) (path : Bytes) : Store :=
  match s.main, attach s.knowledge path with
  | some _, some rows => { s with knowledge := s.knowledge ++ [rows] }
  | _, _ => s

def ensureKnowledgeAttached (s : Store) : Store :=
  if s.knowledgeAttached ∨ s.pendingPaths = [] then s
  else { s.pendingPaths.foldl (attachKnowledgeDB attach) s with knowledgeAttached := true }

/-- All rows, in the order they are scanned. -/
def Store.rows (s : Store) : List Row := s.main.getD [] ++ s.knowledge.flatten

end Tables

section Search

variable {σ : Type*}
variable (similarity : List UInt32 → List UInt32 → σ)

/-- A text column up to its first zero, as a string has it. -/
def column (text : Option Bytes) : Bytes := (text.getD []).takeWhile (· ≠ 0)

def scored (query : List UInt32) (r : Row) : SearchResult σ where
  source := column r.source
  chunkText := column r.chunkText
  score := similarity query (decode r.embedding)

/-- The elements from the beginning of a list up to an offset; outside of the list there is no
such range. -/
def assign {α : Type*} (l : List α) (count : ℤ) : Option (List α) :=
  if 0 ≤ count ∧ count ≤ l.length then some (l.take count.toNat) else none

variable (attach : List (List Row) → Bytes → Option (List Row))
variable (sort : List (SearchResult σ) → List (SearchResult σ))

/-- `Search`, if all ranges it forms are there. -/
def search (s : Store) (query : List UInt32) (topK : ℤ) :
    Option (List (SearchResult σ)) × Store :=
  let s := ensureKnowledgeAttached attach s
  if s.main = none ∨ query = [] then (some [], s)
  else
    let all := s.rows.map (scored similarity query)
    let count := min topK (wrap32 all.length)
    (assign (sort all) count, s)

end Search

section Tool

variable (truncate : NumberText → ℤ)

/-- What the tool takes from its arguments. -/
def searchArguments (args : Json) : Except JsonException (Bytes × ℤ) := do
  let query ← args.valueString (bytes "query") []
  let topK ← args.value (getInt truncate) (bytes "top_k") 5
  pure (query, topK)

end Tool

section Results

variable {σ : Type*} {similarity : List UInt32 → List UInt32 → σ}
variable {attach : List (List Row) → Bytes → Option (List Row)}
variable {sort : List (SearchResult σ) → List (SearchResult σ)}

variable (similarity attach) in
/-- The scored rows of all tables. -/
def candidates (s : Store) (query : List UInt32) : List (SearchResult σ) :=
  (ensureKnowledgeAttached attach s).rows.map (scored similarity query)

theorem main_attachKnowledgeDB (s : Store) (path : Bytes) :
    (attachKnowledgeDB attach s path).main = s.main := by
  unfold attachKnowledgeDB
  split
  · rfl
  · rfl

theorem main_ensureKnowledgeAttached (s : Store) :
    (ensureKnowledgeAttached attach s).main = s.main := by
  have hfold : ∀ (paths : List Bytes) (s : Store),
      (paths.foldl (attachKnowledgeDB attach) s).main = s.main := by
    intro paths
    induction paths with
    | nil => exact fun s => rfl
    | cons path paths ih =>
      intro s
      rw [List.foldl_cons, ih, main_attachKnowledgeDB]
  unfold ensureKnowledgeAttached
  split_ifs
  · rfl
  · exact hfold s.pendingPaths s

theorem search_open {s : Store} (hs : s.main ≠ none) {query : List UInt32} (hq : query ≠ [])
    (topK : ℤ) :
    (search similarity attach sort s query topK).1 =
      assign (sort (candidates similarity attach s query))
        (min topK (wrap32 (candidates similarity attach s query).length)) := by
  unfold search candidates
  dsimp only
  rw [main_ensureKnowledgeAttached, if_neg (not_or.mpr ⟨hs, hq⟩)]

variable [LinearOrder σ]

theorem search_top (hsort : Sorts SearchResult.score sort) {s : Store} (hs : s.main ≠ none)
    {query : List UInt32} (hq : query ≠ []) {topK : ℤ} (h0 : 0 ≤ topK)
    (h : (candidates similarity attach s query).length < 2 ^ 31 ∨
      topK ≤ wrap32 (candidates similarity attach s query).length) :
    ∃ results, (search similarity attach sort s query topK).1 = some results ∧
      Top SearchResult.score topK.toNat (candidates similarity attach s query) results := by
  rw [search_open hs hq]
  generalize candidates similarity attach s query = all at h ⊢
  have hlen := (hsort.perm all).length_eq
  have hle := wrap32_le (i := all.length) (by omega)
  have hk : min topK (wrap32 all.length) = min topK all.length := by
    rcases h with h | h
    · rw [wrap32_of_range (by omega) (by omega)]
    · omega
  unfold assign
  rw [hk, if_pos (by omega)]
  exact ⟨_, rfl, (hsort.top_take all _).of_min_eq (by omega)⟩

/-- An open store returns the best rows exactly if their count is not negative, and either all rows
can be counted in 32 bits or the rows are more than enough all the same. -/
theorem search_iff (hsort : Sorts SearchResult.score sort) {s : Store} (hs : s.main ≠ none)
    {query : List UInt32} (hq : query ≠ []) (topK : ℤ) :
    (∃ results, (search similarity attach sort s query topK).1 = some results ∧
      Top SearchResult.score (max topK 0).toNat (candidates similarity attach s query) results) ↔
    0 ≤ topK ∧ ((candidates similarity attach s query).length < 2 ^ 31 ∨
      topK ≤ wrap32 (candidates similarity attach s query).length) := by
  constructor
  · rintro ⟨results, hsearch, htop⟩
    rw [search_open hs hq] at hsearch
    generalize candidates similarity attach s query = all at hsearch htop ⊢
    have hlen := (hsort.perm all).length_eq
    have hwrap := wrap32_lt all.length
    unfold assign at hsearch
    split_ifs at hsearch with hcount
    obtain rfl := Option.some.inj hsearch
    have hsize := htop.length
    rw [List.length_take] at hsize
    refine ⟨by omega, ?_⟩
    by_contra hbig
    rw [not_or] at hbig
    omega
  · rintro ⟨h0, h⟩
    rw [max_eq_left h0]
    exact search_top hsort hs hq h0 h

end Results

namespace Counterexample

/-- A score of 1 for the same vector, else 0. -/
def same (a b : List UInt32) : ℤ := if a = b then 1 else 0

def noFile (_ : List (List Row)) (_ : Bytes) : Option (List Row) := none

def sortResults (l : List (SearchResult ℤ)) : List (SearchResult ℤ) :=
  l.mergeSort fun a b => b.score ≤ a.score

def one : List UInt32 := [0x3F800000]

def notes : Store where
  main := some [⟨some (bytes "notes"), some (bytes "hello"), floatsToBlob one⟩]

/-- The model asks for a result less than none. -/
def request : Json := .obj [(bytes "query", .str (bytes "hello")), (bytes "top_k", .int (-1))]

theorem search_out_of_range :
    searchArguments (fun _ => 0) request = .ok (bytes "hello", -1) ∧
      ¬ ∃ results, (search same noFile sortResults notes one (-1)).1 = some results := by
  refine ⟨by decide, ?_⟩
  rintro ⟨results, h⟩
  rw [search_open (by simp [notes]) (by decide)] at h
  have hone : (candidates same noFile notes one).length = 1 := rfl
  rw [hone, assign, if_neg (by decide)] at h
  cases h

theorem search_notes :
    ∃ results, (search same noFile sortResults notes one 5).1 = some results ∧
      Top SearchResult.score 5 (candidates same noFile notes one) results :=
  (search_iff (sorts_mergeSort SearchResult.score) (by simp [notes]) (by decide) 5).mpr
    ⟨by decide, .inl (by decide)⟩

end Counterexample

end EmbeddingStore
