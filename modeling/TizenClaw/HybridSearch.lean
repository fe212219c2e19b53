import TizenClaw.EmbeddingStore
import TizenClaw.OrderedMap
import Mathlib.Algebra.Order.Field.Basic
import Mathlib.Algebra.Order.Field.Rat
import Mathlib.Data.List.Perm.Basic

/-! The fusion of the vector search and the keyword search by reciprocal ranks. -/
namespace HybridSearch

open ByteString OrderedMap PipelineExecutor EmbeddingStore Ranking

abbrev Result := SearchResult ℚ

section Fusion

/-- The source of a result and the beginning of its chunk. -/
def keyOf (source chunkText : Bytes) : Bytes := source ++ bytes "::" ++ chunkText.take 50

def key (r : Result) : Bytes := keyOf r.source r.chunkText

def kRrfK : ℚ := 60

/-- The scores and the results by their keys. -/
structure Fused where
  rrfScores : Map Bytes ℚ := Map.empty
  resultMap : Map Bytes Result := Map.empty

def addScore (r : Result) (i : ℕ) (m : Map Bytes ℚ) : Map Bytes ℚ :=
  m.insert (key r) ((m.get (key r)).getD 0 + 1 / (kRrfK + i + 1))

def addVector (x : Fused) (r : Result × ℕ) : Fused where
  rrfScores := addScore r.1 r.2 x.rrfScores
  resultMap := x.resultMap.insert (key r.1) r.1

/-- The result of the vector search stays. -/
def addKeyword (x : Fused) (r : Result × ℕ) : Fused where
  rrfScores := addScore r.1 r.2 x.rrfScores
  resultMap :=
    if x.resultMap.contains (key r.1) then x.resultMap else x.resultMap.insert (key r.1) r.1

variable (sort : List (Bytes × ℚ) → List (Bytes × ℚ))

def fusion (vector keyword : List Result) : Fused :=
  keyword.zipIdx.foldl addKeyword (vector.zipIdx.foldl addVector {})

/-- `resize` throws for a negative size. -/
def fuse (vector keyword : List Result) (topK : ℤ) : Option (List Result) :=
  if keyword = [] then
    if topK < 0 then none else some (vector.take (min (vector.length : ℤ) topK).toNat)
  else
    let fused := fusion vector keyword
    let sorted := sort fused.rrfScores.entries
    some ((sorted.take (min topK sorted.length).toNat).filterMap fun e =>
      (fused.resultMap.get e.1).map fun r => { r with score := e.2 })

end Fusion

section Search

variable (similarity : List UInt32 → List UInt32 → ℚ)
variable (attach : List (List Row) → Bytes → Option (List Row))
variable (sortResults : List Result → List Result)
variable (sort : List (Bytes × ℚ) → List (Bytes × ℚ)) (bm25 : Bytes → ℤ → List Result)

/-- The keyword search takes the text of the query and a limit. -/
def keywordResults (s : Store) (queryText : Bytes) (limit : ℤ) : List Result :=
  if s.main = none ∨ queryText = [] then [] else bm25 queryText limit

/-- Both searches are asked for twice as many results. -/
def hybridSearch (s : Store) (queryText : Bytes) (query : List UInt32) (topK : ℤ) :
    Option (List Result) :=
  (search similarity attach sortResults s query (wrap32 (topK * 2))).1.bind fun vector =>
    fuse sort vector (keywordResults bm25 s queryText (wrap32 (topK * 2))) topK

end Search

section Specification

def pairOf (r : Result) : Bytes × Bytes := (r.source, r.chunkText)

def pairs (vector keyword : List Result) : List (Bytes × Bytes) :=
  ((vector ++ keyword).map pairOf).dedup

/-- The part of a list whose ranks begin behind `before` in the score of a pair. -/
def reciprocalRank (before : ℕ) (l : List Result) (p : Bytes × Bytes) : ℚ :=
  match l.findIdx? fun r => pairOf r = p with
  | some i => 1 / (60 + ((before + i + 1 : ℕ) : ℚ))
  | none => 0

def fusedScore (vector keyword : List Result) (p : Bytes × Bytes) : ℚ :=
  reciprocalRank 0 vector p + reciprocalRank 0 keyword p

/-- The results are the best of the distinct pairs; where lists were fused they have the scores of
their pairs. -/
structure ReciprocalRankFusion (vector keyword : List Result) (topK : ℤ) (results : List Result) :
    Prop where
  top : Top (fusedScore vector keyword) topK.toNat (pairs vector keyword) (results.map pairOf)
  score : keyword ≠ [] → ∀ r ∈ results, r.score = fusedScore vector keyword (pairOf r)

end Specification

section Scores

/-- What the occurrences of a key in a list add to its score. -/
def occurrences (k : Bytes) : ℕ → List Result → ℚ
  | _, [] => 0
  | before, r :: l =>
    (if key r = k then 1 / (60 + ((before + 1 : ℕ) : ℚ)) else 0) + occurrences k (before + 1) l

theorem term_pos (n : ℕ) : (0 : ℚ) < 1 / (60 + (n : ℚ)) := by
  have : (0 : ℚ) ≤ n := Nat.cast_nonneg n
  exact one_div_pos.mpr (by linarith)

theorem occurrences_nonneg (k : Bytes) (before : ℕ) (l : List Result) :
    0 ≤ occurrences k before l := by
  induction l generalizing before with
  | nil => exact le_refl 0
  | cons r l ih =>
    have := ih (before + 1)
    have := term_pos (before + 1)
    unfold occurrences
    split_ifs
    · linarith
    · linarith

theorem occurrences_eq_zero {k : Bytes} {before : ℕ} {l : List Result} :
    occurrences k before l = 0 ↔ ∀ r ∈ l, key r ≠ k := by
  induction l generalizing before with
  | nil => exact iff_of_true rfl fun r hr => by cases hr
  | cons r l ih =>
    have htail : occurrences k (before + 1) l = 0 ↔ ∀ r ∈ l, key r ≠ k := ih
    rw [List.forall_mem_cons, ← htail, occurrences]
    have hnonneg := occurrences_nonneg k (before + 1) l
    have hpos := term_pos (before + 1)
    split_ifs with hr
    · exact iff_of_false (by linarith) fun h => h.1 hr
    · rw [zero_add]
      exact ⟨fun h => ⟨hr, h⟩, fun h => h.2⟩

theorem reciprocalRank_cons (before : ℕ) (r : Result) (l : List Result) (p : Bytes × Bytes) :
    reciprocalRank before (r :: l) p =
      if pairOf r = p then 1 / (60 + ((before + 1 : ℕ) : ℚ))
      else reciprocalRank (before + 1) l p := by
  unfold reciprocalRank
  rw [List.findIdx?_cons]
  by_cases hr : pairOf r = p
  · simp [hr]
  · simp only [hr, decide_false, Bool.false_eq_true, if_false]
    cases l.findIdx? fun r => decide (pairOf r = p) with
    | none => rfl
    | some i =>
      change _ = 1 / (60 + ((before + 1 + i + 1 : ℕ) : ℚ))
      rw [Nat.add_right_comm before 1 i]
      rfl

/-- A pair counts with its first occurrence, its key with all of them. -/
theorem reciprocalRank_le {p : Bytes × Bytes} {l : List Result}
    (hkey : ∀ r ∈ l, key r = keyOf p.1 p.2 ↔ pairOf r = p) (before : ℕ) :
    reciprocalRank before l p ≤ occurrences (keyOf p.1 p.2) before l ∧
      (reciprocalRank before l p = occurrences (keyOf p.1 p.2) before l ↔
        (l.map pairOf).count p ≤ 1) := by
  induction l generalizing before with
  | nil => exact ⟨le_refl 0, iff_of_true rfl (Nat.zero_le 1)⟩
  | cons r l ih =>
    have hl : ∀ r ∈ l, key r = keyOf p.1 p.2 ↔ pairOf r = p :=
      fun r hr => hkey r (List.mem_cons_of_mem _ hr)
    obtain ⟨hle, heq⟩ := ih hl (before + 1)
    rw [reciprocalRank_cons, occurrences, List.map_cons]
    by_cases hr : pairOf r = p
    · have hnonneg := occurrences_nonneg (keyOf p.1 p.2) (before + 1) l
      rw [if_pos hr, if_pos ((hkey r List.mem_cons_self).mpr hr), hr, List.count_cons_self]
      refine ⟨by linarith, ?_⟩
      have hnone : (l.map pairOf).count p + 1 ≤ 1 ↔ ∀ r ∈ l, key r ≠ keyOf p.1 p.2 := by
        rw [(by omega : (l.map pairOf).count p + 1 ≤ 1 ↔ (l.map pairOf).count p = 0),
          List.count_eq_zero]
        constructor
        · exact fun h r hr hk => h (List.mem_map.mpr ⟨r, hr, (hl r hr).mp hk⟩)
        · intro h hp
          obtain ⟨r, hr, hrp⟩ := List.mem_map.mp hp
          exact h r hr ((hl r hr).mpr hrp)
      rw [left_eq_add, hnone, occurrences_eq_zero]
    · rw [if_neg hr, if_neg (mt (hkey r List.mem_cons_self).mp hr), zero_add,
        List.count_cons_of_ne hr]
      exact ⟨hle, heq⟩

end Scores

section Maps

variable {k : Bytes} {x : Fused} {l : List Result}

theorem get_addScore (r : Result) (i : ℕ) (m : Map Bytes ℚ) (k : Bytes) :
    ((addScore r i m).get k).getD 0 =
      (m.get k).getD 0 + if key r = k then 1 / (60 + ((i + 1 : ℕ) : ℚ)) else 0 := by
  unfold addScore
  split_ifs with hk
  · rw [← hk, Map.get_insert_self, Option.getD_some, kRrfK]
    push_cast
    rw [add_assoc (60 : ℚ)]
  · rw [Map.get_insert_other (Ne.symm hk), add_zero]

theorem contains_addScore (r : Result) (i : ℕ) (m : Map Bytes ℚ) (k : Bytes) :
    (addScore r i m).contains k = true ↔ key r = k ∨ m.contains k = true := by
  unfold addScore Map.contains
  by_cases hk : key r = k
  · rw [← hk, Map.get_insert_self]
    exact iff_of_true rfl (.inl rfl)
  · rw [Map.get_insert_other (Ne.symm hk), or_iff_right hk]

/-- What both searches do with an entry. -/
structure Adds (add : Fused → Result × ℕ → Fused) : Prop where
  score : ∀ x r, (add x r).rrfScores = addScore r.1 r.2 x.rrfScores
  found : ∀ x r k, (add x r).resultMap.contains k = true ↔
    key r.1 = k ∨ x.resultMap.contains k = true
  from_list : ∀ x r k result, (add x r).resultMap.get k = some result →
    (result = r.1 ∧ key r.1 = k) ∨ x.resultMap.get k = some result

theorem adds_insert {m : Map Bytes Result} {r result : Result} {k : Bytes}
    (h : (m.insert (key r) r).get k = some result) :
    (result = r ∧ key r = k) ∨ m.get k = some result := by
  by_cases hk : k = key r
  · rw [hk, Map.get_insert_self] at h
    exact .inl ⟨(Option.some.inj h).symm, hk.symm⟩
  · rw [Map.get_insert_other hk] at h
    exact .inr h

theorem contains_insert {m : Map Bytes Result} {r : Result} {k : Bytes} :
    (m.insert (key r) r).contains k = true ↔ key r = k ∨ m.contains k = true := by
  unfold Map.contains
  by_cases hk : key r = k
  · rw [← hk, Map.get_insert_self]
    exact iff_of_true rfl (.inl rfl)
  · rw [Map.get_insert_other (Ne.symm hk), or_iff_right hk]

theorem adds_vector : Adds addVector where
  score _ _ := rfl
  found _ _ _ := contains_insert
  from_list _ _ _ _ h := adds_insert h

theorem adds_keyword : Adds addKeyword where
  score _ _ := rfl
  found x r k := by
    unfold addKeyword
    dsimp only
    split_ifs with hc
    · constructor
      · exact .inr
      · rintro (rfl | h)
        · exact hc
        · exact h
    · exact contains_insert
  from_list x r k result h := by
    unfold addKeyword at h
    dsimp only at h
    split_ifs at h
    · exact .inr h
    · exact adds_insert h

variable {add : Fused → Result × ℕ → Fused}

theorem score_foldl (h : Adds add) (x : Fused) (before : ℕ) (l : List Result) (k : Bytes) :
    (((l.zipIdx before).foldl add x).rrfScores.get k).getD 0 =
      (x.rrfScores.get k).getD 0 + occurrences k before l := by
  induction l generalizing x before with
  | nil => exact (add_zero _).symm
  | cons r l ih =>
    rw [List.zipIdx_cons, List.foldl_cons, ih, h.score, get_addScore, occurrences, add_assoc]

/-- The keys of the entries so far. -/
structure Holds (x : Fused) (l : List Result) : Prop where
  scores : ∀ k, x.rrfScores.contains k = true ↔ ∃ r ∈ l, key r = k
  results : ∀ k, x.resultMap.contains k = true ↔ ∃ r ∈ l, key r = k
  from_list : ∀ k result, x.resultMap.get k = some result → result ∈ l ∧ key result = k

theorem holds_foldl (h : Adds add) {x : Fused} {seen : List Result} (hx : Holds x seen)
    (before : ℕ) (l : List Result) : Holds ((l.zipIdx before).foldl add x) (seen ++ l) := by
  induction l generalizing x seen before with
  | nil =>
    rw [List.append_nil]
    exact hx
  | cons r l ih =>
    have hmem : ∀ k, (∃ r' ∈ seen ++ [r], key r' = k) ↔ key r = k ∨ ∃ r' ∈ seen, key r' = k := by
      intro k
      simp only [List.mem_append, List.mem_singleton, or_and_right, exists_or, exists_eq_left]
      exact or_comm
    rw [List.zipIdx_cons, List.foldl_cons, List.append_cons]
    refine ih ⟨fun k => ?_, fun k => ?_, fun k result hk => ?_⟩ (before + 1)
    · rw [h.score, contains_addScore, hx.scores, hmem]
    · rw [h.found, hx.results, hmem]
    · rcases h.from_list _ _ _ _ hk with ⟨rfl, hk⟩ | hk
      · exact ⟨List.mem_append_right seen (List.mem_singleton_self _), hk⟩
      · exact ⟨List.mem_append_left [r] (hx.from_list k result hk).1, (hx.from_list k result hk).2⟩

theorem holds_fusion (vector keyword : List Result) :
    Holds (fusion vector keyword) (vector ++ keyword) := by
  have hempty : Holds {} [] := by
    refine ⟨fun k => ?_, fun k => ?_, fun k result hk => by cases hk⟩
    · exact iff_of_false (by simp [Map.contains, Map.get_empty]) (by simp)
    · exact iff_of_false (by simp [Map.contains, Map.get_empty]) (by simp)
  exact holds_foldl adds_keyword (holds_foldl adds_vector hempty 0 vector) 0 keyword

/-- The scores are the sums over all occurrences of their keys. -/
theorem score_fusion {vector keyword : List Result} {e : Bytes × ℚ}
    (he : e ∈ (fusion vector keyword).rrfScores.entries) :
    e.2 = occurrences e.1 0 vector + occurrences e.1 0 keyword := by
  have hget : (fusion vector keyword).rrfScores.get e.1 = some e.2 := Map.mem_iff_get.mp he
  have hscore : ((fusion vector keyword).rrfScores.get e.1).getD 0 =
      occurrences e.1 0 vector + occurrences e.1 0 keyword := by
    unfold fusion
    rw [score_foldl adds_keyword, score_foldl adds_vector]
    simp [Map.get_empty]
  rw [← hscore, hget, Option.getD_some]

end Maps

section Entries

variable {vector keyword : List Result} {sort : List (Bytes × ℚ) → List (Bytes × ℚ)}

/-- The result of an entry of the scores. -/
def entryResult (x : Fused) (e : Bytes × ℚ) : Result :=
  match x.resultMap.get e.1 with
  | some r => { r with score := e.2 }
  | none => ⟨[], [], e.2⟩

theorem entry_found {e : Bytes × ℚ} (he : e ∈ (fusion vector keyword).rrfScores.entries) :
    ∃ r ∈ vector ++ keyword, key r = e.1 ∧ (fusion vector keyword).resultMap.get e.1 = some r := by
  have hholds := holds_fusion vector keyword
  have hscore : (fusion vector keyword).rrfScores.contains e.1 = true := by
    unfold Map.contains
    rw [Map.mem_iff_get.mp he]
    rfl
  have hresult := (hholds.results e.1).mpr ((hholds.scores e.1).mp hscore)
  obtain ⟨r, hr⟩ := Option.isSome_iff_exists.mp hresult
  obtain ⟨hmem, hkey⟩ := hholds.from_list e.1 r hr
  exact ⟨r, hmem, hkey, hr⟩

/-- An entry has the key of its pair. -/
theorem entry_pair {e : Bytes × ℚ} (he : e ∈ (fusion vector keyword).rrfScores.entries) :
    pairOf (entryResult (fusion vector keyword) e) ∈ pairs vector keyword ∧
      key (entryResult (fusion vector keyword) e) = e.1 := by
  obtain ⟨r, hmem, hkey, hget⟩ := entry_found he
  unfold entryResult
  rw [hget]
  exact ⟨List.mem_dedup.mpr (List.mem_map.mpr ⟨r, hmem, rfl⟩), hkey⟩

theorem nodup_entry_pairs (vector keyword : List Result) :
    ((fusion vector keyword).rrfScores.entries.map
      fun e => pairOf (entryResult (fusion vector keyword) e)).Nodup := by
  apply List.Nodup.of_map fun p => keyOf p.1 p.2
  rw [List.map_map]
  have hkeys : (fusion vector keyword).rrfScores.entries.map
      ((fun p : Bytes × Bytes => keyOf p.1 p.2) ∘
        fun e => pairOf (entryResult (fusion vector keyword) e)) =
      (fusion vector keyword).rrfScores.entries.map Prod.fst :=
    List.map_congr_left fun e he => (entry_pair he).2
  rw [hkeys]
  exact (fusion vector keyword).rrfScores.nodup

/-- Different pairs have different keys exactly if each pair has an entry of its own. -/
theorem entry_pairs_perm_iff :
    ((fusion vector keyword).rrfScores.entries.map
      fun e => pairOf (entryResult (fusion vector keyword) e)).Perm (pairs vector keyword) ↔
    Set.InjOn (fun p => keyOf p.1 p.2) {p | p ∈ pairs vector keyword} := by
  constructor
  · intro hperm p hp q hq heq
    obtain ⟨e, he, rfl⟩ := List.mem_map.mp (hperm.mem_iff.mpr hp)
    obtain ⟨e', he', rfl⟩ := List.mem_map.mp (hperm.mem_iff.mpr hq)
    have hkey : e.1 = e'.1 := ((entry_pair he).2.symm.trans heq).trans (entry_pair he').2
    have hvalue := Map.mem_iff_get.mp he
    rw [hkey, Map.mem_iff_get.mp he'] at hvalue
    rw [Prod.ext hkey (Option.some.inj hvalue).symm]
  · intro hinj
    refine (List.perm_ext_iff_of_nodup (nodup_entry_pairs vector keyword)
      (List.nodup_dedup _)).mpr fun p => ⟨fun hp => ?_, fun hp => ?_⟩
    · obtain ⟨e, he, rfl⟩ := List.mem_map.mp hp
      exact (entry_pair he).1
    · obtain ⟨r, hr, rfl⟩ := List.mem_map.mp (List.mem_dedup.mp hp)
      have hscore := ((holds_fusion vector keyword).scores (key r)).mpr ⟨r, hr, rfl⟩
      obtain ⟨q, hq⟩ := Option.isSome_iff_exists.mp hscore
      have he := Map.mem_iff_get.mpr hq
      exact List.mem_map.mpr ⟨_, he, hinj (entry_pair he).1 hp (entry_pair he).2⟩

theorem fuse_eq (hsort : Sorts Prod.snd sort) (hk : keyword ≠ []) (topK : ℤ) :
    fuse sort vector keyword topK =
      some (((sort (fusion vector keyword).rrfScores.entries).take
        (min topK (fusion vector keyword).rrfScores.entries.length).toNat).map
          (entryResult (fusion vector keyword))) := by
  have hlen := (hsort.perm (fusion vector keyword).rrfScores.entries).length_eq
  unfold fuse
  rw [if_neg hk]
  dsimp only
  rw [hlen, ← List.filterMap_eq_map]
  congr 1
  refine List.filterMap_congr fun e he => ?_
  have he := (hsort.perm _).subset (List.mem_of_mem_take he)
  obtain ⟨r, -, -, hget⟩ := entry_found he
  rw [Function.comp_apply, entryResult, hget]
  rfl

end Entries

section Ranks

variable {vector keyword : List Result} {sort : List (Bytes × ℚ) → List (Bytes × ℚ)}

/-- No pair is twice in a list, and if lists are fused no two pairs have the same key. -/
structure Separate (vector keyword : List Result) : Prop where
  vectorOnce : (vector.map pairOf).Nodup
  keywordOnce : (keyword.map pairOf).Nodup
  keys : keyword ≠ [] → Set.InjOn (fun p => keyOf p.1 p.2) {p | p ∈ pairs vector keyword}

theorem fusedScore_iff (hinj : Set.InjOn (fun p => keyOf p.1 p.2) {p | p ∈ pairs vector keyword})
    {e : Bytes × ℚ} (he : e ∈ (fusion vector keyword).rrfScores.entries) {p : Bytes × Bytes}
    (hp : pairOf (entryResult (fusion vector keyword) e) = p) :
    e.2 = fusedScore vector keyword p ↔
      (vector.map pairOf).count p ≤ 1 ∧ (keyword.map pairOf).count p ≤ 1 := by
  obtain ⟨hmem, hkey⟩ := entry_pair he
  have hkey : keyOf p.1 p.2 = e.1 := hp ▸ hkey
  rw [hp] at hmem
  have hkeys : ∀ l, l ⊆ vector ++ keyword →
      ∀ r ∈ l, key r = keyOf p.1 p.2 ↔ pairOf r = p := by
    intro l hl r hr
    constructor
    · exact fun h => hinj (List.mem_dedup.mpr (List.mem_map.mpr ⟨r, hl hr, rfl⟩)) hmem h
    · rintro rfl
      rfl
  obtain ⟨hvle, hveq⟩ := reciprocalRank_le (hkeys vector (List.subset_append_left _ _)) 0
  obtain ⟨hkle, hkeq⟩ := reciprocalRank_le (hkeys keyword (List.subset_append_right _ _)) 0
  rw [score_fusion he, ← hkey, ← hveq, ← hkeq, fusedScore]
  constructor
  · exact fun h => ⟨by linarith, by linarith⟩
  · rintro ⟨hv, hk⟩
    rw [hv, hk]

theorem reciprocalRank_le_first (before : ℕ) (l : List Result) (p : Bytes × Bytes) :
    reciprocalRank before l p ≤ 1 / (60 + ((before + 1 : ℕ) : ℚ)) := by
  induction l generalizing before with
  | nil => exact (term_pos _).le
  | cons r l ih =>
    rw [reciprocalRank_cons]
    split_ifs
    · exact le_refl _
    · refine (ih (before + 1)).trans ?_
      have : (0 : ℚ) ≤ before := Nat.cast_nonneg before
      apply one_div_le_one_div_of_le
      · push_cast
        linarith
      · push_cast
        linarith

/-- A list without repetitions falls in its own ranks. -/
theorem falling_reciprocalRank {l : List Result} (h : (l.map pairOf).Nodup) (before : ℕ) :
    Falling (reciprocalRank before l) (l.map pairOf) := by
  induction l generalizing before with
  | nil => exact .nil
  | cons r l ih =>
    obtain ⟨hnot, hnodup⟩ := List.nodup_cons.mp h
    have hother : ∀ p ∈ l.map pairOf, reciprocalRank before (r :: l) p =
        reciprocalRank (before + 1) l p := by
      intro p hp
      have hne : pairOf r ≠ p := fun heq => hnot (heq ▸ hp)
      rw [reciprocalRank_cons, if_neg hne]
    refine List.pairwise_cons.mpr ⟨fun p hp => ?_, (ih hnodup (before + 1)).imp_of_mem ?_⟩
    · refine (reciprocalRank_le_first before (r :: l) p).trans ?_
      rw [reciprocalRank_cons, if_pos rfl]
    · intro p q hp hq hle
      rwa [hother p hp, hother q hq]

theorem fuse_separate (hsort : Sorts Prod.snd sort) (h : Separate vector keyword) {topK : ℤ}
    (htop : 0 < topK) :
    ∃ results, fuse sort vector keyword topK = some results ∧
      ReciprocalRankFusion vector keyword topK results := by
  by_cases hk : keyword = []
  · subst hk
    have hpairs : pairs vector [] = vector.map pairOf := by
      unfold pairs
      rw [List.append_nil, h.vectorOnce.dedup]
    have hscore : fusedScore vector [] = reciprocalRank 0 vector :=
      funext fun p => add_zero _
    refine ⟨vector.take (min (vector.length : ℤ) topK).toNat, ?_, ?_, fun hne => absurd rfl hne⟩
    · unfold fuse
      rw [if_pos rfl, if_neg (by omega)]
    · rw [hpairs, hscore, List.map_take]
      refine ((falling_reciprocalRank h.vectorOnce 0).top_take _).of_min_eq ?_
      rw [List.length_map]
      omega
  · have hinj := h.keys hk
    have hscores : ∀ e ∈ (fusion vector keyword).rrfScores.entries,
        fusedScore vector keyword (pairOf (entryResult (fusion vector keyword) e)) = e.2 :=
      fun e he => ((fusedScore_iff hinj he rfl).mpr ⟨List.nodup_iff_count_le_one.mp h.vectorOnce _,
        List.nodup_iff_count_le_one.mp h.keywordOnce _⟩).symm
    refine ⟨_, fuse_eq hsort hk topK, ?_, fun _ r hr => ?_⟩
    · rw [List.map_map]
      refine ((hsort.top_take _ _).map hscores).perm (entry_pairs_perm_iff.mpr hinj)
        |>.of_min_eq ?_
      have hlen := (entry_pairs_perm_iff.mpr hinj).length_eq
      rw [List.length_map] at hlen
      omega
    · obtain ⟨e, he, rfl⟩ := List.mem_map.mp hr
      have he := (hsort.perm _).subset (List.mem_of_mem_take he)
      rw [hscores e he]
      obtain ⟨r, -, -, hget⟩ := entry_found he
      unfold entryResult
      rw [hget]

/-- With a count for all pairs, each has its result. -/
theorem separate_of_fuse (hsort : Sorts Prod.snd sort)
    (h : ∀ topK : ℤ, 0 < topK → ∃ results, fuse sort vector keyword topK = some results ∧
      ReciprocalRankFusion vector keyword topK results) : Separate vector keyword := by
  by_cases hk : keyword = []
  · subst hk
    obtain ⟨results, hfuse, hrrf⟩ := h (vector.length + 1) (by omega)
    have hresults : results = vector := by
      unfold fuse at hfuse
      rw [if_pos rfl, if_neg (by omega)] at hfuse
      rw [← Option.some.inj hfuse]
      exact List.take_of_length_le (by omega)
    have hlen := hrrf.top.length
    rw [hresults, List.length_map, pairs, List.append_nil] at hlen
    refine ⟨?_, List.nodup_nil, fun hne => absurd rfl hne⟩
    have heq : (vector.map pairOf).dedup = vector.map pairOf := by
      apply (List.dedup_sublist _).eq_of_length_le
      rw [List.length_map]
      omega
    rw [← heq]
    exact List.nodup_dedup _
  · obtain ⟨results, hfuse, hrrf⟩ :=
      h ((fusion vector keyword).rrfScores.entries.length + (pairs vector keyword).length + 1)
        (by omega)
    have hlen := (hsort.perm (fusion vector keyword).rrfScores.entries).length_eq
    have hresults : results = (sort (fusion vector keyword).rrfScores.entries).map
        (entryResult (fusion vector keyword)) := by
      rw [fuse_eq hsort hk] at hfuse
      rw [← Option.some.inj hfuse, List.take_of_length_le (by omega)]
    have hinj : Set.InjOn (fun p => keyOf p.1 p.2) {p | p ∈ pairs vector keyword} := by
      apply entry_pairs_perm_iff.mp
      have hsub : (fusion vector keyword).rrfScores.entries.map
          (fun e => pairOf (entryResult (fusion vector keyword) e)) ⊆ pairs vector keyword := by
        intro p hp
        obtain ⟨e, he, rfl⟩ := List.mem_map.mp hp
        exact (entry_pair he).1
      apply ((nodup_entry_pairs vector keyword).subperm hsub).perm_of_length_le
      have htop := hrrf.top.length
      rw [hresults, List.length_map, List.length_map] at htop
      rw [List.length_map]
      omega
    have hcount : ∀ p ∈ pairs vector keyword,
        (vector.map pairOf).count p ≤ 1 ∧ (keyword.map pairOf).count p ≤ 1 := by
      intro p hp
      obtain ⟨e, he, hep⟩ := List.mem_map.mp ((entry_pairs_perm_iff.mpr hinj).mem_iff.mpr hp)
      have hr : entryResult (fusion vector keyword) e ∈ results := by
        rw [hresults]
        exact List.mem_map_of_mem ((hsort.perm _).mem_iff.mpr he)
      have hscore := hrrf.score hk _ hr
      rw [hep] at hscore
      apply (fusedScore_iff hinj he hep).mp
      rw [← hscore]
      obtain ⟨r, -, -, hget⟩ := entry_found he
      unfold entryResult
      rw [hget]
    refine ⟨List.nodup_iff_count_le_one.mpr fun p => ?_,
      List.nodup_iff_count_le_one.mpr fun p => ?_, fun _ => hinj⟩
    · by_cases hp : p ∈ vector.map pairOf
      · refine (hcount p (List.mem_dedup.mpr ?_)).1
        rw [List.map_append]
        exact List.mem_append_left _ hp
      · rw [List.count_eq_zero.mpr hp]
        exact Nat.zero_le 1
    · by_cases hp : p ∈ keyword.map pairOf
      · refine (hcount p (List.mem_dedup.mpr ?_)).2
        rw [List.map_append]
        exact List.mem_append_right _ hp
      · rw [List.count_eq_zero.mpr hp]
        exact Nat.zero_le 1

/-- Two lists are fused by their reciprocal ranks, for every count, exactly if no pair is twice in
one of them and no two pairs share a key. -/
theorem fuse_iff (hsort : Sorts Prod.snd sort) :
    (∀ topK : ℤ, 0 < topK → ∃ results, fuse sort vector keyword topK = some results ∧
      ReciprocalRankFusion vector keyword topK results) ↔ Separate vector keyword :=
  ⟨separate_of_fuse hsort, fun h _ htop => fuse_separate hsort h htop⟩

/-- A hybrid search fuses the keyword results with the best rows, if the two lists are separate. -/
theorem hybridSearch_separate {similarity : List UInt32 → List UInt32 → ℚ}
    {attach : List (List Row) → Bytes → Option (List Row)} {sortResults : List Result → List Result}
    {bm25 : Bytes → ℤ → List Result} (hsort : Sorts Prod.snd sort)
    (hresults : Sorts SearchResult.score sortResults) {s : Store} (hs : s.main ≠ none)
    {query : List UInt32} (hq : query ≠ []) (queryText : Bytes) {topK : ℤ} (h0 : 0 < topK)
    (hlt : topK < 2 ^ 30) (hrows : (candidates similarity attach s query).length < 2 ^ 31) :
    ∃ vector,
      Top SearchResult.score (topK * 2).toNat (candidates similarity attach s query) vector ∧
      (Separate vector (keywordResults bm25 s queryText (topK * 2)) →
        ∃ results, hybridSearch similarity attach sortResults sort bm25 s queryText query topK =
            some results ∧
          ReciprocalRankFusion vector (keywordResults bm25 s queryText (topK * 2)) topK
            results) := by
  obtain ⟨n, rfl⟩ := Int.eq_ofNat_of_zero_le h0.le
  have hwrap : wrap32 ((n : ℤ) * 2) = n * 2 := wrap32_of_range (by omega) (by omega)
  have htwice : (0 : ℤ) ≤ n * 2 := by omega
  obtain ⟨vector, hsearch, htop⟩ := search_top hresults hs hq htwice (.inl hrows)
  refine ⟨vector, htop, fun h => ?_⟩
  unfold hybridSearch
  rw [hwrap, hsearch]
  exact fuse_separate hsort h h0

end Ranks

namespace Counterexample

def sortScores (l : List (Bytes × ℚ)) : List (Bytes × ℚ) := l.mergeSort fun a b => b.2 ≤ a.2

/-- Chunks of a document that begin alike. -/
def chunk (tail : String) : Result :=
  ⟨bytes "manual",
    bytes "Chapter: installation and configuration of the service, " ++ bytes tail, 0⟩

theorem keys_merged :
    key (chunk "part one") = key (chunk "part two") ∧
      pairOf (chunk "part one") ≠ pairOf (chunk "part two") := by
  refine ⟨by decide, by decide⟩

/-- One chunk is found by each search, and only one of them is returned. -/
theorem chunks_merged :
    ¬ ∀ topK : ℤ, 0 < topK →
      ∃ results, fuse sortScores [chunk "part one"] [chunk "part two"] topK = some results ∧
        ReciprocalRankFusion [chunk "part one"] [chunk "part two"] topK results := by
  intro h
  have hinj := (separate_of_fuse (sorts_mergeSort Prod.snd) h).keys (List.cons_ne_nil _ _)
  exact keys_merged.2 (hinj (by decide) (by decide) keys_merged.1)

def hello : Result := ⟨bytes "notes", bytes "hello", 0⟩
def world : Result := ⟨bytes "notes", bytes "world", 0⟩

theorem notes_fused :
    ∃ results, fuse sortScores [hello, world] [world] 2 = some results ∧
      ReciprocalRankFusion [hello, world] [world] 2 results := by
  refine (fuse_iff (sorts_mergeSort Prod.snd)).mpr ⟨by decide, by decide, fun _ => ?_⟩ 2
    (by decide)
  have hpairs : pairs [hello, world] [world] = [pairOf hello, pairOf world] := by decide
  rw [hpairs]
  intro p hp q hq heq
  rcases List.mem_pair.mp hp with rfl | rfl
  · rcases List.mem_pair.mp hq with rfl | rfl
    · rfl
    · exact absurd heq (by decide)
  · rcases List.mem_pair.mp hq with rfl | rfl
    · exact absurd heq (by decide)
    · rfl

end Counterexample

end HybridSearch
