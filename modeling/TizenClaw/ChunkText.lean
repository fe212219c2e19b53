import TizenClaw.ByteString
import TizenClaw.Iteration
import Mathlib.Data.List.Chain

/-! The splitting of a document into overlapping chunks that end at sentences where they can. -/
namespace ChunkText

open ByteString Iteration

/-- `rfind` of a byte: its last position up to `pos`. -/
def rfind (c : UInt8) (s : Bytes) : ℕ → Option ℕ
  | 0 => if s[0]? = some c then some 0 else none
  | pos + 1 => if s[pos + 1]? = some c then some (pos + 1) else rfind c s pos

abbrev period : UInt8 := 0x2E

/-- The local variables of the loop. -/
structure Loop where
  pos : ℕ := 0
  chunks : List Bytes := []

section Loop

variable (text : Bytes) (chunkSize overlap : ℕ)

/-- The end of the chunk at a position: behind the last period of its second half, if there is
one. -/
def chunkEnd (pos : ℕ) : ℕ :=
  let stop := min (pos + chunkSize) text.length
  if stop < text.length then
    match rfind period text stop with
    | some lastPeriod => if pos + chunkSize / 2 < lastPeriod then lastPeriod + 1 else stop
    | none => stop
  else stop

def nextPos (stop : ℕ) : ℕ := if overlap < stop then stop - overlap else stop

def substr (pos stop : ℕ) : Bytes := (text.drop pos).take (stop - pos)

def iterate (l : Loop) : Loop ⊕ List Bytes :=
  if l.pos < text.length then
    let stop := chunkEnd text chunkSize l.pos
    let chunks := l.chunks ++ [substr text l.pos stop]
    if text.length ≤ stop then .inr chunks
    else .inl { pos := nextPos overlap stop, chunks }
  else .inr l.chunks

/-- `ChunkText` returns these chunks. -/
def Returns (chunks : List Bytes) : Prop :=
  if text = [] ∨ chunkSize = 0 then chunks = []
  else ∃ n, run (iterate text chunkSize overlap) n {} = some chunks

/-- An iteration of the loop begins here. -/
def Visited (pos : ℕ) : Prop :=
  pos < text.length ∧ ∃ n l, after (iterate text chunkSize overlap) n {} = some l ∧ l.pos = pos

/-- The iteration that begins here adds a chunk. -/
def Emits (pos : ℕ) (chunk : Bytes) : Prop :=
  ∃ n l, after (iterate text chunkSize overlap) n {} = some l ∧ l.pos = pos ∧
    ((∃ l', iterate text chunkSize overlap l = .inl l' ∧ l'.chunks = l.chunks ++ [chunk]) ∨
      iterate text chunkSize overlap l = .inr (l.chunks ++ [chunk]))

end Loop

section Rfind

variable {c : UInt8} {s : Bytes} {pos i : ℕ}

theorem rfind_some (h : rfind c s pos = some i) :
    i ≤ pos ∧ s[i]? = some c ∧ ∀ j, i < j → j ≤ pos → s[j]? ≠ some c := by
  induction pos with
  | zero =>
    unfold rfind at h
    split_ifs at h with hc
    obtain rfl := Option.some.inj h
    exact ⟨le_refl 0, hc, fun j hij hj => by omega⟩
  | succ pos ih =>
    unfold rfind at h
    split_ifs at h with hc
    · obtain rfl := Option.some.inj h
      exact ⟨le_refl _, hc, fun j hij hj => by omega⟩
    · obtain ⟨hle, hi, hlast⟩ := ih h
      refine ⟨by omega, hi, fun j hij hj => ?_⟩
      by_cases hjp : j = pos + 1
      · rw [hjp]
        exact hc
      · exact hlast j hij (by omega)

theorem rfind_none (h : rfind c s pos = none) : ∀ j ≤ pos, s[j]? ≠ some c := by
  induction pos with
  | zero =>
    unfold rfind at h
    split_ifs at h with hc
    intro j hj
    obtain rfl : j = 0 := by omega
    exact hc
  | succ pos ih =>
    unfold rfind at h
    split_ifs at h with hc
    intro j hj
    by_cases hjp : j = pos + 1
    · rw [hjp]
      exact hc
    · exact ih h j (by omega)

end Rfind

section Ends

variable {text : Bytes} {chunkSize overlap pos : ℕ}

/-- The ways a chunk ends: with the text, behind the last period of its second half, or at its full
size. -/
inductive Ending (text : Bytes) (chunkSize pos : ℕ) : ℕ → Prop where
  | last : text.length ≤ pos + chunkSize → Ending text chunkSize pos text.length
  | sentence {p} : pos + chunkSize < text.length → p ≤ pos + chunkSize → pos + chunkSize / 2 < p →
      text[p]? = some period → (∀ j, p < j → j ≤ pos + chunkSize → text[j]? ≠ some period) →
      Ending text chunkSize pos (p + 1)
  | full : pos + chunkSize < text.length →
      (∀ j, pos + chunkSize / 2 < j → j ≤ pos + chunkSize → text[j]? ≠ some period) →
      Ending text chunkSize pos (pos + chunkSize)

theorem chunkEnd_ending (text : Bytes) (chunkSize pos : ℕ) :
    Ending text chunkSize pos (chunkEnd text chunkSize pos) := by
  unfold chunkEnd
  by_cases hlast : text.length ≤ pos + chunkSize
  · rw [min_eq_right hlast]
    dsimp only
    rw [if_neg (lt_irrefl _)]
    exact .last hlast
  rw [min_eq_left (by omega)]
  dsimp only
  rw [if_pos (by omega)]
  have hlt : pos + chunkSize < text.length := by omega
  cases hr : rfind period text (pos + chunkSize) with
  | none => exact .full hlt fun j _ hj => rfind_none hr j hj
  | some p =>
    obtain ⟨hle, hp, hlater⟩ := rfind_some hr
    dsimp only
    split_ifs with hhalf
    · exact .sentence hlt hle hhalf hp hlater
    · exact .full hlt fun j hhj hj => hlater j (by omega) hj

theorem Ending.lt {stop : ℕ} (h : Ending text chunkSize pos stop) (hcs : 0 < chunkSize)
    (hp : pos < text.length) : pos < stop := by
  cases h with
  | last => exact hp
  | sentence _ _ hhalf => omega
  | full => omega

/-- There is only one way for a chunk to end. -/
theorem Ending.unique {stop stop' : ℕ} (h : Ending text chunkSize pos stop)
    (h' : Ending text chunkSize pos stop') : stop = stop' := by
  cases h with
  | last hlast =>
    cases h' with
    | last => rfl
    | sentence hlt => omega
    | full hlt => omega
  | @sentence p hlt hle hhalf hp hlater =>
    cases h' with
    | last hlast => omega
    | @sentence q _ hle' _ hq hlater' =>
      have hpq : ¬ p < q := fun hpq => hlater q hpq hle' hq
      have hqp : ¬ q < p := fun hqp => hlater' p hqp hle hp
      omega
    | full _ hnone => exact absurd hp (hnone p hhalf hle)
  | full hlt hnone =>
    cases h' with
    | last hlast => omega
    | @sentence q _ hle' hhalf' hq => exact absurd hq (hnone q hhalf' hle')
    | full => rfl

theorem Ending.le {stop : ℕ} (h : Ending text chunkSize pos stop) : stop ≤ text.length := by
  cases h with
  | last => exact le_refl _
  | sentence hlt hle => omega
  | full hlt => omega

theorem length_substr {stop : ℕ} (h : stop ≤ text.length) :
    (substr text pos stop).length = stop - pos := by
  unfold substr
  rw [List.length_take, List.length_drop]
  omega

end Ends

section Progress

variable (text : Bytes) (chunkSize overlap : ℕ)

/-- The chunk ends so close to its start that the overlap takes the loop back to the start or
before it. -/
def Stalls (pos : ℕ) : Prop :=
  chunkEnd text chunkSize pos < text.length ∧ overlap < chunkEnd text chunkSize pos ∧
    chunkEnd text chunkSize pos ≤ pos + overlap

/-- The chunks are pieces of the text, in order, that overlap by no more than `overlap` and leave
nothing out up to a position. -/
structure Covers (upTo : ℕ) (chunks : List Bytes) (spans : List (ℕ × ℕ)) : Prop where
  pieces : chunks = spans.map fun s => substr text s.1 s.2
  inside : ∀ s ∈ spans, s.1 < s.2 ∧ s.2 ≤ text.length
  increasing : spans.IsChain fun a b => a.1 < b.1
  overlapping : spans.IsChain fun a b => b.1 ≤ a.2 ∧ a.2 ≤ b.1 + overlap
  covered : ∀ i < upTo, ∃ s ∈ spans, s.1 ≤ i ∧ i < s.2

def Chunked : Prop :=
  ∃ chunks, Returns text chunkSize overlap chunks ∧
    ∃ spans, Covers text overlap text.length chunks spans

/-- The loop has made its chunks up to its position. -/
def Made (l : Loop) : Prop :=
  ∃ spans, Covers text overlap l.pos l.chunks spans ∧
    ∀ s ∈ spans.getLast?, s.1 < l.pos ∧ l.pos ≤ s.2 ∧ s.2 ≤ l.pos + overlap

variable {text chunkSize overlap}

theorem covers_append {l : Loop} {spans : List (ℕ × ℕ)} {stop : ℕ}
    (h : Covers text overlap l.pos l.chunks spans)
    (hlast : ∀ s ∈ spans.getLast?, s.1 < l.pos ∧ l.pos ≤ s.2 ∧ s.2 ≤ l.pos + overlap)
    (hlt : l.pos < stop) (hle : stop ≤ text.length) :
    Covers text overlap stop (l.chunks ++ [substr text l.pos stop]) (spans ++ [(l.pos, stop)]) where
  pieces := by rw [h.pieces, List.map_append, List.map_singleton]
  inside := by
    intro s hs
    rcases List.mem_append.mp hs with hs | hs
    · exact h.inside s hs
    · obtain rfl := List.mem_singleton.mp hs
      exact ⟨hlt, hle⟩
  increasing := by
    refine List.isChain_append.mpr ⟨h.increasing, List.isChain_singleton _, ?_⟩
    intro a ha b hb
    obtain rfl := Option.some.inj hb
    exact (hlast a ha).1
  overlapping := by
    refine List.isChain_append.mpr ⟨h.overlapping, List.isChain_singleton _, ?_⟩
    intro a ha b hb
    obtain rfl := Option.some.inj hb
    exact (hlast a ha).2
  covered := by
    intro i hi
    by_cases hip : i < l.pos
    · obtain ⟨s, hs, hcover⟩ := h.covered i hip
      exact ⟨s, List.mem_append_left _ hs, hcover⟩
    · exact ⟨(l.pos, stop), List.mem_append_right _ (List.mem_singleton_self _), by omega, hi⟩

/-- An iteration that does not stall goes on behind its chunk's start, or ends the loop. -/
theorem made_iterate {l : Loop} (hcs : 0 < chunkSize) (hp : l.pos < text.length)
    (hs : ¬ Stalls text chunkSize overlap l.pos) (h : Made text overlap l) :
    (∃ l', iterate text chunkSize overlap l = .inl l' ∧ Made text overlap l' ∧ l.pos < l'.pos) ∨
    ∃ chunks, iterate text chunkSize overlap l = .inr chunks ∧
      ∃ spans, Covers text overlap text.length chunks spans := by
  obtain ⟨spans, hc, hlast⟩ := h
  have hend := chunkEnd_ending text chunkSize l.pos
  have happend := covers_append hc hlast (hend.lt hcs hp) hend.le
  unfold iterate
  rw [if_pos hp]
  dsimp only
  by_cases hstop : text.length ≤ chunkEnd text chunkSize l.pos
  · rw [if_pos hstop]
    refine .inr ⟨_, rfl, spans ++ [(l.pos, chunkEnd text chunkSize l.pos)], ?_⟩
    rw [le_antisymm hend.le hstop] at happend ⊢
    exact happend
  · rw [if_neg hstop]
    have hlt := hend.lt hcs hp
    have hnext : l.pos < nextPos overlap (chunkEnd text chunkSize l.pos) ∧
        nextPos overlap (chunkEnd text chunkSize l.pos) ≤ chunkEnd text chunkSize l.pos ∧
        chunkEnd text chunkSize l.pos ≤
          nextPos overlap (chunkEnd text chunkSize l.pos) + overlap := by
      unfold Stalls at hs
      unfold nextPos
      split_ifs with ho
      · omega
      · omega
    refine .inl ⟨_, rfl, ⟨_, ⟨happend.pieces, happend.inside, happend.increasing,
      happend.overlapping, fun i hi => happend.covered i (hi.trans_le hnext.2.1)⟩, ?_⟩,
      hnext.1⟩
    intro s hs
    rw [List.getLast?_concat] at hs
    obtain rfl := Option.some.inj hs
    exact hnext

theorem made_run {l : Loop} (hcs : 0 < chunkSize) (h : Made text overlap l)
    (hs : ∀ n l', after (iterate text chunkSize overlap) n l = some l' → l'.pos < text.length →
      ¬ Stalls text chunkSize overlap l'.pos) :
    ∃ n chunks, run (iterate text chunkSize overlap) n l = some chunks ∧
      ∃ spans, Covers text overlap text.length chunks spans := by
  induction hm : text.length - l.pos using Nat.strong_induction_on generalizing l with
  | _ m ih =>
    by_cases hp : l.pos < text.length
    · rcases made_iterate hcs hp (hs 0 l rfl hp) h with ⟨l', hl, hl', hlt⟩ | ⟨chunks, hl, hc⟩
      · obtain ⟨n, chunks, hrun, hc⟩ := ih (text.length - l'.pos) (by omega) hl'
          (fun n l'' ha => hs (n + 1) l'' ((after_inl hl n).trans ha)) rfl
        exact ⟨n + 1, chunks, (run_inl hl n).trans hrun, hc⟩
      · refine ⟨1, chunks, ?_, hc⟩
        rw [run, hl]
    · obtain ⟨spans, hc, -⟩ := h
      refine ⟨1, l.chunks, ?_, spans, hc.pieces, hc.inside, hc.increasing, hc.overlapping,
        fun i hi => hc.covered i (by omega)⟩
      rw [run, iterate, if_neg hp]

theorem covers_nil : Covers text overlap 0 [] [] where
  pieces := rfl
  inside := by
    intro s hs
    cases hs
  increasing := .nil
  overlapping := .nil
  covered := by
    intro i hi
    omega

theorem made_start : Made text overlap {} := by
  refine ⟨[], covers_nil, ?_⟩
  intro s hs
  cases hs

theorem stalls_pos {pos : ℕ} (ho : overlap < chunkSize) (h : Stalls text chunkSize overlap pos) :
    chunkEnd text chunkSize (chunkEnd text chunkSize pos - overlap) =
      chunkEnd text chunkSize pos := by
  obtain ⟨hlen, hover, hclose⟩ := h
  have hend := chunkEnd_ending text chunkSize pos
  generalize chunkEnd text chunkSize pos = stop at hlen hover hclose hend ⊢
  cases hend with
  | last => omega
  | full => omega
  | @sentence p hlt hle hhalf hp hlater =>
    refine (chunkEnd_ending text chunkSize (p + 1 - overlap)).unique ?_
    exact .sentence (by omega) (by omega) (by omega) hp fun j hpj hj => hlater j hpj (by omega)

/-- Once it has stalled the loop makes the same chunk again and again. -/
theorem not_halts_of_stalls {l : Loop} (ho : overlap < chunkSize) (hp : l.pos < text.length)
    (h : Stalls text chunkSize overlap l.pos) : ¬ Halts (iterate text chunkSize overlap) l := by
  have hnext : nextPos overlap (chunkEnd text chunkSize l.pos) =
      chunkEnd text chunkSize l.pos - overlap := if_pos h.2.1
  have hstep : ∀ m : Loop, m.pos < text.length →
      chunkEnd text chunkSize m.pos = chunkEnd text chunkSize l.pos →
      ∃ m', iterate text chunkSize overlap m = .inl m' ∧
        m'.pos = chunkEnd text chunkSize l.pos - overlap := by
    intro m hm heq
    unfold iterate
    rw [if_pos hm]
    dsimp only
    rw [heq, if_neg (not_le.mpr h.1)]
    exact ⟨_, rfl, hnext⟩
  have hlt : chunkEnd text chunkSize l.pos - overlap < text.length := by
    have := h.1
    omega
  obtain ⟨l', hl, hl'⟩ := hstep l hp rfl
  rw [halts_inl hl]
  refine not_halts (I := fun m => m.pos = chunkEnd text chunkSize l.pos - overlap) ?_ hl'
  intro m hm
  rw [← hm] at hlt
  exact hstep m hlt (by rw [hm, stalls_pos ho h])

end Progress

section Iterations

variable (text : Bytes) (chunkSize overlap : ℕ)

theorem returns_nil (ht : text = []) : Returns text chunkSize overlap [] := by
  unfold Returns
  rw [if_pos (.inl ht)]

theorem returns_iff_visited (ht : text ≠ []) (hcs : 0 < chunkSize) (chunks : List Bytes) :
    Returns text chunkSize overlap chunks ↔
      ∃ n, run (iterate text chunkSize overlap) n {} = some chunks := by
  unfold Returns
  rw [if_neg (not_or.mpr ⟨ht, hcs.ne'⟩)]

/-- An iteration that takes the loop back is repeated for ever. -/
theorem not_chunked_of_stalls (hcs : 0 < chunkSize) (ho : overlap < chunkSize) {pos : ℕ}
    (hv : Visited text chunkSize overlap pos) (hs : Stalls text chunkSize overlap pos) :
    ¬ Chunked text chunkSize overlap := by
  obtain ⟨hp, m, l, hl, rfl⟩ := hv
  have ht : text ≠ [] := by
    rintro rfl
    exact absurd hp (Nat.not_lt_zero _)
  rintro ⟨chunks, hreturns, -⟩
  rw [returns_iff_visited text chunkSize overlap ht hcs] at hreturns
  obtain ⟨n, hrun⟩ := hreturns
  exact not_halts_of_stalls ho hp hs ((halts_after hl).mp ⟨n, chunks, hrun⟩)

/-- The splitting ends, with chunks that cover the text, exactly if no iteration takes the loop
back; with an overlap of up to half a chunk none does. -/
theorem chunked_iff (hcs : 0 < chunkSize) (ho : overlap < chunkSize) :
    (Chunked text chunkSize overlap ↔
      ∀ pos, Visited text chunkSize overlap pos → ¬ Stalls text chunkSize overlap pos) ∧
    (overlap ≤ chunkSize / 2 + 1 → Chunked text chunkSize overlap) := by
  have hiff : Chunked text chunkSize overlap ↔
      ∀ pos, Visited text chunkSize overlap pos → ¬ Stalls text chunkSize overlap pos := by
    by_cases ht : text = []
    · have hlen : text.length = 0 := List.length_eq_zero_iff.mpr ht
      refine iff_of_true ⟨[], returns_nil text chunkSize overlap ht, [], ?_⟩ fun pos hv => ?_
      · rw [hlen]
        exact covers_nil
      · have := hv.1
        omega
    constructor
    · intro h pos hv hs
      exact not_chunked_of_stalls text chunkSize overlap hcs ho hv hs h
    · intro hs
      obtain ⟨n, chunks, hrun, hc⟩ := made_run (l := {}) hcs made_start
        fun n l hl hp => hs l.pos ⟨hp, n, l, hl, rfl⟩
      exact ⟨chunks, (returns_iff_visited text chunkSize overlap ht hcs chunks).mpr ⟨n, hrun⟩, hc⟩
  refine ⟨hiff, fun hhalf => hiff.mpr fun pos _ hs => ?_⟩
  obtain ⟨hlen, hover, hclose⟩ := hs
  have hend := chunkEnd_ending text chunkSize pos
  generalize chunkEnd text chunkSize pos = stop at hlen hover hclose hend
  cases hend with
  | last => omega
  | full => omega
  | sentence => omega

theorem emits_substr {pos : ℕ} {chunk : Bytes} (h : Emits text chunkSize overlap pos chunk) :
    chunk = substr text pos (chunkEnd text chunkSize pos) := by
  obtain ⟨n, l, -, rfl, h⟩ := h
  unfold iterate at h
  dsimp only at h
  split_ifs at h with hp hstop
  · rcases h with ⟨l', hl, -⟩ | hl
    · cases hl
    · exact (List.singleton_injective (List.append_cancel_left (Sum.inr.inj hl))).symm
  · rcases h with ⟨l', hl, hl'⟩ | hl
    · obtain rfl := Sum.inl.inj hl
      exact (List.singleton_injective (List.append_cancel_left hl')).symm
    · cases hl
  · rcases h with ⟨l', hl, -⟩ | hl
    · cases hl
    · have hlen := congrArg List.length (Sum.inr.inj hl)
      rw [List.length_append] at hlen
      simp at hlen

/-- A chunk is within the limit exactly if the byte behind it is no period, and never exceeds it by
more than this period. -/
theorem length_chunk_le_iff (hcs : 0 < chunkSize) {pos : ℕ} {chunk : Bytes}
    (h : Emits text chunkSize overlap pos chunk) :
    (chunk.length ≤ chunkSize ↔ text[pos + chunkSize]? ≠ some period) ∧
      chunk.length ≤ chunkSize + 1 := by
  have hend := chunkEnd_ending text chunkSize pos
  rw [emits_substr text chunkSize overlap h, length_substr hend.le]
  generalize chunkEnd text chunkSize pos = stop at hend
  cases hend with
  | last hlast =>
    refine ⟨iff_of_true (by omega) fun hp => ?_, by omega⟩
    obtain ⟨hlt, -⟩ := List.getElem?_eq_some_iff.mp hp
    omega
  | @sentence p hlt hle hhalf hp hlater =>
    refine ⟨⟨fun hlen hp' => ?_, fun hnp => ?_⟩, by omega⟩
    · exact hlater (pos + chunkSize) (by omega) (le_refl _) hp'
    · have hne : p ≠ pos + chunkSize := fun heq => hnp (heq ▸ hp)
      omega
  | full hlt hnone =>
    exact ⟨iff_of_true (by omega) (hnone _ (by omega) (le_refl _)), by omega⟩

end Iterations

namespace Counterexample

def sentence : Bytes := bytes "aaaaa.bb"

theorem sentence_stalls : Stalls sentence 6 5 1 := by
  unfold Stalls
  decide

/-- With chunks of six bytes and an overlap of five the splitting comes back to the second byte. -/
theorem never_chunked : ¬ Chunked sentence 6 5 := by
  have hvisited : Visited sentence 6 5 1 := ⟨by decide, 1, _, rfl, by decide⟩
  exact not_chunked_of_stalls sentence 6 5 (by decide) (by decide) hvisited sentence_stalls

theorem greeting_chunked : Chunked (bytes "Hello world. This is a test. End.") 20 5 :=
  (chunked_iff _ 20 5 (by decide) (by decide)).2 (by decide)

theorem emits_abcd : Emits (bytes "abcd.ef") 4 0 0 (bytes "abcd.") :=
  ⟨0, {}, rfl, rfl, .inl ⟨_, rfl, by decide⟩⟩

/-- A period right behind the limit is taken along. -/
theorem chunk_too_long :
    Emits (bytes "abcd.ef") 4 0 0 (bytes "abcd.") ∧ ¬ (bytes "abcd.").length ≤ 4 :=
  ⟨emits_abcd, by decide⟩

theorem chunk_too_long_iff :
    ((bytes "abcd.").length ≤ 4 ↔ (bytes "abcd.ef")[0 + 4]? ≠ some period) ∧
      (bytes "abcd.").length ≤ 4 + 1 :=
  length_chunk_le_iff _ _ _ (by decide) emits_abcd

end Counterexample

end ChunkText
