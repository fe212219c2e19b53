import TizenClaw.WorkflowPersistence

/-! Instructions written as block scalars. The block ends at the first line that looks like one with
a key, whatever its indentation, and a heading is found anywhere in the text. -/
namespace BlockScalar

open ByteString ByteLines JsonValue WorkflowEngine WorkflowPersistence

section Scan

variable {pattern : Bytes → Option Match}

/-- A match takes a part of the text. -/
def Consumes (pattern : Bytes → Option Match) : Prop :=
  ∀ s m, pattern s = some m → ∃ u, u ≠ [] ∧ s = u ++ m.rest

/-- No match starts in the text in front of the rest. -/
def NoMatch (pattern : Bytes → Option Match) (s rest : Bytes) : Prop :=
  ∀ u v, s = u ++ v → v ≠ [] → pattern (v ++ rest) = none

theorem NoMatch.tail {c : UInt8} {s rest : Bytes} (h : NoMatch pattern (c :: s) rest) :
    NoMatch pattern s rest := fun u v he => h (c :: u) v (congrArg (c :: ·) he)

theorem noMatch_iff {s rest : Bytes} :
    NoMatch pattern s rest ↔ ∀ k < s.length, pattern (s.drop k ++ rest) = none := by
  constructor
  · intro h k hk
    exact h (s.take k) (s.drop k) (List.take_append_drop k s).symm (by simpa using hk)
  · rintro h u v rfl hv
    have hlen : u.length < (u ++ v).length := by
      rw [List.length_append]
      exact Nat.lt_add_of_pos_right (List.length_pos_iff.mpr hv)
    have := h u.length hlen
    rwa [List.drop_left] at this

instance (s rest : Bytes) : Decidable (NoMatch pattern s rest) :=
  decidable_of_iff _ noMatch_iff.symm

theorem occurrences_noMatch {s rest : Bytes} (h : NoMatch pattern s rest) :
    occurrences pattern 0 (s ++ rest) = occurrences pattern 0 rest := by
  induction s with
  | nil => rfl
  | cons c s ih =>
    have hc : pattern (c :: (s ++ rest)) = none := h [] (c :: s) rfl (by simp)
    rw [List.cons_append, occurrences, hc]
    exact ih h.tail

/-- The first match of a text in which one starts. -/
theorem exists_first {s rest : Bytes} (h : ¬ NoMatch pattern s rest) :
    ∃ u v, s = u ++ v ∧ NoMatch pattern u (v ++ rest) ∧ v ≠ [] ∧
      (pattern (v ++ rest)).isSome := by
  induction s with
  | nil =>
    refine absurd (fun u v he hv => ?_) h
    exact absurd (List.append_eq_nil_iff.mp he.symm).2 hv
  | cons c s ih =>
    by_cases hc : (pattern (c :: (s ++ rest))).isSome
    · exact ⟨[], c :: s, rfl, fun u v he hv => absurd (List.append_eq_nil_iff.mp he.symm).2 hv,
        by simp, hc⟩
    · have hs : ¬ NoMatch pattern s rest := by
        intro hs
        refine h fun u v he hv => ?_
        cases u with
        | nil =>
          obtain rfl : c :: s = v := he
          exact Option.not_isSome_iff_eq_none.mp hc
        | cons d u => exact hs u v (List.cons.inj he).2 hv
      obtain ⟨u, v, rfl, hu, hv, hm⟩ := ih hs
      refine ⟨c :: u, v, rfl, ?_, hv, hm⟩
      intro u' v' he hv'
      cases u' with
      | nil =>
        obtain rfl : c :: u = v' := he
        rw [List.cons_append, ← List.append_assoc]
        exact Option.not_isSome_iff_eq_none.mp hc
      | cons d u' => exact hu u' v' (List.cons.inj he).2 hv'

theorem occurrences_head {s : Bytes} (hne : s ≠ []) (h : (pattern s).isSome) :
    (occurrences pattern 0 s).head?.map Prod.fst = some s := by
  obtain ⟨m, hm⟩ := Option.isSome_iff_exists.mp h
  cases s with
  | nil => exact absurd rfl hne
  | cons c s =>
    rw [occurrences, hm]
    rfl

/-- Behind a match the search goes on where the match ends. -/
theorem occurrences_drop (hp : Consumes pattern) {s start : Bytes} {k i : ℕ} {m : Match}
    (h : (occurrences pattern k s)[i]? = some (start, m)) :
    (occurrences pattern k s).drop (i + 1) = occurrences pattern 0 m.rest := by
  induction s generalizing k i with
  | nil => simp [occurrences] at h
  | cons c s ih =>
    cases k with
    | succ k => exact ih h
    | zero =>
      rw [occurrences] at h ⊢
      cases hm : pattern (c :: s) with
      | none =>
        rw [hm] at h
        exact ih h
      | some m' =>
        rw [hm] at h
        cases i with
        | succ i => exact ih h
        | zero =>
          obtain ⟨-, rfl⟩ := Prod.mk.inj (Option.some.inj h)
          obtain ⟨u, hu, he⟩ := hp _ _ hm
          cases u with
          | nil => exact absurd rfl hu
          | cons d u =>
            have hs : s = u ++ m'.rest := (List.cons.inj he).2
            have hlen : (u ++ m'.rest).length - m'.rest.length = u.length := by
              rw [List.length_append, Nat.add_sub_cancel]
            dsimp only
            rw [List.drop_succ_cons, List.drop_zero, hs, hlen, occurrences_skip]

theorem after_suffix {literal s t : Bytes} (h : after literal s = some t) : s = literal ++ t := by
  unfold after at h
  split_ifs at h with hp
  obtain ⟨u, rfl⟩ := hp
  rw [← Option.some.inj h, List.drop_left]

/-- A heading starts with `##`. -/
theorem stepHeading_split {s : Bytes} {m : Match} (h : stepHeading s = some m) :
    ∃ t, s = bytes "##" ++ t ∧ m.rest <:+ t := by
  unfold stepHeading at h
  obtain ⟨t, ht, h⟩ := Option.bind_eq_some_iff.mp h
  refine ⟨t, after_suffix ht, ?_⟩
  dsimp only at h
  iterate 4
    split at h
    · cases h
  obtain ⟨u, hu, h⟩ := Option.bind_eq_some_iff.mp h
  obtain rfl := Option.some.inj h
  have hcolon : u <:+ dropSpace ((dropSpace ((dropSpace t).drop 4)).dropWhile isDigit) :=
    ⟨_, (after_suffix hu).symm⟩
  calc (dropSpace u).drop _ <:+ dropSpace u := List.drop_suffix _ _
    _ <:+ u := List.dropWhile_suffix _
    _ <:+ dropSpace ((dropSpace ((dropSpace t).drop 4)).dropWhile isDigit) := hcolon
    _ <:+ (dropSpace ((dropSpace t).drop 4)).dropWhile isDigit := List.dropWhile_suffix _
    _ <:+ dropSpace ((dropSpace t).drop 4) := List.dropWhile_suffix _
    _ <:+ (dropSpace t).drop 4 := List.dropWhile_suffix _
    _ <:+ dropSpace t := List.drop_suffix _ _
    _ <:+ t := List.dropWhile_suffix _

theorem stepHeading_consumes : Consumes stepHeading := by
  intro s m h
  obtain ⟨t, rfl, u, rfl⟩ := stepHeading_split h
  exact ⟨bytes "##" ++ u, by simp [show bytes "##" ≠ [] by decide], (List.append_assoc ..).symm⟩

end Scan

section Fields

variable (readFloat : Bytes → Option NumberText)

/-- A line that looks like one with a key. -/
def EndsBlock (line : Bytes) : Prop := bytes "- " <+: trim blank line ∧ 0x3A ∈ trim blank line

instance (line : Bytes) : Decidable (EndsBlock line) := inferInstanceAs (Decidable (_ ∧ _))

/-- A line of another key than `instruction`. -/
def Plain (line : Bytes) : Prop := extractMetaValue (trim blank line) (bytes "instruction") = []

instance (line : Bytes) : Decidable (Plain line) := inferInstanceAs (Decidable (_ = _))

/-- What a line gives to the step. -/
def metadata (step : WorkflowStep) (line : Bytes) : WorkflowStep :=
  (readMeta readFloat step (trim blank line)).step

/-- The end of `ParseStepBlock`. -/
def finish (r : StepReader) : WorkflowStep :=
  let step := match r.multiline with
    | none => r.step
    | some text => { r.step with instruction := trim blank text }
  if step.outputVar = [] then { step with outputVar := step.id } else step

theorem parseStepBlock_eq (id body : Bytes) : parseStepBlock readFloat id body =
    finish ((lines body).foldl (readStepLine readFloat) ⟨{ id := id }, none⟩) := rfl

variable {readFloat} {step : WorkflowStep} {line : Bytes} {r : StepReader}

theorem readMeta_plain (h : Plain line) :
    readMeta readFloat step (trim blank line) = ⟨metadata readFloat step line, none⟩ := by
  have hi : extractMetaValue (trim blank line) (bytes "instruction") = [] := h
  have hne : ¬ ([] : Bytes) = bytes "|" := by decide
  unfold metadata readMeta
  simp only [hi, if_neg hne, ne_eq, not_true_eq_false, if_false]
  split_ifs <;> first | rfl | (split <;> rfl)

theorem metadata_with (h : Plain line) (text : Bytes) :
    metadata readFloat { step with instruction := text } line =
      { metadata readFloat step line with instruction := text } := by
  have hi : extractMetaValue (trim blank line) (bytes "instruction") = [] := h
  have hne : ¬ ([] : Bytes) = bytes "|" := by decide
  unfold metadata readMeta
  simp only [hi, if_neg hne, ne_eq, not_true_eq_false, if_false]
  split_ifs <;> first | rfl | (split <;> rfl)

theorem metadata_instruction (h : Plain line) :
    (metadata readFloat step line).instruction = step.instruction := by
  have := @metadata_with readFloat step line h step.instruction
  exact (congrArg WorkflowStep.instruction this :)

theorem foldl_plain {ls : List Bytes} (h : ∀ l ∈ ls, Plain l) (step : WorkflowStep) :
    ls.foldl (readStepLine readFloat) ⟨step, none⟩ =
      ⟨ls.foldl (metadata readFloat) step, none⟩ := by
  induction ls generalizing step with
  | nil => rfl
  | cons l ls ih =>
    obtain ⟨hl, hls⟩ := List.forall_mem_cons.mp h
    rw [List.foldl_cons, List.foldl_cons, ← ih hls]
    exact congrArg (ls.foldl (readStepLine readFloat)) (readMeta_plain hl)

theorem foldl_instruction {ls : List Bytes} (h : ∀ l ∈ ls, Plain l) (step : WorkflowStep) :
    (ls.foldl (metadata readFloat) step).instruction = step.instruction := by
  induction ls generalizing step with
  | nil => rfl
  | cons l ls ih =>
    obtain ⟨hl, hls⟩ := List.forall_mem_cons.mp h
    rw [List.foldl_cons, ih hls, metadata_instruction hl]

theorem foldl_with {ls : List Bytes} (h : ∀ l ∈ ls, Plain l) (step : WorkflowStep) (text : Bytes) :
    ls.foldl (metadata readFloat) { step with instruction := text } =
      { ls.foldl (metadata readFloat) step with instruction := text } := by
  induction ls generalizing step with
  | nil => rfl
  | cons l ls ih =>
    obtain ⟨hl, hls⟩ := List.forall_mem_cons.mp h
    rw [List.foldl_cons, List.foldl_cons, metadata_with hl, ih hls]

/-- The lines of a block are collected. -/
theorem foldl_block {ls : List Bytes} (h : ∀ l ∈ ls, ¬ EndsBlock l) (text : Bytes) :
    ls.foldl (readStepLine readFloat) ⟨step, some text⟩ = ⟨step, some (text ++ unlines ls)⟩ := by
  induction ls generalizing text with
  | nil => simp
  | cons l ls ih =>
    obtain ⟨hl, hls⟩ := List.forall_mem_cons.mp h
    have hstep : readStepLine readFloat ⟨step, some text⟩ l =
        ⟨step, some (text ++ l ++ [newline])⟩ := if_neg hl
    rw [List.foldl_cons, hstep, ih hls]
    simp

theorem readStepLine_ends (he : EndsBlock line) (hl : Plain line) (text : Bytes) :
    readStepLine readFloat ⟨step, some text⟩ line =
      ⟨metadata readFloat { step with instruction := trim blank text } line, none⟩ := by
  rw [← readMeta_plain hl]
  exact if_pos he

end Fields

section Collected

variable (readFloat : Bytes → Option NumberText) {line : Bytes} {r : StepReader} {n : ℕ}

/-- No more visible bytes stand in the instruction, or are collected for it. -/
def Bounded (n : ℕ) (r : StepReader) : Prop :=
  visible blank r.step.instruction ≤ n ∧ ∀ text, r.multiline = some text → visible blank text ≤ n

theorem Bounded.finish (h : Bounded n r) : visible blank (finish r).instruction ≤ n := by
  unfold BlockScalar.finish
  cases hm : r.multiline with
  | none =>
    dsimp only
    split_ifs <;> exact h.1
  | some text =>
    have ht : visible blank (trim blank text) ≤ n := (visible_trim text).le.trans (h.2 text hm)
    dsimp only
    split_ifs <;> exact ht

/-- A value has less than its line. -/
theorem visible_value (h : extractMetaValue line (bytes "instruction") ≠ []) :
    visible blank (extractMetaValue line (bytes "instruction")) + 1 ≤ visible blank line := by
  unfold extractMetaValue at h ⊢
  dsimp only at h ⊢
  split at h
  · exact absurd rfl h
  · rename_i pos hpos
    obtain ⟨t, ht⟩ := find_eq_some hpos
    have hpos : (line.take pos).length = pos := by
      have hlen := find_length_le hpos
      rw [List.length_take]
      omega
    have hdrop : line.drop (pos + (bytes "- " ++ bytes "instruction" ++ bytes ":").length) = t := by
      conv_lhs => rw [ht, ← List.append_assoc]
      exact List.drop_left' (by rw [List.length_append, hpos])
    rw [hdrop, visible_trim]
    conv_rhs => rw [ht]
    rw [visible_append, visible_append]
    have : 1 ≤ visible blank (bytes "- " ++ bytes "instruction" ++ bytes ":") := by decide
    omega

/-- A line that is read as one with a key adds less than it has. -/
theorem bounded_readMeta {step : WorkflowStep} (h : visible blank step.instruction ≤ n) :
    Bounded (max n (n + visible blank line - 1)) (readMeta readFloat step (trim blank line)) := by
  have hn : visible blank step.instruction ≤ max n (n + visible blank line - 1) := by omega
  unfold readMeta
  dsimp only
  split_ifs with htype hblock hinstruction
  · exact ⟨hn, nofun⟩
  · refine ⟨hn, ?_⟩
    rintro text ⟨⟩
    exact Nat.zero_le _
  · have hv := visible_value hinstruction
    rw [visible_trim] at hv
    exact ⟨by dsimp only; omega, nofun⟩
  · exact ⟨hn, nofun⟩
  · exact ⟨hn, nofun⟩
  · exact ⟨hn, nofun⟩
  · exact ⟨hn, nofun⟩
  · split <;> exact ⟨hn, nofun⟩
  · exact ⟨hn, nofun⟩

theorem Bounded.mono {m : ℕ} (h : Bounded n r) (hm : n ≤ m) : Bounded m r :=
  ⟨h.1.trans hm, fun text ht => (h.2 text ht).trans hm⟩

theorem visible_endsBlock (h : EndsBlock line) : 1 ≤ visible blank line := by
  obtain ⟨⟨u, hu⟩, -⟩ := h
  rw [← visible_trim, ← hu, visible_append]
  exact Nat.le_add_right_of_le (by decide)

theorem visible_newline (text : Bytes) :
    visible blank (text ++ line ++ [newline]) = visible blank text + visible blank line := by
  rw [visible_append, visible_append]
  rfl

/-- A line adds what it has at most. -/
theorem Bounded.read (h : Bounded n r) (line : Bytes) :
    Bounded (n + visible blank line) (readStepLine readFloat r line) := by
  unfold readStepLine
  dsimp only
  split
  · exact (bounded_readMeta readFloat h.1).mono (by omega)
  · rename_i text hm
    split_ifs
    · have ht := (visible_trim text).le.trans (h.2 text hm)
      exact (bounded_readMeta readFloat ht).mono (by omega)
    · refine ⟨h.1.trans (Nat.le_add_right _ _), ?_⟩
      rintro text' ⟨⟩
      rw [visible_newline]
      exact Nat.add_le_add_right (h.2 text hm) _

/-- A line that ends a block is lost for the instruction, at least in part. -/
theorem Bounded.endsBlock {step : WorkflowStep} {text : Bytes}
    (h : Bounded n ⟨step, some text⟩) (hl : EndsBlock line) :
    Bounded (n + visible blank line - 1) (readStepLine readFloat ⟨step, some text⟩ line) := by
  have hv := visible_endsBlock hl
  have hstep : readStepLine readFloat ⟨step, some text⟩ line =
      WorkflowPersistence.readMeta readFloat { step with instruction := trim blank text }
        (trim blank line) := if_pos hl
  rw [hstep]
  exact (bounded_readMeta readFloat ((visible_trim text).le.trans (h.2 text rfl))).mono (by omega)

theorem visible_unlines_cons (l : Bytes) (ls : List Bytes) :
    visible blank (unlines (l :: ls)) = visible blank l + visible blank (unlines ls) := by
  rw [unlines_cons, ← List.singleton_append, ← List.append_assoc, visible_append, visible_append]
  rfl

theorem Bounded.foldl {ls : List Bytes} (h : Bounded n r) :
    Bounded (n + visible blank (unlines ls)) (ls.foldl (readStepLine readFloat) r) := by
  induction ls generalizing n r with
  | nil => exact h
  | cons l ls ih =>
    rw [visible_unlines_cons, ← Nat.add_assoc]
    exact ih (h.read readFloat l)

/-- A block with a line that looks like one with a key is not collected as a whole. -/
theorem Bounded.block {step : WorkflowStep} {text : Bytes} {ls : List Bytes}
    (hb : Bounded n ⟨step, some text⟩) (h : ∃ l ∈ ls, EndsBlock l) :
    1 ≤ visible blank (unlines ls) ∧ Bounded (n + visible blank (unlines ls) - 1)
      (ls.foldl (readStepLine readFloat) ⟨step, some text⟩) := by
  induction ls generalizing n text with
  | nil => simp at h
  | cons l ls ih =>
    rw [visible_unlines_cons, List.foldl_cons]
    by_cases hl : EndsBlock l
    · have hv := visible_endsBlock hl
      refine ⟨by omega, ?_⟩
      exact ((hb.endsBlock readFloat hl).foldl readFloat).mono (by omega)
    · have hls : ∃ l ∈ ls, EndsBlock l := by
        obtain ⟨k, hk, he⟩ := h
        rcases List.mem_cons.mp hk with rfl | hk
        · exact absurd he hl
        · exact ⟨k, hk, he⟩
      have hstep : readStepLine readFloat ⟨step, some text⟩ l =
          ⟨step, some (text ++ l ++ [newline])⟩ := if_neg hl
      have hread := hb.read readFloat l
      rw [hstep] at hread ⊢
      obtain ⟨h1, hb⟩ := ih hread hls
      exact ⟨by omega, hb.mono (by omega)⟩

end Collected

section Steps

variable (readFloat : Bytes → Option NumberText) {body : Bytes}

/-- A step of a body with its instruction as a block scalar. In front of the key stand lines of
other keys, and behind the block either nothing, or lines the first of which has a key, up to the
next heading or the end. -/
structure Written (body : Bytes) where
  index : ℕ
  start : Bytes
  heading : Match
  before : List Bytes
  key : Bytes
  block : Bytes
  after : Bytes
  later : Bytes
  found : (occurrences stepHeading 0 body)[index]? = some (start, heading)
  text : heading.rest = unlines (before ++ [key]) ++ (block ++ (after ++ later))
  one_line : ∀ l ∈ before ++ [key], newline ∉ l
  opens : extractMetaValue (trim blank key) (bytes "type") = [] ∧
    extractMetaValue (trim blank key) (bytes "instruction") = bytes "|"
  plain : ∀ l ∈ before ++ lines after, Plain l
  whole : after = [] ∨ block = [] ∨ ∃ s, block = s ++ [newline]
  ends : ∀ l, (lines after).head? = some l → EndsBlock l
  noHeading_before : NoMatch stepHeading (unlines (before ++ [key])) (block ++ (after ++ later))
  noHeading_after : NoMatch stepHeading after later
  next : later = [] ∨ (stepHeading later).isSome

variable (w : Written body)

def Written.id : Bytes := bytes "step_" ++ w.heading.groups.headD []

/-- The step with the whole block, and what the other lines give. -/
def Written.expected : WorkflowStep :=
  finish ⟨{ (w.before ++ lines w.after).foldl (metadata readFloat) { id := w.id } with
    instruction := trim blank w.block }, none⟩

/-- No line of the block looks like one with a key, and no heading starts in it. -/
structure Written.Safe : Prop where
  noKey : ∀ l ∈ lines w.block, ¬ EndsBlock l
  noHeading : NoMatch stepHeading w.block (w.after ++ w.later)

theorem stepBlocks_getElem? {occ : List (Bytes × Match)} {i : ℕ} {start : Bytes} {m : Match}
    (h : occ[i]? = some (start, m)) :
    (stepBlocks readFloat occ)[i]? = some (parseStepBlock readFloat
      (bytes "step_" ++ m.groups.headD [])
      (m.rest.take (m.rest.length -
        (((occ.drop (i + 1)).head?.map Prod.fst).map List.length).getD 0))) := by
  induction occ generalizing i with
  | nil => simp at h
  | cons x occ ih =>
    cases i with
    | succ i => exact ih h
    | zero =>
      obtain rfl := Option.some.inj h
      cases occ <;> rfl

theorem Written.behind : (occurrences stepHeading 0 body).drop (w.index + 1) =
    occurrences stepHeading 0 (w.block ++ (w.after ++ w.later)) := by
  rw [occurrences_drop stepHeading_consumes w.found, w.text,
    occurrences_noMatch w.noHeading_before]

/-- The text of the step goes up to the next match. -/
theorem Written.parsed {u v : Bytes} (hb : w.block ++ (w.after ++ w.later) = u ++ v)
    (hv : ((occurrences stepHeading 0 (w.block ++ (w.after ++ w.later))).head?.map Prod.fst).map
      List.length = if v = [] then none else some v.length) :
    (stepsOf readFloat body)[w.index]? =
      some (parseStepBlock readFloat w.id (unlines (w.before ++ [w.key]) ++ u)) := by
  rw [stepsOf, stepBlocks_getElem? readFloat w.found, w.behind, hv, w.text, hb]
  have hn : (if v = [] then none else some v.length).getD 0 = v.length := by
    split_ifs with h
    · rw [h]
      rfl
    · rfl
  rw [hn, ← List.append_assoc, List.length_append, Nat.add_sub_cancel, List.take_left]
  rfl

theorem Written.parsed_whole (h : NoMatch stepHeading w.block (w.after ++ w.later)) :
    (stepsOf readFloat body)[w.index]? = some (parseStepBlock readFloat w.id
      (unlines (w.before ++ [w.key]) ++ (w.block ++ w.after))) := by
  refine w.parsed readFloat (List.append_assoc ..).symm ?_
  rw [occurrences_noMatch h, occurrences_noMatch w.noHeading_after]
  rcases w.next with hl | hl
  · rw [hl]
    rfl
  · by_cases hne : w.later = []
    · rw [hne]
      rfl
    · rw [occurrences_head hne hl, if_neg hne]
      rfl

/-- A heading that starts in the block cuts the step. -/
theorem Written.parsed_cut (h : ¬ NoMatch stepHeading w.block (w.after ++ w.later)) :
    ∃ u v, w.block = u ++ v ∧ 1 ≤ visible blank v ∧ (stepsOf readFloat body)[w.index]? =
      some (parseStepBlock readFloat w.id (unlines (w.before ++ [w.key]) ++ u)) := by
  obtain ⟨u, v, hb, hu, hv, hm⟩ := exists_first h
  refine ⟨u, v, hb, ?_, w.parsed readFloat (v := v ++ (w.after ++ w.later))
    (by rw [hb, List.append_assoc]) ?_⟩
  · obtain ⟨m, hm⟩ := Option.isSome_iff_exists.mp hm
    obtain ⟨t, ht, -⟩ := stepHeading_split hm
    cases v with
    | nil => exact absurd rfl hv
    | cons c v =>
      obtain ⟨rfl, -⟩ := List.cons.inj ht
      rw [← List.singleton_append, visible_append]
      exact Nat.le_add_right_of_le (by decide)
  · have hne : v ++ (w.after ++ w.later) ≠ [] := by simp [hv]
    rw [hb, List.append_assoc, occurrences_noMatch hu, occurrences_head hne hm, if_neg hne]
    rfl

/-- The reader behind the line with the key. -/
theorem Written.reads_key (s : Bytes) :
    (lines (unlines (w.before ++ [w.key]) ++ s)).foldl (readStepLine readFloat)
        ⟨{ id := w.id }, none⟩ =
      (lines s).foldl (readStepLine readFloat)
        ⟨w.before.foldl (metadata readFloat) { id := w.id }, some []⟩ := by
  have hplain : ∀ l ∈ w.before, Plain l := fun l hl => w.plain l (List.mem_append_left _ hl)
  have hkey : ∀ step, readStepLine readFloat ⟨step, none⟩ w.key = ⟨step, some []⟩ := by
    intro step
    simp only [readStepLine, readMeta, w.opens.1, w.opens.2, ne_eq, not_true_eq_false, if_false,
      if_true]
  rw [lines_unlines_append w.one_line, List.foldl_append, List.foldl_append, foldl_plain hplain,
    List.foldl_cons, List.foldl_nil, hkey]

theorem trim_unlines_lines (s : Bytes) : trim blank (unlines (lines s)) = trim blank s := by
  rcases unlines_lines_cases s with h | h
  · rw [h]
  · rw [h, trim_append_white s (List.all_eq_true.mp (by decide))]

theorem visible_unlines_lines (s : Bytes) :
    visible blank (unlines (lines s)) = visible blank s := by
  rw [← visible_trim, trim_unlines_lines, visible_trim]

theorem Written.lines_block : lines (w.block ++ w.after) = lines w.block ++ lines w.after := by
  rcases w.whole with h | h | ⟨s, h⟩
  · rw [h, List.append_nil, lines, List.append_nil]
  · rw [h]
    rfl
  · rw [h, List.append_assoc, List.singleton_append, lines_append_newline]

theorem Written.plain_after (l : Bytes) (hl : l ∈ lines w.after) : Plain l :=
  w.plain l (List.mem_append_right _ hl)

theorem finish_instruction (step : WorkflowStep) : (finish ⟨step, none⟩).instruction =
    step.instruction := by
  unfold finish
  dsimp only
  split_ifs <;> rfl

theorem Written.Safe.parsed {w : Written body} (h : w.Safe) :
    (stepsOf readFloat body)[w.index]? = some (w.expected readFloat) := by
  rw [w.parsed_whole readFloat h.noHeading, parseStepBlock_eq, w.reads_key, w.lines_block,
    List.foldl_append, foldl_block h.noKey, List.nil_append, Written.expected, List.foldl_append]
  have hplain := w.plain_after
  have hends := w.ends
  cases hls : lines w.after with
  | nil =>
    rw [← trim_unlines_lines w.block]
    rfl
  | cons l ls =>
    rw [hls] at hplain hends
    obtain ⟨hl, hplain'⟩ := List.forall_mem_cons.mp hplain
    rw [List.foldl_cons, readStepLine_ends (hends l rfl) hl, foldl_plain hplain',
      ← foldl_with hplain, List.foldl_cons, trim_unlines_lines]

/-- Lines of other keys behind a block add nothing to the instruction. -/
theorem Bounded.after {n : ℕ} {r : StepReader} (hb : Bounded n r) {ls : List Bytes}
    (hplain : ∀ l ∈ ls, Plain l) (hends : ∀ l, ls.head? = some l → EndsBlock l) :
    visible blank (BlockScalar.finish (ls.foldl (readStepLine readFloat) r)).instruction ≤ n := by
  obtain ⟨step, multiline⟩ := r
  cases multiline with
  | none =>
    rw [foldl_plain hplain, finish_instruction, foldl_instruction hplain]
    exact hb.1
  | some text =>
    cases ls with
    | nil => exact hb.finish
    | cons l ls =>
      obtain ⟨hl, hplain'⟩ := List.forall_mem_cons.mp hplain
      rw [List.foldl_cons, readStepLine_ends (hends l rfl) hl, foldl_plain hplain',
        finish_instruction, foldl_instruction hplain', metadata_instruction hl]
      exact (visible_trim text).le.trans (hb.2 text rfl)

/-- The state of the reader at the start of the block. -/
theorem Written.bounded_start :
    Bounded 0 ⟨w.before.foldl (metadata readFloat) { id := w.id }, some []⟩ := by
  refine ⟨?_, ?_⟩
  · rw [foldl_instruction fun l hl => w.plain l (List.mem_append_left _ hl)]
    exact Nat.zero_le _
  · rintro text ⟨⟩
    exact Nat.zero_le _

theorem Written.visible_expected :
    visible blank (w.expected readFloat).instruction = visible blank w.block := by
  rw [Written.expected, finish_instruction]
  exact visible_trim w.block

theorem Written.safe_of_parsed
    (h : (stepsOf readFloat body)[w.index]? = some (w.expected readFloat)) : w.Safe := by
  have hexp := w.visible_expected readFloat
  by_cases hm : NoMatch stepHeading w.block (w.after ++ w.later)
  · refine ⟨fun l hl he => ?_, hm⟩
    rw [w.parsed_whole readFloat hm, parseStepBlock_eq, w.reads_key, w.lines_block,
      List.foldl_append] at h
    obtain ⟨hone, hb⟩ := (w.bounded_start readFloat).block readFloat ⟨l, hl, he⟩
    have hle := hb.after readFloat w.plain_after w.ends
    rw [Option.some.inj h, hexp, visible_unlines_lines] at hle
    rw [visible_unlines_lines] at hone
    omega
  · obtain ⟨u, v, hb, hv, hs⟩ := w.parsed_cut readFloat hm
    rw [hs, parseStepBlock_eq, w.reads_key] at h
    have hbound := @Bounded.foldl readFloat _ _ (lines u) (w.bounded_start readFloat)
    have hle := hbound.finish
    rw [Option.some.inj h, hexp, visible_unlines_lines, hb, visible_append] at hle
    omega

end Steps

section Workflows

variable {readFloat : Bytes → Option NumberText} {id markdown : Bytes} {wf : Workflow}

/-- The text that `ParseMarkdown` looks for steps in. -/
def bodyOf (markdown : Bytes) : Bytes :=
  let text := trim blank markdown
  match if bytes "---" <+: text then find (bytes "---") (text.drop 3) else none with
  | none => markdown
  | some length => text.drop (3 + length + 3)

theorem parseMarkdown_steps (h : parseMarkdown readFloat id markdown = .ok wf) :
    wf.steps = stepsOf readFloat (bodyOf markdown) := by
  unfold parseMarkdown at h
  unfold bodyOf
  dsimp only at h ⊢
  generalize (if bytes "---" <+: trim blank markdown then
    find (bytes "---") ((trim blank markdown).drop 3) else none) = high at h ⊢
  cases high with
  | none =>
    obtain rfl := Except.ok.inj h
    rfl
  | some length =>
    obtain ⟨name, -, h⟩ := bind_eq_ok.mp h
    obtain ⟨description, -, h⟩ := bind_eq_ok.mp h
    obtain ⟨trigger, -, h⟩ := bind_eq_ok.mp h
    obtain rfl := Except.ok.inj h
    rfl

end Workflows

namespace Counterexample

def noFloat : Bytes → Option NumberText := fun _ => none

/-- The white space in front of a line. -/
def indent (line : Bytes) : ℕ := (line.takeWhile (· = space)).length

/-- The lines of the block stand deeper than the key. -/
def Indented {body : Bytes} (w : Written body) : Prop :=
  ∀ l ∈ lines w.block, trim blank l ≠ [] → indent w.key < indent l

instance {body : Bytes} (w : Written body) : Decidable (Indented w) :=
  inferInstanceAs (Decidable (∀ l ∈ lines w.block, _))

/-- A workflow of one step. -/
def workflow (block : Bytes) : Bytes :=
  bytes "## Step 1: a\n- instruction: |\n" ++ block ++ bytes "- type: tool\n"

/-- Its step as it is written. -/
def rest (block : Bytes) : Bytes :=
  newline :: (bytes "- instruction: |\n" ++ block ++ bytes "- type: tool\n")

def written (block : Bytes) (ends : ∃ s, block = s ++ [newline])
    (found : (occurrences stepHeading 0 (bodyOf (workflow block)))[0]? =
      some (workflow block, ⟨[bytes "1", bytes "a"], rest block⟩))
    (quiet : NoMatch stepHeading (unlines [[], bytes "- instruction: |"])
      (block ++ (bytes "- type: tool\n" ++ []))) : Written (bodyOf (workflow block)) where
  index := 0
  start := workflow block
  heading := ⟨[bytes "1", bytes "a"], rest block⟩
  before := [[]]
  key := bytes "- instruction: |"
  block := block
  after := bytes "- type: tool\n"
  later := []
  found := found
  text := by
    have hkey : bytes "- instruction: |\n" = bytes "- instruction: |" ++ [newline] := by decide
    simp [rest, unlines, hkey]
  one_line := by decide
  opens := by decide
  plain := by decide
  whole := .inr (.inr ends)
  ends := by decide
  noHeading_before := quiet
  noHeading_after := by decide
  next := .inl rfl

/-- A line of the instruction has a colon. -/
def listed : Written (bodyOf (workflow (bytes "  Do:\n  - x: y\n"))) :=
  written _ ⟨bytes "  Do:\n  - x: y", by decide⟩ (by decide) (by decide)

def plainList : Written (bodyOf (workflow (bytes "  Do:\n  - x\n"))) :=
  written _ ⟨bytes "  Do:\n  - x", by decide⟩ (by decide) (by decide)

end Counterexample

end BlockScalar
