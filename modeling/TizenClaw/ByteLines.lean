import TizenClaw.ByteString

/-! Lines, searches and trimming over byte strings: how they act on concatenations. -/
namespace ByteLines

open ByteString

/-- The text of a list of lines, each with its newline. -/
def unlines (ls : List Bytes) : Bytes := ls.flatMap fun l => l ++ [newline]

@[simp] theorem unlines_nil : unlines [] = [] := rfl

@[simp] theorem unlines_cons (l : Bytes) (ls : List Bytes) :
    unlines (l :: ls) = l ++ newline :: unlines ls := by simp [unlines]

@[simp] theorem unlines_append (ls ls' : List Bytes) :
    unlines (ls ++ ls') = unlines ls ++ unlines ls' := by simp [unlines]

theorem unlines_ends (ls : List Bytes) (h : ls ≠ []) : ∃ s, unlines ls = s ++ [newline] := by
  rcases List.eq_nil_or_concat ls with rfl | ⟨ls, l, rfl⟩
  · exact absurd rfl h
  · exact ⟨unlines ls ++ l, by simp⟩

section Pieces

variable {sep : UInt8}

theorem lines_eq_pieces (s : Bytes) : lines s = pieces newline s := by
  induction s with
  | nil => rfl
  | cons c s ih =>
    unfold lines pieces
    rw [ih]

theorem pieces_piece {l : Bytes} (h : sep ∉ l) (s : Bytes) :
    pieces sep (l ++ sep :: s) = l :: pieces sep s := by
  induction l with
  | nil => simp [pieces]
  | cons c l ih =>
    rw [List.mem_cons, not_or] at h
    rw [List.cons_append, pieces, if_neg (Ne.symm h.1), ih h.2]

theorem pieces_last {p : Bytes} (h : sep ∉ p) (hp : p ≠ []) :
    pieces sep p = [p] := by
  induction p with
  | nil => exact absurd rfl hp
  | cons c p ih =>
    rw [List.mem_cons, not_or] at h
    rw [pieces, if_neg (Ne.symm h.1)]
    cases p with
    | nil => rfl
    | cons d p => rw [ih h.2 (by simp)]

theorem intercalate_cons (sep : Bytes) (l m : Bytes) (ls : List Bytes) :
    sep.intercalate (l :: m :: ls) = l ++ (sep ++ sep.intercalate (m :: ls)) := by
  simp [List.intercalate]

/-- A piece is a part of the text between delimiters. -/
theorem mem_pieces {s p : Bytes} (h : p ∈ pieces sep s) : sep ∉ p ∧ p ⊆ s := by
  induction s generalizing p with
  | nil => cases h
  | cons c s ih =>
    unfold pieces at h
    split_ifs at h with hc
    · rcases List.mem_cons.mp h with rfl | h
      · exact ⟨List.not_mem_nil, List.nil_subset _⟩
      · exact ⟨(ih h).1, List.subset_cons_of_subset c (ih h).2⟩
    · have hcons : ∀ q : Bytes, sep ∉ q ∧ q ⊆ s → sep ∉ c :: q ∧ c :: q ⊆ c :: s := by
        intro q hq
        constructor
        · rw [List.mem_cons, not_or]
          exact ⟨Ne.symm hc, hq.1⟩
        · exact List.cons_subset_cons c hq.2
      split at h
      · obtain rfl := List.mem_singleton.mp h
        exact hcons [] ⟨List.not_mem_nil, List.nil_subset s⟩
      · rename_i q ps hs
        rw [hs] at ih
        rcases List.mem_cons.mp h with rfl | h
        · exact hcons q (ih List.mem_cons_self)
        · have hp := ih (List.mem_cons_of_mem q h)
          exact ⟨hp.1, List.subset_cons_of_subset c hp.2⟩

end Pieces

section Lines

theorem lines_line {l : Bytes} (h : newline ∉ l) (s : Bytes) :
    lines (l ++ newline :: s) = l :: lines s := by
  rw [lines_eq_pieces, lines_eq_pieces, pieces_piece h]

theorem lines_unlines_append {ls : List Bytes} (h : ∀ l ∈ ls, newline ∉ l) (s : Bytes) :
    lines (unlines ls ++ s) = ls ++ lines s := by
  induction ls with
  | nil => rfl
  | cons l ls ih =>
    rw [unlines_cons, List.append_assoc, List.cons_append, lines_line (h l (by simp)),
      ih fun x hx => h x (List.mem_cons_of_mem l hx), List.cons_append]

theorem lines_unlines {ls : List Bytes} (h : ∀ l ∈ ls, newline ∉ l) : lines (unlines ls) = ls := by
  have := lines_unlines_append h []
  rwa [List.append_nil, lines, List.append_nil] at this

theorem newline_not_mem_lines (s : Bytes) : ∀ l ∈ lines s, newline ∉ l := by
  intro l hl
  rw [lines_eq_pieces] at hl
  exact (mem_pieces hl).1

/-- A text that ends its last line is the text of its lines. -/
theorem unlines_lines (s : Bytes) : unlines (lines (s ++ [newline])) = s ++ [newline] := by
  induction s with
  | nil => rfl
  | cons c s ih =>
    rw [List.cons_append, lines]
    split_ifs with hc
    · rw [unlines_cons, ih, hc]
      rfl
    · cases hs : lines (s ++ [newline]) with
      | nil =>
        rw [hs] at ih
        simp at ih
      | cons l ls =>
        rw [hs, unlines_cons] at ih
        dsimp only
        rw [unlines_cons, List.cons_append, ih]

theorem lines_end_cons (s : Bytes) : ∃ l ls, lines (s ++ [newline]) = l :: ls := by
  cases h : lines (s ++ [newline]) with
  | nil =>
    have := unlines_lines s
    rw [h] at this
    simp at this
  | cons l ls => exact ⟨l, ls, rfl⟩

/-- Text in front goes to the first line. -/
theorem lines_append_first {p s l : Bytes} {ls : List Bytes} (hn : newline ∉ p)
    (h : lines s = l :: ls) : lines (p ++ s) = (p ++ l) :: ls := by
  induction p with
  | nil => exact h
  | cons c p ih =>
    rw [List.mem_cons, not_or] at hn
    rw [List.cons_append, lines, if_neg (Ne.symm hn.1), ih hn.2]
    rfl

/-- Text before the end of the last line goes to that line. -/
theorem lines_append_last {q : Bytes} (hn : newline ∉ q) (s : Bytes) :
    ∃ ms m, lines (s ++ [newline]) = ms ++ [m] ∧
      lines (s ++ (q ++ [newline])) = ms ++ [m ++ q] := by
  induction s with
  | nil => exact ⟨[], [], rfl, by rw [List.nil_append, lines_line hn]; rfl⟩
  | cons c s ih =>
    obtain ⟨ms, m, h, hq⟩ := ih
    rw [List.cons_append, List.cons_append, lines, lines, h, hq]
    split_ifs
    · exact ⟨[] :: ms, m, rfl, rfl⟩
    · cases ms with
      | nil => exact ⟨[], c :: m, rfl, rfl⟩
      | cons l ms => exact ⟨(c :: l) :: ms, m, rfl, rfl⟩

theorem lines_append_newline (s t : Bytes) :
    lines (s ++ newline :: t) = lines (s ++ [newline]) ++ lines t := by
  have h := lines_unlines_append (newline_not_mem_lines (s ++ [newline])) t
  rwa [unlines_lines, List.append_assoc] at h

theorem lines_newline_cases (s : Bytes) :
    lines (s ++ [newline]) = lines s ∨ lines (s ++ [newline]) = lines s ++ [[]] := by
  induction s with
  | nil => exact .inr rfl
  | cons c s ih =>
    rw [List.cons_append, lines, lines]
    split_ifs
    · rcases ih with ih | ih
      · exact .inl (by rw [ih])
      · exact .inr (by rw [ih]; rfl)
    · rcases ih with ih | ih
      · exact .inl (by rw [ih])
      · rw [ih]
        cases lines s with
        | nil => exact .inl rfl
        | cons l ls => exact .inr rfl

/-- The text of the lines is the text itself, or it with its last line ended. -/
theorem unlines_lines_cases (s : Bytes) :
    unlines (lines s) = s ∨ unlines (lines s) = s ++ [newline] := by
  have hu := unlines_lines s
  rcases lines_newline_cases s with h | h
  · rw [h] at hu
    exact .inr hu
  · rw [h, unlines_append] at hu
    exact .inl (List.append_cancel_right hu)

/-- Ending the last line adds no line but an empty one. -/
theorem mem_lines_newline {l : Bytes} (hl : l ≠ []) (s : Bytes) :
    l ∈ lines (s ++ [newline]) ↔ l ∈ lines s := by
  rcases lines_newline_cases s with h | h
  · rw [h]
  · rw [h, List.mem_append, List.mem_singleton]
    exact or_iff_left hl

/-- Lines joined by newlines, without one at the end. -/
def joined (l : Bytes) (ls : List Bytes) : Bytes := l ++ ls.flatMap fun m => newline :: m

theorem joined_cons (l m : Bytes) (ls : List Bytes) :
    joined l (m :: ls) = l ++ newline :: joined m ls := by simp [joined]

theorem joined_newline (l : Bytes) (ls : List Bytes) :
    joined l ls ++ [newline] = unlines (l :: ls) := by
  induction ls generalizing l with
  | nil => simp [joined]
  | cons m ls ih =>
    rw [joined_cons, List.append_assoc, List.cons_append, ih m, unlines_cons l]

theorem lines_joined {l : Bytes} {ls : List Bytes} (h : ∀ m ∈ l :: ls, newline ∉ m) :
    l :: ls = lines (joined l ls) ∨ l :: ls = lines (joined l ls) ++ [[]] := by
  have hl := lines_unlines h
  rw [← joined_newline] at hl
  rw [← hl]
  exact lines_newline_cases (joined l ls)

/-- A whole line at the start of a text is its first line. -/
theorem prefix_line_iff {d m : Bytes} (hd : newline ∉ d) (hm : newline ∉ m) (s : Bytes) :
    d ++ [newline] <+: m ++ newline :: s ↔ d = m := by
  constructor
  · rintro ⟨t, ht⟩
    have hl := congrArg lines ht
    rw [List.append_assoc, List.singleton_append, lines_line hd, lines_line hm] at hl
    exact (List.cons.inj hl).1
  · rintro rfl
    exact ⟨s, by simp⟩

theorem lines_append_head {p : Bytes} (hp : p ≠ []) (hn : newline ∉ p) (s : Bytes) :
    ∃ l ls, lines (p ++ s) = (p ++ l) :: ls := by
  induction p with
  | nil => exact absurd rfl hp
  | cons c p ih =>
    rw [List.mem_cons, not_or] at hn
    rw [List.cons_append, lines, if_neg (Ne.symm hn.1)]
    cases p with
    | nil =>
      rw [List.nil_append]
      cases lines s with
      | nil => exact ⟨[], [], rfl⟩
      | cons l ls => exact ⟨l, ls, rfl⟩
    | cons d p =>
      obtain ⟨l, ls, h⟩ := ih (by simp) hn.2
      exact ⟨l, ls, by rw [h]; rfl⟩

/-- A finite check of the bytes of a literal. -/
theorem forall_of_all {p : UInt8 → Prop} [DecidablePred p] {s : Bytes}
    (h : (s.all fun b => decide (p b)) = true) : ∀ b ∈ s, p b :=
  fun b hb => of_decide_eq_true (List.all_eq_true.mp h b hb)

end Lines

section Search

theorem isPrefixOf_append_self (p s : Bytes) : p.isPrefixOf (p ++ s) = true :=
  List.isPrefixOf_iff_prefix.mpr (List.prefix_append p s)

theorem find_self {p : Bytes} (hp : p ≠ []) (s : Bytes) : find p (p ++ s) = some 0 := by
  cases p with
  | nil => exact absurd rfl hp
  | cons c p =>
    rw [List.cons_append, find, if_pos]
    exact isPrefixOf_append_self (c :: p) s

theorem find_cons_of_ne {p : Bytes} {c : UInt8} (hc : p.head? ≠ some c) (hp : p ≠ [])
    (s : Bytes) : find p (c :: s) = (find p s).map (· + 1) := by
  cases p with
  | nil => exact absurd rfl hp
  | cons b p =>
    have hb : b ≠ c := fun h => hc (congrArg some h)
    rw [find, if_neg]
    simp [List.isPrefixOf, hb]

/-- Text without the first byte of the pattern is skipped. -/
theorem find_skip {c : UInt8} {p l : Bytes} (h : c ∉ l) (s : Bytes) :
    find (c :: p) (l ++ s) = (find (c :: p) s).map (· + l.length) := by
  induction l with
  | nil => simp
  | cons b l ih =>
    rw [List.mem_cons, not_or] at h
    rw [List.cons_append, find_cons_of_ne (by simpa using h.1) (by simp), ih h.2, Option.map_map]
    congr 1

theorem not_prefix_append {p l : Bytes} (h : ¬ p.take l.length <+: l) (s : Bytes) :
    ¬ p <+: l ++ s := by
  intro hp
  exact h (List.prefix_of_prefix_length_le ((List.take_prefix _ p).trans hp)
    (List.prefix_append l s) (List.length_take_le _ p))

/-- Text in which the pattern starts nowhere, whatever follows, is skipped. -/
theorem find_skip_all {p l : Bytes}
    (h : ∀ k < l.length, ¬ p.take (l.length - k) <+: l.drop k) (s : Bytes) :
    find p (l ++ s) = (find p s).map (· + l.length) := by
  induction l with
  | nil => simp
  | cons c l ih =>
    have hno : ¬ p.isPrefixOf (c :: (l ++ s)) = true := by
      rw [List.isPrefixOf_iff_prefix]
      exact not_prefix_append (h 0 (by simp)) s
    have htail : ∀ k < l.length, ¬ p.take (l.length - k) <+: l.drop k := by
      intro k hk
      have := h (k + 1) (by simpa using hk)
      rwa [List.length_cons, Nat.add_sub_add_right, List.drop_succ_cons] at this
    rw [List.cons_append, find, if_neg hno, ih htail, Option.map_map]
    congr 1

theorem find_byte {c : UInt8} {l : Bytes} (h : c ∉ l) (s : Bytes) :
    find [c] (l ++ c :: s) = some l.length := by
  have hc : find [c] (c :: s) = some 0 := find_self (p := [c]) (by simp) s
  rw [find_skip h, hc, Option.map_some, Nat.zero_add]

theorem find_none {c : UInt8} {p s : Bytes} (h : c ∉ s) : find (c :: p) s = none := by
  have := find_skip (p := p) h []
  rwa [List.append_nil, show find (c :: p) [] = none from rfl, Option.map_none] at this

theorem find_byte_none {c : UInt8} {s : Bytes} (h : c ∉ s) : find [c] s = none := find_none h

theorem find_byte_some {c : UInt8} {s : Bytes} (h : c ∈ s) :
    ∃ l t, s = l ++ c :: t ∧ c ∉ l ∧ find [c] s = some l.length := by
  obtain ⟨l, t, rfl, hl⟩ := List.eq_append_cons_of_mem h
  exact ⟨l, t, rfl, hl, find_byte hl t⟩

/-- The first occurrence is not behind any occurrence. -/
theorem find_le {p : Bytes} (hp : p ≠ []) (l s : Bytes) :
    ∃ i ≤ l.length, find p (l ++ (p ++ s)) = some i := by
  induction l with
  | nil => exact ⟨0, Nat.le_refl 0, find_self hp s⟩
  | cons c l ih =>
    obtain ⟨i, hi, hf⟩ := ih
    rw [List.cons_append, find]
    split_ifs
    · exact ⟨0, Nat.zero_le _, rfl⟩
    · exact ⟨i + 1, by simpa using hi, by rw [hf]; rfl⟩

theorem find_eq_some {p s : Bytes} {i : ℕ} (h : find p s = some i) :
    ∃ t, s = s.take i ++ (p ++ t) := by
  induction s generalizing i with
  | nil =>
    unfold find at h
    split_ifs at h with hp
    exact ⟨[], by simp [hp]⟩
  | cons c s ih =>
    unfold find at h
    split_ifs at h with hp
    · obtain rfl := Option.some.inj h
      obtain ⟨t, ht⟩ := List.isPrefixOf_iff_prefix.mp hp
      exact ⟨t, by simpa using ht.symm⟩
    · obtain ⟨j, hj, rfl⟩ := Option.map_eq_some_iff.mp h
      obtain ⟨t, ht⟩ := ih hj
      exact ⟨t, by rw [List.take_succ_cons, List.cons_append, ← ht]⟩

theorem find_length_le {p s : Bytes} {i : ℕ} (h : find p s = some i) :
    i + p.length ≤ s.length := by
  induction s generalizing i with
  | nil =>
    unfold find at h
    split_ifs at h with hp
    rw [← Option.some.inj h, hp]
    exact Nat.le_refl 0
  | cons c s ih =>
    unfold find at h
    split_ifs at h with hp
    · rw [← Option.some.inj h, Nat.zero_add]
      exact (List.isPrefixOf_iff_prefix.mp hp).length_le
    · obtain ⟨j, hj, rfl⟩ := Option.map_eq_some_iff.mp h
      rw [Nat.add_right_comm]
      exact Nat.succ_le_succ (ih hj)

theorem find_none_of_infix {p l s : Bytes} (hp : p ≠ []) (hl : l <:+: s) (h : find p s = none) :
    find p l = none := by
  cases hf : find p l with
  | none => rfl
  | some i =>
    obtain ⟨t, ht⟩ := find_eq_some hf
    obtain ⟨a, b, rfl⟩ := hl
    obtain ⟨j, -, hj⟩ := find_le hp (a ++ l.take i) (t ++ b)
    rw [ht] at h
    simp only [List.append_assoc] at h hj
    rw [hj] at h
    cases h

/-- No occurrence reaches over a byte that the pattern does not have. -/
theorem find_over {p : Bytes} {d : UInt8} (hp : p ≠ []) (hn : d ∉ p) {l : Bytes}
    (h : find p l = none) (s : Bytes) :
    find p (l ++ d :: s) = (find p s).map (· + (l.length + 1)) := by
  induction l with
  | nil =>
    rw [List.nil_append, find_cons_of_ne _ hp]
    · rfl
    · exact fun hb => hn (List.mem_of_mem_head? hb)
  | cons c l ih =>
    unfold find at h
    split_ifs at h with hc
    rw [Option.map_eq_none_iff] at h
    have hno : ¬ p.isPrefixOf (c :: (l ++ d :: s)) = true := by
      intro hpre
      rw [List.isPrefixOf_iff_prefix] at hpre hc
      rcases List.prefix_or_prefix_of_prefix hpre (List.prefix_append (c :: l) (d :: s)) with
        h' | ⟨u, rfl⟩
      · exact hc h'
      · rw [← List.cons_append, List.prefix_append_right_inj] at hpre
        cases u with
        | nil => exact hc (by simp)
        | cons b u =>
          obtain ⟨v, hv⟩ := hpre
          obtain rfl : b = d := (List.cons.inj hv).1
          exact hn (by simp)
    rw [List.cons_append, find, if_neg hno, ih h, Option.map_map]
    congr 1

/-- A pattern within one line is searched line by line. -/
theorem find_line {p : Bytes} (hp : p ≠ []) (hn : newline ∉ p) {l : Bytes}
    (h : find p l = none) (s : Bytes) :
    find p (l ++ newline :: s) = (find p s).map (· + (l.length + 1)) := find_over hp hn h s

/-- More text behind an occurrence does not change which occurrence is the first. -/
theorem find_append_left {p l : Bytes} {k : ℕ} (h : find p l = some k) (s : Bytes) :
    find p (l ++ s) = some k := by
  induction l generalizing k with
  | nil =>
    unfold find at h
    split_ifs at h with hp
    rw [hp, ← h, List.nil_append]
    cases s with
    | nil => rfl
    | cons c s => rfl
  | cons c l ih =>
    unfold find at h
    split_ifs at h with hc
    · rw [List.cons_append, find, if_pos, h]
      rw [List.isPrefixOf_iff_prefix] at hc ⊢
      exact hc.trans (List.prefix_append (c :: l) s)
    · obtain ⟨j, hj, rfl⟩ := Option.map_eq_some_iff.mp h
      have hno : ¬ p.isPrefixOf (c :: (l ++ s)) = true := by
        rw [List.isPrefixOf_iff_prefix] at hc ⊢
        intro hpre
        have hlen := find_length_le hj
        apply hc
        apply List.prefix_of_prefix_length_le hpre (List.prefix_append (c :: l) s)
        rw [List.length_cons]
        omega
      rw [List.cons_append, find, if_neg hno, ih hj]
      rfl

/-- Before the first occurrence there is none. -/
theorem find_take_none {p s : Bytes} (hp : p ≠ []) {k : ℕ} (h : find p s = some k) :
    find p (s.take k) = none := by
  cases hf : find p (s.take k) with
  | none => rfl
  | some j =>
    have hs := find_append_left hf (s.drop k)
    rw [List.take_append_drop, h] at hs
    obtain rfl := Option.some.inj hs
    have hlen := (find_length_le hf).trans (List.length_take_le _ s)
    have := List.length_pos_iff.mpr hp
    omega

theorem find_lines_none {p : Bytes} (hp : p ≠ []) (hn : newline ∉ p) {ls : List Bytes}
    (h : ∀ l ∈ ls, find p l = none) (s : Bytes) :
    find p (unlines ls ++ s) = (find p s).map (· + (unlines ls).length) := by
  induction ls with
  | nil => simp
  | cons l ls ih =>
    rw [unlines_cons, List.append_assoc, List.cons_append, find_line hp hn (h l List.mem_cons_self),
      ih fun m hm => h m (List.mem_cons_of_mem l hm), Option.map_map]
    congr 1
    funext i
    simp only [Function.comp_apply, List.length_append, List.length_cons]
    omega

/-- A pattern that a text does not have is in no line of it. -/
theorem find_mem_lines_none {p s l : Bytes} (hp : p ≠ []) (hn : newline ∉ p)
    (h : find p s = none) (hl : l ∈ lines s) : find p l = none := by
  by_cases hnil : l = []
  · rw [hnil, find, if_neg hp]
  · have hend : find p (s ++ [newline]) = none := by
      rw [find_line hp hn h, find, if_neg hp, Option.map_none]
    have hmem := (mem_lines_newline hnil s).mpr hl
    obtain ⟨ls, ms, hsplit⟩ := List.append_of_mem hmem
    have hsub : l <:+: s ++ [newline] := by
      rw [← unlines_lines, hsplit, unlines_append, unlines_cons]
      exact ⟨unlines ls, newline :: unlines ms, by simp⟩
    exact find_none_of_infix hp hsub hend

/-- The first line with the pattern: what is left of it, and the lines behind it. -/
theorem find_lines {p : Bytes} (hp : p ≠ []) (hn : newline ∉ p) {ls : List Bytes} {l : Bytes}
    {k : ℕ} (h : ∀ m ∈ ls, find p m = none) (hl : find p l = some k) (s : Bytes) :
    ∃ i, find p (unlines ls ++ (l ++ s)) = some i ∧
      (unlines ls ++ (l ++ s)).drop i = l.drop k ++ s := by
  refine ⟨k + (unlines ls).length, ?_, ?_⟩
  · rw [find_lines_none hp hn h, find_append_left hl, Option.map_some]
  · have hk : k ≤ l.length := (Nat.le_add_right k p.length).trans (find_length_le hl)
    rw [Nat.add_comm, List.drop_length_add_append, List.drop_append_of_le_length hk]

/-- The first line that is `d`, behind a first line. -/
theorem find_rule {d l : Bytes} {ls : List Bytes} (hd : newline ∉ d)
    (h : ∀ m ∈ l :: ls, newline ∉ m) (hno : d ∉ ls) (s : Bytes) :
    find (newline :: (d ++ [newline])) (joined l ls ++ newline :: (d ++ newline :: s)) =
      some (joined l ls).length := by
  induction ls generalizing l with
  | nil =>
    have hself : newline :: (d ++ newline :: s) = newline :: (d ++ [newline]) ++ s := by simp
    rw [joined, List.flatMap_nil, List.append_nil, find_skip (h l List.mem_cons_self), hself,
      find_self (by simp), Option.map_some, Nat.zero_add]
  | cons m ls ih =>
    rw [List.mem_cons, not_or] at hno
    have hm : ∀ x ∈ m :: ls, newline ∉ x := fun x hx => h x (List.mem_cons_of_mem l hx)
    have hfirst : ∃ t, joined m ls ++ newline :: (d ++ newline :: s) = m ++ newline :: t := by
      cases ls with
      | nil => exact ⟨d ++ newline :: s, by simp [joined]⟩
      | cons x ls => exact ⟨joined x ls ++ newline :: (d ++ newline :: s), by simp [joined_cons]⟩
    have hskip : ¬ (newline :: (d ++ [newline])).isPrefixOf
        (newline :: (joined m ls ++ newline :: (d ++ newline :: s))) = true := by
      obtain ⟨t, ht⟩ := hfirst
      rw [List.isPrefixOf_iff_prefix, ht, List.cons_prefix_cons]
      rintro ⟨-, hpre⟩
      exact hno.1 ((prefix_line_iff hd (hm m List.mem_cons_self) t).mp hpre)
    rw [joined_cons, List.append_assoc, List.cons_append, find_skip (h l List.mem_cons_self),
      find, if_neg hskip, ih hm hno.2, Option.map_some, Option.map_some, List.length_append,
      List.length_cons]
    congr 1
    omega

/-- A search that passes over a part finds the same in the rest. -/
theorem find_append_right {p w s : Bytes} {k : ℕ} (h : find p (w ++ s) = some (w.length + k)) :
    find p s = some k := by
  induction w with
  | nil => simpa using h
  | cons c w ih =>
    rw [List.cons_append, find] at h
    split_ifs at h with hc
    · rw [List.length_cons, Option.some.injEq] at h
      omega
    · obtain ⟨j, hj, he⟩ := Option.map_eq_some_iff.mp h
      refine ih ?_
      rw [hj]
      congr 1
      rw [List.length_cons] at he
      omega

theorem find_append_none {p w s : Bytes} (h : find p (w ++ s) = none) : find p s = none := by
  induction w with
  | nil => exact h
  | cons c w ih =>
    rw [List.cons_append, find] at h
    split_ifs at h
    exact ih (Option.map_eq_none_iff.mp h)

end Search

section Trim

variable (ws : Bytes)

def trim (s : Bytes) : Bytes := trimRight ws (trimLeft ws s)

/-- The bytes that no trimming removes. -/
def visible (s : Bytes) : ℕ := s.countP fun c => !ws.contains c

variable {ws}

theorem trimLeft_white {w : Bytes} (hw : ∀ b ∈ w, ws.contains b = true) (s : Bytes) :
    trimLeft ws (w ++ s) = trimLeft ws s := List.dropWhile_append_of_pos hw

theorem trimLeft_head {b : UInt8} (hb : ws.contains b = false) (s : Bytes) :
    trimLeft ws (b :: s) = b :: s := List.dropWhile_cons_of_neg (by simpa using hb)

theorem trimLeft_append (s : Bytes) {b : UInt8} (hb : ws.contains b = false) (t : Bytes) :
    trimLeft ws (s ++ b :: t) = trimLeft ws s ++ b :: t := by
  induction s with
  | nil => exact trimLeft_head hb t
  | cons c s ih =>
    by_cases hc : ws.contains c = true
    · rw [List.cons_append, trimLeft, List.dropWhile_cons_of_pos hc, trimLeft,
        List.dropWhile_cons_of_pos hc]
      exact ih
    · rw [Bool.not_eq_true] at hc
      rw [List.cons_append, trimLeft_head hc, trimLeft_head hc, List.cons_append]

theorem trimRight_white (s : Bytes) {w : Bytes} (hw : ∀ b ∈ w, ws.contains b = true) :
    trimRight ws (s ++ w) = trimRight ws s := by
  rw [trimRight, trimRight, List.rdropWhile, List.rdropWhile, List.reverse_append,
    List.dropWhile_append_of_pos fun b hb => hw b (List.mem_reverse.mp hb)]

theorem trimRight_last (s : Bytes) {b : UInt8} (hb : ws.contains b = false) :
    trimRight ws (s ++ [b]) = s ++ [b] := by
  rw [trimRight, List.rdropWhile_concat_neg _ _ _ (by simpa using hb)]

theorem trimRight_append (s : Bytes) {b : UInt8} (hb : ws.contains b = false) (t : Bytes) :
    trimRight ws (s ++ b :: t) = s ++ b :: trimRight ws t := by
  induction t using List.reverseRecOn with
  | nil => exact trimRight_last s hb
  | append_singleton t c ih =>
    by_cases hc : ws.contains c = true
    · have hw : ∀ x ∈ [c], ws.contains x = true := List.forall_mem_singleton.mpr hc
      rw [← List.cons_append, ← List.append_assoc, trimRight_white _ hw, ih, trimRight_white _ hw]
    · rw [Bool.not_eq_true] at hc
      rw [← List.cons_append, ← List.append_assoc, trimRight_last _ hc, trimRight_last _ hc,
        List.append_assoc, List.cons_append]

theorem trimLeft_all_white {w : Bytes} (hw : ∀ b ∈ w, ws.contains b = true) :
    trimLeft ws w = [] := by
  have := trimLeft_white hw []
  rwa [List.append_nil] at this

theorem trim_append_white (s : Bytes) {w : Bytes} (hw : ∀ b ∈ w, ws.contains b = true) :
    trim ws (s ++ w) = trim ws s := by
  induction s with
  | nil => rw [List.nil_append, trim, trimLeft_all_white hw, trim]; rfl
  | cons c s ih =>
    by_cases hc : ws.contains c = true
    · have hstep : ∀ t, trim ws (c :: t) = trim ws t := fun t => by
        rw [trim, trimLeft, List.dropWhile_cons_of_pos hc]
        rfl
      rw [List.cons_append, hstep, hstep, ih]
    · rw [Bool.not_eq_true] at hc
      rw [List.cons_append, trim, trim, trimLeft_head hc, trimLeft_head hc, ← List.cons_append,
        trimRight_white _ hw]

theorem trim_white_append {w : Bytes} (hw : ∀ b ∈ w, ws.contains b = true) (s : Bytes) :
    trim ws (w ++ s) = trim ws s := by
  rw [trim, trimLeft_white hw, trim]

theorem trim_trim (s : Bytes) : trim ws (trim ws s) = trim ws s := by
  have hfix : trimLeft ws (trim ws s) = trim ws s := by
    cases ht : trim ws s with
    | nil => rfl
    | cons b t =>
      refine trimLeft_head ?_ t
      obtain ⟨u, hu⟩ : trim ws s <+: trimLeft ws s := List.rdropWhile_prefix _ _
      rw [ht, List.cons_append] at hu
      by_contra hb
      rw [Bool.not_eq_false] at hb
      have hdrop : trimLeft ws (trimLeft ws s) = trimLeft ws s := List.dropWhile_idempotent _ _
      rw [← hu, trimLeft, List.dropWhile_cons_of_pos hb] at hdrop
      have hlen := congrArg List.length hdrop
      have hle := (List.dropWhile_sublist (l := t ++ u) (List.contains ws)).length_le
      rw [List.length_cons] at hlen
      omega
  rw [trim, hfix, trim, trimRight, trimRight, List.rdropWhile_idempotent]

theorem trim_trimRight (s : Bytes) : trim ws (trimRight ws s) = trim ws s := by
  have hsplit : trimRight ws s ++ s.rtakeWhile (fun c => ws.contains c) = s :=
    List.rdropWhile_append_rtakeWhile
  have hw : ∀ b ∈ s.rtakeWhile (fun c => ws.contains c), ws.contains b = true :=
    fun b hb => List.mem_rtakeWhile_imp hb
  have := trim_append_white (trimRight ws s) hw
  rwa [hsplit, eq_comm] at this

theorem trim_isInfix (s : Bytes) : trim ws s <:+: s :=
  (List.rdropWhile_prefix _ _).isInfix.trans (List.dropWhile_suffix _).isInfix

theorem trim_subset (s : Bytes) : trim ws s ⊆ s := fun _ hb =>
  (List.dropWhile_sublist _).subset ((List.rdropWhile_prefix _ _).subset hb)

theorem trim_of_not_mem {s : Bytes} (h : ∀ b ∈ s, ws.contains b = false) : trim ws s = s := by
  rcases List.eq_nil_or_concat s with rfl | ⟨t, b, rfl⟩
  · rfl
  · have hleft : trimLeft ws (t ++ [b]) = t ++ [b] := by
      cases t with
      | nil => exact trimLeft_head (h b (by simp)) []
      | cons c t => exact trimLeft_head (h c (by simp)) (t ++ [b])
    rw [List.concat_eq_append, trim, hleft, trimRight_last t (h b (by simp))]

theorem visible_append (s t : Bytes) : visible ws (s ++ t) = visible ws s + visible ws t :=
  List.countP_append

theorem visible_take_le (n : ℕ) (s : Bytes) : visible ws (s.take n) ≤ visible ws s :=
  (List.take_sublist n s).countP_le

theorem visible_dropWhile (s : Bytes) :
    visible ws (s.dropWhile fun c => ws.contains c) = visible ws s := by
  induction s with
  | nil => rfl
  | cons c s ih =>
    by_cases hc : ws.contains c = true
    · have hneg : ¬ (!ws.contains c) = true := by
        rw [hc]
        decide
      have hskip : visible ws (c :: s) = visible ws s := List.countP_cons_of_neg hneg
      rw [List.dropWhile_cons_of_pos hc, ih, hskip]
    · rw [List.dropWhile_cons_of_neg hc]

theorem visible_trimRight (s : Bytes) : visible ws (trimRight ws s) = visible ws s := by
  have h : visible ws (s.reverse.dropWhile fun c => ws.contains c) = visible ws s.reverse :=
    visible_dropWhile s.reverse
  rw [trimRight, List.rdropWhile, visible, List.countP_reverse]
  rw [visible, visible, List.countP_reverse] at h
  exact h

theorem visible_trim (s : Bytes) : visible ws (trim ws s) = visible ws s :=
  (visible_trimRight _).trans (visible_dropWhile s)

/-- A proper part of a text that leaves a visible byte out is not the text up to trimming. -/
theorem trim_ne_of_visible_lt {s t : Bytes} (h : visible ws s < visible ws t) :
    trim ws s ≠ trim ws t := by
  intro he
  rw [← visible_trim s, he, visible_trim] at h
  exact Nat.lt_irrefl _ h

end Trim

end ByteLines
