import TizenClaw.ByteLines
import TizenClaw.JsonRoundTrip

/-! The lines of an indented JSON text: after a newline comes an indentation or a closing
bracket, so that no line can be taken for Markdown. -/
namespace JsonLines

open ByteString ByteLines JsonValue JsonDump JsonParse JsonRoundTrip

/-- What can follow a newline. -/
abbrev Indents (b : UInt8) : Prop := b = space ∨ b = 0x5D ∨ b = 0x7D

def Guarded : Bytes → Prop
  | [] => True
  | c :: s => (c = newline → ∃ b ∈ s.head?, Indents b) ∧ Guarded s

theorem guarded_of_not_mem {s : Bytes} (h : newline ∉ s) : Guarded s := by
  induction s with
  | nil => trivial
  | cons c s ih =>
    rw [List.mem_cons, not_or] at h
    exact ⟨fun hc => absurd hc.symm h.1, ih h.2⟩

theorem Guarded.append {s t : Bytes} (hs : Guarded s) (ht : Guarded t) : Guarded (s ++ t) := by
  induction s with
  | nil => exact ht
  | cons c s ih =>
    refine ⟨fun hc => ?_, ih hs.2⟩
    obtain ⟨b, hb, hi⟩ := hs.1 hc
    have hhead : b ∈ (s ++ t).head? := by
      rw [List.head?_append, hb]
      rfl
    exact ⟨b, hhead, hi⟩

theorem Guarded.cons {c : UInt8} {s : Bytes} (hc : c ≠ newline) (hs : Guarded s) :
    Guarded (c :: s) := ⟨fun h => absurd h hc, hs⟩

section Render

theorem escapeByte_newline : ∀ n < 128, newline ∉ escapeByte (UInt8.ofNat n) := by decide

theorem newline_not_mem_escapeByte (b : UInt8) : newline ∉ escapeByte b := by
  by_cases hb : 0x80 ≤ b
  · rw [escapeByte_high hb]
    intro h
    obtain rfl := List.mem_singleton.mp h
    revert hb
    decide
  · rw [UInt8.le_iff_toNat_le] at hb
    have := escapeByte_newline b.toNat (by simpa using hb)
    rwa [UInt8.ofNat_toNat] at this

theorem newline_not_mem_quote (s : Bytes) : newline ∉ quote s := by
  unfold quote
  simp only [List.mem_cons, List.mem_append, List.mem_flatMap, List.not_mem_nil, or_false, not_or,
    not_exists, not_and]
  exact ⟨by decide, fun b _ => newline_not_mem_escapeByte b, by decide⟩

theorem newline_not_mem_number {t : Bytes} (h : ∀ b ∈ t, isNumberChar b = true) : newline ∉ t :=
  fun hm => absurd (h newline hm) (by decide)

theorem guarded_indent (level : ℕ) : Guarded ((indented 2).newline (level + 1)) := by
  refine ⟨fun _ => ⟨space, ?_, .inl rfl⟩, guarded_of_not_mem fun h => ?_⟩
  · rw [show 2 * (level + 1) = 2 * level + 1 + 1 by omega, List.replicate_succ]
    rfl
  · rw [List.mem_replicate] at h
    exact absurd h.2 (by decide)

theorem guarded_close {b : UInt8} (hb : Indents b) (hn : b ≠ newline) (level : ℕ) :
    Guarded ((indented 2).newline level ++ [b]) := by
  cases level with
  | zero => exact ⟨fun _ => ⟨b, rfl, hb⟩, .cons hn trivial⟩
  | succ level => exact (guarded_indent level).append (.cons hn trivial)

theorem guarded_key (k : Bytes) : Guarded (quote k ++ (indented 2).colon) :=
  (guarded_of_not_mem (newline_not_mem_quote k)).append (guarded_of_not_mem (by decide))

mutual

theorem render_guarded : ∀ (j : Json) (level : ℕ), Guarded (render id (indented 2) level j)
  | .null, _ => by rw [render]; exact guarded_of_not_mem (by decide)
  | .bool true, _ => by rw [render]; exact guarded_of_not_mem (by decide)
  | .bool false, _ => by rw [render]; exact guarded_of_not_mem (by decide)
  | .int i, _ => by
    rw [render]
    exact guarded_of_not_mem (newline_not_mem_number (decimalInt_numberChars i))
  | .float t, _ => by rw [render]; exact guarded_of_not_mem (newline_not_mem_number t.2)
  | .str s, _ => by rw [render]; exact guarded_of_not_mem (newline_not_mem_quote _)
  | .arr [], _ => by rw [render]; exact guarded_of_not_mem (by decide)
  | .arr (x :: xs), level => by
    rw [render]
    exact .cons (by decide) (((guarded_indent level).append (render_guarded x _)).append
      ((renderElements_guarded xs level).append (guarded_close (by decide) (by decide) level)))
  | .obj [], _ => by rw [render]; exact guarded_of_not_mem (by decide)
  | .obj ((k, x) :: m), level => by
    rw [render]
    exact .cons (by decide) ((((guarded_indent level).append (guarded_key _)).append
      (render_guarded x _)).append
        ((renderMembers_guarded m level).append (guarded_close (by decide) (by decide) level)))

theorem renderElements_guarded : ∀ (l : List Json) (level : ℕ),
    Guarded (renderElements id (indented 2) (level + 1) l)
  | [], _ => by rw [renderElements]; trivial
  | x :: xs, level => by
    rw [renderElements]
    exact .cons (by decide) (((guarded_indent level).append (render_guarded x _)).append
      (renderElements_guarded xs level))

theorem renderMembers_guarded : ∀ (m : List (Bytes × Json)) (level : ℕ),
    Guarded (renderMembers id (indented 2) (level + 1) m)
  | [], _ => by rw [renderMembers]; trivial
  | (k, x) :: m, level => by
    rw [renderMembers]
    exact .cons (by decide) ((((guarded_indent level).append (guarded_key _)).append
      (render_guarded x _)).append (renderMembers_guarded m level))

end

end Render

theorem lines_cons {c : UInt8} (hc : c ≠ newline) (s : Bytes) :
    ∃ l, lines (c :: s) = (c :: l) :: (lines s).tail := by
  rw [lines, if_neg hc]
  cases lines s with
  | nil => exact ⟨[], rfl⟩
  | cons l ls => exact ⟨l, rfl⟩

/-- All lines but the first start with what follows a newline. -/
theorem lines_guarded {s : Bytes} (hg : Guarded s) :
    ∀ l ∈ (lines (s ++ [newline])).tail, ∃ b ∈ l.head?, Indents b := by
  induction s with
  | nil => simp [lines]
  | cons c s ih =>
    by_cases hc : c = newline
    · subst hc
      obtain ⟨b, hb, hi⟩ := hg.1 rfl
      have hn : b ≠ newline := by
        rintro rfl
        revert hi
        decide
      obtain ⟨s, rfl⟩ : ∃ t, s = b :: t := by
        cases s with
        | nil => cases hb
        | cons a s => exact ⟨s, by rw [Option.some.inj hb]⟩
      obtain ⟨l, hl⟩ := lines_cons hn (s ++ [newline])
      intro x hx
      rw [List.cons_append, lines, if_pos rfl, List.tail_cons, List.cons_append, hl] at hx
      rcases List.mem_cons.mp hx with rfl | hx
      · exact ⟨b, rfl, hi⟩
      · exact ih hg.2 x (by rwa [List.cons_append, hl])
    · obtain ⟨l, hl⟩ := lines_cons hc (s ++ [newline])
      rw [List.cons_append, hl]
      exact ih hg.2

section Dump

variable {readFloat : Bytes → Option NumberText} {j : Json}

def dashes : Bytes := bytes "---"

/-- The text of a value is no separator. -/
theorem number_ne_dashes {t : Bytes} {b : Bool} (h : numberKind t = some b) : t ≠ dashes := by
  rintro rfl
  have : numberKind dashes = none := by decide
  rw [this] at h
  cases h

/-- A line of a JSON text is no separator, and starts neither a fence nor a heading. -/
structure JsonLine (l : Bytes) : Prop where
  not_dashes : l ≠ dashes
  head : ∃ b ∈ l.head?, b ≠ 0x60 ∧ b ≠ 0x23

theorem JsonLine.of_head {l : Bytes} {b : UInt8} (hb : b ∈ l.head?)
    (h : b ≠ 0x2D ∧ b ≠ 0x60 ∧ b ≠ 0x23) : JsonLine l where
  not_dashes := by
    rintro rfl
    exact h.1 (Option.some.inj hb).symm
  head := ⟨b, hb, h.2⟩

theorem single_line {s : Bytes} (hn : newline ∉ s) : lines (s ++ [newline]) = [s] := by
  rw [lines_line hn]
  rfl

/-- The first line of a value that is no number, by its first byte. -/
theorem lines_head {c : UInt8} {s : Bytes} (hc : c ≠ newline)
    (h : c ≠ 0x2D ∧ c ≠ 0x60 ∧ c ≠ 0x23) :
    ∀ l ∈ (lines (c :: s ++ [newline])).head?, JsonLine l := by
  obtain ⟨x, hx⟩ := lines_cons hc (s ++ [newline])
  intro l hl
  rw [List.cons_append, hx] at hl
  obtain rfl := Option.some.inj hl
  exact .of_head rfl h

theorem lines_number {t : Bytes} {b : Bool} (hk : numberKind t = some b) (hne : t ≠ [])
    (hc : ∀ b ∈ t, isNumberChar b = true) :
    ∀ l ∈ (lines (t ++ [newline])).head?, JsonLine l := by
  rw [single_line (newline_not_mem_number hc)]
  intro l hl
  obtain rfl := Option.some.inj hl
  obtain ⟨c, u, rfl, -, -, -, -, hb, hs⟩ := number_opens hne hc
  exact ⟨number_ne_dashes hk, c, rfl, hb, hs⟩

theorem render_first (h : Storable readFloat j) :
    ∀ l ∈ (lines (render id (indented 2) 0 j ++ [newline])).head?, JsonLine l := by
  cases j with
  | null =>
    rw [render]
    exact lines_head (c := 0x6E) (s := [0x75, 0x6C, 0x6C]) (by decide) (by decide)
  | bool b =>
    cases b with
    | true =>
      rw [render]
      exact lines_head (c := 0x74) (s := [0x72, 0x75, 0x65]) (by decide) (by decide)
    | false =>
      rw [render]
      exact lines_head (c := 0x66) (s := [0x61, 0x6C, 0x73, 0x65]) (by decide) (by decide)
  | int i =>
    rw [render]
    exact lines_number (numberKind_decimalInt i) (decimalInt_ne_nil i) (decimalInt_numberChars i)
  | float t =>
    rw [Storable] at h
    rw [render]
    exact lines_number h.kind h.ne_nil t.2
  | str s => rw [render, quote]; exact lines_head (by decide) (by decide)
  | arr l =>
    cases l with
    | nil => rw [render]; exact lines_head (c := 0x5B) (s := [0x5D]) (by decide) (by decide)
    | cons x xs => rw [render]; exact lines_head (by decide) (by decide)
  | obj m =>
    cases m with
    | nil => rw [render]; exact lines_head (c := 0x7B) (s := [0x7D]) (by decide) (by decide)
    | cons kx m => rw [render]; exact lines_head (by decide) (by decide)

theorem render_lines (h : Storable readFloat j) :
    ∀ l ∈ lines (render id (indented 2) 0 j ++ [newline]), JsonLine l := by
  have hrest := lines_guarded (render_guarded j 0)
  have hfirst := render_first h
  cases hl : lines (render id (indented 2) 0 j ++ [newline]) with
  | nil => simp
  | cons x xs =>
    rw [hl] at hrest hfirst
    intro l hm
    rcases List.mem_cons.mp hm with rfl | hm
    · exact hfirst l rfl
    · obtain ⟨b, hb, rfl | rfl | rfl⟩ := hrest l hm
      all_goals exact .of_head hb (by decide)

/-- A fence after the value is found there and not inside. -/
theorem find_fence {s : Bytes} (hg : Guarded s) {c : UInt8} {p : Bytes}
    (hc : ¬ Indents c) (t : Bytes) :
    find (newline :: c :: p) (s ++ (newline :: c :: p ++ t)) = some s.length := by
  induction s with
  | nil => exact find_self (by simp) t
  | cons d s ih =>
    have hno : ¬ (newline :: c :: p).isPrefixOf (d :: (s ++ (newline :: c :: p ++ t))) = true := by
      intro hpre
      obtain ⟨u, hu⟩ := List.isPrefixOf_iff_prefix.mp hpre
      obtain ⟨rfl, hs⟩ := List.cons.inj hu
      obtain ⟨b, hb, hi⟩ := hg.1 rfl
      cases s with
      | nil => cases hb
      | cons e s =>
        obtain rfl := Option.some.inj hb
        obtain ⟨rfl, -⟩ := List.cons.inj hs
        exact hc hi
    rw [List.cons_append, find, if_neg hno, ih hg.2]
    rfl

end Dump

end JsonLines
