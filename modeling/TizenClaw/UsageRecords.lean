import TizenClaw.SessionFiles
import TizenClaw.UsageAggregates

/-! The usage file of a session, call by call: the rows that are written, and what is read from
them. -/
namespace UsageRecords

open ByteString ByteLines JsonDump SessionFiles TaskSchedule TaskFrontmatter UsageAggregates

/-- The text of a time: it has no bar, and is not blank. -/
abbrev ClockText := { t : Bytes // newline ∉ t ∧ 0x7C ∉ t ∧ ∃ b ∈ t, b ≠ space }

/-- A model name without newlines or pipes. -/
abbrev ModelName := { m : Bytes // newline ∉ m ∧ 0x7C ∉ m }

/-- A call of `LogTokenUsage`, with the clock each time it is read. -/
structure LogCall where
  id : SessionId
  model : ModelName
  prompt : IntValue
  completion : IntValue
  date : DatePrefix
  updated : ClockText
  stamp : ClockText
  today : Today
  dailyUpdated : ClockText
  dailyStamp : ClockText
  monthlyUpdated : ClockText

namespace LogCall

variable (c : LogCall)

/-- What it adds to the file of the session. -/
def usage : Usage :=
  ⟨c.model.1, c.prompt, c.completion, ⟨c.updated.1, c.updated.2.1⟩, ⟨c.stamp.1, c.stamp.2.1⟩⟩

def aggregate : Call :=
  ⟨c.id.1, c.model.1, c.prompt, c.completion, c.today, ⟨c.dailyUpdated.1, c.dailyUpdated.2.1⟩,
    ⟨c.dailyStamp.1, c.dailyStamp.2.1⟩, ⟨c.monthlyUpdated.1, c.monthlyUpdated.2.1⟩⟩

end LogCall

/-- An id that the readers of the files pass over: it has no ruled line of the table in it, and
behind its first line no line that ends the frontmatter or looks like a total. -/
def Legible (id : Bytes) : Prop :=
  find (bytes "|---") id = none ∧
    ∀ l ∈ (lines (id ++ [newline])).tail, l ≠ bytes "---" ∧
      ¬ bytes "total_prompt_tokens:" <+: l ∧ ¬ bytes "total_completion_tokens:" <+: l

section UsageFile

variable {id l : Bytes} {s : TokenUsageSummary}

def rowLine (c : LogCall) : Bytes :=
  bytes "| " ++ c.stamp.1 ++ bytes " | " ++ c.model.1 ++ bytes " | " ++ decimalInt c.prompt ++
    bytes " | " ++ decimalInt c.completion ++ bytes " |"

/-- The lines of a usage file before the ruled one. -/
def usageHead (id : Bytes) (prompt completion : ℤ) (updated : Bytes) : List Bytes :=
  bytes "---" :: (lines (bytes "session_id: " ++ (id ++ [newline])) ++
    (bytes "total_prompt_tokens: " ++ decimalInt prompt) ::
    (bytes "total_completion_tokens: " ++ decimalInt completion) ::
    (bytes "updated: " ++ updated) :: bytes "---" :: [] ::
    (lines (bytes "# Token Usage — " ++ (id ++ [newline])) ++
      [[], bytes "| Time | Model | Prompt | Completion |"]))

def tableRule : Bytes := bytes "|------|-------|--------|------------|"

/-- The file of a session after these calls, with its totals. -/
def Logs (id : Bytes) (t : Tally) (calls : List LogCall) : Option Bytes → Prop
  | none => calls = [] ∧ t = {}
  | some content => ∃ updated, newline ∉ updated ∧ 0x7C ∉ updated ∧
      content = unlines (usageHead id t.prompt t.completion updated ++ tableRule ::
        calls.map rowLine)

/-- A line that the readers pass over. -/
def Passed (l : Bytes) : Prop :=
  l ≠ bytes "---" ∧ ¬ bytes "total_prompt_tokens:" <+: l ∧ ¬ bytes "total_completion_tokens:" <+: l

theorem passed_of_head {l d : Bytes} {c : UInt8} (hl : l.head? = some c)
    (hc : c ≠ 0x2D ∧ c ≠ 0x74) : Passed (l ++ d) := by
  have hhead := head_append hl d
  have hno : ∀ {p : Bytes}, p.head? = some 0x74 → ¬ p <+: l ++ d := by
    rintro p hp ⟨r, hr⟩
    rw [← hr, head_append hp] at hhead
    exact hc.2 (Option.some.inj hhead).symm
  refine ⟨ne_rule_of_head ?_, hno (by decide), hno (by decide)⟩
  rw [hhead]
  exact fun h => hc.1 (Option.some.inj h)

/-- The lines of an id behind a word of the file. -/
theorem id_lines {p : Bytes} {c : UInt8} (hp : p.head? = some c) (hc : c ≠ 0x2D ∧ c ≠ 0x74)
    (hn : newline ∉ p) (hbar : 0x7C ∉ p) (h : Legible id) :
    ∀ l ∈ lines (p ++ (id ++ [newline])),
      Passed l ∧ find (bytes "|---") l = none ∧ newline ∉ l := by
  obtain ⟨m, ms, hm⟩ := lines_end_cons id
  have hrule : bytes "|---" = 0x7C :: bytes "---" := by decide
  have hnone : find (bytes "|---") (id ++ [newline]) = none := by
    have := find_line (p := bytes "|---") (by decide) (by decide) h.1 []
    rw [this]
    rfl
  have hpart : ∀ l ∈ m :: ms, find (bytes "|---") l = none := by
    intro l hl
    have hsub : l <:+: id ++ [newline] := by
      obtain ⟨a, b, hab⟩ := List.append_of_mem hl
      refine ⟨unlines a, newline :: unlines b, ?_⟩
      rw [← unlines_lines id, hm, hab, unlines_append, unlines_cons, List.append_assoc]
    exact find_none_of_infix (by decide) hsub hnone
  rw [lines_append_first hn hm]
  intro l hl
  refine ⟨?_, ?_, newline_not_mem_lines (p ++ (id ++ [newline])) l (by
    rwa [lines_append_first hn hm])⟩
  · rcases List.mem_cons.mp hl with rfl | hl
    · exact passed_of_head hp hc
    · exact h.2 l (by rwa [hm])
  · rcases List.mem_cons.mp hl with rfl | hl
    · rw [hrule, find_skip hbar, ← hrule, hpart m List.mem_cons_self]
      rfl
    · exact hpart l (List.mem_cons_of_mem m hl)

theorem readTotal_passed (h : Passed l) : readTotal s l = some s := by
  rw [readTotal, if_neg h.2.1, if_neg h.2.2]

theorem readTotal_prompt {n : ℤ} (h : -2 ^ 31 ≤ n ∧ n < 2 ^ 31) :
    readTotal s (bytes "total_prompt_tokens: " ++ decimalInt n) =
      some { s with totalPromptTokens := n } := by
  have hpre : bytes "total_prompt_tokens:" <+: bytes "total_prompt_tokens: " := by decide
  rw [readTotal, if_pos (hpre.trans (List.prefix_append _ _)), total_line h (by decide)]
  rfl

theorem readTotal_completion {n : ℤ} (h : -2 ^ 31 ≤ n ∧ n < 2 ^ 31) :
    readTotal s (bytes "total_completion_tokens: " ++ decimalInt n) =
      some { s with totalCompletionTokens := n } := by
  have hpre : bytes "total_completion_tokens:" <+: bytes "total_completion_tokens: " := by decide
  rw [readTotal, if_neg (not_prefix_append (by decide) _),
    if_pos (hpre.trans (List.prefix_append _ _)), total_line h (by decide)]
  rfl

theorem readTotals_line {s' : TokenUsageSummary} (hl : l ≠ bytes "---")
    (h : readTotal s l = some s') (ls : List Bytes) :
    readTotals s true (l :: ls) = readTotals s' true ls := by
  rw [readTotals, if_neg hl, if_pos rfl, h, Option.bind_some]

theorem readTotals_passed {ms : List Bytes} (h : ∀ l ∈ ms, Passed l) (ls : List Bytes) :
    readTotals s true (ms ++ ls) = readTotals s true ls := by
  induction ms with
  | nil => rfl
  | cons m ms ih =>
    rw [List.forall_mem_cons] at h
    rw [List.cons_append, readTotals_line h.1.1 (readTotal_passed h.1), ih h.2]

/-- A line outside of the table, in the frontmatter or behind it. -/
theorem readUsageLines_line {s' : TokenUsageSummary} {inFm : Bool} (hl : l ≠ bytes "---")
    (hbar : ¬ bytes "|---" <+: l) (h : (if inFm then readTotal s l else some s) = some s')
    (ls : List Bytes) :
    readUsageLines s inFm false (l :: ls) = readUsageLines s' inFm false ls := by
  rw [readUsageLines, if_neg hl, h, Option.bind_some, if_neg hbar,
    if_neg fun hp => absurd hp.1 (by decide)]

theorem readUsageLines_toggle (inFm pastHeader : Bool) (ls : List Bytes) :
    readUsageLines s inFm pastHeader (bytes "---" :: ls) =
      readUsageLines s (!inFm) pastHeader ls := by
  rw [readUsageLines, if_pos rfl]

theorem readUsageLines_passed {ms : List Bytes} {inFm : Bool}
    (h : ∀ l ∈ ms, Passed l ∧ ¬ bytes "|---" <+: l) (ls : List Bytes) :
    readUsageLines s inFm false (ms ++ ls) = readUsageLines s inFm false ls := by
  induction ms with
  | nil => rfl
  | cons m ms ih =>
    rw [List.forall_mem_cons] at h
    have hread : (if inFm then readTotal s m else some s) = some s := by
      split
      · exact readTotal_passed h.1.1
      · rfl
    rw [List.cons_append, readUsageLines_line h.1.1.1 h.1.2 hread, ih h.2]

theorem rule_head_ne {p : Bytes} {c : UInt8} (hp : p.head? = some c) (hc : c ≠ 0x2D) (d : Bytes) :
    p ++ d ≠ bytes "---" := by
  apply ne_rule_of_head
  rw [head_append hp]
  exact fun h => hc (Option.some.inj h)

/-- The totals that a call is added to. -/
theorem readTotals_head {prompt completion : ℤ} {updated : Bytes} (h : Legible id)
    (hp : -2 ^ 31 ≤ prompt ∧ prompt < 2 ^ 31) (hc : -2 ^ 31 ≤ completion ∧ completion < 2 ^ 31)
    (rest : List Bytes) :
    readTotals {} false (usageHead id prompt completion updated ++ rest) =
      some ⟨prompt, completion, []⟩ := by
  have hsession := id_lines (p := bytes "session_id: ") (c := 0x73) (by decide) (by decide)
    (by decide) (by decide) h
  have hupdated : Passed (bytes "updated: " ++ updated) :=
    passed_of_head (c := 0x75) (by decide) (by decide)
  have hopen : ∀ ls, readTotals {} false (bytes "---" :: ls) = readTotals {} true ls := by
    intro ls
    rw [readTotals, if_pos rfl, if_neg (by decide)]
  rw [usageHead, List.cons_append, hopen, List.append_assoc,
    readTotals_passed fun l hl => (hsession l hl).1]
  simp only [List.cons_append]
  rw [readTotals_line (rule_head_ne (c := 0x74) (by decide) (by decide) _) (readTotal_prompt hp),
    readTotals_line (rule_head_ne (c := 0x74) (by decide) (by decide) _) (readTotal_completion hc),
    readTotals_line hupdated.1 (readTotal_passed hupdated), readTotals, if_pos rfl, if_pos rfl]

/-- The summary before the rows. -/
theorem readUsageLines_head {prompt completion : ℤ} {updated : Bytes} (h : Legible id)
    (hp : -2 ^ 31 ≤ prompt ∧ prompt < 2 ^ 31) (hc : -2 ^ 31 ≤ completion ∧ completion < 2 ^ 31)
    (rows : List Bytes) :
    readUsageLines {} false false (usageHead id prompt completion updated ++ tableRule :: rows) =
      readUsageLines ⟨prompt, completion, []⟩ false true rows := by
  have hpassed : ∀ {p : Bytes} {c : UInt8}, p.head? = some c → c ≠ 0x2D ∧ c ≠ 0x74 → newline ∉ p →
      0x7C ∉ p → ∀ l ∈ lines (p ++ (id ++ [newline])), Passed l ∧ ¬ bytes "|---" <+: l := by
    intro p c hp hc hn hb l hl
    obtain ⟨hpass, hfind, -⟩ := id_lines hp hc hn hb h l hl
    refine ⟨hpass, ?_⟩
    rintro ⟨r, rfl⟩
    rw [find_self (by decide)] at hfind
    cases hfind
  have hsession := hpassed (p := bytes "session_id: ") (c := 0x73) (by decide) (by decide)
    (by decide) (by decide)
  have htitle := hpassed (p := bytes "# Token Usage — ") (c := 0x23) (by decide) (by decide)
    (by decide) (by decide)
  have hupdated : Passed (bytes "updated: " ++ updated) :=
    passed_of_head (c := 0x75) (by decide) (by decide)
  have hrule : readUsageLines ⟨prompt, completion, []⟩ false false (tableRule :: rows) =
      readUsageLines ⟨prompt, completion, []⟩ false true rows := by
    rw [readUsageLines, if_neg (by decide), if_neg (by decide), Option.bind_some,
      if_pos (by decide)]
  rw [usageHead, List.cons_append, readUsageLines_toggle, Bool.not_false, List.append_assoc,
    readUsageLines_passed hsession]
  simp only [List.cons_append, List.append_assoc]
  rw [readUsageLines_line (rule_head_ne (c := 0x74) (by decide) (by decide) _)
      (not_prefix_append (by decide) _) ((if_pos rfl).trans (readTotal_prompt hp)),
    readUsageLines_line (rule_head_ne (c := 0x74) (by decide) (by decide) _)
      (not_prefix_append (by decide) _) ((if_pos rfl).trans (readTotal_completion hc)),
    readUsageLines_line hupdated.1 (not_prefix_append (by decide) _)
      ((if_pos rfl).trans (readTotal_passed hupdated)),
    readUsageLines_toggle, Bool.not_true,
    readUsageLines_line (by decide) (by decide) (if_neg (by decide)),
    readUsageLines_passed htitle]
  simp only [List.nil_append]
  rw [readUsageLines_line (by decide) (by decide) (if_neg (by decide)),
    readUsageLines_line (by decide) (by decide) (if_neg (by decide)), hrule]

/-- The cell of a row. -/
def cell (x : Bytes) : Bytes := trim [space] x

theorem trim_padded (x : Bytes) : trim [space] (space :: (x ++ [space])) = cell x := by
  have hw : ∀ b ∈ [space], [space].contains b = true := List.all_eq_true.mp (by decide)
  change trim [space] ([space] ++ (x ++ [space])) = _
  rw [trim_white_append hw, trim_append_white x hw]
  rfl

theorem cell_decimalInt (n : ℤ) : cell (decimalInt n) = decimalInt n := by
  apply trim_of_not_mem
  intro b hb
  have hne : b ≠ space := by
    rintro rfl
    exact not_mem_decimalInt (by decide) n hb
  simpa using hne

theorem decimalInt_ne (n : ℤ) : decimalInt n ≠ [] := JsonRoundTrip.decimalInt_ne_nil n

theorem cell_stamp (t : ClockText) : cell t.1 ≠ [] := by
  obtain ⟨b, hb, hne⟩ := t.2.2.2
  have hpos : 0 < visible [space] t.1 := by
    rw [visible, List.countP_pos_iff]
    exact ⟨b, hb, by simpa using hne⟩
  intro h
  rw [← visible_trim, show trim [space] t.1 = [] from h] at hpos
  exact absurd hpos (by decide)

theorem pieces_row (c : LogCall) :
    pieces 0x7C (rowLine c) = [[], space :: (c.stamp.1 ++ [space]), space :: (c.model.1 ++ [space]),
      space :: (decimalInt c.prompt ++ [space]),
      space :: (decimalInt c.completion ++ [space])] := by
  have hopen : bytes "| " = [0x7C, space] := by decide
  have hsep : bytes " | " = [space, 0x7C, space] := by decide
  have hclose : bytes " |" = [space, 0x7C] := by decide
  have hpad : ∀ {x : Bytes}, 0x7C ∉ x → (0x7C : UInt8) ∉ space :: (x ++ [space]) := by
    intro x hx
    simp only [List.mem_cons, List.mem_append, List.not_mem_nil, or_false, not_or]
    exact ⟨by decide, hx, by decide⟩
  have hsplit : rowLine c = [] ++ 0x7C :: ((space :: (c.stamp.1 ++ [space])) ++ 0x7C ::
      ((space :: (c.model.1 ++ [space])) ++ 0x7C ::
        ((space :: (decimalInt c.prompt ++ [space])) ++ 0x7C ::
          ((space :: (decimalInt c.completion ++ [space])) ++ 0x7C :: [])))) := by
    simp only [rowLine, hopen, hsep, hclose, List.append_assoc, List.cons_append, List.nil_append]
  rw [hsplit, pieces_piece List.not_mem_nil, pieces_piece (hpad c.stamp.2.2.1),
    pieces_piece (hpad c.model.2.2), pieces_piece (hpad (not_mem_decimalInt (by decide) _)),
    pieces_piece (hpad (not_mem_decimalInt (by decide) _))]
  rfl

theorem readCell_blank (x : ℕ × TokenUsageEntry) {b : Bytes} (h : trim [space] b = []) :
    readCell x b = x := by
  rw [readCell]
  exact if_pos h

theorem readCell_cell (x : ℕ × TokenUsageEntry) {b v : Bytes} (h : trim [space] b = v)
    (hv : v ≠ []) :
    readCell x b = (x.1 + 1, match x.1 with
      | 1 => { x.2 with timestamp := v }
      | 2 => { x.2 with modelName := v }
      | 3 => { x.2 with promptTokens := (stoi v).getD x.2.promptTokens }
      | 4 => { x.2 with completionTokens := (stoi v).getD x.2.completionTokens }
      | _ => x.2) := by
  subst h
  rw [readCell]
  exact if_neg hv

/-- What is read from a row. The blank before its first bar is no column, so every cell is read as
the one after it. -/
theorem readRow_row (c : LogCall) :
    readRow (rowLine c) =
      if cell c.model.1 = [] then
        { timestamp := decimalInt c.prompt, modelName := decimalInt c.completion }
      else { timestamp := cell c.model.1, modelName := decimalInt c.prompt,
             promptTokens := c.completion } := by
  have hprompt : trim [space] (space :: (decimalInt c.prompt ++ [space])) = decimalInt c.prompt :=
    (trim_padded _).trans (cell_decimalInt _)
  have hcompletion : trim [space] (space :: (decimalInt c.completion ++ [space])) =
      decimalInt c.completion := (trim_padded _).trans (cell_decimalInt _)
  have hstoi : stoi (decimalInt c.completion) = some c.completion.1 := by
    rw [stoi_decimalInt, if_pos c.completion.2]
  rw [readRow, pieces_row]
  simp only [List.foldl_cons, List.foldl_nil]
  rw [readCell_blank _ (show trim [space] [] = [] from rfl),
    readCell_cell _ (trim_padded _) (cell_stamp c.stamp)]
  by_cases hm : cell c.model.1 = []
  · rw [readCell_blank _ ((trim_padded _).trans hm), readCell_cell _ hprompt (decimalInt_ne _),
      readCell_cell _ hcompletion (decimalInt_ne _), if_pos hm]
    rfl
  · rw [readCell_cell _ (trim_padded _) hm, readCell_cell _ hprompt (decimalInt_ne _),
      readCell_cell _ hcompletion (decimalInt_ne _), if_neg hm]
    simp only [hstoi, Option.getD_some]

theorem rowLine_line (c : LogCall) : newline ∉ rowLine c := by
  simp only [rowLine, List.mem_append, not_or]
  exact ⟨⟨⟨⟨⟨⟨⟨⟨by decide, c.stamp.2.1⟩, by decide⟩, c.model.2.1⟩, by decide⟩, line_decimalInt _⟩,
    by decide⟩, line_decimalInt _⟩, by decide⟩

theorem usageRow_eq (c : LogCall) : usageRow c.usage = rowLine c ++ [newline] := by
  have hclose : bytes " |\n" = bytes " |" ++ [newline] := by decide
  rw [usageRow, hclose, ← List.append_assoc]
  rfl

/-- Every row is an entry. -/
theorem readUsageLines_rows (s : TokenUsageSummary) (calls : List LogCall) :
    readUsageLines s false true (calls.map rowLine) =
      some { s with entries := s.entries ++ calls.map fun c => readRow (rowLine c) } := by
  induction calls generalizing s with
  | nil => simp [readUsageLines]
  | cons c calls ih =>
    have hsplit : rowLine c = bytes "| " ++ (c.stamp.1 ++ bytes " | " ++ c.model.1 ++ bytes " | " ++
        decimalInt c.prompt ++ bytes " | " ++ decimalInt c.completion ++ bytes " |") := by
      simp only [rowLine, List.append_assoc]
    have hline : rowLine c ≠ bytes "---" := by
      rw [hsplit]
      exact rule_head_ne (c := 0x7C) (by decide) (by decide) _
    have hrule : ¬ bytes "|---" <+: rowLine c := by
      rw [hsplit]
      exact not_prefix_append (by decide) _
    have hname : (readRow (rowLine c)).modelName ≠ [] := by
      rw [readRow_row]
      split
      · exact decimalInt_ne _
      · exact decimalInt_ne _
    have hhead : (rowLine c).head? = some 0x7C := by
      rw [hsplit]
      exact head_append (by decide) _
    rw [List.map_cons, readUsageLines, if_neg hline, if_neg (by decide), Option.bind_some,
      if_neg hrule, if_pos ⟨rfl, hhead, hname⟩, ih, List.map_cons, List.append_assoc,
      List.singleton_append]

theorem usageHead_line (prompt completion : ℤ) {updated : Bytes} (h : Legible id)
    (hu : newline ∉ updated) (hbar : 0x7C ∉ updated) :
    ∀ l ∈ usageHead id prompt completion updated, newline ∉ l ∧ find (bytes "|---") l = none := by
  have hsession := id_lines (p := bytes "session_id: ") (c := 0x73) (by decide) (by decide)
    (by decide) (by decide) h
  have htitle := id_lines (p := bytes "# Token Usage — ") (c := 0x23) (by decide) (by decide)
    (by decide) (by decide) h
  have hrule : bytes "|---" = 0x7C :: bytes "---" := by decide
  have hword : ∀ {p d : Bytes}, (newline ∉ p ∧ 0x7C ∉ p) → (newline ∉ d ∧ 0x7C ∉ d) →
      newline ∉ p ++ d ∧ find (bytes "|---") (p ++ d) = none := by
    intro p d hp hd
    rw [hrule, List.mem_append, not_or]
    refine ⟨⟨hp.1, hd.1⟩, find_none ?_⟩
    rw [List.mem_append, not_or]
    exact ⟨hp.2, hd.2⟩
  have hnumber : ∀ n : ℤ, newline ∉ decimalInt n ∧ 0x7C ∉ decimalInt n := fun n =>
    ⟨line_decimalInt n, not_mem_decimalInt (by decide) n⟩
  unfold usageHead
  simp only [List.forall_mem_cons, List.forall_mem_append]
  exact ⟨by decide, fun l hl => ⟨(hsession l hl).2.2, (hsession l hl).2.1⟩,
    hword (by decide) (hnumber _), hword (by decide) (hnumber _), hword (by decide) ⟨hu, hbar⟩,
    by decide, by decide, fun l hl => ⟨(htitle l hl).2.2, (htitle l hl).2.1⟩, by decide, by decide,
    fun _ h => absurd h List.not_mem_nil⟩

/-- The rows of the calls before. -/
theorem existingTable_rows {prompt completion : ℤ} {updated : Bytes} (h : Legible id)
    (hu : newline ∉ updated) (hbar : 0x7C ∉ updated) (rows : List Bytes) :
    existingTable (unlines (usageHead id prompt completion updated ++ tableRule :: rows)) =
      unlines rows := by
  obtain ⟨i, hi, hdrop⟩ := find_lines (p := bytes "|---") (by decide) (by decide)
    (fun l hl => (usageHead_line prompt completion h hu hbar l hl).2)
    (l := tableRule) (k := 0) (by decide) (newline :: unlines rows)
  have hfind : find [newline] (tableRule ++ newline :: unlines rows) = some tableRule.length :=
    find_byte (by decide) _
  rw [List.drop_zero] at hdrop
  rw [unlines_append, unlines_cons, existingTable, hi]
  dsimp only
  rw [hdrop, hfind]
  dsimp only
  rw [Nat.add_assoc, ← List.drop_drop, hdrop, List.drop_length_add_append]
  rfl

theorem Logs.lines {t : Tally} {calls : List LogCall} {content : Bytes} (h : Legible id)
    (hl : Logs id t calls (some content)) :
    ∃ updated, ByteString.lines content =
      usageHead id t.prompt t.completion updated ++ tableRule :: calls.map rowLine := by
  obtain ⟨updated, hu, hbar, rfl⟩ := hl
  refine ⟨updated, lines_unlines ?_⟩
  simp only [List.forall_mem_append, List.forall_mem_cons, List.forall_mem_map]
  exact ⟨fun l hl => (usageHead_line _ _ h hu hbar l hl).1, by decide, fun c _ => rowLine_line c⟩

theorem Logs.readTotals {t : Tally} {calls : List LogCall} {content : Option Bytes}
    (h : Legible id) (hl : Logs id t calls content) (hp : -2 ^ 31 ≤ t.prompt ∧ t.prompt < 2 ^ 31)
    (hc : -2 ^ 31 ≤ t.completion ∧ t.completion < 2 ^ 31) :
    SessionFiles.readTotals {} false (ByteString.lines (content.getD [])) =
      some ⟨t.prompt, t.completion, []⟩ := by
  cases content with
  | none =>
    obtain ⟨-, rfl⟩ := hl
    rfl
  | some content =>
    obtain ⟨updated, hlines⟩ := hl.lines h
    rw [Option.getD_some, hlines]
    exact readTotals_head h hp hc _

theorem Logs.existingTable {t : Tally} {calls : List LogCall} {content : Option Bytes}
    (h : Legible id) (hl : Logs id t calls content) :
    SessionFiles.existingTable (content.getD []) = unlines (calls.map rowLine) := by
  cases content with
  | none =>
    obtain ⟨rfl, -⟩ := hl
    rfl
  | some content =>
    obtain ⟨updated, hu, hbar, rfl⟩ := hl
    exact existingTable_rows h hu hbar _

theorem usageMarkdown_spec {t : Tally} {calls : List LogCall} {content : Option Bytes} (c : LogCall)
    (h : Legible c.id.1) (hl : Logs c.id.1 t calls content)
    (hp : -2 ^ 31 ≤ t.prompt ∧ t.prompt < 2 ^ 31)
    (hc : -2 ^ 31 ≤ t.completion ∧ t.completion < 2 ^ 31)
    (hp' : -2 ^ 31 ≤ t.prompt + c.prompt ∧ t.prompt + c.prompt < 2 ^ 31)
    (hc' : -2 ^ 31 ≤ t.completion + c.completion ∧ t.completion + c.completion < 2 ^ 31) :
    ∃ text, usageMarkdown c.id c.usage content = some text ∧
      Logs c.id.1 (t.add c.aggregate) (calls ++ [c]) (some text) := by
  refine ⟨_, by rw [usageMarkdown, hl.readTotals h hp hc, Option.map_some], ?_⟩
  refine ⟨c.updated.1, c.updated.2.1, c.updated.2.2.1, ?_⟩
  have hopen : bytes "---\nsession_id: " = bytes "---" ++ newline :: bytes "session_id: " := by
    decide
  have hprompt : bytes "\ntotal_prompt_tokens: " =
      newline :: bytes "total_prompt_tokens: " := by decide
  have hcompletion : bytes "\ntotal_completion_tokens: " =
      newline :: bytes "total_completion_tokens: " := by decide
  have hupdated : bytes "\nupdated: " = newline :: bytes "updated: " := by decide
  have htitle : bytes "\n---\n\n# Token Usage — " =
      newline :: (bytes "---" ++ newline :: newline :: bytes "# Token Usage — ") := by decide
  have htable : bytes
      "\n\n| Time | Model | Prompt | Completion |\n|------|-------|--------|------------|\n" =
      newline :: newline :: (bytes "| Time | Model | Prompt | Completion |" ++ newline ::
        (tableRule ++ [newline])) := by decide
  have hid : ∀ p : Bytes, unlines (ByteString.lines (p ++ (c.id.1 ++ [newline]))) =
      p ++ (c.id.1 ++ [newline]) := by
    intro p
    rw [← List.append_assoc, unlines_lines]
  rw [hl.existingTable h, usageRow_eq, hopen, hprompt, hcompletion, hupdated, htitle, htable]
  dsimp only [LogCall.usage]
  rw [plus32_eq hp', plus32_eq hc']
  simp only [usageHead, unlines_append, unlines_cons, unlines_nil, List.map_append, List.map_cons,
    List.map_nil, List.append_assoc, List.cons_append, List.nil_append, hid]
  rfl

/-- The summary that is loaded. -/
theorem Logs.readUsage {t : Tally} {calls : List LogCall} {content : Option Bytes}
    (h : Legible id) (hl : Logs id t calls content) (hp : -2 ^ 31 ≤ t.prompt ∧ t.prompt < 2 ^ 31)
    (hc : -2 ^ 31 ≤ t.completion ∧ t.completion < 2 ^ 31) :
    SessionFiles.readUsage content =
      some ⟨t.prompt, t.completion, calls.map fun c => readRow (rowLine c)⟩ := by
  cases content with
  | none =>
    obtain ⟨rfl, rfl⟩ := hl
    rfl
  | some content =>
    obtain ⟨updated, hlines⟩ := hl.lines h
    rw [SessionFiles.readUsage, hlines, readUsageLines_head h hp hc, readUsageLines_rows]
    rfl

end UsageFile

end UsageRecords
