import TizenClaw.TaskFrontmatter

/-! The history table of a task file: what any text gives, and what the rows of a task give. -/
namespace TaskHistory

open ByteString ByteLines JsonValue JsonDump TaskSchedule TaskScheduler TaskFile TaskFrontmatter

abbrev bar : UInt8 := 0x7C

/-- A text that a cell of the table keeps. -/
structure PlainCell (val : Bytes) : Prop where
  line : newline ∉ val
  cell : bar ∉ val
  ends : trim [space] val = val

instance (val : Bytes) : Decidable (PlainCell val) :=
  decidable_of_iff (newline ∉ val ∧ bar ∉ val ∧ trim [space] val = val)
    ⟨fun h => ⟨h.1, h.2.1, h.2.2⟩, fun h => ⟨h.1, h.2, h.3⟩⟩

theorem plainCell_nil : PlainCell [] := ⟨List.not_mem_nil, List.not_mem_nil, rfl⟩

theorem plainCell_word {val : Bytes} (hn : newline ∉ val) (hb : bar ∉ val) (hs : space ∉ val) :
    PlainCell val := by
  refine ⟨hn, hb, trim_of_not_mem ?_⟩
  intro b hm
  have hne : b ≠ space := fun h => hs (h ▸ hm)
  simpa using hne

section AnyText

theorem plainCell_cells {row : Bytes} (h : newline ∉ row) : ∀ c ∈ cells row, PlainCell c := by
  intro c hc
  obtain ⟨piece, hp, rfl⟩ := List.mem_map.mp (List.mem_filter.mp hc).1
  obtain ⟨hbar, hsub⟩ := mem_pieces hp
  constructor
  · exact fun hm => h (hsub (trim_subset piece hm))
  · exact fun hm => hbar (trim_subset piece hm)
  · exact trim_trim piece

theorem readEntry_plain {row : Bytes} {e : TaskExecEntry} (h : newline ∉ row)
    (he : readEntry row = some e) : PlainCell e.resultSummary := by
  have hcells := plainCell_cells h
  unfold readEntry at he
  split at he
  · rename_i result hrow
    obtain rfl := Option.some.inj he
    rw [hrow] at hcells
    cases result with
    | nil => exact plainCell_nil
    | cons c result => exact hcells c (by simp)
  · cases he

def AllPlain (history : List TaskExecEntry) : Prop := ∀ e ∈ history, PlainCell e.resultSummary

instance (history : List TaskExecEntry) : Decidable (AllPlain history) :=
  inferInstanceAs (Decidable (∀ e ∈ history, _))

theorem readHistoryLine_plain {r : HistoryReader} (hr : AllPlain r.history) {line : Bytes}
    (hl : newline ∉ line) : AllPlain (readHistoryLine r line).history := by
  cases line with
  | nil => exact hr
  | cons c line =>
    rw [readHistoryLine]
    split_ifs
    · exact hr
    · exact hr
    · intro e he
      rcases List.mem_append.mp he with he | he
      · exact hr e he
      · exact readEntry_plain hl (Option.mem_toList.mp he)
    · exact hr

theorem readHistoryLines_plain {ls : List Bytes} (h : ∀ l ∈ ls, newline ∉ l) {r : HistoryReader}
    (hr : AllPlain r.history) : AllPlain (ls.foldl readHistoryLine r).history := by
  induction ls generalizing r with
  | nil => exact hr
  | cons l ls ih =>
    apply ih fun m hm => h m (List.mem_cons_of_mem l hm)
    exact readHistoryLine_plain hr (h l List.mem_cons_self)

theorem readHistory_plain (content : Bytes) : AllPlain (readHistory content) := by
  unfold readHistory
  split
  · exact fun _ he => absurd he List.not_mem_nil
  · exact readHistoryLines_plain (newline_not_mem_lines _) fun _ he => absurd he List.not_mem_nil

end AnyText

section Rows

variable {cal : Calendar}

/-- An entry as an execution makes it. -/
structure IsEntry (cal : Calendar) (e : TaskExecEntry) : Prop where
  timestamp : ∃ t, e.timestamp = formatTime cal t
  status : e.status = bytes "success" ∨ e.status = bytes "failed"
  duration : -2 ^ 31 ≤ e.durationMs ∧ e.durationMs < 2 ^ 31

/-- A cell with a space on each side. -/
def padded (val : Bytes) : Bytes := space :: val ++ [space]

theorem cells_padded {val : Bytes} (h : PlainCell val) (s : Bytes) :
    cells (padded val ++ bar :: s) = (if val = [] then [] else [val]) ++ cells s := by
  have hbar : bar ∉ padded val := by
    simp only [padded, List.cons_append, List.mem_cons, List.mem_append, List.not_mem_nil, or_false,
      not_or]
    exact ⟨by decide, h.cell, by decide⟩
  have htrim : trim [space] (padded val) = val := by
    have hleft : padded val = [space] ++ (val ++ [space]) := rfl
    rw [hleft, trim_white_append (by simp), trim_append_white _ (by simp), h.ends]
  rw [cells, pieces_piece hbar, List.map_cons, htrim, List.filter_cons]
  by_cases hv : val = []
  · simp [hv, cells]
  · simp [hv, cells]

theorem historyRow_cells (num : ℤ) (e : TaskExecEntry) :
    historyRow num e = [] ++ bar :: (padded (decimalInt num) ++ bar :: (padded e.timestamp ++
      bar :: (padded e.status ++ bar :: (padded (decimalInt e.durationMs ++ bytes "ms") ++
        bar :: (padded e.resultSummary ++ bar :: []))))) := by
  have hopen : bytes "| " = [bar, space] := by decide
  have hsep : bytes " | " = [space, bar, space] := by decide
  have hms : bytes "ms | " = bytes "ms" ++ [space, bar, space] := by decide
  have hclose : bytes " |" = [space, bar] := by decide
  rw [historyRow, hopen, hsep, hms, hclose]
  simp only [padded, List.append_assoc, List.cons_append, List.nil_append]

theorem decimalInt_plain (i : ℤ) : PlainCell (decimalInt i) :=
  plainCell_word (not_mem_decimalInt (by decide) i) (not_mem_decimalInt (by decide) i)
    (not_mem_decimalInt (by decide) i)

theorem duration_plain (i : ℤ) : PlainCell (decimalInt i ++ bytes "ms") := by
  have hnot : ∀ c : UInt8, isNumberChar c = false → c ∉ bytes "ms" →
      c ∉ decimalInt i ++ bytes "ms" := by
    intro c hc hm
    rw [List.mem_append, not_or]
    exact ⟨not_mem_decimalInt hc i, hm⟩
  exact plainCell_word (hnot _ (by decide) (by decide)) (hnot _ (by decide) (by decide))
    (hnot _ (by decide) (by decide))

theorem time_plain (ht : TimeTexts cal) (t : Time) : PlainCell (formatTime cal t) :=
  plainCell_word (ht.not_mem (by decide) (by decide) t) (ht.not_mem (by decide) (by decide) t)
    (ht.not_mem (by decide) (by decide) t)

theorem readDuration_ms {i : ℤ} (h : -2 ^ 31 ≤ i ∧ i < 2 ^ 31) :
    readDuration (decimalInt i ++ bytes "ms") = i := by
  have hm : (0x6D : UInt8) ∉ decimalInt i := not_mem_decimalInt (by decide) i
  have hfind : find (bytes "ms") (decimalInt i ++ bytes "ms") = some (decimalInt i).length := by
    have hskip := find_skip (p := [0x73]) hm (bytes "ms")
    have hself : find [0x6D, 0x73] (bytes "ms") = some 0 := by decide
    rw [hself, Option.map_some, Nat.zero_add] at hskip
    exact hskip
  unfold readDuration
  rw [hfind]
  dsimp only
  rw [List.take_left, stoi_decimalInt, if_pos h, Option.getD_some]

/-- The row of an entry reads as the entry. -/
theorem readEntry_row (ht : TimeTexts cal) (num : ℤ) {e : TaskExecEntry} (he : IsEntry cal e)
    (hp : PlainCell e.resultSummary) : readEntry (historyRow num e) = some e := by
  obtain ⟨t, htime⟩ := he.timestamp
  have hstatus : PlainCell e.status ∧ e.status ≠ [] := by
    rcases he.status with h | h
    · rw [h]
      decide
    · rw [h]
      decide
  have hplain : PlainCell e.timestamp := htime ▸ time_plain ht t
  have hcells : cells (historyRow num e) = decimalInt num :: e.timestamp :: e.status ::
      (decimalInt e.durationMs ++ bytes "ms") ::
        (if e.resultSummary = [] then [] else [e.resultSummary]) := by
    have hfirst : ∀ s, cells ([] ++ bar :: s) = cells s := fun _ => rfl
    have hne : e.timestamp ≠ [] := htime ▸ (ht t).1
    have hms : decimalInt e.durationMs ++ bytes "ms" ≠ [] :=
      List.append_ne_nil_of_right_ne_nil _ (by decide)
    have hlast : cells [] = [] := rfl
    rw [historyRow_cells, hfirst, cells_padded (decimalInt_plain num), cells_padded hplain,
      cells_padded hstatus.1, cells_padded (duration_plain _), cells_padded hp, hlast,
      if_neg (JsonRoundTrip.decimalInt_ne_nil num), if_neg hne, if_neg hstatus.2, if_neg hms]
    simp only [List.singleton_append, List.append_nil]
  unfold readEntry
  rw [hcells]
  dsimp only
  rw [readDuration_ms he.duration]
  by_cases hr : e.resultSummary = []
  · rw [if_pos hr]
    congr 1
    rw [List.headD_nil, ← hr]
  · rw [if_neg hr]
    rfl

/-- Behind the head of the table each row adds its entry. -/
theorem readHistoryLines_rows (ht : TimeTexts cal) {history : List TaskExecEntry}
    (he : ∀ e ∈ history, IsEntry cal e) (hp : AllPlain history) (num : ℤ) {r : HistoryReader}
    (hr : 2 ≤ r.skip) :
    ((historyRows num history).foldl readHistoryLine r).history = r.history ++ history := by
  induction history generalizing num r with
  | nil => exact (List.append_nil _).symm
  | cons e history ih =>
    have hrow : readHistoryLine r (historyRow num e) =
        { skip := r.skip + 1, history := r.history ++ [e] } := by
      have hentry := readEntry_row ht num (he e List.mem_cons_self) (hp e List.mem_cons_self)
      have hskip : ¬ r.skip + 1 ≤ 2 := by omega
      rw [historyRow_cells, List.nil_append] at hentry ⊢
      rw [readHistoryLine, if_neg (by decide), if_pos rfl, if_neg hskip, hentry]
      rfl
    rw [historyRows, List.foldl_cons, hrow,
      ih (fun x hx => he x (List.mem_cons_of_mem e hx))
        (fun x hx => hp x (List.mem_cons_of_mem e hx)) _ (Nat.le_succ_of_le hr)]
    simp only [List.append_assoc, List.singleton_append]

end Rows

section Heading

def heading : Bytes := bytes "## Execution History"

/-- A line that is no row of a table. -/
def Quiet (line : Bytes) : Prop := line.head? ≠ some bar

theorem quiet_field (key : Key) (val : Bytes) : Quiet (field key val) := by
  cases key
  all_goals exact fun h => absurd (Option.some.inj h) (by decide)

theorem readHistoryLines_quiet {ls : List Bytes} (h : ∀ l ∈ ls, Quiet l) :
    ls.foldl readHistoryLine {} = {} := by
  induction ls with
  | nil => rfl
  | cons l ls ih =>
    have hl : readHistoryLine {} l = {} := by
      cases l with
      | nil => rfl
      | cons c l =>
        have hc : c ≠ bar := fun hc => h _ List.mem_cons_self (congrArg some hc)
        rw [readHistoryLine, if_neg hc, ite_self]
    rw [List.foldl_cons, hl]
    exact ih fun m hm => h m (List.mem_cons_of_mem l hm)

/-- The reader starts in the middle of the first line that has the heading in it. -/
theorem readHistory_first {ls ls' : List Bytes} {l : Bytes} {k : ℕ}
    (hn : ∀ m ∈ l :: ls', newline ∉ m) (h : ∀ m ∈ ls, find heading m = none)
    (hl : find heading l = some k) :
    readHistory (unlines (ls ++ l :: ls')) = (ls'.foldl readHistoryLine {}).history := by
  obtain ⟨i, hi, hdrop⟩ := find_lines (by decide) (by decide) h hl (newline :: unlines ls')
  have hstart : readHistoryLine {} (l.drop k) = {} := by
    obtain ⟨t, ht⟩ := find_eq_some hl
    have hrest : l.drop k = heading ++ t :=
      List.append_cancel_left ((List.take_append_drop k l).trans ht)
    rw [hrest]
    rfl
  have hline : newline ∉ l.drop k := fun hm => hn l List.mem_cons_self (List.mem_of_mem_drop hm)
  have hlines : lines (l.drop k ++ newline :: unlines ls') = l.drop k :: ls' := by
    rw [lines_line hline, lines_unlines fun m hm => hn m (List.mem_cons_of_mem l hm)]
  have hi' : find (bytes "## Execution History") (unlines (ls ++ l :: ls')) = some i := by
    rw [unlines_append, unlines_cons]
    exact hi
  unfold readHistory
  rw [hi']
  dsimp only
  rw [unlines_append, unlines_cons, hdrop, hlines, List.foldl_cons, hstart]

/-- The heading may stand in any of the lines: in the free text as well as above the table. -/
theorem exists_heading {ls : List Bytes} (h : ∃ l ∈ ls, find heading l ≠ none) :
    ∃ a l b k, ls = a ++ l :: b ∧ (∀ m ∈ a, find heading m = none) ∧
      find heading l = some k := by
  have hsome : (ls.find? fun l => (find heading l).isSome).isSome := by
    obtain ⟨l, hl, hf⟩ := h
    rw [List.find?_isSome]
    exact ⟨l, hl, Option.isSome_iff_ne_none.mpr hf⟩
  obtain ⟨l, hl⟩ := Option.isSome_iff_exists.mp hsome
  obtain ⟨hf, a, b, rfl, ha⟩ := List.find?_eq_some_iff_append.mp hl
  obtain ⟨k, hk⟩ := Option.isSome_iff_exists.mp hf
  refine ⟨a, l, b, k, rfl, ?_, hk⟩
  intro m hm
  simpa using ha m hm

theorem readHistory_quiet {ls : List Bytes} (hn : ∀ l ∈ ls, newline ∉ l)
    (hq : ∀ l ∈ ls, Quiet l) : readHistory (unlines ls) = [] := by
  by_cases h : ∃ l ∈ ls, find heading l ≠ none
  · obtain ⟨a, l, b, k, rfl, ha, hk⟩ := exists_heading h
    rw [readHistory_first (fun m hm => hn m (List.mem_append_right a hm)) ha hk,
      readHistoryLines_quiet fun m hm => hq m (List.mem_append_right a (List.mem_cons_of_mem l hm))]
  · have hnone : find heading (unlines ls) = none := by
      have hall : ∀ l ∈ ls, find heading l = none := by
        intro l hl
        by_contra hf
        exact h ⟨l, hl, hf⟩
      have hf := find_lines_none (by decide) (by decide) hall []
      rw [List.append_nil] at hf
      rw [hf]
      rfl
    have hnone' : find (bytes "## Execution History") (unlines ls) = none := hnone
    unfold readHistory
    rw [hnone']

/-- What stands behind the heading is read, whatever line the reader started in. -/
theorem readHistory_heading {ls ls' : List Bytes} (hn : ∀ l ∈ ls, newline ∉ l)
    (hq : ∀ l ∈ ls, Quiet l) (hn' : ∀ l ∈ ls', newline ∉ l) :
    readHistory (unlines (ls ++ heading :: ls')) = (ls'.foldl readHistoryLine {}).history := by
  have hself : find heading heading ≠ none := by decide
  have hhead : ∃ l ∈ ls ++ [heading], find heading l ≠ none := ⟨heading, by simp, hself⟩
  obtain ⟨a, l, b, k, hls, ha, hk⟩ := exists_heading hhead
  have hmem : ∀ m ∈ l :: b, m ∈ ls ∨ m = heading := by
    intro m hm
    have hm' : m ∈ ls ++ [heading] := hls ▸ List.mem_append_right a hm
    simpa using hm'
  have hline : ∀ m ∈ l :: (b ++ ls'), newline ∉ m := by
    intro m hm
    rw [← List.cons_append] at hm
    rcases List.mem_append.mp hm with hm | hm
    · rcases hmem m hm with hm | rfl
      · exact hn m hm
      · decide
    · exact hn' m hm
  have hquiet : ∀ m ∈ b, Quiet m := by
    intro m hm
    rcases hmem m (List.mem_cons_of_mem l hm) with hm | rfl
    · exact hq m hm
    · exact fun h => absurd (Option.some.inj h) (by decide)
  have hsplit : ls ++ heading :: ls' = a ++ l :: (b ++ ls') := by
    rw [← List.singleton_append, ← List.append_assoc, hls, List.append_assoc, List.cons_append]
  rw [hsplit, readHistory_first hline ha hk, List.foldl_append, readHistoryLines_quiet hquiet]

end Heading

section Table

variable {cal : Calendar}

theorem newline_not_mem_row (ht : TimeTexts cal) (num : ℤ) {e : TaskExecEntry}
    (he : IsEntry cal e) (hp : PlainCell e.resultSummary) : newline ∉ historyRow num e := by
  obtain ⟨t, htime⟩ := he.timestamp
  have hcell : ∀ val s, newline ∉ val → newline ∉ s → newline ∉ padded val ++ bar :: s := by
    intro val s hv hs
    simp only [padded, List.cons_append, List.append_assoc, List.nil_append, List.mem_cons,
      List.mem_append, not_or]
    exact ⟨by decide, hv, by decide, by decide, hs⟩
  have hstatus : newline ∉ e.status := by
    rcases he.status with h | h
    · rw [h]
      decide
    · rw [h]
      decide
  have htimestamp : newline ∉ e.timestamp := htime ▸ (time_plain ht t).line
  rw [historyRow_cells, List.nil_append, List.mem_cons, not_or]
  exact ⟨by decide, hcell _ _ (decimalInt_plain num).line <| hcell _ _ htimestamp <|
    hcell _ _ hstatus <| hcell _ _ (duration_plain _).line <| hcell _ _ hp.line (by decide)⟩

theorem newline_not_mem_rows (ht : TimeTexts cal) {history : List TaskExecEntry}
    (he : ∀ e ∈ history, IsEntry cal e) (hp : AllPlain history) (num : ℤ) :
    ∀ l ∈ historyRows num history, newline ∉ l := by
  induction history generalizing num with
  | nil => exact fun _ hl => absurd hl List.not_mem_nil
  | cons e history ih =>
    intro l hl
    rcases List.mem_cons.mp hl with rfl | hl
    · exact newline_not_mem_row ht num (he e List.mem_cons_self) (hp e List.mem_cons_self)
    · exact ih (fun x hx => he x (List.mem_cons_of_mem e hx))
        (fun x hx => hp x (List.mem_cons_of_mem e hx)) _ l hl

/-- The table behind lines without a row reads as the history. -/
theorem readHistory_table (ht : TimeTexts cal) {task : ScheduledTask}
    (he : ∀ e ∈ task.history, IsEntry cal e) (hp : AllPlain task.history) {ls : List Bytes}
    (hn : ∀ l ∈ ls, newline ∉ l) (hq : ∀ l ∈ ls, Quiet l) :
    readHistory (unlines ls ++ historyTable task) = task.history := by
  unfold historyTable
  split_ifs with hh
  · rw [List.append_nil, readHistory_quiet hn hq, hh]
  · have hrows := newline_not_mem_rows ht he hp task.runCount
    have hn' : ∀ l ∈ [[], bytes "| # | Timestamp | Status | Duration | Result |",
        bytes "|---|-----------|--------|----------|--------|"] ++
          historyRows task.runCount task.history, newline ∉ l := by
      intro l hl
      rcases List.mem_append.mp hl with hl | hl
      · have hhead : ∀ l ∈ [[], bytes "| # | Timestamp | Status | Duration | Result |",
            bytes "|---|-----------|--------|----------|--------|"], newline ∉ l := by decide
        exact hhead l hl
      · exact hrows l hl
    have hread := readHistory_heading hn hq hn'
    rw [List.foldl_append] at hread
    rw [← unlines_append]
    refine hread.trans ?_
    exact readHistoryLines_rows ht he hp task.runCount (Nat.le_refl 2)

end Table

end TaskHistory
