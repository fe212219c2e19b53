import TizenClaw.JsonRoundTrip
import TizenClaw.TaskFile

/-! The frontmatter of a task file: what its lines set, and which lines there are. -/
namespace TaskFrontmatter

open ByteString ByteLines JsonValue JsonDump JsonRoundTrip TaskSchedule TaskFile

section Numbers

theorem not_mem_decimalInt {c : UInt8} (hc : isNumberChar c = false) (i : ℤ) :
    c ∉ decimalInt i := by
  intro hm
  rw [decimalInt_numberChars i c hm] at hc
  cases hc

theorem isDigit_not_space {c : UInt8} (h : isDigit c = true) : ¬ isSpace c = true := by
  unfold isDigit at h
  unfold isSpace
  simp only [UInt8.le_iff_toNat_le, ← UInt8.toNat_inj, decide_eq_true_eq] at h ⊢
  simp only [UInt8.toNat_ofNat] at h ⊢
  omega

theorem stoi_digits {ds : Bytes} (hne : ds ≠ []) (hd : ∀ b ∈ ds, isDigit b = true) :
    stoi ds =
      if JsonParse.digitsValue ds < 2 ^ 31 then some (JsonParse.digitsValue ds : ℤ) else none := by
  have hdigits := takeWhile_all hd
  cases ds with
  | nil => exact absurd rfl hne
  | cons c t =>
    have hc : isDigit c = true := hd c List.mem_cons_self
    have hminus : c ≠ 0x2D := isDigit_ne hc (by decide)
    have hplus : c ≠ 0x2B := isDigit_ne hc (by decide)
    rw [stoi, List.dropWhile_cons_of_neg (isDigit_not_space hc)]
    split
    · rename_i h
      exact absurd (List.cons.inj h).1 hminus
    · rename_i h
      exact absurd (List.cons.inj h).1 hplus
    · simp only [hdigits, reduceCtorEq, Bool.false_eq_true, if_false]
      exact if_congr (by omega) rfl rfl

theorem stoi_plus {ds : Bytes} (hne : ds ≠ []) (hd : ∀ b ∈ ds, isDigit b = true) :
    stoi (0x2B :: ds) = stoi ds := by
  have hdigits := takeWhile_all hd
  rw [stoi_digits hne hd, stoi, List.dropWhile_cons_of_neg (by decide)]
  simp only [hdigits, hne, Bool.false_eq_true, if_false]
  exact if_congr (by omega) rfl rfl

theorem stoi_decimalInt (i : ℤ) :
    stoi (decimalInt i) = if -2 ^ 31 ≤ i ∧ i < 2 ^ 31 then some i else none := by
  have hdigits := takeWhile_all (decimal_digits i.natAbs)
  by_cases hi : i < 0
  · have hv : -(i.natAbs : ℤ) = i := by omega
    rw [decimalInt, if_pos hi, stoi, List.dropWhile_cons_of_neg (by decide)]
    simp only [hdigits, decimal_ne_nil, digitsValue_decimal, hv, if_true, if_false]
  · have hv : (i.natAbs : ℤ) = i := by omega
    rw [decimalInt, if_neg hi, stoi_digits (decimal_ne_nil _) (decimal_digits _),
      digitsValue_decimal]
    exact if_congr (by omega) (congrArg some hv) rfl

end Numbers

section Values

theorem unquote_of_head {val : Bytes} (h : val.head? ≠ some 0x22) : unquote val = val := by
  rw [unquote, if_neg]
  rintro ⟨-, hq, -⟩
  exact h hq

theorem unquote_quoted (val : Bytes) : unquote (0x22 :: val ++ [0x22]) = val := by
  have hq : Quoted (0x22 :: val ++ [0x22]) := by
    refine ⟨?_, rfl, List.getLast?_concat⟩
    simp
  rw [unquote, if_pos hq]
  simp

theorem unquote_subset (val : Bytes) : unquote val ⊆ val := by
  unfold unquote
  split_ifs
  · exact fun _ hb => List.mem_of_mem_drop (List.mem_of_mem_take hb)
  · exact List.Subset.refl val

theorem keyOf_text (key : Key) : keyOf key.text = some key := by
  cases key
  all_goals decide

theorem colon_not_mem_text (key : Key) : (0x3A : UInt8) ∉ key.text := by
  cases key
  all_goals decide

theorem keyValue_field (key : Key) (val : Bytes) :
    keyValue (field key val) = some (key, unquote val) := by
  have hfind : find (bytes ": ") (field key val) = some key.text.length := by
    have h := find_skip (p := [0x20]) (colon_not_mem_text key) (bytes ": " ++ val)
    have hself : find [0x3A, 0x20] (bytes ": " ++ val) = some 0 := find_self (by decide) val
    rw [hself, Option.map_some, Nat.zero_add] at h
    exact h
  have hdrop : (field key val).drop (key.text.length + 2) = val := by
    rw [field, List.drop_length_add_append]
    rfl
  rw [keyValue, hfind, Option.bind_some, hdrop, field, List.take_left, keyOf_text,
    Option.map_some]

theorem keyValue_subset {line val : Bytes} {key : Key} (h : keyValue line = some (key, val)) :
    val ⊆ line := by
  obtain ⟨colon, -, he⟩ := Option.bind_eq_some_iff.mp h
  obtain ⟨_, -, he⟩ := Option.map_eq_some_iff.mp he
  obtain ⟨-, rfl⟩ := Prod.mk.inj he
  exact fun _ hb => List.mem_of_mem_drop (unquote_subset _ hb)

/-- The value of the last line with a key. -/
def lastValue (key : Key) (ls : List Bytes) : Option Bytes :=
  (ls.filterMap keyValue).reverse.lookup key

theorem lastValue_append_none (key : Key) (ls : List Bytes) {line : Bytes}
    (h : keyValue line = none) : lastValue key (ls ++ [line]) = lastValue key ls := by
  simp [lastValue, h]

theorem lastValue_append_some (key : Key) (ls : List Bytes) {line : Bytes} {x : Key × Bytes}
    (h : keyValue line = some x) :
    lastValue key (ls ++ [line]) = if x.1 = key then some x.2 else lastValue key ls := by
  have hl : lastValue key (ls ++ [line]) = (x :: (ls.filterMap keyValue).reverse).lookup key := by
    simp [lastValue, h]
  rw [hl, List.lookup_cons, lastValue]
  by_cases hx : x.1 = key
  · simp [hx]
  · have hne : (key == x.1) = false := beq_false_of_ne (Ne.symm hx)
    rw [if_neg hx, hne]

end Values

section Fields

variable (cal : Calendar) (clock : Readings)

theorem readField_field (task : ScheduledTask) (key : Key) (val : Bytes) :
    readField cal clock task (field key val) = setField cal clock task (unquote val) key := by
  rw [readField, keyValue_field]

theorem setField_id (task : ScheduledTask) (key : Key) (val : Bytes) :
    (setField cal clock task val key).id = if key = .id then val else task.id := by
  cases key
  all_goals rfl

theorem setField_status (task : ScheduledTask) (key : Key) (val : Bytes) :
    (setField cal clock task val key).status =
      if key = .status then stringToTaskStatus val else task.status := by
  cases key
  all_goals rfl

theorem readFields_append (ls : List Bytes) (line : Bytes) :
    readFields cal clock (ls ++ [line]) = readField cal clock (readFields cal clock ls) line := by
  rw [readFields, List.foldl_append]
  rfl

theorem readFields_id (ls : List Bytes) :
    (readFields cal clock ls).id = (lastValue .id ls).getD [] := by
  induction ls using List.reverseRecOn with
  | nil => rfl
  | append_singleton ls line ih =>
    rw [readFields_append, readField]
    cases hl : keyValue line with
    | none =>
      rw [lastValue_append_none _ _ hl]
      exact ih
    | some x =>
      dsimp only
      rw [lastValue_append_some _ _ hl, setField_id]
      split_ifs
      · rfl
      · exact ih

theorem readFields_status (ls : List Bytes) :
    (readFields cal clock ls).status =
      ((lastValue .status ls).map stringToTaskStatus).getD .active := by
  induction ls using List.reverseRecOn with
  | nil => rfl
  | append_singleton ls line ih =>
    rw [readFields_append, readField]
    cases hl : keyValue line with
    | none =>
      rw [lastValue_append_none _ _ hl]
      exact ih
    | some x =>
      dsimp only
      rw [lastValue_append_some _ _ hl, setField_status]
      split_ifs
      · rfl
      · exact ih

/-- The free text of a task has no newline. -/
structure OneLine (task : ScheduledTask) : Prop where
  schedule : newline ∉ task.scheduleExpr
  prompt : newline ∉ task.prompt
  session : newline ∉ task.sessionId

instance (task : ScheduledTask) : Decidable (OneLine task) :=
  decidable_of_iff (newline ∉ task.scheduleExpr ∧ newline ∉ task.prompt ∧ newline ∉ task.sessionId)
    ⟨fun h => ⟨h.1, h.2.1, h.2.2⟩, fun h => ⟨h.1, h.2, h.3⟩⟩

theorem oneLine_readField {task : ScheduledTask} (h : OneLine task) {line : Bytes}
    (hl : newline ∉ line) : OneLine (readField cal clock task line) := by
  unfold readField
  split
  · exact h
  · rename_i key val hk
    have hv : newline ∉ val := fun hm => hl (keyValue_subset hk hm)
    cases key with
    | schedule => exact ⟨hv, h.prompt, h.session⟩
    | prompt => exact ⟨h.schedule, hv, h.session⟩
    | sessionId => exact ⟨h.schedule, h.prompt, hv⟩
    | _ => exact ⟨h.schedule, h.prompt, h.session⟩

theorem oneLine_readFields {ls : List Bytes} (h : ∀ l ∈ ls, newline ∉ l) :
    OneLine (readFields cal clock ls) := by
  induction ls using List.reverseRecOn with
  | nil => exact ⟨List.not_mem_nil, List.not_mem_nil, List.not_mem_nil⟩
  | append_singleton ls line ih =>
    rw [readFields_append]
    apply oneLine_readField cal clock (ih fun l hl => h l (List.mem_append_left _ hl))
    exact h line (by simp)

end Fields

section Lines

variable (cal : Calendar) (clock : Readings)

/-- What `strftime` gives: digits and the separators of the format. -/
def TimeTexts : Prop :=
  ∀ t, formatTime cal t ≠ [] ∧ ∀ b ∈ formatTime cal t, isDigit b ∨ b ∈ bytes "-T:"

variable {cal}

theorem TimeTexts.not_mem (h : TimeTexts cal) {c : UInt8} (hd : isDigit c = false)
    (hc : c ∉ bytes "-T:") (t : Time) : c ∉ formatTime cal t := by
  intro hm
  rcases (h t).2 c hm with hdigit | hsep
  · rw [hd] at hdigit
    cases hdigit
  · exact hc hsep

theorem newline_not_mem_field {val : Bytes} (h : newline ∉ val) (key : Key) :
    newline ∉ field key val := by
  have hk : newline ∉ key.text := by
    cases key
    all_goals decide
  rw [field, List.mem_append, List.mem_append, not_or, not_or]
  exact ⟨hk, by decide, h⟩

def rule : Bytes := bytes "---"

theorem field_ne_rule (key : Key) (val : Bytes) : field key val ≠ rule := by
  cases key
  all_goals exact fun h => absurd (List.cons.inj h).1 (by decide)

/-- Each line behind the free text is a field with a value on one line. -/
theorem fixedLines_fields (ht : TimeTexts cal) (task : ScheduledTask) :
    ∀ l ∈ fixedLines cal task, ∃ key val, newline ∉ val ∧ l = field key val := by
  have htime : ∀ t, newline ∉ formatTime cal t := ht.not_mem (by decide) (by decide)
  have hnum : ∀ i, newline ∉ decimalInt i := not_mem_decimalInt (by decide)
  have hstatus : newline ∉ taskStatusToString task.status := by
    cases task.status
    all_goals decide
  intro l hl
  unfold fixedLines at hl
  rcases List.mem_append.mp hl with hl | hl
  · rcases List.mem_append.mp hl with hl | hl
    · simp only [List.mem_cons, List.not_mem_nil, or_false] at hl
      rcases hl with rfl | rfl | rfl
      · exact ⟨_, _, hstatus, rfl⟩
      · exact ⟨_, _, htime _, rfl⟩
      · exact ⟨_, _, htime _, rfl⟩
    · split_ifs at hl
      · obtain rfl := List.mem_singleton.mp hl
        exact ⟨_, _, htime _, rfl⟩
      · cases hl
  · simp only [List.mem_cons, List.not_mem_nil, or_false] at hl
    rcases hl with rfl | rfl | rfl
    · exact ⟨_, _, hnum _, rfl⟩
    · exact ⟨_, _, hnum _, rfl⟩
    · exact ⟨_, _, hnum _, rfl⟩

theorem newline_not_mem_fixedLines (ht : TimeTexts cal) (task : ScheduledTask) :
    ∀ l ∈ fixedLines cal task, newline ∉ l := by
  intro l hl
  obtain ⟨key, val, hv, rfl⟩ := fixedLines_fields ht task l hl
  exact newline_not_mem_field hv key

theorem rule_not_mem_fixedLines (ht : TimeTexts cal) (task : ScheduledTask) :
    rule ∉ fixedLines cal task := by
  intro hm
  obtain ⟨key, val, -, he⟩ := fixedLines_fields ht task rule hm
  exact field_ne_rule key val he.symm

/-- What the lines behind the free text leave alone, and what they set. -/
structure Fixes (task a b : ScheduledTask) : Prop where
  id : b.id = a.id
  scheduleExpr : b.scheduleExpr = a.scheduleExpr
  prompt : b.prompt = a.prompt
  sessionId : b.sessionId = a.sessionId
  status : b.status = task.status
  runCount : b.runCount = (stoi (decimalInt task.runCount)).getD a.runCount
  failCount : b.failCount = (stoi (decimalInt task.failCount)).getD a.failCount

theorem unquote_decimalInt (i : ℤ) : unquote (decimalInt i) = decimalInt i := by
  apply unquote_of_head
  intro hh
  exact not_mem_decimalInt (by decide) i (List.mem_of_mem_head? hh)

theorem unquote_status (status : TaskStatus) :
    stringToTaskStatus (unquote (taskStatusToString status)) = status := by
  cases status
  all_goals decide

theorem fixes_fixedLines (task a : ScheduledTask) :
    Fixes task a ((fixedLines cal task).foldl (readField cal clock) a) := by
  unfold fixedLines
  split_ifs
  all_goals
    simp only [List.cons_append, List.nil_append, List.append_nil, List.foldl_cons,
      List.foldl_nil, readField_field, setField, unquote_status, unquote_decimalInt]
    exact ⟨rfl, rfl, rfl, rfl, rfl, rfl, rfl⟩

/-- The lines of the free text. -/
def freeLines (task : ScheduledTask) : List Bytes := lines (freeText task)

theorem unlines_freeLines (task : ScheduledTask) : unlines (freeLines task) = freeText task := by
  obtain ⟨s, hs⟩ := unlines_ends [field .schedule task.scheduleExpr,
    field .prompt (0x22 :: task.prompt ++ [0x22]), field .sessionId task.sessionId] (by simp)
  rw [freeLines, freeText, hs, unlines_lines]

theorem freeLines_oneLine {task : ScheduledTask} (h : OneLine task) :
    freeLines task = [field .schedule task.scheduleExpr,
      field .prompt (0x22 :: task.prompt ++ [0x22]), field .sessionId task.sessionId] := by
  have hquotes : newline ∉ (0x22 :: task.prompt ++ [0x22] : Bytes) := by
    simp only [List.cons_append, List.mem_cons, List.mem_append, List.not_mem_nil, or_false, not_or]
    exact ⟨by decide, h.prompt, by decide⟩
  apply lines_unlines
  intro l hl
  simp only [List.mem_cons, List.not_mem_nil, or_false] at hl
  rcases hl with rfl | rfl | rfl
  · exact newline_not_mem_field h.schedule _
  · exact newline_not_mem_field hquotes _
  · exact newline_not_mem_field h.session _

theorem taskText_lines (task : ScheduledTask) :
    taskText cal task = bytes "---\n" ++
      (unlines (field .id task.id :: (freeLines task ++ fixedLines cal task)) ++
        (rule ++ newline :: newline :: historyTable task)) := by
  have hend : bytes "---\n\n" = rule ++ [newline, newline] := by decide
  rw [taskText, hend, ← unlines_freeLines]
  simp only [unlines_cons, unlines_nil, unlines_append, List.append_assoc, List.cons_append,
    List.nil_append]

/-- The frontmatter ends at the first line that is a rule. -/
theorem loadFile_lines {l : Bytes} {ls : List Bytes} (h : ∀ m ∈ l :: ls, newline ∉ m)
    (hno : rule ∉ ls) {content rest : Bytes}
    (hc : content = bytes "---\n" ++ (unlines (l :: ls) ++ (rule ++ newline :: rest))) :
    loadFile cal clock content =
      reload cal clock (readFields cal clock (l :: ls)) (readHistory content) := by
  have hdrop : content.drop 4 = joined l ls ++ newline :: (rule ++ newline :: rest) := by
    rw [hc, ← joined_newline, List.append_assoc, List.singleton_append]
    rfl
  have htake : content.take 4 = bytes "---\n" := by
    rw [hc]
    rfl
  have hread : readFields cal clock (lines (joined l ls)) = readFields cal clock (l :: ls) := by
    rcases lines_joined h with hl | hl
    · rw [← hl]
    · rw [hl, readFields_append]
      rfl
  have hfind : find (bytes "\n---\n") (content.drop 4) = some (joined l ls).length := by
    rw [hdrop]
    exact find_rule (by decide) h hno rest
  rw [loadFile, if_pos htake, hfind, Option.bind_some, hdrop, List.take_left, hread]

end Lines

end TaskFrontmatter
