import TizenClaw.TaskHistory

/-! One task file: when reading it gives back the task that was written. -/
namespace TaskRestore

open ByteString ByteLines JsonDump TaskSchedule TaskFile TaskFrontmatter TaskHistory

/-- What a scheduler keeps of its tasks. -/
structure IsTask (cal : Calendar) (task : ScheduledTask) : Prop where
  named : task.id ≠ []
  id : newline ∉ task.id ∧ 0x22 ∉ task.id
  schedule : task.scheduleExpr.head? ≠ some 0x22
  failures : 0 ≤ task.failCount ∧ task.failCount ≤ task.runCount
  history : ∀ e ∈ task.history, IsEntry cal e

/-- The fields of a task that its file is there for. -/
structure SameTask (task back : ScheduledTask) : Prop where
  id : back.id = task.id
  scheduleExpr : back.scheduleExpr = task.scheduleExpr
  prompt : back.prompt = task.prompt
  sessionId : back.sessionId = task.sessionId
  runCount : back.runCount = task.runCount
  failCount : back.failCount = task.failCount
  history : back.history = task.history

/-- An active or paused task that its file can hold. -/
structure Storable (task : ScheduledTask) : Prop where
  text : OneLine task
  session : ¬ Quoted task.sessionId
  count : task.runCount < 2 ^ 31
  results : AllPlain task.history

instance (task : ScheduledTask) : Decidable (Storable task) :=
  decidable_of_iff (OneLine task ∧ ¬ Quoted task.sessionId ∧ task.runCount < 2 ^ 31 ∧
      AllPlain task.history)
    ⟨fun h => ⟨h.1, h.2.1, h.2.2.1, h.2.2.2⟩, fun h => ⟨h.1, h.2, h.3, h.4⟩⟩

/-- The lines of the free text in front of the first rule among them. -/
def smuggled (task : ScheduledTask) : List Bytes := (freeLines task).takeWhile (· ≠ rule)

/-- A rule in the free text cuts the status off, unless the lines in front of it end in a status
of their own that is not reloaded, or in an empty id. -/
def Sealed (task : ScheduledTask) : Prop :=
  rule ∈ freeLines task →
    lastValue .status (smuggled task) ∈
        [some (bytes "completed"), some (bytes "failed"), some (bytes "cancelled")] ∨
      lastValue .id (smuggled task) = some []

instance (task : ScheduledTask) : Decidable (Sealed task) := inferInstanceAs (Decidable (_ → _))

section Reload

theorem live_parse (cal : Calendar) (task : ScheduledTask) (history : List TaskExecEntry) :
    Live { (parseSchedule cal task.scheduleExpr task).1 with history := history } ↔ Live task := by
  unfold Live
  dsimp only
  rw [(parseSchedule_frame cal task.scheduleExpr task).status]

variable {cal : Calendar} {clock : Readings} {task back : ScheduledTask}
  {history : List TaskExecEntry}

theorem reload_eq_none :
    reload cal clock task history = none ↔ task.id = [] ∨ ¬ Live task := by
  by_cases hid : task.id = []
  · simp [reload, hid]
  · by_cases hl : Live task
    · have hl' := (live_parse cal task history).mpr hl
      simp only [reload, hid, hl', hl, if_true, if_false, not_true, or_self, iff_false]
      split_ifs
      · simp
      · simp
    · have hl' := mt (live_parse cal task history).mp hl
      simp only [reload, hid, hl', hl, if_false, not_false_eq_true, or_true]

theorem reload_frame (h : reload cal clock task history = some back) :
    SameButSchedule { task with history := history } back := by
  have hf := parseSchedule_frame cal task.scheduleExpr task
  unfold reload at h
  dsimp only at h
  split_ifs at h
  all_goals
    obtain rfl := Option.some.inj h
    exact ⟨hf.id, hf.scheduleExpr, hf.prompt, hf.sessionId, hf.status, hf.createdAt, hf.lastRun,
      hf.runCount, hf.failCount, hf.maxRetries, rfl⟩

theorem exists_reload (hid : task.id ≠ []) (hl : Live task) :
    ∃ back, reload cal clock task history = some back := by
  cases h : reload cal clock task history with
  | none =>
    rcases reload_eq_none.mp h with hnil | hno
    · exact absurd hnil hid
    · exact absurd hl hno
  | some back => exact ⟨back, rfl⟩

end Reload

section AnyFile

variable {cal : Calendar} {clock : Readings}

theorem loadFile_some {content : Bytes} {back : ScheduledTask}
    (h : loadFile cal clock content = some back) :
    ∃ ls, (∀ l ∈ ls, newline ∉ l) ∧
      reload cal clock (readFields cal clock ls) (readHistory content) = some back := by
  unfold loadFile at h
  split_ifs at h
  obtain ⟨k, -, h⟩ := Option.bind_eq_some_iff.mp h
  exact ⟨_, newline_not_mem_lines _, h⟩

/-- Whatever a file holds, what is read from it fits on its lines and in its cells. -/
theorem loadFile_plain {content : Bytes} {back : ScheduledTask}
    (h : loadFile cal clock content = some back) : OneLine back ∧ AllPlain back.history := by
  obtain ⟨ls, hls, hback⟩ := loadFile_some h
  have hf := reload_frame hback
  have hone := oneLine_readFields cal clock hls
  constructor
  · constructor
    · rw [hf.scheduleExpr]
      exact hone.schedule
    · rw [hf.prompt]
      exact hone.prompt
    · rw [hf.sessionId]
      exact hone.session
  · rw [hf.history]
    exact readHistory_plain content

theorem loadFile_live {content : Bytes} {back : ScheduledTask}
    (h : loadFile cal clock content = some back) : Live back := by
  obtain ⟨ls, -, hback⟩ := loadFile_some h
  have hlive : Live (readFields cal clock ls) := by
    by_contra hno
    rw [reload_eq_none.mpr (.inr hno)] at hback
    cases hback
  unfold Live at hlive ⊢
  rwa [(reload_frame hback).status]

end AnyFile

section TaskFile

variable {cal : Calendar} {task : ScheduledTask}

theorem newline_not_mem_frontLines (ht : TimeTexts cal) (h : IsTask cal task) :
    ∀ l ∈ field .id task.id :: (freeLines task ++ fixedLines cal task), newline ∉ l := by
  intro l hl
  rcases List.mem_cons.mp hl with rfl | hl
  · exact newline_not_mem_field h.id.1 _
  · rcases List.mem_append.mp hl with hl | hl
    · exact newline_not_mem_lines _ l hl
    · exact newline_not_mem_fixedLines ht task l hl

/-- Without a rule in the free text all fields are read. -/
theorem loadFile_whole (ht : TimeTexts cal) (clock : Readings) (h : IsTask cal task)
    (hno : rule ∉ freeLines task) :
    ∃ read, Fixes task (readFields cal clock (field .id task.id :: freeLines task)) read ∧
      loadFile cal clock (taskText cal task) =
        reload cal clock read (readHistory (taskText cal task)) := by
  refine ⟨(fixedLines cal task).foldl (readField cal clock)
    (readFields cal clock (field .id task.id :: freeLines task)),
    fixes_fixedLines clock task _, ?_⟩
  have hrule : rule ∉ freeLines task ++ fixedLines cal task := by
    rw [List.mem_append, not_or]
    exact ⟨hno, rule_not_mem_fixedLines ht task⟩
  rw [loadFile_lines clock (newline_not_mem_frontLines ht h) hrule (taskText_lines task),
    ← List.cons_append, readFields, List.foldl_append]
  rfl

/-- A rule in the free text ends the frontmatter. -/
theorem loadFile_cut (ht : TimeTexts cal) (clock : Readings) (h : IsTask cal task)
    (hmem : rule ∈ freeLines task) :
    loadFile cal clock (taskText cal task) =
      reload cal clock (readFields cal clock (field .id task.id :: smuggled task))
        (readHistory (taskText cal task)) := by
  obtain ⟨ls', ls, hls, hno'⟩ := List.eq_append_cons_of_mem hmem
  have hpre : smuggled task = ls' := by
    have hpos : ∀ l ∈ ls', (decide (l ≠ rule)) = true := by
      intro l hl
      have hne : l ≠ rule := fun he => hno' (he ▸ hl)
      exact decide_eq_true hne
    rw [smuggled, hls, List.takeWhile_append_of_pos hpos, List.takeWhile_cons_of_neg (by simp),
      List.append_nil]
  rw [← hpre] at hls
  have hno : rule ∉ smuggled task := hpre ▸ hno'
  have hline : ∀ l ∈ field .id task.id :: smuggled task, newline ∉ l := by
    intro l hl
    apply newline_not_mem_frontLines ht h
    rcases List.mem_cons.mp hl with rfl | hl
    · exact List.mem_cons_self
    · rw [hls]
      simp [hl]
  have htext : taskText cal task = bytes "---\n" ++ (unlines (field .id task.id :: smuggled task) ++
      (rule ++ newline :: (unlines (ls ++ fixedLines cal task) ++
        (rule ++ newline :: newline :: historyTable task)))) := by
    rw [taskText_lines, hls]
    simp only [unlines_cons, unlines_append, List.append_assoc, List.cons_append]
  exact loadFile_lines clock hline hno htext

end TaskFile

section Live

variable {cal : Calendar} {task : ScheduledTask}

theorem rule_not_mem_freeLines (h : OneLine task) : rule ∉ freeLines task := by
  rw [freeLines_oneLine h]
  simp [Ne.symm (field_ne_rule _ _)]

theorem unquote_id (h : IsTask cal task) : unquote task.id = task.id :=
  unquote_of_head fun hh => h.id.2 (List.mem_of_mem_head? hh)

/-- What is read of the free text, when none of it spreads over lines. -/
theorem readFields_oneLine (clock : Readings) (h : IsTask cal task) (ho : OneLine task) :
    readFields cal clock (field .id task.id :: freeLines task) =
      { id := task.id, scheduleExpr := task.scheduleExpr, prompt := task.prompt
        sessionId := unquote task.sessionId } := by
  have hquotes := unquote_quoted task.prompt
  rw [freeLines_oneLine ho]
  simp only [readFields, List.foldl_cons, List.foldl_nil, readField_field, setField, unquote_id h,
    unquote_of_head h.schedule, hquotes]

/-- The lines above the table are no rows of one. -/
theorem frontLines_quiet (ht : TimeTexts cal) (ho : OneLine task) :
    ∀ l ∈ field .id task.id :: (freeLines task ++ fixedLines cal task), Quiet l := by
  intro l hl
  rw [freeLines_oneLine ho] at hl
  simp only [List.cons_append, List.nil_append, List.mem_cons] at hl
  rcases hl with rfl | rfl | rfl | rfl | hl
  · exact quiet_field _ _
  · exact quiet_field _ _
  · exact quiet_field _ _
  · exact quiet_field _ _
  · obtain ⟨key, val, -, rfl⟩ := fixedLines_fields ht task l hl
    exact quiet_field _ _

theorem readHistory_task (ht : TimeTexts cal) (h : IsTask cal task) (ho : OneLine task)
    (hp : AllPlain task.history) : readHistory (taskText cal task) = task.history := by
  generalize hfront : field .id task.id :: (freeLines task ++ fixedLines cal task) = front
  have hlines : taskText cal task =
      unlines (rule :: (front ++ [rule, []])) ++ historyTable task := by
    have hrule : bytes "---\n" = rule ++ [newline] := by decide
    rw [taskText_lines, hfront, hrule]
    simp only [unlines_append, unlines_cons, unlines_nil, List.append_assoc, List.cons_append,
      List.nil_append]
  have habove : ∀ l ∈ rule :: (front ++ [rule, []]), newline ∉ l ∧ Quiet l := by
    have hrule : newline ∉ rule ∧ Quiet rule := by
      constructor
      · decide
      · exact fun hr => absurd (Option.some.inj hr) (by decide)
    intro l hl
    simp only [List.mem_cons, List.mem_append, List.not_mem_nil, or_false] at hl
    rcases hl with rfl | hl | rfl | rfl
    · exact hrule
    · rw [← hfront] at hl
      exact ⟨newline_not_mem_frontLines ht h l hl, frontLines_quiet ht ho l hl⟩
    · exact hrule
    · exact ⟨List.not_mem_nil, fun hr => nomatch hr⟩
  rw [hlines]
  apply readHistory_table ht h.history hp
  · exact fun l hl => (habove l hl).1
  · exact fun l hl => (habove l hl).2

/-- The fields that come back when no text spreads over lines. -/
theorem loadFile_oneLine (ht : TimeTexts cal) (clock : Readings) (h : IsTask cal task)
    (ho : OneLine task) (hp : AllPlain task.history) (hl : Live task) :
    ∃ back, loadFile cal clock (taskText cal task) = some back ∧ back.id = task.id ∧
      back.scheduleExpr = task.scheduleExpr ∧ back.prompt = task.prompt ∧
      back.sessionId = unquote task.sessionId ∧ back.status = task.status ∧
      back.runCount = (stoi (decimalInt task.runCount)).getD 0 ∧
      back.failCount = (stoi (decimalInt task.failCount)).getD 0 ∧
      back.history = task.history := by
  obtain ⟨read, hfix, hload⟩ := loadFile_whole ht clock h (rule_not_mem_freeLines ho)
  rw [readFields_oneLine clock h ho] at hfix
  have hid : read.id ≠ [] := by
    rw [hfix.id]
    exact h.named
  have hlive : Live read := by
    unfold Live
    rw [hfix.status]
    exact hl
  obtain ⟨back, hback⟩ : ∃ back,
      reload cal clock read (readHistory (taskText cal task)) = some back :=
    exists_reload hid hlive
  have hf := reload_frame hback
  refine ⟨back, hload.trans hback, hf.id.trans hfix.id, hf.scheduleExpr.trans hfix.scheduleExpr,
    hf.prompt.trans hfix.prompt, hf.sessionId.trans hfix.sessionId, hf.status.trans hfix.status,
    hf.runCount.trans hfix.runCount, hf.failCount.trans hfix.failCount, ?_⟩
  exact hf.history.trans (readHistory_task ht h ho hp)

/-- The file of an active or paused task gives the task back exactly when it can hold it. -/
theorem loadFile_live_iff (ht : TimeTexts cal) (clock : Readings) (h : IsTask cal task)
    (hl : Live task) :
    (∃ back, loadFile cal clock (taskText cal task) = some back ∧ SameTask task back) ↔
      Storable task := by
  constructor
  · rintro ⟨back, hback, hsame⟩
    obtain ⟨hone, hplain⟩ := loadFile_plain hback
    rw [hsame.history] at hplain
    have ho : OneLine task := by
      constructor
      · rw [← hsame.scheduleExpr]
        exact hone.schedule
      · rw [← hsame.prompt]
        exact hone.prompt
      · rw [← hsame.sessionId]
        exact hone.session
    obtain ⟨back', hback', -, -, -, hsession, -, hrun, -, -⟩ :=
      loadFile_oneLine ht clock h ho hplain hl
    obtain rfl : back = back' := Option.some.inj (hback.symm.trans hback')
    refine ⟨ho, ?_, ?_, hplain⟩
    · intro hq
      rw [hsame.sessionId, unquote, if_pos hq] at hsession
      have hlen := congrArg List.length hsession
      rw [List.length_take, List.length_drop] at hlen
      have htwo := hq.1
      omega
    · rw [hsame.runCount, stoi_decimalInt] at hrun
      split_ifs at hrun with hr
      · exact hr.2
      · rw [Option.getD_none] at hrun
        omega
  · intro hs
    obtain ⟨back, hback, hid, hexpr, hprompt, hsession, -, hrun, hfail, hhist⟩ :=
      loadFile_oneLine ht clock h hs.text hs.results hl
    have hcount := hs.count
    have hfailures := h.failures
    rw [stoi_decimalInt, if_pos (by omega)] at hrun hfail
    rw [unquote, if_neg hs.session] at hsession
    exact ⟨back, hback, hid, hexpr, hprompt, hsession, hrun, hfail, hhist⟩

end Live

section Ended

variable {cal : Calendar} {task : ScheduledTask}

theorem lastValue_cons (key : Key) (l : Bytes) (ls : List Bytes) :
    lastValue key (l :: ls) = (lastValue key ls).or (lastValue key [l]) := by
  have hsplit : (l :: ls).filterMap keyValue = [l].filterMap keyValue ++ ls.filterMap keyValue := by
    rw [← List.filterMap_append, List.singleton_append]
  rw [lastValue, hsplit, List.reverse_append, List.lookup_append, lastValue, lastValue]

theorem lastValue_field (key key' : Key) (val : Bytes) :
    lastValue key [field key' val] = if key' = key then some (unquote val) else none :=
  lastValue_append_some key [] (keyValue_field key' val)

theorem live_string_iff (s : Bytes) :
    stringToTaskStatus s = .active ∨ stringToTaskStatus s = .paused ↔
      s ∉ [bytes "completed", bytes "failed", bytes "cancelled"] := by
  unfold stringToTaskStatus
  split_ifs with ha hp hc hf hx
  · simp [ha]
    decide
  · simp [hp]
    decide
  · simp [hc]
  · simp [hf]
  · simp [hx]
  · simp [hc, hf, hx]

/-- The file of any other task is passed over exactly when its status cannot be cut off. -/
theorem loadFile_ended_iff (ht : TimeTexts cal) (clock : Readings) (h : IsTask cal task)
    (hl : ¬ Live task) : loadFile cal clock (taskText cal task) = none ↔ Sealed task := by
  by_cases hmem : rule ∈ freeLines task
  · have hid : (readFields cal clock (field .id task.id :: smuggled task)).id = [] ↔
        lastValue .id (smuggled task) = some [] := by
      rw [readFields_id, lastValue_cons, lastValue_field, if_pos rfl, unquote_id h]
      cases lastValue .id (smuggled task) with
      | none => simp [h.named]
      | some val => simp
    have hlive : ¬ Live (readFields cal clock (field .id task.id :: smuggled task)) ↔
        lastValue .status (smuggled task) ∈
          [some (bytes "completed"), some (bytes "failed"), some (bytes "cancelled")] := by
      unfold Live
      rw [readFields_status, lastValue_cons, lastValue_field, if_neg (by decide), Option.or_none]
      cases lastValue .status (smuggled task) with
      | none => simp
      | some val =>
        rw [Option.map_some, Option.getD_some, live_string_iff, not_not]
        simp
    rw [loadFile_cut ht clock h hmem, reload_eq_none, hid, hlive, Sealed]
    constructor
    · intro hs _
      exact hs.symm
    · intro hs
      exact (hs hmem).symm
  · obtain ⟨read, hfix, hload⟩ := loadFile_whole ht clock h hmem
    have hread : ¬ Live read := by
      unfold Live
      rw [hfix.status]
      exact hl
    rw [hload]
    constructor
    · exact fun _ hm => absurd hm hmem
    · exact fun _ => reload_eq_none.mpr (.inr hread)

end Ended

end TaskRestore
