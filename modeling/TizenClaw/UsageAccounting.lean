import TizenClaw.SessionIsolation
import TizenClaw.UsageRecords

/-! Every call of `LogTokenUsage` against what is loaded afterwards: the entries of its session, the
totals of the session and the aggregates. -/
namespace UsageAccounting

open ByteString ByteLines JsonDump OrderedMap TransitionSystem SessionFiles TaskSchedule
  TaskFrontmatter UsageAggregates UsageRecords

structure UsageStore where
  usage : Directory := Map.empty
  daily : Directory := Map.empty
  monthly : Directory := Map.empty

def fileName (date : Bytes) : Bytes := date ++ bytes ".md"

/-- What `stoi` throws on one of the files leaves the function, with the files before it written. -/
def logTokenUsage (listing : List Bytes) (s : UsageStore) (c : LogCall) : UsageStore :=
  let usagePath := getSessionPath listing c.date c.id
  let dailyPath := fileName c.today.date
  let monthlyPath := fileName c.today.month
  match usageMarkdown c.id c.usage (s.usage.get usagePath) with
  | none => s
  | some text =>
    let s := { s with usage := s.usage.insert usagePath text }
    match dailyMarkdown c.aggregate (s.daily.get dailyPath) with
    | none => s
    | some text =>
      let s := { s with daily := s.daily.insert dailyPath text }
      match monthlyMarkdown c.aggregate (s.monthly.get monthlyPath) with
      | none => s
      | some text => { s with monthly := s.monthly.insert monthlyPath text }

/-- Calls one after the other, with ids and on days of two sets, from empty directories. -/
def accounts (ids : Set SessionId) (days : Set DatePrefix) : System UsageStore LogCall where
  Init s := s = {}
  Step s c t := c.id ∈ ids ∧ c.date ∈ days ∧
    ∃ listing, listing.Perm s.usage.names ∧ t = logTokenUsage listing s c

def loadDailyUsage (s : UsageStore) (date : Bytes) : Option DailyUsageSummary :=
  parseAggregateMd (s.daily.get (fileName date))

def loadMonthlyUsage (s : UsageStore) (month : Bytes) : Option DailyUsageSummary :=
  parseAggregateMd (s.monthly.get (fileName month))

section Property

variable (ids : Set SessionId) (s : UsageStore) (calls : List LogCall)

def onSession (id : SessionId) : List LogCall := calls.filter fun c => c.id = id
def onDay (date : Bytes) : List LogCall := calls.filter fun c => c.today.date = date
def inMonth (month : Bytes) : List LogCall := calls.filter fun c => c.today.month = month

/-- The tokens of calls, and how many calls they are. -/
def tally : Tally := UsageAggregates.tally (calls.map LogCall.aggregate)

/-- The calls on a session are its entries, the totals are sums of these, and the aggregates sums
over all sessions. -/
structure Accounted : Prop where
  session : ∀ id ∈ ids, ∀ listing, listing.Perm s.usage.names →
    ∃ summary, loadTokenUsage listing s.usage id = some summary ∧
      summary.entries.map (fun e => (e.modelName, e.promptTokens, e.completionTokens)) =
        (onSession calls id).map (fun c => (c.model.1, c.prompt.1, c.completion.1)) ∧
      summary.totalPromptTokens = (summary.entries.map fun e => e.promptTokens).sum ∧
      summary.totalCompletionTokens = (summary.entries.map fun e => e.completionTokens).sum
  daily : ∀ today : Today, ∃ date,
    loadDailyUsage s today.date = some ((tally (onDay calls today.date)).summary date)
  monthly : ∀ today : Today, ∃ date,
    loadMonthlyUsage s today.month = some ((tally (inMonth calls today.month)).summary date)

/-- No sum leaves the range of `int` on the way. -/
def InRange : Prop :=
  ∀ l, l <+: calls →
    (∀ id, (-2 ^ 31 ≤ (tally (onSession l id)).prompt ∧ (tally (onSession l id)).prompt < 2 ^ 31) ∧
      -2 ^ 31 ≤ (tally (onSession l id)).completion ∧
        (tally (onSession l id)).completion < 2 ^ 31) ∧
    ∀ today : Today, (tally (onDay l today.date)).InRange ∧ (tally (inMonth l today.month)).InRange

end Property

section Runs

variable {ids : Set SessionId} {days : Set DatePrefix} {s t : UsageStore} {calls : List LogCall}
  {c : LogCall}

theorem tally_concat (calls : List LogCall) (c : LogCall) :
    tally (calls ++ [c]) = (tally calls).add c.aggregate := by
  rw [tally, List.map_append, List.map_singleton, tally_insert, List.append_nil]
  rfl

theorem onSession_self (calls : List LogCall) (c : LogCall) :
    onSession (calls ++ [c]) c.id = onSession calls c.id ++ [c] := by
  simp [onSession, List.filter_append]

theorem onSession_other {id : SessionId} (h : c.id ≠ id) (calls : List LogCall) :
    onSession (calls ++ [c]) id = onSession calls id := by
  simp [onSession, List.filter_append, h]

theorem onDay_self (calls : List LogCall) (c : LogCall) :
    onDay (calls ++ [c]) c.today.date = onDay calls c.today.date ++ [c] := by
  simp [onDay, List.filter_append]

theorem onDay_other {date : Bytes} (h : c.today.date ≠ date) (calls : List LogCall) :
    onDay (calls ++ [c]) date = onDay calls date := by
  simp [onDay, List.filter_append, h]

theorem inMonth_self (calls : List LogCall) (c : LogCall) :
    inMonth (calls ++ [c]) c.today.month = inMonth calls c.today.month ++ [c] := by
  simp [inMonth, List.filter_append]

theorem inMonth_other {month : Bytes} (h : c.today.month ≠ month) (calls : List LogCall) :
    inMonth (calls ++ [c]) month = inMonth calls month := by
  simp [inMonth, List.filter_append, h]

theorem fileName_inj {a b : Bytes} : fileName a = fileName b ↔ a = b :=
  List.append_left_inj (bytes ".md")

/-- The row of a legible id does not close the frontmatter. -/
theorem dailyRow_plain (h : Legible c.id.1) : bytes "---" ∉ lines (dailyRow c.aggregate) := by
  have hend : bytes " |\n" = bytes " " ++ 0x7C :: [newline] := by decide
  have hsplit : dailyRow c.aggregate = (bytes "| " ++ c.dailyStamp.1 ++ bytes " | ") ++ (c.id.1 ++
      ((bytes " | " ++ c.model.1 ++ bytes " | " ++ decimalInt c.prompt ++ bytes " | " ++
        decimalInt c.completion ++ bytes " " ++ [0x7C]) ++ [newline])) := by
    rw [dailyRow, hend]
    simp only [LogCall.aggregate, List.append_assoc, List.cons_append, List.nil_append]
  have hfront : newline ∉ bytes "| " ++ c.dailyStamp.1 ++ bytes " | " := by
    simp only [List.mem_append, not_or]
    exact ⟨⟨by decide, c.dailyStamp.2.1⟩, by decide⟩
  have hback : newline ∉ bytes " | " ++ c.model.1 ++ bytes " | " ++ decimalInt c.prompt ++
      bytes " | " ++ decimalInt c.completion ++ bytes " " ++ [0x7C] := by
    simp only [List.mem_append, not_or]
    exact ⟨⟨⟨⟨⟨⟨⟨by decide, c.model.2.1⟩, by decide⟩, line_decimalInt _⟩, by decide⟩,
      line_decimalInt _⟩, by decide⟩, by decide⟩
  obtain ⟨ms, m, hid, hrow⟩ := lines_append_last hback c.id.1
  have hlast : ∀ x q : Bytes, x ++ (q ++ [0x7C]) ≠ bytes "---" := by
    intro x q he
    have hg := congrArg List.getLast? he
    rw [← List.append_assoc, List.getLast?_concat] at hg
    exact absurd hg (by decide)
  have hhead : ∀ x : Bytes, bytes "| " ++ c.dailyStamp.1 ++ bytes " | " ++ x ≠ bytes "---" := by
    intro x
    rw [List.append_assoc, List.append_assoc]
    exact rule_head_ne (c := 0x7C) (by decide) (by decide) _
  rw [hsplit]
  intro hmem
  cases ms with
  | nil =>
    rw [lines_append_first hfront hrow] at hmem
    exact hhead _ (List.mem_singleton.mp hmem).symm
  | cons l ms =>
    rw [lines_append_first hfront hrow, List.mem_cons] at hmem
    rcases hmem with he | hmem
    · exact hhead _ he.symm
    · rcases List.mem_append.mp hmem with hm | hm
      · refine (h.2 (bytes "---") ?_).1 rfl
        rw [hid]
        exact List.mem_append_left _ hm
      · exact hlast m _ (List.mem_singleton.mp hm).symm

/-- What the files tell after the calls. -/
structure Kept (ids : Set SessionId) (days : Set DatePrefix) (s : UsageStore)
    (calls : List LogCall) : Prop where
  session : ∀ id ∈ ids, ∃ content, SessionIsolation.Holds s.usage days id content ∧
    Logs id.1 (tally (onSession calls id)) (onSession calls id) content
  daily : ∀ today : Today, Holds (bytes "date") today.date (tally (onDay calls today.date))
    (s.daily.get (fileName today.date))
  monthly : ∀ today : Today, Holds (bytes "month") today.month (tally (inMonth calls today.month))
    (s.monthly.get (fileName today.month))

theorem kept_nil : Kept ids days {} [] where
  session id _ := ⟨none, by simp [SessionIsolation.Holds, Directory.names, Map.empty], rfl, rfl⟩
  daily _ := rfl
  monthly _ := rfl

/-- A call on legible ids with sums in range writes all three files. -/
theorem kept_step (ha : SessionIsolation.Apart ids days) (hl : ∀ id ∈ ids, Legible id.1)
    (h : Kept ids days s calls) (hr : InRange (calls ++ [c]))
    (hs : (accounts ids days).Step s c t) : Kept ids days t (calls ++ [c]) := by
  obtain ⟨hid, hd, listing, hlist, rfl⟩ := hs
  obtain ⟨hold, hday⟩ := hr calls (List.prefix_append _ _)
  obtain ⟨hnew, hday'⟩ := hr (calls ++ [c]) (List.prefix_refl _)
  obtain ⟨content, hcontent, hlogs⟩ := h.session c.id hid
  have hnew := hnew c.id
  rw [onSession_self, tally_concat] at hnew
  obtain ⟨text, htext, hlogs'⟩ := usageMarkdown_spec c (hl c.id hid) hlogs (hold c.id).1
    (hold c.id).2 hnew.1 hnew.2
  have hday' := hday' c.today
  rw [onDay_self, inMonth_self, tally_concat, tally_concat] at hday'
  obtain ⟨dtext, hdtext, hdaily⟩ := dailyMarkdown_spec (c := c.aggregate) (h.daily c.today)
    (hday c.today).1 hday'.1 (dailyRow_plain (hl c.id hid))
  obtain ⟨mtext, hmtext, hmonthly⟩ := monthlyMarkdown_spec (c := c.aggregate) (h.monthly c.today)
    (hday c.today).2 hday'.2
  have hget := hcontent.get_path hlist c.date
  have hstep : logTokenUsage listing s c =
      ⟨s.usage.insert (getSessionPath listing c.date c.id) text,
        s.daily.insert (fileName c.today.date) dtext,
        s.monthly.insert (fileName c.today.month) mtext⟩ := by
    unfold logTokenUsage
    simp only [hget, htext, hdtext, hmtext]
  rw [hstep]
  refine ⟨?_, ?_, ?_⟩
  · intro id hid'
    by_cases hne : c.id = id
    · subst hne
      rw [onSession_self, tally_concat]
      exact ⟨some text, hcontent.write_self hlist hd (some text), hlogs'⟩
    · rw [onSession_other hne]
      obtain ⟨content', hcontent', hlogs''⟩ := h.session id hid'
      have hpath := SessionIsolation.not_matches_path ha hcontent hid hid' hne hlist hd
      exact ⟨content', hcontent'.write_other hpath (some text), hlogs''⟩
  · intro today
    by_cases hne : c.today.date = today.date
    · rw [← hne, onDay_self, tally_concat, Map.get_insert_self]
      exact hdaily
    · rw [onDay_other hne, Map.get_insert_other fun he => hne (fileName_inj.mp he).symm]
      exact h.daily today
  · intro today
    by_cases hne : c.today.month = today.month
    · rw [← hne, inMonth_self, tally_concat, Map.get_insert_self]
      exact hmonthly
    · rw [inMonth_other hne, Map.get_insert_other fun he => hne (fileName_inj.mp he).symm]
      exact h.monthly today

theorem kept (ha : SessionIsolation.Apart ids days) (hl : ∀ id ∈ ids, Legible id.1) {tr}
    (h : Run (accounts ids days) tr s) (hr : InRange (tr.map Prod.snd)) :
    Kept ids days s (tr.map Prod.snd) := by
  induction h with
  | init h =>
    obtain rfl := h
    exact kept_nil
  | step _ hs ih =>
    rw [List.map_append] at hr ⊢
    exact kept_step ha hl (ih fun l hl => hr l (hl.trans (List.prefix_append _ _))) hr hs

theorem mem_ids {tr} (h : Run (accounts ids days) tr s) : ∀ c ∈ tr.map Prod.snd, c.id ∈ ids := by
  induction h with
  | init => simp
  | step _ hs ih =>
    rw [List.map_append, List.forall_mem_append]
    exact ⟨ih, by simpa using hs.1⟩

/-- The totals and the aggregates are always right. -/
theorem Kept.aggregates (h : Kept ids days s calls) (hr : InRange calls) (today : Today) :
    (∃ date, loadDailyUsage s today.date = some ((tally (onDay calls today.date)).summary date)) ∧
      ∃ month, loadMonthlyUsage s today.month =
        some ((tally (inMonth calls today.month)).summary month) := by
  obtain ⟨-, hrange⟩ := hr calls (List.prefix_refl _)
  exact ⟨parseAggregateMd_spec (h.daily today) (.inl rfl) today.date_line (hrange today).1,
    parseAggregateMd_spec (h.monthly today) (.inr rfl) today.month_line (hrange today).2⟩

/-- What a session loads: its totals, and an entry for each call read off its row. -/
theorem Kept.loaded (h : Kept ids days s calls) (hl : ∀ id ∈ ids, Legible id.1)
    (hr : InRange calls) {id : SessionId} (hid : id ∈ ids) {listing : List Bytes}
    (hlist : listing.Perm s.usage.names) :
    loadTokenUsage listing s.usage id =
      some ⟨(tally (onSession calls id)).prompt, (tally (onSession calls id)).completion,
        (onSession calls id).map fun c => readRow (rowLine c)⟩ := by
  obtain ⟨content, hcontent, hlogs⟩ := h.session id hid
  obtain ⟨hrange, -⟩ := hr calls (List.prefix_refl _)
  rw [loadTokenUsage, hcontent.found hlist]
  exact hlogs.readUsage (hl id hid) (hrange id).1 (hrange id).2

/-- A call of which the entry shows what was logged. -/
def Blank (c : LogCall) : Prop := c.model.1 = bytes "0" ∧ c.prompt.1 = 0 ∧ c.completion.1 = 0

theorem readRow_eq_iff (c : LogCall) :
    ((readRow (rowLine c)).modelName = c.model.1 ∧ (readRow (rowLine c)).promptTokens = c.prompt ∧
      (readRow (rowLine c)).completionTokens = c.completion) ↔ Blank c := by
  rw [readRow_row, Blank]
  constructor
  · intro h
    by_cases hm : cell c.model.1 = []
    · rw [if_pos hm] at h
      rw [← h.1, cell_decimalInt] at hm
      exact absurd hm (decimalInt_ne _)
    · rw [if_neg hm] at h
      obtain ⟨hmodel, hprompt, hcompletion⟩ := h
      have hzero : c.prompt.1 = 0 := hprompt.symm.trans hcompletion.symm
      rw [hzero] at hmodel
      exact ⟨hmodel.symm, hzero, hcompletion.symm⟩
  · rintro ⟨hmodel, hprompt, hcompletion⟩
    have hm : cell c.model.1 ≠ [] := by
      rw [hmodel]
      decide
    rw [if_neg hm, hmodel, hprompt, hcompletion]
    exact ⟨rfl, rfl, rfl⟩

theorem Kept.session_iff (h : Kept ids days s calls) (hl : ∀ id ∈ ids, Legible id.1)
    (hr : InRange calls) (hids : ∀ c ∈ calls, c.id ∈ ids) :
    Accounted ids s calls ↔ ∀ c ∈ calls, Blank c := by
  constructor
  · intro ha c hc
    obtain ⟨summary, hload, hentries, -⟩ := ha.session c.id (hids c hc) _ (List.Perm.refl _)
    rw [h.loaded hl hr (hids c hc) (List.Perm.refl _), Option.some.injEq] at hload
    rw [← hload, List.map_map] at hentries
    have hmem : c ∈ onSession calls c.id := List.mem_filter.mpr ⟨hc, by simp⟩
    have hrow := List.map_inj_left.mp hentries c hmem
    simp only [Function.comp_apply, Prod.mk.injEq] at hrow
    exact (readRow_eq_iff c).mp hrow
  · intro hblank
    have hrows : ∀ id, ∀ c ∈ onSession calls id, Blank c := fun id c hc =>
      hblank c (List.mem_filter.mp hc).1
    refine ⟨?_, fun today => (h.aggregates hr today).1, fun today => (h.aggregates hr today).2⟩
    intro id hid listing hlist
    have hentry : ∀ c ∈ onSession calls id,
        (readRow (rowLine c)).modelName = c.model.1 ∧
          (readRow (rowLine c)).promptTokens = c.prompt ∧
          (readRow (rowLine c)).completionTokens = c.completion := fun c hc =>
      (readRow_eq_iff c).mpr (hrows id c hc)
    refine ⟨_, h.loaded hl hr hid hlist, ?_, ?_, ?_⟩
    · rw [List.map_map]
      apply List.map_congr_left
      intro c hc
      obtain ⟨hm, hp, hcomp⟩ := hentry c hc
      simp only [Function.comp_apply, hm, hp, hcomp]
    · change (((onSession calls id).map LogCall.aggregate).map fun c => c.prompt.1).sum = _
      rw [List.map_map, List.map_map]
      refine congrArg List.sum (List.map_congr_left ?_)
      intro c hc
      exact (hentry c hc).2.1.symm
    · change (((onSession calls id).map LogCall.aggregate).map fun c => c.completion.1).sum = _
      rw [List.map_map, List.map_map]
      refine congrArg List.sum (List.map_congr_left ?_)
      intro c hc
      exact (hentry c hc).2.2.symm

/-- After any calls the aggregates are the sums of what was logged, and everything is accounted for
just when every call so far logged the model `0` and no tokens: of all others the entries are
wrong. -/
theorem accounted_iff (ids : Set SessionId) (days : Set DatePrefix)
    (ha : SessionIsolation.Apart ids days) (hl : ∀ id ∈ ids, Legible id.1)
    {tr : List (UsageStore × LogCall)} {s : UsageStore} (h : Run (accounts ids days) tr s)
    (hr : InRange (tr.map Prod.snd)) :
    (Accounted ids s (tr.map Prod.snd) ↔ ∀ c ∈ tr.map Prod.snd, Blank c) ∧
      ∀ today : Today,
        (∃ date, loadDailyUsage s today.date =
          some ((tally (onDay (tr.map Prod.snd) today.date)).summary date)) ∧
        ∃ month, loadMonthlyUsage s today.month =
          some ((tally (inMonth (tr.map Prod.snd) today.month)).summary month) := by
  have hk := kept ha hl h hr
  exact ⟨hk.session_iff hl hr (mem_ids h), fun today => hk.aggregates hr today⟩

end Runs

namespace Counterexample

open SessionIsolation.Counterexample (alice today)

def clock : ClockText := ⟨bytes "2026-03-01T09:00:00+0900", by decide⟩

theorem line_today : newline ∉ bytes "2026-03" ++ bytes "01" := by decide

theorem isInt_hundred : (-2 : ℤ) ^ 31 ≤ 100 ∧ (100 : ℤ) < 2 ^ 31 := by decide

/-- A call on one day, with some tokens of a model. -/
def request (model : ModelName) (prompt completion : IntValue) : LogCall where
  id := alice
  model := model
  prompt := prompt
  completion := completion
  date := today
  updated := clock
  stamp := clock
  today := ⟨bytes "2026-03", bytes "01", line_today⟩
  dailyUpdated := clock
  dailyStamp := clock
  monthlyUpdated := clock

theorem gemini_cell : newline ∉ bytes "gemini" ∧ 0x7C ∉ bytes "gemini" := by decide

theorem isInt_fifty : (-2 : ℤ) ^ 31 ≤ 50 ∧ (50 : ℤ) < 2 ^ 31 := by decide

def gemini : LogCall := request ⟨bytes "gemini", gemini_cell⟩ ⟨100, isInt_hundred⟩ ⟨50, isInt_fifty⟩

def geminiStore : UsageStore := logTokenUsage [] {} gemini

theorem run_gemini : Run (accounts {alice} {today}) [({}, gemini)] geminiStore :=
  .step (.init rfl) ⟨rfl, rfl, [], List.Perm.refl _, rfl⟩

/-- The entry has the prompt tokens for its model and the completion tokens for its prompt
tokens. -/
theorem entry_shifted :
    Run (accounts {alice} {today}) [({}, gemini)] geminiStore ∧
      loadTokenUsage geminiStore.usage.names geminiStore.usage alice =
        some ⟨100, 50, [⟨bytes "gemini", bytes "100", 50, 0⟩]⟩ ∧
      ¬ Accounted {alice} geminiStore [gemini] := by
  have hload : loadTokenUsage geminiStore.usage.names geminiStore.usage alice =
      some ⟨100, 50, [⟨bytes "gemini", bytes "100", 50, 0⟩]⟩ := by decide +kernel
  refine ⟨run_gemini, hload, fun h => ?_⟩
  obtain ⟨summary, hs, hentries, -⟩ := h.session alice rfl _ (List.Perm.refl _)
  rw [hload, Option.some.injEq] at hs
  rw [← hs] at hentries
  exact absurd hentries (by decide +kernel)

theorem apart_alice : SessionIsolation.Apart {alice} {today} := by
  rintro a rfl b rfl hne
  exact absurd rfl hne

theorem legible_alice : ∀ id ∈ ({alice} : Set SessionId), Legible id.1 := by
  rintro id rfl
  exact ⟨by decide, by decide⟩

theorem inRange_gemini : InRange [gemini] := by
  intro l hl
  have hsub : ∀ p : LogCall → Bool, l.filter p = [] ∨ l.filter p = [gemini] := by
    intro p
    rcases List.prefix_cons_iff.mp hl with rfl | ⟨t, rfl, ht⟩
    · exact .inl rfl
    · rw [List.prefix_nil.mp ht, List.filter_singleton]
      cases p gemini with
      | false => exact .inl rfl
      | true => exact .inr rfl
  refine ⟨fun id => ?_, fun today => ⟨?_, ?_⟩⟩
  · unfold onSession
    rcases hsub fun c => c.id = id with h | h <;> rw [h] <;> decide
  · unfold onDay
    rcases hsub fun c => c.today.date = today.date with h | h <;> rw [h] <;> decide
  · unfold inMonth
    rcases hsub fun c => c.today.month = today.month with h | h <;> rw [h] <;> decide

theorem accounted_gemini :
    (Accounted {alice} geminiStore [gemini] ↔ ∀ c ∈ [gemini], Blank c) ∧
      ∃ date, loadDailyUsage geminiStore (bytes "2026-03-01") = some ⟨date, 100, 50, 1⟩ := by
  have h := accounted_iff {alice} {today} apart_alice legible_alice run_gemini inRange_gemini
  exact ⟨h.1, (h.2 gemini.today).1⟩

end Counterexample

end UsageAccounting
