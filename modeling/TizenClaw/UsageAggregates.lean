import TizenClaw.SessionFiles
import TizenClaw.TaskFrontmatter

/-! The usage of a day and of a month over all sessions: the files in which every logged call adds
to the totals, and what is read back from them. -/
namespace UsageAggregates

open ByteString ByteLines JsonDump JsonRoundTrip SessionMarkdown SessionFiles TaskSchedule
  TaskFrontmatter

/-- A value of `int`. -/
abbrev IntValue := { n : ℤ // -2 ^ 31 ≤ n ∧ n < 2 ^ 31 }

/-- The day of a reading of the clock. -/
structure Today where
  month : Bytes
  dayOfMonth : Bytes
  line : newline ∉ month ++ dayOfMonth

def Today.date (c : Today) : Bytes := c.month ++ bytes "-" ++ c.dayOfMonth

/-- What a call of `LogTokenUsage` adds to the aggregates, with the clock as it reads it there. -/
structure Call where
  session : Bytes
  model : Bytes
  prompt : IntValue
  completion : IntValue
  today : Today
  dailyUpdated : Timestamp
  stamp : Timestamp
  monthlyUpdated : Timestamp

structure DailyUsageSummary where
  date : Bytes := []
  totalPromptTokens : ℤ := 0
  totalCompletionTokens : ℤ := 0
  totalRequests : ℤ := 0
  deriving DecidableEq, Repr

section Write

/-- A line of the frontmatter. Nothing catches what `stoi` throws. -/
def readLine (s : DailyUsageSummary) (line : Bytes) : Option DailyUsageSummary :=
  if bytes "total_prompt_tokens:" <+: line then
    (stoi (line.drop 21)).map fun n => { s with totalPromptTokens := n }
  else if bytes "total_completion_tokens:" <+: line then
    (stoi (line.drop 25)).map fun n => { s with totalCompletionTokens := n }
  else if bytes "total_requests:" <+: line then
    (stoi (line.drop 16)).map fun n => { s with totalRequests := n }
  else some s

/-- The totals so far, and the rows of the table. -/
def readDaily (s : DailyUsageSummary) (inFm pastHdr : Bool) (rows : Bytes) :
    List Bytes → Option (DailyUsageSummary × Bytes)
  | [] => some (s, rows)
  | line :: ls =>
    if line = bytes "---" then readDaily s (!inFm) pastHdr rows ls
    else (if inFm then readLine s line else some s).bind fun s =>
      if bytes "|---" <+: line then readDaily s inFm true rows ls
      else if pastHdr ∧ line.head? = some 0x7C then
        readDaily s inFm pastHdr (rows ++ (line ++ [newline])) ls
      else readDaily s inFm pastHdr rows ls

/-- The lines of the frontmatter alone, each by `field`. -/
def readFrontmatter (field : DailyUsageSummary → Bytes → Option DailyUsageSummary)
    (s : DailyUsageSummary) (inFm : Bool) : List Bytes → Option DailyUsageSummary
  | [] => some s
  | line :: ls =>
    if line = bytes "---" then readFrontmatter field s (!inFm) ls
    else (if inFm then field s line else some s).bind fun s => readFrontmatter field s inFm ls

def readMonthly (s : DailyUsageSummary) (ls : List Bytes) : Option DailyUsageSummary :=
  readFrontmatter readLine s false ls

def DailyUsageSummary.add (s : DailyUsageSummary) (c : Call) : DailyUsageSummary :=
  { s with
    totalPromptTokens := plus32 s.totalPromptTokens c.prompt
    totalCompletionTokens := plus32 s.totalCompletionTokens c.completion
    totalRequests := plus32 s.totalRequests 1 }

/-- The frontmatter, up to the empty line behind it. -/
def frontmatter (key value : Bytes) (s : DailyUsageSummary) (updated : Timestamp) : Bytes :=
  bytes "---\n" ++ key ++ bytes ": " ++ value ++
    bytes "\ntotal_prompt_tokens: " ++ decimalInt s.totalPromptTokens ++
    bytes "\ntotal_completion_tokens: " ++ decimalInt s.totalCompletionTokens ++
    bytes "\ntotal_requests: " ++ decimalInt s.totalRequests ++
    bytes "\nupdated: " ++ updated.1 ++ bytes "\n---\n\n"

def dailyRow (c : Call) : Bytes :=
  bytes "| " ++ c.stamp.1 ++ bytes " | " ++ c.session ++ bytes " | " ++ c.model ++ bytes " | " ++
    decimalInt c.prompt ++ bytes " | " ++ decimalInt c.completion ++ bytes " |\n"

/-- The daily file after a call, from what it held before; nothing when `stoi` throws. -/
def dailyMarkdown (c : Call) (content : Option Bytes) : Option Bytes :=
  (readDaily { date := c.today.date } false false [] (lines (content.getD []))).map fun x =>
    frontmatter (bytes "date") c.today.date (x.1.add c) c.dailyUpdated ++
      (bytes "# Daily Usage " ++ c.today.date ++
        bytes "\n\n| Time | Session | Backend | Prompt | Completion |\n" ++
        bytes "|------|---------|---------|--------|------------|\n" ++ x.2 ++ dailyRow c)

def monthlyMarkdown (c : Call) (content : Option Bytes) : Option Bytes :=
  (readMonthly { date := c.today.month } (lines (content.getD []))).map fun s =>
    frontmatter (bytes "month") c.today.month (s.add c) c.monthlyUpdated ++
      (bytes "# Monthly Usage " ++ c.today.month ++ bytes "\n\n**Prompt Tokens**: " ++
        decimalInt (s.add c).totalPromptTokens ++ bytes "  \n**Completion Tokens**: " ++
        decimalInt (s.add c).totalCompletionTokens ++ bytes "  \n**Total Requests**: " ++
        decimalInt (s.add c).totalRequests ++ bytes "\n")

end Write

section Load

/-- A line of the frontmatter as `ParseAggregateMd` reads it. A colon at the end of the line is out
of range for the value behind it. -/
def readField (s : DailyUsageSummary) (line : Bytes) : Option DailyUsageSummary :=
  match find [0x3A] line with
  | none => some s
  | some colon =>
    if line.length < colon + 2 then none
    else
      let key := line.take colon
      let val := line.drop (colon + 2)
      if key = bytes "date" ∨ key = bytes "month" then some { s with date := val }
      else if key = bytes "total_prompt_tokens" then
        (stoi val).map fun n => { s with totalPromptTokens := n }
      else if key = bytes "total_completion_tokens" then
        (stoi val).map fun n => { s with totalCompletionTokens := n }
      else if key = bytes "total_requests" then
        (stoi val).map fun n => { s with totalRequests := n }
      else some s

def parseAggregateMd (file : Option Bytes) : Option DailyUsageSummary :=
  match file with
  | none => some {}
  | some content => readFrontmatter readField {} false (lines content)

end Load

section Tallies

/-- The tokens of some calls, and how many calls they are. -/
structure Tally where
  prompt : ℤ := 0
  completion : ℤ := 0
  requests : ℤ := 0
  deriving DecidableEq, Repr

def Tally.add (t : Tally) (c : Call) : Tally :=
  ⟨t.prompt + c.prompt, t.completion + c.completion, t.requests + 1⟩

def tally (calls : List Call) : Tally :=
  ⟨(calls.map fun c => c.prompt.1).sum, (calls.map fun c => c.completion.1).sum, calls.length⟩

/-- Totals that an `int` holds. -/
def Tally.InRange (t : Tally) : Prop :=
  (-2 ^ 31 ≤ t.prompt ∧ t.prompt < 2 ^ 31) ∧ (-2 ^ 31 ≤ t.completion ∧ t.completion < 2 ^ 31) ∧
    -2 ^ 31 ≤ t.requests ∧ t.requests < 2 ^ 31

instance (t : Tally) : Decidable t.InRange := inferInstanceAs (Decidable (_ ∧ _))

def Tally.summary (date : Bytes) (t : Tally) : DailyUsageSummary :=
  ⟨date, t.prompt, t.completion, t.requests⟩

def frontLines (key value : Bytes) (t : Tally) (updated : Bytes) : List Bytes :=
  [bytes "---", key ++ bytes ": " ++ value,
    bytes "total_prompt_tokens: " ++ decimalInt t.prompt,
    bytes "total_completion_tokens: " ++ decimalInt t.completion,
    bytes "total_requests: " ++ decimalInt t.requests, bytes "updated: " ++ updated, bytes "---"]

/-- A file with these totals. No line behind the frontmatter opens another. -/
def Tells (key value : Bytes) (t : Tally) (content : Bytes) : Prop :=
  ∃ updated tail, newline ∉ updated ∧ (∀ l ∈ tail, newline ∉ l ∧ l ≠ bytes "---") ∧
    content = unlines (frontLines key value t updated ++ tail)

/-- The file, which is not there before the first call. -/
def Holds (key value : Bytes) (t : Tally) : Option Bytes → Prop
  | none => t = {}
  | some content => Tells key value t content

end Tallies

theorem tally_insert (l₁ l₂ : List Call) (c : Call) :
    tally (l₁ ++ c :: l₂) = (tally (l₁ ++ l₂)).add c := by
  simp only [tally, Tally.add, List.map_append, List.map_cons, List.sum_append, List.sum_cons,
    List.length_append, List.length_cons, Tally.mk.injEq]
  push_cast
  omega

section Lines

variable {s : DailyUsageSummary} {t : Tally} {line : Bytes}

/-- The totals start with a `t`, and the other lines do not. -/
theorem readLine_other (h : line.head? ≠ some 0x74) : readLine s line = some s := by
  have hno : ∀ p : Bytes, p.head? = some 0x74 → ¬ p <+: line := by
    intro p hp hpre
    obtain ⟨r, rfl⟩ := hpre
    cases p with
    | nil => cases hp
    | cons c p => exact h hp
  rw [readLine, if_neg (hno _ (by decide)), if_neg (hno _ (by decide)), if_neg (hno _ (by decide))]

theorem stoi_total {n : ℤ} (h : -2 ^ 31 ≤ n ∧ n < 2 ^ 31) : stoi (decimalInt n) = some n := by
  rw [stoi_decimalInt, if_pos h]

/-- The line of a total under its name, as the reader takes it apart. -/
theorem total_line {l : Bytes} {n : ℤ} (hn : -2 ^ 31 ≤ n ∧ n < 2 ^ 31) {k : ℕ} (hk : l.length = k) :
    stoi ((l ++ decimalInt n).drop k) = some n := by
  rw [← hk, List.drop_left, stoi_total hn]

theorem readLine_prompt {n : ℤ} (h : -2 ^ 31 ≤ n ∧ n < 2 ^ 31) :
    readLine s (bytes "total_prompt_tokens: " ++ decimalInt n) =
      some { s with totalPromptTokens := n } := by
  have hpre : bytes "total_prompt_tokens:" <+: bytes "total_prompt_tokens: " := by decide
  rw [readLine, if_pos (hpre.trans (List.prefix_append _ _)), total_line h (by decide)]
  rfl

theorem readLine_completion {n : ℤ} (h : -2 ^ 31 ≤ n ∧ n < 2 ^ 31) :
    readLine s (bytes "total_completion_tokens: " ++ decimalInt n) =
      some { s with totalCompletionTokens := n } := by
  have hpre : bytes "total_completion_tokens:" <+: bytes "total_completion_tokens: " := by decide
  rw [readLine, if_neg (not_prefix_append (by decide) _),
    if_pos (hpre.trans (List.prefix_append _ _)), total_line h (by decide)]
  rfl

theorem readLine_requests {n : ℤ} (h : -2 ^ 31 ≤ n ∧ n < 2 ^ 31) :
    readLine s (bytes "total_requests: " ++ decimalInt n) = some { s with totalRequests := n } := by
  have hpre : bytes "total_requests:" <+: bytes "total_requests: " := by decide
  rw [readLine, if_neg (not_prefix_append (by decide) _),
    if_neg (not_prefix_append (by decide) _), if_pos (hpre.trans (List.prefix_append _ _)),
    total_line h (by decide)]
  rfl

/-- A field of the frontmatter: what stands before the first colon, and behind it and a space. -/
theorem readField_split {key val : Bytes} (hk : 0x3A ∉ key) :
    readField s (key ++ bytes ": " ++ val) =
      if key = bytes "date" ∨ key = bytes "month" then some { s with date := val }
      else if key = bytes "total_prompt_tokens" then
        (stoi val).map fun n => { s with totalPromptTokens := n }
      else if key = bytes "total_completion_tokens" then
        (stoi val).map fun n => { s with totalCompletionTokens := n }
      else if key = bytes "total_requests" then
        (stoi val).map fun n => { s with totalRequests := n }
      else some s := by
  have hcolon : find [0x3A] (key ++ bytes ": " ++ val) = some key.length := by
    rw [List.append_assoc]
    exact find_byte hk _
  have hlen : ¬ (key ++ bytes ": " ++ val).length < key.length + 2 := by
    rw [List.length_append, List.length_append, show (bytes ": ").length = 2 by decide]
    omega
  have hval : (key ++ bytes ": " ++ val).drop (key.length + 2) = val := by
    rw [← show (key ++ bytes ": ").length = key.length + 2 from List.length_append, List.drop_left]
  have hkey : (key ++ bytes ": " ++ val).take key.length = key := by
    rw [List.append_assoc, List.take_left]
  rw [readField, hcolon]
  dsimp only
  rw [if_neg hlen, hval, hkey]

end Lines

section Readers

variable {s : DailyUsageSummary} {t : Tally} {key value updated : Bytes}

theorem ne_rule_of_head {line : Bytes} (h : line.head? ≠ some 0x2D) : line ≠ bytes "---" := by
  rintro rfl
  exact h rfl

theorem readDaily_toggle (inFm pastHdr : Bool) (rows : Bytes) (ls : List Bytes) :
    readDaily s inFm pastHdr rows (bytes "---" :: ls) = readDaily s (!inFm) pastHdr rows ls := by
  rw [readDaily, if_pos rfl]

/-- A line of the frontmatter, which does not start the table either. -/
theorem readDaily_line {s' : DailyUsageSummary} {line : Bytes}
    (hl : line.head? ≠ some 0x2D ∧ line.head? ≠ some 0x7C) (h : readLine s line = some s')
    (rows : Bytes) (ls : List Bytes) :
    readDaily s true false rows (line :: ls) = readDaily s' true false rows ls := by
  have hrule : ¬ bytes "|---" <+: line := by
    rintro ⟨r, rfl⟩
    exact hl.2 rfl
  rw [readDaily, if_neg (ne_rule_of_head hl.1), if_pos rfl, h, Option.bind_some, if_neg hrule,
    if_neg fun hp => absurd hp.1 (by decide)]

theorem readFrontmatter_toggle {field : DailyUsageSummary → Bytes → Option DailyUsageSummary}
    (inFm : Bool) (ls : List Bytes) :
    readFrontmatter field s inFm (bytes "---" :: ls) = readFrontmatter field s (!inFm) ls := by
  rw [readFrontmatter, if_pos rfl]

theorem readFrontmatter_line {field : DailyUsageSummary → Bytes → Option DailyUsageSummary}
    {s' : DailyUsageSummary} {line : Bytes} (hl : line.head? ≠ some 0x2D)
    (h : field s line = some s') (ls : List Bytes) :
    readFrontmatter field s true (line :: ls) = readFrontmatter field s' true ls := by
  rw [readFrontmatter, if_neg (ne_rule_of_head hl), if_pos rfl, h, Option.bind_some]

/-- Behind the frontmatter nothing is read but the rows. -/
theorem readDaily_tail {tail : List Bytes} (h : ∀ l ∈ tail, l ≠ bytes "---") (pastHdr : Bool)
    (rows : Bytes) : ∃ kept : List Bytes, kept ⊆ tail ∧
      readDaily s false pastHdr rows tail = some (s, rows ++ unlines kept) := by
  induction tail generalizing pastHdr rows with
  | nil => exact ⟨[], List.nil_subset _, by rw [readDaily, unlines_nil, List.append_nil]⟩
  | cons line tail ih =>
    rw [List.forall_mem_cons] at h
    rw [readDaily, if_neg h.1, if_neg (by decide), Option.bind_some]
    split_ifs
    · obtain ⟨kept, hk, he⟩ := ih h.2 true rows
      exact ⟨kept, List.subset_cons_of_subset line hk, he⟩
    · obtain ⟨kept, hk, he⟩ := ih h.2 pastHdr (rows ++ (line ++ [newline]))
      refine ⟨line :: kept, List.cons_subset_cons line hk, ?_⟩
      rw [he, unlines_cons, List.append_assoc, List.append_assoc, List.singleton_append]
    · obtain ⟨kept, hk, he⟩ := ih h.2 pastHdr rows
      exact ⟨kept, List.subset_cons_of_subset line hk, he⟩

theorem readFrontmatter_tail {field : DailyUsageSummary → Bytes → Option DailyUsageSummary}
    {tail : List Bytes} (h : ∀ l ∈ tail, l ≠ bytes "---") :
    readFrontmatter field s false tail = some s := by
  induction tail with
  | nil => rfl
  | cons line tail ih =>
    rw [List.forall_mem_cons] at h
    rw [readFrontmatter, if_neg h.1, if_neg (by decide), Option.bind_some, ih h.2]

theorem head_append {l : Bytes} {c : UInt8} (h : l.head? = some c) (d : Bytes) :
    (l ++ d).head? = some c := by
  rw [List.head?_append, h]
  rfl

/-- The keys under which the two files are dated. -/
def DateKey (key : Bytes) : Prop := key = bytes "date" ∨ key = bytes "month"

theorem head_dateLine (hk : DateKey key) {c : UInt8} (hc : c ≠ 0x64 ∧ c ≠ 0x6D) :
    (key ++ bytes ": " ++ value).head? ≠ some c := by
  rcases hk with rfl | rfl
  · exact fun h => hc.1 (Option.some.inj h).symm
  · exact fun h => hc.2 (Option.some.inj h).symm

/-- The lines of the frontmatter between its rules start with none of these. -/
theorem head_front {l : Bytes} {c : UInt8} (hl : l.head? = some c) (hc : c ≠ 0x2D ∧ c ≠ 0x7C)
    (d : Bytes) : (l ++ d).head? ≠ some 0x2D ∧ (l ++ d).head? ≠ some 0x7C := by
  rw [head_append hl]
  simpa using hc

theorem readLine_updated (updated : Bytes) :
    readLine s (bytes "updated: " ++ updated) = some s := by
  apply readLine_other
  rw [head_append (c := 0x75) (by decide)]
  decide

theorem readDaily_front (hk : DateKey key) (ht : t.InRange) (rows : Bytes) (tail : List Bytes) :
    readDaily s false false rows (frontLines key value t updated ++ tail) =
      readDaily (t.summary s.date) false false rows tail := by
  obtain ⟨hp, hc, hr⟩ := ht
  change readDaily s false false rows
    (bytes "---" :: _ :: _ :: _ :: _ :: _ :: bytes "---" :: tail) = _
  have hdate : (key ++ bytes ": " ++ value).head? ≠ some 0x2D ∧
      (key ++ bytes ": " ++ value).head? ≠ some 0x7C :=
    ⟨head_dateLine hk (by decide), head_dateLine hk (by decide)⟩
  rw [readDaily_toggle, Bool.not_false,
    readDaily_line hdate (readLine_other (head_dateLine hk (by decide))),
    readDaily_line (head_front (c := 0x74) (by decide) (by decide) _) (readLine_prompt hp),
    readDaily_line (head_front (c := 0x74) (by decide) (by decide) _) (readLine_completion hc),
    readDaily_line (head_front (c := 0x74) (by decide) (by decide) _) (readLine_requests hr),
    readDaily_line (head_front (c := 0x75) (by decide) (by decide) _) (readLine_updated updated),
    readDaily_toggle]
  rfl

theorem readFrontmatter_front {field : DailyUsageSummary → Bytes → Option DailyUsageSummary}
    {s₁ s₂ s₃ s₄ s₅ : DailyUsageSummary} (hk : DateKey key)
    (hdate : field s (key ++ bytes ": " ++ value) = some s₁)
    (hp : field s₁ (bytes "total_prompt_tokens: " ++ decimalInt t.prompt) = some s₂)
    (hc : field s₂ (bytes "total_completion_tokens: " ++ decimalInt t.completion) = some s₃)
    (hr : field s₃ (bytes "total_requests: " ++ decimalInt t.requests) = some s₄)
    (hu : field s₄ (bytes "updated: " ++ updated) = some s₅) (tail : List Bytes) :
    readFrontmatter field s false (frontLines key value t updated ++ tail) =
      readFrontmatter field s₅ false tail := by
  change readFrontmatter field s false
    (bytes "---" :: _ :: _ :: _ :: _ :: _ :: bytes "---" :: tail) = _
  rw [readFrontmatter_toggle, Bool.not_false,
    readFrontmatter_line (head_dateLine hk (by decide)) hdate,
    readFrontmatter_line (head_front (c := 0x74) (by decide) (by decide) _).1 hp,
    readFrontmatter_line (head_front (c := 0x74) (by decide) (by decide) _).1 hc,
    readFrontmatter_line (head_front (c := 0x74) (by decide) (by decide) _).1 hr,
    readFrontmatter_line (head_front (c := 0x75) (by decide) (by decide) _).1 hu,
    readFrontmatter_toggle, Bool.not_true]

theorem readMonthly_front (hk : DateKey key) (ht : t.InRange) {tail : List Bytes}
    (h : ∀ l ∈ tail, l ≠ bytes "---") :
    readMonthly s (frontLines key value t updated ++ tail) = some (t.summary s.date) := by
  obtain ⟨hp, hc, hr⟩ := ht
  rw [readMonthly, readFrontmatter_front hk (readLine_other (head_dateLine hk (by decide)))
    (readLine_prompt hp) (readLine_completion hc) (readLine_requests hr)
    (readLine_updated updated), readFrontmatter_tail h]
  rfl

theorem parse_front (hk : DateKey key) (ht : t.InRange) {tail : List Bytes}
    (h : ∀ l ∈ tail, l ≠ bytes "---") :
    readFrontmatter readField {} false (frontLines key value t updated ++ tail) =
      some (t.summary value) := by
  obtain ⟨hp, hc, hr⟩ := ht
  have hcolon : (0x3A : UInt8) ∉ key := by
    rcases hk with rfl | rfl <;> decide
  have hdate : readField {} (key ++ bytes ": " ++ value) = some { date := value } :=
    (readField_split hcolon).trans (if_pos hk)
  have hprompt : ∀ s, readField s (bytes "total_prompt_tokens: " ++ decimalInt t.prompt) =
      some { s with totalPromptTokens := t.prompt } := by
    intro s
    rw [show bytes "total_prompt_tokens: " = bytes "total_prompt_tokens" ++ bytes ": " by decide,
      readField_split (by decide), if_neg (by decide), if_pos rfl, stoi_decimalInt, if_pos hp]
    rfl
  have hcompletion : ∀ s, readField s
      (bytes "total_completion_tokens: " ++ decimalInt t.completion) =
        some { s with totalCompletionTokens := t.completion } := by
    intro s
    rw [show bytes "total_completion_tokens: " = bytes "total_completion_tokens" ++ bytes ": " by
        decide,
      readField_split (by decide), if_neg (by decide), if_neg (by decide), if_pos rfl,
      stoi_decimalInt, if_pos hc]
    rfl
  have hrequests : ∀ s, readField s (bytes "total_requests: " ++ decimalInt t.requests) =
      some { s with totalRequests := t.requests } := by
    intro s
    rw [show bytes "total_requests: " = bytes "total_requests" ++ bytes ": " by decide,
      readField_split (by decide), if_neg (by decide), if_neg (by decide), if_neg (by decide),
      if_pos rfl, stoi_decimalInt, if_pos hr]
    rfl
  have hupdated : ∀ s, readField s (bytes "updated: " ++ updated) = some s := by
    intro s
    rw [show bytes "updated: " = bytes "updated" ++ bytes ": " by decide,
      readField_split (by decide), if_neg (by decide), if_neg (by decide), if_neg (by decide),
      if_neg (by decide)]
  rw [readFrontmatter_front hk hdate (hprompt _) (hcompletion _) (hrequests _) (hupdated _),
    readFrontmatter_tail h]
  rfl

end Readers

section Files

variable {t : Tally} {c : Call} {content : Option Bytes}

theorem line_decimalInt (n : ℤ) : newline ∉ decimalInt n := not_mem_decimalInt (by decide) n

theorem frontLines_line {key value updated : Bytes} (hk : DateKey key) (hv : newline ∉ value)
    (hu : newline ∉ updated) : ∀ l ∈ frontLines key value t updated, newline ∉ l := by
  have hkey : newline ∉ key := by
    rcases hk with rfl | rfl <;> decide
  have happend : ∀ {a b : Bytes}, newline ∉ a → newline ∉ b → newline ∉ a ++ b := by
    intro a b ha hb hm
    rcases List.mem_append.mp hm with h | h
    · exact ha h
    · exact hb h
  unfold frontLines
  simp only [List.forall_mem_cons]
  exact ⟨by decide, happend (happend hkey (by decide)) hv,
    happend (by decide) (line_decimalInt _), happend (by decide) (line_decimalInt _),
    happend (by decide) (line_decimalInt _), happend (by decide) hu, by decide,
    fun _ h => absurd h List.not_mem_nil⟩

theorem frontmatter_eq (key value date : Bytes) (updated : Timestamp) :
    frontmatter key value (t.summary date) updated =
      unlines (frontLines key value t updated.1 ++ [[]]) := by
  have hrule : bytes "---\n" = bytes "---" ++ [newline] := by decide
  have hprompt : bytes "\ntotal_prompt_tokens: " =
      newline :: bytes "total_prompt_tokens: " := by decide
  have hcompletion : bytes "\ntotal_completion_tokens: " =
      newline :: bytes "total_completion_tokens: " := by decide
  have hrequests : bytes "\ntotal_requests: " = newline :: bytes "total_requests: " := by decide
  have hupdated : bytes "\nupdated: " = newline :: bytes "updated: " := by decide
  have hend : bytes "\n---\n\n" = newline :: (bytes "---" ++ [newline, newline]) := by decide
  rw [frontmatter, hrule, hprompt, hcompletion, hrequests, hupdated, hend]
  simp only [Tally.summary, frontLines, unlines_cons, unlines_nil, List.cons_append,
    List.nil_append, List.append_assoc]

/-- A sum that stays in range does not wrap. -/
theorem plus32_eq {a b : ℤ} (h : -2 ^ 31 ≤ a + b ∧ a + b < 2 ^ 31) : plus32 a b = a + b := by
  rw [plus32, Int.bmod_eq_of_le] <;> omega

theorem summary_add (date : Bytes) (h : (t.add c).InRange) :
    (t.summary date).add c = (t.add c).summary date := by
  obtain ⟨hp, hc, hr⟩ := h
  simp only [Tally.summary, DailyUsageSummary.add, Tally.add] at hp hc hr ⊢
  rw [plus32_eq hp, plus32_eq hc, plus32_eq hr]

/-- The file before a call, as both writers take it in. -/
theorem Holds.lines_cases {key value : Bytes} (h : Holds key value t content) (hk : DateKey key)
    (hv : newline ∉ value) :
    (content = none ∧ t = {}) ∨ ∃ updated tail, (∀ l ∈ tail, newline ∉ l ∧ l ≠ bytes "---") ∧
      lines (content.getD []) = frontLines key value t updated ++ tail := by
  cases content with
  | none => exact .inl ⟨rfl, h⟩
  | some content =>
    obtain ⟨updated, tail, hu, htail, rfl⟩ := h
    refine .inr ⟨updated, tail, htail, ?_⟩
    apply lines_unlines
    exact List.forall_mem_append.mpr ⟨frontLines_line hk hv hu, fun l hl => (htail l hl).1⟩

/-- Lines behind the frontmatter that start with none of its rules. -/
theorem tells_of_lines (key value date : Bytes) (updated : Timestamp) {more : List Bytes}
    (h : ∀ l ∈ more, newline ∉ l ∧ l ≠ bytes "---") :
    Tells key value t (frontmatter key value (t.summary date) updated ++ unlines more) := by
  refine ⟨updated.1, [] :: more, updated.2, ?_, ?_⟩
  · exact List.forall_mem_cons.mpr ⟨⟨List.not_mem_nil, by decide⟩, h⟩
  · rw [frontmatter_eq, ← unlines_append, List.append_assoc]
    rfl

/-- A line that is more than a rule. -/
theorem plain_line {l d : Bytes} (hl : newline ∉ l ∧ l.head? ≠ none ∧ l.head? ≠ some 0x2D)
    (hd : newline ∉ d) : newline ∉ l ++ d ∧ l ++ d ≠ bytes "---" := by
  constructor
  · rw [List.mem_append, not_or]
    exact ⟨hl.1, hd⟩
  · cases l with
    | nil => exact absurd rfl hl.2.1
    | cons b l =>
      intro he
      exact hl.2.2 (congrArg List.head? he)

theorem Today.month_line (today : Today) : newline ∉ today.month := fun hm =>
  today.line (List.mem_append_left _ hm)

theorem Today.date_line (today : Today) : newline ∉ today.date := by
  have hline := today.line
  simp only [Today.date, List.mem_append, not_or] at hline ⊢
  exact ⟨⟨hline.1, by decide⟩, hline.2⟩

theorem monthlyMarkdown_spec (h : Holds (bytes "month") c.today.month t content)
    (ht : t.InRange) (hadd : (t.add c).InRange) :
    ∃ text, monthlyMarkdown c content = some text ∧
      Tells (bytes "month") c.today.month (t.add c) text := by
  have hmonth := c.today.month_line
  have hread : readMonthly { date := c.today.month } (lines (content.getD [])) =
      some (t.summary c.today.month) := by
    rcases h.lines_cases (.inr rfl) hmonth with ⟨rfl, rfl⟩ | ⟨updated, tail, htail, hl⟩
    · rfl
    · rw [hl, readMonthly_front (.inr rfl) ht fun l hm => (htail l hm).2]
  refine ⟨_, by rw [monthlyMarkdown, hread, Option.map_some], ?_⟩
  have hnumber : ∀ n : ℤ, newline ∉ decimalInt n ++ bytes "  " := by
    intro n
    rw [List.mem_append, not_or]
    exact ⟨line_decimalInt n, by decide⟩
  have htitle : bytes "\n\n**Prompt Tokens**: " =
      newline :: newline :: bytes "**Prompt Tokens**: " := by decide
  have hcompletion : bytes "  \n**Completion Tokens**: " =
      bytes "  " ++ newline :: bytes "**Completion Tokens**: " := by decide
  have hrequests : bytes "  \n**Total Requests**: " =
      bytes "  " ++ newline :: bytes "**Total Requests**: " := by decide
  have hlast : bytes "\n" = [newline] := by decide
  rw [summary_add _ hadd, htitle, hcompletion, hrequests, hlast]
  have hlines : ∀ l ∈ [bytes "# Monthly Usage " ++ c.today.month, [],
      bytes "**Prompt Tokens**: " ++ (decimalInt (t.add c).prompt ++ bytes "  "),
      bytes "**Completion Tokens**: " ++ (decimalInt (t.add c).completion ++ bytes "  "),
      bytes "**Total Requests**: " ++ decimalInt (t.add c).requests],
      newline ∉ l ∧ l ≠ bytes "---" := by
    simp only [List.forall_mem_cons]
    exact ⟨plain_line (by decide) hmonth, by decide, plain_line (by decide) (hnumber _),
      plain_line (by decide) (hnumber _), plain_line (by decide) (line_decimalInt _),
      fun _ h => absurd h List.not_mem_nil⟩
  have htells := tells_of_lines (t := t.add c) (bytes "month") c.today.month c.today.month
    c.monthlyUpdated hlines
  simp only [unlines_cons, unlines_nil, List.append_assoc, List.cons_append, List.nil_append,
    Tally.summary] at htells ⊢
  exact htells

theorem dailyMarkdown_spec (h : Holds (bytes "date") c.today.date t content)
    (ht : t.InRange) (hadd : (t.add c).InRange) (hrow : bytes "---" ∉ lines (dailyRow c)) :
    ∃ text, dailyMarkdown c content = some text ∧
      Tells (bytes "date") c.today.date (t.add c) text := by
  have hdate := c.today.date_line
  obtain ⟨kept, hkept, hread⟩ : ∃ kept : List Bytes, (∀ l ∈ kept, newline ∉ l ∧ l ≠ bytes "---") ∧
      readDaily { date := c.today.date } false false [] (lines (content.getD [])) =
        some (t.summary c.today.date, unlines kept) := by
    rcases h.lines_cases (.inl rfl) hdate with ⟨rfl, rfl⟩ | ⟨updated, tail, htail, hl⟩
    · exact ⟨[], fun l hl => absurd hl List.not_mem_nil, rfl⟩
    · obtain ⟨kept, hsub, hk⟩ := readDaily_tail (s := t.summary c.today.date)
        (fun l hm => (htail l hm).2) false []
      refine ⟨kept, fun l hm => htail l (hsub hm), ?_⟩
      rw [hl, readDaily_front (.inl rfl) ht]
      exact hk
  refine ⟨_, by rw [dailyMarkdown, hread, Option.map_some], ?_⟩
  have hheader : bytes "\n\n| Time | Session | Backend | Prompt | Completion |\n" =
      newline :: newline :: (bytes "| Time | Session | Backend | Prompt | Completion |" ++
        [newline]) := by decide
  have hrule : bytes "|------|---------|---------|--------|------------|\n" =
      bytes "|------|---------|---------|--------|------------|" ++ [newline] := by decide
  have hend : bytes " |\n" = bytes " |" ++ [newline] := by decide
  have hrows : dailyRow c = unlines (lines (dailyRow c)) := by
    rw [dailyRow, hend, ← List.append_assoc, unlines_lines]
  have hlines : ∀ l ∈ [bytes "# Daily Usage " ++ c.today.date, [],
      bytes "| Time | Session | Backend | Prompt | Completion |",
      bytes "|------|---------|---------|--------|------------|"] ++ kept ++ lines (dailyRow c),
      newline ∉ l ∧ l ≠ bytes "---" := by
    simp only [List.forall_mem_append, List.forall_mem_cons]
    refine ⟨⟨⟨plain_line (by decide) hdate, by decide, by decide, by decide,
      fun _ h => absurd h List.not_mem_nil⟩, hkept⟩, ?_⟩
    intro l hl
    exact ⟨newline_not_mem_lines _ l hl, fun he => hrow (he ▸ hl)⟩
  have htells := tells_of_lines (t := t.add c) (bytes "date") c.today.date c.today.date
    c.dailyUpdated hlines
  rw [unlines_append, ← hrows] at htells
  rw [summary_add _ hadd, hheader, hrule]
  simp only [unlines_cons, List.append_assoc, List.cons_append, List.nil_append] at htells ⊢
  exact htells

/-- What is loaded from a file is what it tells. -/
theorem parseAggregateMd_spec {key value : Bytes} (h : Holds key value t content) (hk : DateKey key)
    (hv : newline ∉ value) (ht : t.InRange) :
    ∃ date, parseAggregateMd content = some (t.summary date) := by
  cases content with
  | none =>
    obtain rfl := h
    exact ⟨[], rfl⟩
  | some content =>
    rcases h.lines_cases hk hv with ⟨hnone, -⟩ | ⟨updated, tail, htail, hl⟩
    · cases hnone
    · exact ⟨value, by rw [parseAggregateMd, show lines content = _ from hl,
        parse_front hk ht fun l hm => (htail l hm).2]⟩

end Files

end UsageAggregates
