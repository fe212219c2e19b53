import TizenClaw.OrderedMap
import TizenClaw.SessionMarkdown
import TizenClaw.TaskSchedule
import TizenClaw.TransitionSystem

/-! The files of all sessions: which file a session id names, and the calls that save, log and
delete under an id. -/
namespace SessionFiles

open ByteString JsonValue JsonDump LlmTypes SessionMarkdown TaskSchedule OrderedMap TransitionSystem

/-- An id that can be part of a file name: no separator, and no NUL, at which the system calls
cut a path. -/
abbrev SessionId := { a : Bytes // a ≠ [] ∧ 0x2F ∉ a ∧ 0 ∉ a }

/-- The text of the clock's day. -/
abbrev DatePrefix := { d : Bytes // d ≠ [] }

/-- A directory under the names of its regular files. -/
abbrev Directory := Map Bytes Bytes

def Directory.names (dir : Directory) : List Bytes := dir.entries.map Prod.fst

section Names

def nameSuffix (id : SessionId) : Bytes := bytes "-" ++ id.1 ++ bytes ".md"

/-- A longer name that ends in the suffix. -/
def Matches (id : SessionId) (name : Bytes) : Prop :=
  (nameSuffix id).length < name.length ∧ nameSuffix id <:+ name

instance (id : SessionId) (name : Bytes) : Decidable (Matches id name) :=
  inferInstanceAs (Decidable (_ ∧ _))

/-- The first match, in the order in which the directory is listed. -/
def findSessionFile (listing : List Bytes) (id : SessionId) : Option Bytes :=
  listing.find? fun name => Matches id name

def newName (date : DatePrefix) (id : SessionId) : Bytes := date.1 ++ nameSuffix id

def getSessionPath (listing : List Bytes) (date : DatePrefix) (id : SessionId) : Bytes :=
  (findSessionFile listing id).getD (newName date id)

def getLegacySessionPath (id : SessionId) : Bytes := id.1 ++ bytes ".json"

end Names

section TokenUsage

structure TokenUsageEntry where
  timestamp : Bytes := []
  modelName : Bytes := []
  promptTokens : ℤ := 0
  completionTokens : ℤ := 0
  deriving DecidableEq, Repr

structure TokenUsageSummary where
  totalPromptTokens : ℤ := 0
  totalCompletionTokens : ℤ := 0
  entries : List TokenUsageEntry := []
  deriving DecidableEq, Repr

/-- A line of the frontmatter. Nothing catches what `stoi` throws. -/
def readTotal (summary : TokenUsageSummary) (line : Bytes) : Option TokenUsageSummary :=
  if bytes "total_prompt_tokens:" <+: line then
    (stoi (line.drop 21)).map fun n => { summary with totalPromptTokens := n }
  else if bytes "total_completion_tokens:" <+: line then
    (stoi (line.drop 25)).map fun n => { summary with totalCompletionTokens := n }
  else some summary

/-- The totals a new row is added to, up to the end of the frontmatter. -/
def readTotals (summary : TokenUsageSummary) (inFrontmatter : Bool) :
    List Bytes → Option TokenUsageSummary
  | [] => some summary
  | line :: ls =>
    if line = bytes "---" then
      if inFrontmatter then some summary else readTotals summary true ls
    else if inFrontmatter then
      (readTotal summary line).bind fun summary => readTotals summary inFrontmatter ls
    else readTotals summary inFrontmatter ls

/-- What stands behind the first ruled line of the table. -/
def existingTable (content : Bytes) : Bytes :=
  match find (bytes "|---") content with
  | none => []
  | some start =>
    match find [newline] (content.drop start) with
    | none => []
    | some k => content.drop (start + k + 1)

/-- A sum of two `int` values. -/
def plus32 (a b : ℤ) : ℤ := (a + b).bmod (2 ^ 32)

/-- What a call of `LogTokenUsage` is given, and the clock at the two places it is read. -/
structure Usage where
  modelName : Bytes
  promptTokens : ℤ
  completionTokens : ℤ
  updated : Timestamp
  stamp : Timestamp

def usageRow (u : Usage) : Bytes :=
  bytes "| " ++ u.stamp.1 ++ bytes " | " ++ u.modelName ++ bytes " | " ++
    decimalInt u.promptTokens ++ bytes " | " ++ decimalInt u.completionTokens ++ bytes " |\n"

/-- The usage file after a call, from what it held before. -/
def usageMarkdown (id : SessionId) (u : Usage) (content : Option Bytes) : Option Bytes :=
  let content := content.getD []
  (readTotals {} false (lines content)).map fun summary =>
    bytes "---\nsession_id: " ++ id.1 ++
      bytes "\ntotal_prompt_tokens: " ++
      decimalInt (plus32 summary.totalPromptTokens u.promptTokens) ++
      bytes "\ntotal_completion_tokens: " ++
      decimalInt (plus32 summary.totalCompletionTokens u.completionTokens) ++
      bytes "\nupdated: " ++ u.updated.1 ++ bytes "\n---\n\n# Token Usage — " ++ id.1 ++
      bytes "\n\n| Time | Model | Prompt | Completion |\n|------|-------|--------|------------|\n" ++
      existingTable content ++ usageRow u

/-- A cell into its column. The row starts with a delimiter, and blank cells do not count. -/
def readCell (x : ℕ × TokenUsageEntry) (cell : Bytes) : ℕ × TokenUsageEntry :=
  let cell := trimRight [space] (trimLeft [space] cell)
  if cell = [] then x
  else
    (x.1 + 1, match x.1 with
      | 1 => { x.2 with timestamp := cell }
      | 2 => { x.2 with modelName := cell }
      | 3 => { x.2 with promptTokens := (stoi cell).getD x.2.promptTokens }
      | 4 => { x.2 with completionTokens := (stoi cell).getD x.2.completionTokens }
      | _ => x.2)

def readRow (line : Bytes) : TokenUsageEntry := ((pieces 0x7C line).foldl readCell (0, {})).2

def readUsageLines (summary : TokenUsageSummary) (inFrontmatter pastHeader : Bool) :
    List Bytes → Option TokenUsageSummary
  | [] => some summary
  | line :: ls =>
    if line = bytes "---" then readUsageLines summary (!inFrontmatter) pastHeader ls
    else (if inFrontmatter then readTotal summary line else some summary).bind fun summary =>
      if bytes "|---" <+: line then readUsageLines summary inFrontmatter true ls
      else if pastHeader ∧ line.head? = some 0x7C ∧ (readRow line).modelName ≠ [] then
        readUsageLines { summary with entries := summary.entries ++ [readRow line] }
          inFrontmatter pastHeader ls
      else readUsageLines summary inFrontmatter pastHeader ls

/-- The summary of a usage file; nothing when `stoi` throws. -/
def readUsage (file : Option Bytes) : Option TokenUsageSummary :=
  match file with
  | none => some {}
  | some content => readUsageLines {} false false (lines content)

end TokenUsage

/-- The session and the usage directory. -/
structure Store where
  sessions : Directory := Map.empty
  usage : Directory := Map.empty

/-- A call on a session id, with the day on which it runs. A write or a removal that fails
leaves the file as it was. -/
inductive Event where
  | saveSession (id : SessionId) (history : List LlmMessage) (date : DatePrefix)
      (stamp : Timestamp) (written : Bool)
  | logTokenUsage (id : SessionId) (u : Usage) (date : DatePrefix) (written : Bool)
  | deleteSession (id : SessionId) (date : DatePrefix) (removed : Bool)

def Event.id : Event → SessionId
  | .saveSession id _ _ _ _ => id
  | .logTokenUsage id _ _ _ => id
  | .deleteSession id _ _ => id

def Event.date : Event → DatePrefix
  | .saveSession _ _ date _ _ => date
  | .logTokenUsage _ _ date _ => date
  | .deleteSession _ date _ => date

/-- The text a save writes, if it gets as far as writing. -/
def saved (history : List LlmMessage) (stamp : Timestamp) (written : Bool) : Option Bytes :=
  if written then (saveSession stamp history).toOption.join else none

/-- The text a usage row leaves, if it gets as far as writing. -/
def logged (id : SessionId) (u : Usage) (written : Bool) (content : Option Bytes) : Option Bytes :=
  if written then usageMarkdown id u content else none

/-- `AtomicWrite`, with a text or not at all. -/
def write (path : Bytes) (text : Option Bytes) (dir : Directory) : Directory :=
  match text with
  | none => dir
  | some text => dir.insert path text

/-- A call, with the order in which it lists each directory. -/
def next (sessions usage : List Bytes) (s : Store) : Event → Store
  | .saveSession id history date stamp written =>
    { s with
      sessions := write (getSessionPath sessions date id) (saved history stamp written) s.sessions }
  | .logTokenUsage id u date written =>
    let path := getSessionPath usage date id
    { s with usage := write path (logged id u written (s.usage.get path)) s.usage }
  | .deleteSession id date removed =>
    if removed then
      { s with
        sessions := (s.sessions.erase (getSessionPath sessions date id)).erase
          (getLegacySessionPath id) }
    else s

/-- Calls with ids and on days of two sets, from empty directories. A directory is listed in
any order. -/
def stores (ids : Set SessionId) (days : Set DatePrefix) : System Store Event where
  Init s := s = {}
  Step s e t := e.id ∈ ids ∧ e.date ∈ days ∧
    ∃ sessions usage, sessions.Perm s.sessions.names ∧ usage.Perm s.usage.names ∧
      t = next sessions usage s e

section Load

variable (readFloat : Bytes → Option NumberText)

/-- `LoadSession`. No file of the old format is there to fall back on, see `no_legacy_file`. -/
def loadSession (listing : List Bytes) (date : DatePrefix) (dir : Directory) (id : SessionId) :
    Except OutOfRange (List LlmMessage) :=
  SessionMarkdown.loadSession readFloat (dir.get (getSessionPath listing date id))

def loadTokenUsage (listing : List Bytes) (dir : Directory) (id : SessionId) :
    Option TokenUsageSummary :=
  readUsage ((findSessionFile listing id).bind dir.get)

end Load

section Names

theorem matches_newName_self (date : DatePrefix) (id : SessionId) :
    Matches id (newName date id) := by
  constructor
  · have hd := List.length_pos_of_ne_nil date.2
    rw [newName, List.length_append]
    omega
  · exact List.suffix_append date.1 (nameSuffix id)

/-- No id finds a file of the old format. -/
theorem not_matches_legacy (a b : SessionId) : ¬ Matches b (getLegacySessionPath a) := by
  rintro ⟨-, p, h⟩
  have hmd : bytes ".md" = bytes ".m" ++ [0x64] := by decide
  have hjson : bytes ".json" = bytes ".jso" ++ [0x6E] := by decide
  have hlast := congrArg List.getLast? h
  rw [nameSuffix, getLegacySessionPath, hmd, hjson, ← List.append_assoc, ← List.append_assoc,
    ← List.append_assoc, List.getLast?_concat, ← List.append_assoc, List.getLast?_concat] at hlast
  exact absurd hlast (by decide)

end Names

section Directories

variable {dir : Directory}

theorem mem_names_of_get {n text : Bytes} (h : dir.get n = some text) : n ∈ dir.names :=
  List.mem_map_of_mem (Map.mem_iff_get.mpr h)

theorem mem_names_insert {k v n : Bytes} (h : n ∈ Directory.names (dir.insert k v)) :
    n = k ∨ n ∈ dir.names := by
  obtain ⟨e, he, rfl⟩ := List.mem_map.mp h
  rcases Map.mem_insert he with rfl | ⟨-, he⟩
  · exact .inl rfl
  · exact .inr (List.mem_map_of_mem he)

theorem mem_names_erase {k n : Bytes} :
    n ∈ Directory.names (dir.erase k) ↔ n ∈ dir.names ∧ n ≠ k := by
  constructor
  · intro h
    obtain ⟨e, he, rfl⟩ := List.mem_map.mp h
    obtain ⟨he, hne⟩ := Map.mem_erase.mp he
    exact ⟨List.mem_map_of_mem he, hne⟩
  · rintro ⟨h, hne⟩
    obtain ⟨e, he, rfl⟩ := List.mem_map.mp h
    exact List.mem_map_of_mem (Map.mem_erase.mpr ⟨he, hne⟩)

theorem mem_names_write {k n : Bytes} {text : Option Bytes}
    (h : n ∈ Directory.names (write k text dir)) : n = k ∨ n ∈ dir.names := by
  cases text with
  | none => exact .inr h
  | some text => exact mem_names_insert h

theorem matches_path {listing : List Bytes} (date : DatePrefix) (id : SessionId) :
    Matches id (getSessionPath listing date id) := by
  unfold getSessionPath
  cases hf : findSessionFile listing id with
  | none => exact matches_newName_self date id
  | some n =>
    have hm := List.find?_some hf
    simpa using hm

end Directories

/-- Every file is one that some id finds, so none is of the old format. -/
theorem no_legacy_file {ids : Set SessionId} {days : Set DatePrefix} {tr s}
    (h : Run (stores ids days) tr s) (id : SessionId) :
    s.sessions.get (getLegacySessionPath id) = none := by
  have hfound : ∀ n ∈ s.sessions.names, ∃ id, Matches id n := by
    apply h.invariant
    · rintro _ rfl n hn
      cases hn
    · rintro s e t hI ⟨-, -, sessions, usage, -, -, rfl⟩ n hn
      cases e with
      | saveSession id history date stamp written =>
        rcases mem_names_write hn with rfl | hn
        · exact ⟨id, matches_path date id⟩
        · exact hI n hn
      | logTokenUsage id u date written => exact hI n hn
      | deleteSession id date removed =>
        cases removed with
        | false => exact hI n hn
        | true => exact hI n (mem_names_erase.mp (mem_names_erase.mp hn).1).1
  cases hg : s.sessions.get (getLegacySessionPath id) with
  | none => rfl
  | some text =>
    obtain ⟨b, hb⟩ := hfound _ (mem_names_of_get hg)
    exact absurd hb (not_matches_legacy id b)

end SessionFiles
