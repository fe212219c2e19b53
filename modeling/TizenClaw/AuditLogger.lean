import TizenClaw.TaskHistory

/-! The audit log of a date: a Markdown table with one row for each event, and the query that takes
the rows apart again. -/
namespace AuditLogger

open ByteString ByteLines JsonValue JsonDump TaskFile TaskHistory

inductive AuditEventType where
  | ipcConnect
  | ipcAuth
  | toolExecution
  | toolBlocked
  | sessionCreate
  | configChange
  deriving DecidableEq, Repr

def typeToString : AuditEventType → Bytes
  | .ipcConnect => bytes "ipc_connect"
  | .ipcAuth => bytes "ipc_auth"
  | .toolExecution => bytes "tool_execution"
  | .toolBlocked => bytes "tool_blocked"
  | .sessionCreate => bytes "session_create"
  | .configChange => bytes "config_change"

structure AuditEvent where
  timestamp : Bytes
  type : AuditEventType
  sessionId : Bytes
  details : Json
  deriving DecidableEq, Repr

/-- What `%H:%M:%S` gives. -/
abbrev TimeText := { t : Bytes // t ≠ [] ∧ ∀ b ∈ t, isDigit b = true ∨ b = 0x3A }

/-- What `%Y-%m-%d` gives. -/
abbrev DateText := { d : Bytes // ∀ b ∈ d, isDigit b = true ∨ b = 0x2D }

/-- The files under their paths. -/
abbrev Files := Bytes → Option Bytes

section Write

/-- `items()`: a value that is no container is its own element, without a key. -/
def items : Json → List (Bytes × Json)
  | .null => []
  | .obj m => m
  | .arr l => l.zipIdx.map fun x => (decimal x.2, x.1)
  | j => [([], j)]

def valueText : Json → Except JsonException Bytes
  | .str s => .ok s
  | val => dump val

def appendDetail (result : Bytes) (item : Bytes × Json) : Except JsonException Bytes :=
  (valueText item.2).map fun text =>
    (if result = [] then [] else result ++ bytes ", ") ++ item.1 ++ bytes "=" ++ text

def detailsToString (details : Json) : Except JsonException Bytes :=
  if details.isNull ∨ details.empty then .ok (bytes "-")
  else (items details).foldlM appendDetail []

def sessionText (event : AuditEvent) : Bytes :=
  if event.sessionId = [] then bytes "-" else event.sessionId

def eventToRow (time : TimeText) (event : AuditEvent) : Except JsonException Bytes :=
  (detailsToString event.details).map fun details =>
    bytes "| " ++ time.1 ++ bytes " | " ++ typeToString event.type ++ bytes " | " ++
      sessionText event ++ bytes " | " ++ details ++ bytes " |"

def kMaxFileSize : ℕ := 5 * 1024 * 1024
def kMaxRotation : ℕ := 5

/-- `rename`: without the first file nothing happens. -/
def rename (old new : Bytes) (fs : Files) : Files :=
  match fs old with
  | none => fs
  | some content => Function.update (Function.update fs old none) new (some content)

def rotated (path : Bytes) (i : ℕ) : Bytes := path ++ bytes "." ++ decimal i

def rotateIfNeeded (path : Bytes) (fs : Files) : Files :=
  match fs path with
  | none => fs
  | some content =>
    if content.length < kMaxFileSize then fs
    else rename path (rotated path 1)
      ((List.range' 1 (kMaxRotation - 1)).reverse.foldl
        (fun fs i => rename (rotated path i) (rotated path (i + 1)) fs) fs)

def header (date : DateText) : Bytes :=
  bytes "---\ndate: " ++ date.1 ++ bytes "\ntype: audit_log\n---\n\n## Audit Events\n\n" ++
    bytes "| Time | Type | Session | Details |\n|------|------|--------- |---------|\n"

def auditPath (logDir date : Bytes) : Bytes := logDir ++ bytes "/" ++ date ++ bytes ".md"

/-- A call at a time of the date. The header is in the file before the row can throw. -/
def log (logDir : Bytes) (date : DateText) (time : TimeText) (event : AuditEvent) (fs : Files) :
    Files × Except JsonException Unit :=
  let path := auditPath logDir date.1
  let fs := rotateIfNeeded path fs
  let before := (fs path).getD []
  let opened := before ++ if before = [] then header date else []
  match eventToRow time event with
  | .ok row => (Function.update fs path (some (opened ++ (row ++ [newline]))), .ok ())
  | .error e => (Function.update fs path (some opened), .error e)

end Write

section Read

structure TableReader where
  inTable : Bool := false
  results : List AuditEvent := []
  deriving DecidableEq, Repr

/-- A line of the file. The type of an entry is never set, so that it is what its memory held. -/
def readLine (memory : ℕ → AuditEventType) (typeFilter : Bytes) (r : TableReader) (line : Bytes) :
    TableReader :=
  if (find (bytes "| Time") line).isSome ∨ (find (bytes "|---") line).isSome then
    { r with inTable := true }
  else if r.inTable = false ∨ line.head? ≠ some bar then r
  else
    match cells line with
    | time :: type :: session :: raw :: _ =>
      if typeFilter ≠ [] ∧ type ≠ typeFilter then r
      else
        { r with
          results := r.results ++
            [⟨time, memory r.results.length, session, .obj [(bytes "raw", .str raw)]⟩] }
    | _ => r

def query (memory : ℕ → AuditEventType) (logDir date typeFilter : Bytes) (fs : Files) :
    List AuditEvent :=
  match fs (auditPath logDir date) with
  | none => []
  | some content => ((lines content).foldl (readLine memory typeFilter) {}).results

end Read

section Fidelity

/-- A call of `Log`, with the time that it reads. -/
structure LogCall where
  time : TimeText
  event : AuditEvent
  deriving DecidableEq

variable (logDir : Bytes) (date : DateText)

def logAll (fs : Files) (calls : List LogCall) : Files :=
  calls.foldl (fun fs c => (log logDir date c.time c.event fs).1) fs

/-- What a call writes behind the header. -/
def written (c : LogCall) : Bytes :=
  match eventToRow c.time c.event with
  | .ok row => row ++ [newline]
  | .error _ => []

/-- All that some calls write on one date. -/
def total (calls : List LogCall) : Bytes :=
  if calls = [] then [] else header date ++ calls.flatMap written

/-- The calls that a query for a type asks for. -/
def Asked (typeFilter : Bytes) (c : LogCall) : Prop :=
  typeFilter = [] ∨ typeToString c.event.type = typeFilter

instance (typeFilter : Bytes) : DecidablePred (Asked typeFilter) := fun c =>
  inferInstanceAs (Decidable (typeFilter = [] ∨ typeToString c.event.type = typeFilter))

/-- Type, session and details of an entry. -/
abbrev Record := AuditEventType × Bytes × Json

def recordOf (e : AuditEvent) : Record := (e.type, e.sessionId, e.details)

/-- The record that a call should leave; there is none when its details have no text. -/
def expected (c : LogCall) : Option Record :=
  (detailsToString c.event.details).toOption.map fun details =>
    (c.event.type, sessionText c.event, .obj [(bytes "raw", .str details)])

/-- Each query of the date returns one entry for each call it asks for, in order. -/
def Faithful (memory : Bytes → ℕ → AuditEventType) (fs : Files) (calls : List LogCall) : Prop :=
  ∀ typeFilter,
    (query (memory typeFilter) logDir date.1 typeFilter (logAll logDir date fs calls)).map
      (fun e => some (recordOf e)) = (calls.filter (Asked typeFilter)).map expected

/-- A text that keeps its place in a row, and does not make the row look like the head. -/
structure Legible (text : Bytes) : Prop where
  plain : PlainCell text
  title : ¬ bytes "Time" <+: text

instance (text : Bytes) : Decidable (Legible text) :=
  decidable_of_iff (PlainCell text ∧ ¬ bytes "Time" <+: text)
    ⟨fun h => ⟨h.1, h.2⟩, fun h => ⟨h.1, h.2⟩⟩

/-- An event whose details have a text, and whose session and details are legible. -/
def LegibleEvent (event : AuditEvent) : Prop :=
  ∃ details, detailsToString event.details = .ok details ∧ Legible details ∧
    Legible (sessionText event)

/-- The memory of the entries holds the types of the calls they are for. -/
def Remembered (memory : Bytes → ℕ → AuditEventType) (calls : List LogCall) : Prop :=
  ∀ typeFilter k c, (calls.filter (Asked typeFilter))[k]? = some c →
    memory typeFilter k = c.event.type

end Fidelity

section Rows

variable {fields : List Bytes}

/-- A row of the table with these cells. -/
def tableRow (fields : List Bytes) : Bytes := bar :: fields.flatMap fun f => padded f ++ [bar]

theorem cells_bar (s : Bytes) : cells (bar :: s) = cells s := rfl

theorem cells_flatMap (h : ∀ f ∈ fields, PlainCell f) :
    cells (fields.flatMap fun f => padded f ++ [bar]) = fields.filter (· ≠ []) := by
  induction fields with
  | nil => rfl
  | cons f fields ih =>
    rw [List.forall_mem_cons] at h
    rw [List.flatMap_cons, List.append_assoc, List.singleton_append, cells_padded h.1, ih h.2,
      List.filter_cons]
    by_cases hf : f = []
    · simp [hf]
    · simp [hf]

theorem cells_tableRow (h : ∀ f ∈ fields, PlainCell f) :
    cells (tableRow fields) = fields.filter (· ≠ []) := by
  rw [tableRow, cells_bar, cells_flatMap h]

theorem newline_not_mem_tableRow (h : ∀ f ∈ fields, newline ∉ f) : newline ∉ tableRow fields := by
  have hstep : ∀ f ∈ fields, newline ∉ padded f ++ [bar] := by
    intro f hf hm
    simp only [padded, List.cons_append, List.mem_cons, List.mem_append, List.not_mem_nil,
      or_false] at hm
    rcases hm with hm | (hm | hm) | hm
    · exact absurd hm (by decide)
    · exact h f hf hm
    · exact absurd hm (by decide)
    · exact absurd hm (by decide)
  rw [tableRow, List.mem_cons, not_or]
  refine ⟨by decide, fun hm => ?_⟩
  obtain ⟨f, hf, hm⟩ := List.mem_flatMap.mp hm
  exact hstep f hf hm

/-- A text without the byte is a prefix before the byte or not at all. -/
theorem prefix_before {q : Bytes} {c : UInt8} (hq : c ∉ q) (x s : Bytes) :
    q <+: x ++ c :: s ↔ q <+: x := by
  constructor
  · rintro hp
    rcases Nat.lt_or_ge x.length q.length with hlt | hle
    · have hx : x ++ [c] <+: q := by
        refine List.prefix_of_prefix_length_le ?_ hp (by simpa using hlt)
        exact ⟨s, by simp⟩
      exact absurd (hx.subset (by simp)) hq
    · exact List.prefix_of_prefix_length_le hp (List.prefix_append x (c :: s)) hle
  · exact fun hp => hp.trans (List.prefix_append x (c :: s))

/-- The bars of a row are searched one after the other. -/
theorem find_bar_isSome {q : Bytes} (s : Bytes) :
    (find (bar :: q) (bar :: s)).isSome ↔ q <+: s ∨ (find (bar :: q) s).isSome := by
  rw [find]
  by_cases hq : q <+: s
  · have hpre : (bar :: q).isPrefixOf (bar :: s) = true :=
      List.isPrefixOf_iff_prefix.mpr ((List.prefix_cons_inj bar).mpr hq)
    rw [if_pos hpre]
    simp [hq]
  · have hpre : ¬ (bar :: q).isPrefixOf (bar :: s) = true := fun h =>
      hq ((List.prefix_cons_inj bar).mp (List.isPrefixOf_iff_prefix.mp h))
    rw [if_neg hpre, Option.isSome_map]
    simp [hq]

theorem bar_not_mem_padded {f : Bytes} (h : bar ∉ f) : bar ∉ padded f := by
  simp only [padded, List.cons_append, List.mem_cons, List.mem_append, List.not_mem_nil, or_false,
    not_or]
  exact ⟨by decide, h, by decide⟩

theorem find_padded_isSome {q f : Bytes} (h : bar ∉ f) (s : Bytes) :
    (find (bar :: q) (padded f ++ s)).isSome = (find (bar :: q) s).isSome := by
  rw [find_skip (bar_not_mem_padded h), Option.isSome_map]

/-- A pattern of a bar, a space and a word stands where a cell starts with the word. -/
theorem find_word_tableRow {q : Bytes} (hs : space ∉ q)
    (h : ∀ f ∈ fields, bar ∉ f) :
    (find (bar :: space :: q) (tableRow fields)).isSome ↔ ∃ f ∈ fields, q <+: f := by
  rw [tableRow]
  induction fields with
  | nil =>
    rw [List.flatMap_nil, find_bar_isSome]
    simp [find]
  | cons f fields ih =>
    rw [List.forall_mem_cons] at h
    have hfirst : space :: q <+: padded f ++ ([bar] ++ fields.flatMap fun f => padded f ++ [bar]) ↔
        q <+: f := by
      rw [padded, List.cons_append, List.cons_append, List.prefix_cons_inj, List.append_assoc,
        List.singleton_append]
      exact prefix_before hs f _
    rw [List.flatMap_cons, List.append_assoc, find_bar_isSome, hfirst, find_padded_isSome h.1,
      List.singleton_append, ih h.2, List.exists_mem_cons_iff]

/-- The cells start with a space, so that no rule is in a row. -/
theorem find_rule_tableRow (h : ∀ f ∈ fields, bar ∉ f) :
    ¬ (find (bytes "|---") (tableRow fields)).isSome := by
  have hpat : bytes "|---" = bar :: [0x2D, 0x2D, 0x2D] := by decide
  rw [hpat, tableRow]
  induction fields with
  | nil => decide
  | cons f fields ih =>
    rw [List.forall_mem_cons] at h
    have hfirst : ¬ [0x2D, 0x2D, 0x2D] <+:
        padded f ++ ([bar] ++ fields.flatMap fun f => padded f ++ [bar]) := by
      rw [padded, List.cons_append, List.cons_append, List.cons_prefix_cons]
      exact fun hp => absurd hp.1 (by decide)
    rw [List.flatMap_cons, List.append_assoc, find_bar_isSome, find_padded_isSome h.1,
      List.singleton_append, not_or]
    exact ⟨hfirst, ih h.2⟩

end Rows

section File

variable {logDir : Bytes} {date : DateText} {fs : Files} {calls : List LogCall} {c : LogCall}

theorem rotateIfNeeded_small {path : Bytes} (h : ((fs path).getD []).length < kMaxFileSize) :
    rotateIfNeeded path fs = fs := by
  unfold rotateIfNeeded
  cases hf : fs path with
  | none => rfl
  | some content =>
    rw [hf, Option.getD_some] at h
    exact if_pos h

theorem header_ne_nil (date : DateText) : header date ≠ [] := by
  rw [header, List.append_assoc, List.append_assoc]
  exact List.append_ne_nil_of_left_ne_nil (by decide) _

theorem total_eq_nil : total date calls = [] ↔ calls = [] := by
  unfold total
  split_ifs with h
  · simp [h]
  · simp [h, header_ne_nil date]

theorem total_concat (calls : List LogCall) (c : LogCall) :
    total date (calls ++ [c]) =
      (total date calls ++ if total date calls = [] then header date else []) ++ written c := by
  by_cases h : calls = []
  · subst h
    simp [total]
  · rw [if_neg (total_eq_nil.not.mpr h), total, total, if_neg h, if_neg (by simp),
      List.flatMap_append, List.flatMap_singleton, List.append_nil, List.append_assoc]

theorem length_total_append (calls later : List LogCall) :
    (total date calls).length ≤ (total date (calls ++ later)).length := by
  induction later using List.reverseRecOn with
  | nil => rw [List.append_nil]
  | append_singleton later c ih =>
    rw [← List.append_assoc, total_concat, List.length_append, List.length_append]
    omega

/-- One call, while the file is small. -/
theorem log_file (hfs : (fs (auditPath logDir date.1)).getD [] = total date calls)
    (hsize : (total date calls).length < kMaxFileSize) :
    (log logDir date c.time c.event fs).1 (auditPath logDir date.1) =
      some (total date (calls ++ [c])) := by
  have hrotate : rotateIfNeeded (auditPath logDir date.1) fs = fs := by
    apply rotateIfNeeded_small
    rwa [hfs]
  rw [total_concat, log, hrotate, hfs, written]
  cases eventToRow c.time c.event with
  | ok row => exact Function.update_self _ _ _
  | error e =>
    dsimp only
    rw [Function.update_self, List.append_nil]

theorem logAll_file (later : List LogCall)
    (hfs : (fs (auditPath logDir date.1)).getD [] = total date calls)
    (hsize : (total date (calls ++ later)).length < kMaxFileSize) :
    (logAll logDir date fs later (auditPath logDir date.1)).getD [] =
      total date (calls ++ later) := by
  induction later generalizing fs calls with
  | nil => rwa [List.append_nil]
  | cons c later ih =>
    have hsmall : (total date calls).length < kMaxFileSize :=
      Nat.lt_of_le_of_lt (length_total_append calls (c :: later)) hsize
    rw [List.append_cons] at hsize ⊢
    have hlog := log_file (c := c) hfs hsmall
    exact ih (congrArg (Option.getD · []) hlog) hsize

/-- A query of all calls reads what they wrote. -/
theorem query_logAll {memory : ℕ → AuditEventType} {typeFilter : Bytes}
    (hfs : fs (auditPath logDir date.1) = none)
    (hsize : (total date calls).length < kMaxFileSize) :
    query memory logDir date.1 typeFilter (logAll logDir date fs calls) =
      ((lines (total date calls)).foldl (readLine memory typeFilter) {}).results := by
  have hfile : (logAll logDir date fs calls (auditPath logDir date.1)).getD [] =
      total date calls := by
    have hempty : (fs (auditPath logDir date.1)).getD [] = total date [] := by
      rw [hfs]
      rfl
    exact logAll_file calls hempty hsize
  rw [← hfile, query]
  cases logAll logDir date fs calls (auditPath logDir date.1) with
  | none => rfl
  | some content => rfl

end File

section Reading

variable {memory : ℕ → AuditEventType} {typeFilter : Bytes} {date : DateText}

/-- An entry whose texts stood in cells. -/
def PlainEntry (e : AuditEvent) : Prop :=
  PlainCell e.sessionId ∧ ∃ raw, e.details = .obj [(bytes "raw", .str raw)] ∧ PlainCell raw

theorem readLine_plain {r : TableReader} (hr : ∀ e ∈ r.results, PlainEntry e) {line : Bytes}
    (hl : newline ∉ line) : ∀ e ∈ (readLine memory typeFilter r line).results, PlainEntry e := by
  unfold readLine
  split_ifs
  · exact hr
  · exact hr
  · have hcells := plainCell_cells hl
    split
    · rename_i time type session raw rest hrow
      rw [hrow] at hcells
      split_ifs
      · exact hr
      · intro e he
        rcases List.mem_append.mp he with he | he
        · exact hr e he
        · obtain rfl := List.mem_singleton.mp he
          exact ⟨hcells session (by simp), raw, rfl, hcells raw (by simp)⟩
    · exact hr

theorem readLines_plain {ls : List Bytes} (h : ∀ l ∈ ls, newline ∉ l) {r : TableReader}
    (hr : ∀ e ∈ r.results, PlainEntry e) :
    ∀ e ∈ (ls.foldl (readLine memory typeFilter) r).results, PlainEntry e := by
  induction ls generalizing r with
  | nil => exact hr
  | cons l ls ih =>
    rw [List.forall_mem_cons] at h
    exact ih h.2 (readLine_plain hr h.1)

/-- The lines of the header behind the date. -/
def tableHead : List Bytes :=
  [bytes "type: audit_log", bytes "---", [], bytes "## Audit Events", [],
    bytes "| Time | Type | Session | Details |", bytes "|------|------|--------- |---------|"]

def headLines (date : DateText) : List Bytes :=
  bytes "---" :: (bytes "date: " ++ date.1) :: tableHead

theorem header_eq (date : DateText) : header date = unlines (headLines date) := by
  have hopen : bytes "---\ndate: " = bytes "---" ++ newline :: bytes "date: " := by decide
  have hmiddle : bytes "\ntype: audit_log\n---\n\n## Audit Events\n\n" ++
      bytes "| Time | Type | Session | Details |\n|------|------|--------- |---------|\n" =
      newline :: unlines tableHead := by decide
  rw [header, List.append_assoc, hmiddle, hopen]
  simp [headLines]

theorem newline_not_mem_headLines (date : DateText) : ∀ l ∈ headLines date, newline ∉ l := by
  have hdate : newline ∉ date.1 := fun hm => absurd (date.2 newline hm) (by decide)
  have hline : newline ∉ bytes "date: " ++ date.1 := by
    rw [List.mem_append, not_or]
    exact ⟨by decide, hdate⟩
  have hfixed : ∀ l ∈ tableHead, newline ∉ l := by decide
  intro l hl
  rcases List.mem_cons.mp hl with rfl | hl
  · decide
  rcases List.mem_cons.mp hl with rfl | hl
  · exact hline
  · exact hfixed l hl

theorem readLine_headLines (date : DateText) :
    (headLines date).foldl (readLine memory typeFilter) {} = ⟨true, []⟩ := by
  have hbar : bar ∉ bytes "date: " ++ date.1 := by
    rw [List.mem_append, not_or]
    exact ⟨by decide, fun hm => absurd (date.2 bar hm) (by decide)⟩
  have hpat : bytes "| Time" = bar :: bytes " Time" := by decide
  have hrule : bytes "|---" = bar :: bytes "---" := by decide
  have hdate : readLine memory typeFilter {} (bytes "date: " ++ date.1) = {} := by
    rw [readLine, hpat, hrule, find_none hbar, find_none hbar]
    rfl
  have hrest : tableHead.foldl (readLine memory typeFilter) {} = ⟨true, []⟩ := rfl
  rw [headLines, List.foldl_cons, List.foldl_cons,
    show readLine memory typeFilter {} (bytes "---") = {} from rfl, hdate]
  exact hrest

/-- The text of the details, if they have one. -/
def detailsText (c : LogCall) : Bytes := (detailsToString c.event.details).toOption.getD []

def fieldsOf (c : LogCall) : List Bytes :=
  [c.time.1, typeToString c.event.type, sessionText c.event, detailsText c]

/-- A call whose row keeps its cells. -/
structure PlainCall (c : LogCall) : Prop where
  rendered : detailsToString c.event.details = .ok (detailsText c)
  details : PlainCell (detailsText c)
  session : PlainCell (sessionText c.event)

/-- A row that the query takes for the head of the table. -/
def Titled (c : LogCall) : Prop := ∃ f ∈ fieldsOf c, bytes "Time" <+: f

instance : DecidablePred Titled := fun c =>
  inferInstanceAs (Decidable (∃ f ∈ fieldsOf c, bytes "Time" <+: f))

theorem time_plain (t : TimeText) : PlainCell t.1 := by
  have hnot : ∀ b : UInt8, isDigit b = false → b ≠ 0x3A → b ∉ t.1 := by
    intro b hd hc hm
    rcases t.2.2 b hm with h | h
    · rw [hd] at h
      cases h
    · exact hc h
  exact plainCell_word (hnot newline (by decide) (by decide)) (hnot bar (by decide) (by decide))
    (hnot space (by decide) (by decide))

theorem time_not_titled (t : TimeText) : ¬ bytes "Time" <+: t.1 := fun hp =>
  absurd (t.2.2 0x54 (hp.subset (by decide))) (by decide)

theorem type_plain (type : AuditEventType) : PlainCell (typeToString type) := by
  cases type <;> decide

theorem type_not_titled (type : AuditEventType) : ¬ bytes "Time" <+: typeToString type := by
  cases type <;> decide

theorem type_ne_nil (type : AuditEventType) : typeToString type ≠ [] := by
  cases type <;> decide

theorem session_ne_nil (event : AuditEvent) : sessionText event ≠ [] := by
  unfold sessionText
  split_ifs with h
  · decide
  · exact h

theorem titled_iff (c : LogCall) :
    Titled c ↔ bytes "Time" <+: sessionText c.event ∨ bytes "Time" <+: detailsText c := by
  simp only [Titled, fieldsOf, List.exists_mem_cons_iff, List.not_mem_nil, false_and, exists_false,
    or_false, time_not_titled, type_not_titled, false_or]

/-- Each item leaves a text that is not empty. -/
theorem appendDetail_ne_nil {result text : Bytes} {item : Bytes × Json}
    (h : appendDetail result item = .ok text) : text ≠ [] := by
  obtain ⟨val, -, rfl⟩ := map_eq_ok.mp h
  have heq : bytes "=" ≠ [] := by decide
  simp [heq]

theorem foldlM_appendDetail_ne_nil {l : List (Bytes × Json)} {result text : Bytes}
    (hr : result ≠ []) (h : l.foldlM appendDetail result = .ok text) : text ≠ [] := by
  induction l generalizing result with
  | nil =>
    cases h
    exact hr
  | cons item l ih =>
    rw [List.foldlM_cons] at h
    obtain ⟨next, hnext, h⟩ := bind_eq_ok.mp h
    exact ih (appendDetail_ne_nil hnext) h

theorem items_ne_nil {details : Json} (h : ¬ (details.isNull = true ∨ details.empty = true)) :
    items details ≠ [] := by
  rw [not_or] at h
  match details with
  | .null => exact absurd rfl h.1
  | .arr [] | .obj [] => exact absurd rfl h.2
  | .arr (x :: l) => simp [items]
  | .obj (x :: m) => simp [items]
  | .bool b | .int i | .float t | .str s => simp [items]

theorem detailsToString_ne_nil {details : Json} {text : Bytes}
    (h : detailsToString details = .ok text) : text ≠ [] := by
  unfold detailsToString at h
  split_ifs at h with hempty
  · cases h
    decide
  · cases hitems : items details with
    | nil => exact absurd hitems (items_ne_nil hempty)
    | cons item l =>
      rw [hitems, List.foldlM_cons] at h
      obtain ⟨next, hnext, h⟩ := bind_eq_ok.mp h
      exact foldlM_appendDetail_ne_nil (appendDetail_ne_nil hnext) h

theorem plain_fields {c : LogCall} (h : PlainCall c) : ∀ f ∈ fieldsOf c, PlainCell f := by
  intro f hf
  simp only [fieldsOf, List.mem_cons, List.not_mem_nil, or_false] at hf
  rcases hf with rfl | rfl | rfl | rfl
  · exact time_plain c.time
  · exact type_plain c.event.type
  · exact h.session
  · exact h.details

theorem eventToRow_plain {c : LogCall} (h : PlainCall c) :
    eventToRow c.time c.event = .ok (tableRow (fieldsOf c)) := by
  have hopen : bytes "| " = [bar, space] := by decide
  have hsep : bytes " | " = [space, bar, space] := by decide
  have hclose : bytes " |" = [space, bar] := by decide
  rw [eventToRow, h.rendered, hopen, hsep, hclose]
  simp [Except.map, tableRow, fieldsOf, padded]

theorem cells_row {c : LogCall} (h : PlainCall c) : cells (tableRow (fieldsOf c)) = fieldsOf c := by
  rw [cells_tableRow (plain_fields h), List.filter_eq_self]
  intro f hf
  simp only [fieldsOf, List.mem_cons, List.not_mem_nil, or_false] at hf
  rw [decide_eq_true_eq]
  rcases hf with rfl | rfl | rfl | rfl
  · exact c.time.2.1
  · exact type_ne_nil c.event.type
  · exact session_ne_nil c.event
  · exact detailsToString_ne_nil h.rendered

/-- The entry of a call. -/
def entry (type : AuditEventType) (c : LogCall) : AuditEvent :=
  ⟨c.time.1, type, sessionText c.event, .obj [(bytes "raw", .str (detailsText c))]⟩

theorem readLine_row {c : LogCall} (h : PlainCall c) (acc : List AuditEvent) :
    readLine memory typeFilter ⟨true, acc⟩ (tableRow (fieldsOf c)) =
      ⟨true, if ¬ Titled c ∧ Asked typeFilter c then acc ++ [entry (memory acc.length) c]
        else acc⟩ := by
  have hbars : ∀ f ∈ fieldsOf c, bar ∉ f := fun f hf => (plain_fields h f hf).cell
  have hpat : bytes "| Time" = bar :: space :: bytes "Time" := by decide
  have hword : space ∉ bytes "Time" := by decide
  have htitle := find_word_tableRow hword hbars
  have hhead : (tableRow (fieldsOf c)).head? = some bar := rfl
  rw [readLine, hpat]
  by_cases ht : Titled c
  · rw [if_pos (.inl (htitle.mpr ht)), if_neg fun hn => hn.1 ht]
  · have hfind : ¬ ((find (bar :: space :: bytes "Time") (tableRow (fieldsOf c))).isSome ∨
        (find (bytes "|---") (tableRow (fieldsOf c))).isSome) := by
      rw [not_or]
      exact ⟨fun hs => ht (htitle.mp hs), find_rule_tableRow hbars⟩
    rw [if_neg hfind, if_neg (by simp [hhead]), cells_row h]
    by_cases ha : Asked typeFilter c
    · have hskip : ¬ (typeFilter ≠ [] ∧ typeToString c.event.type ≠ typeFilter) := by
        rintro ⟨hne, htype⟩
        exact ha.elim hne htype
      simp only [fieldsOf]
      rw [if_neg hskip, if_pos ⟨ht, ha⟩]
      rfl
    · have hskip : typeFilter ≠ [] ∧ typeToString c.event.type ≠ typeFilter :=
        not_or.mp ha
      simp only [fieldsOf]
      rw [if_pos hskip, if_neg fun hn => ha hn.2]

/-- The calls that a query for a type returns. -/
def shown (typeFilter : Bytes) (calls : List LogCall) : List LogCall :=
  calls.filter fun c => ¬ Titled c ∧ Asked typeFilter c

theorem readLine_rows {calls : List LogCall} (h : ∀ c ∈ calls, PlainCall c)
    (acc : List AuditEvent) :
    (calls.map fun c => tableRow (fieldsOf c)).foldl (readLine memory typeFilter) ⟨true, acc⟩ =
      ⟨true, acc ++ ((shown typeFilter calls).zipIdx acc.length).map fun x =>
        entry (memory x.2) x.1⟩ := by
  induction calls generalizing acc with
  | nil => simp [shown]
  | cons c calls ih =>
    rw [List.forall_mem_cons] at h
    rw [List.map_cons, List.foldl_cons, readLine_row h.1, ih h.2, shown, shown, List.filter_cons]
    by_cases hs : ¬ Titled c ∧ Asked typeFilter c
    · rw [if_pos hs, if_pos (decide_eq_true hs), List.zipIdx_cons, List.map_cons,
        List.length_append, List.append_assoc, List.singleton_append, List.length_singleton]
    · rw [if_neg hs, if_neg (by simpa using hs)]

theorem lines_total {date : DateText} {calls : List LogCall} (h : ∀ c ∈ calls, PlainCall c)
    (hne : calls ≠ []) :
    lines (total date calls) = headLines date ++ calls.map fun c => tableRow (fieldsOf c) := by
  have hrows : calls.flatMap written = unlines (calls.map fun c => tableRow (fieldsOf c)) := by
    rw [unlines, List.flatMap_map]
    refine List.flatMap_congr fun c hc => ?_
    rw [written, eventToRow_plain (h c hc)]
  have hnew : ∀ l ∈ calls.map fun c => tableRow (fieldsOf c), newline ∉ l := by
    intro l hl
    obtain ⟨c, hc, rfl⟩ := List.mem_map.mp hl
    exact newline_not_mem_tableRow fun f hf => (plain_fields (h c hc) f hf).line
  rw [total, if_neg hne, header_eq, hrows,
    lines_unlines_append (newline_not_mem_headLines date), lines_unlines hnew]

/-- What a query returns of calls with plain rows. -/
theorem results_plain {date : DateText} {calls : List LogCall} (h : ∀ c ∈ calls, PlainCall c) :
    ((lines (total date calls)).foldl (readLine memory typeFilter) {}).results =
      (shown typeFilter calls).zipIdx.map fun x => entry (memory x.2) x.1 := by
  by_cases hne : calls = []
  · subst hne
    rfl
  · rw [lines_total h hne, List.foldl_append, readLine_headLines, readLine_rows h]
    rfl

end Reading

section Faithful

variable {logDir : Bytes} {date : DateText} {fs : Files} {calls : List LogCall} {c : LogCall}
  {memory : Bytes → ℕ → AuditEventType}

theorem legible_of_plain (h : PlainCall c) (ht : ¬ Titled c) : LegibleEvent c.event := by
  rw [titled_iff, not_or] at ht
  exact ⟨detailsText c, h.rendered, ⟨h.details, ht.2⟩, ⟨h.session, ht.1⟩⟩

theorem plain_of_legible (h : LegibleEvent c.event) : PlainCall c ∧ ¬ Titled c := by
  obtain ⟨details, hd, hdetails, hsession⟩ := h
  have htext : detailsText c = details := by rw [detailsText, hd]; rfl
  subst htext
  exact ⟨⟨hd, hdetails.plain, hsession.plain⟩,
    (titled_iff c).not.mpr (not_or.mpr ⟨hsession.title, hdetails.title⟩)⟩

theorem expected_plain (h : PlainCall c) : expected c = some (recordOf (entry c.event.type c)) := by
  rw [expected, h.rendered]
  rfl

/-- A call that a query returns is plain, since the cells of any row are. -/
theorem plain_of_faithful (hfs : fs (auditPath logDir date.1) = none)
    (hsize : (total date calls).length < kMaxFileSize)
    (h : Faithful logDir date memory fs calls) : ∀ c ∈ calls, PlainCall c := by
  intro c hc
  have hall := h []
  rw [query_logAll hfs hsize] at hall
  have hmem : expected c ∈ (calls.filter (Asked [])).map expected :=
    List.mem_map_of_mem (List.mem_filter.mpr ⟨hc, decide_eq_true (.inl rfl)⟩)
  rw [← hall] at hmem
  obtain ⟨e, he, hexp⟩ := List.mem_map.mp hmem
  have hstart : ∀ e ∈ ({} : TableReader).results, PlainEntry e :=
    fun _ hr => absurd hr List.not_mem_nil
  have hplain : PlainEntry e :=
    readLines_plain (newline_not_mem_lines (total date calls)) hstart e he
  obtain ⟨hsession, raw, hraw, hcell⟩ := hplain
  obtain ⟨details, hd, hrec⟩ := Option.map_eq_some_iff.mp hexp.symm
  have hok : detailsToString c.event.details = .ok details := by
    cases hx : detailsToString c.event.details with
    | ok d =>
      rw [hx] at hd
      rw [Option.some.inj hd]
    | error x =>
      rw [hx] at hd
      cases hd
  have htext : detailsText c = details := by rw [detailsText, hok]; rfl
  obtain ⟨-, hs, hdet⟩ : c.event.type = e.type ∧ sessionText c.event = e.sessionId ∧
      Json.obj [(bytes "raw", .str details)] = e.details := by
    simpa [recordOf] using hrec
  have hsame : details = raw := by
    rw [hraw] at hdet
    simpa using hdet
  exact ⟨htext ▸ hok, htext ▸ hsame ▸ hcell, hs ▸ hsession⟩

/-- No call that the query for all types returns is titled. -/
theorem legible_of_faithful (hfs : fs (auditPath logDir date.1) = none)
    (hsize : (total date calls).length < kMaxFileSize)
    (h : Faithful logDir date memory fs calls) : ∀ c ∈ calls, LegibleEvent c.event := by
  have hplain := plain_of_faithful hfs hsize h
  have hlen := congrArg List.length (h [])
  have hall : calls.filter (Asked []) = calls :=
    List.filter_eq_self.mpr fun c _ => decide_eq_true (.inl rfl)
  rw [query_logAll hfs hsize, results_plain hplain, hall, List.length_map, List.length_map,
    List.length_zipIdx, List.length_map] at hlen
  have hshown := List.length_filter_eq_length_iff.mp hlen
  intro c hc
  have := hshown c hc
  rw [decide_eq_true_eq] at this
  exact legible_of_plain (hplain c hc) this.1

theorem shown_legible (h : ∀ c ∈ calls, LegibleEvent c.event) (typeFilter : Bytes) :
    shown typeFilter calls = calls.filter (Asked typeFilter) :=
  List.filter_congr fun c hc => by simp [(plain_of_legible (h c hc)).2]

/-- The log of a date is faithful exactly when every event is legible, and the entries happen to lie
where their types were before. -/
theorem query_faithful_iff (hfs : fs (auditPath logDir date.1) = none)
    (hsize : (total date calls).length < kMaxFileSize) :
    Faithful logDir date memory fs calls ↔
      (∀ c ∈ calls, LegibleEvent c.event) ∧ Remembered memory calls := by
  have hquery : (∀ c ∈ calls, LegibleEvent c.event) → ∀ typeFilter,
      ((query (memory typeFilter) logDir date.1 typeFilter (logAll logDir date fs calls)).map
        (fun e => some (recordOf e)) = (calls.filter (Asked typeFilter)).map expected ↔
      ∀ k c, (calls.filter (Asked typeFilter))[k]? = some c →
        memory typeFilter k = c.event.type) := by
    intro hleg typeFilter
    have hplain : ∀ c ∈ calls, PlainCall c := fun c hc => (plain_of_legible (hleg c hc)).1
    rw [query_logAll hfs hsize, results_plain hplain, shown_legible hleg, List.map_map,
      List.ext_getElem?_iff]
    refine forall_congr' fun k => ?_
    rw [List.getElem?_map, List.getElem?_map, List.getElem?_zipIdx, Nat.zero_add]
    cases hk : (calls.filter (Asked typeFilter))[k]? with
    | none => simp
    | some c =>
      have hc : PlainCall c := hplain c (List.mem_of_mem_filter (List.mem_of_getElem? hk))
      simp [expected_plain hc, recordOf, entry]
  constructor
  · intro h
    have hleg := legible_of_faithful hfs hsize h
    exact ⟨hleg, fun typeFilter => (hquery hleg typeFilter).mp (h typeFilter)⟩
  · rintro ⟨hleg, hmem⟩ typeFilter
    exact (hquery hleg typeFilter).mpr (hmem typeFilter)

end Faithful

namespace Counterexample

def date : DateText := ⟨bytes "2026-03-01", forall_of_all (by decide)⟩
def noon : TimeText := ⟨bytes "12:00:00", by decide, forall_of_all (by decide)⟩

def calls : List LogCall :=
  [⟨noon, [], .toolExecution, bytes "s1", .obj [(bytes "q", .str (bytes "a"))]⟩,
    ⟨noon, [], .toolExecution, [], .null⟩]

theorem calls_size : (total date calls).length < kMaxFileSize := by decide +kernel

/-- Two events, when the memory of the entries held their type before. -/
theorem two_events : Faithful [] date (fun _ _ => .toolExecution) (fun _ => none) calls := by
  have hleg : ∀ c ∈ calls, LegibleEvent c.event := by
    intro c hc
    simp only [calls, List.mem_cons, List.not_mem_nil, or_false] at hc
    rcases hc with rfl | rfl
    · exact ⟨bytes "q=a", rfl, by decide, by decide⟩
    · exact ⟨bytes "-", rfl, by decide, by decide⟩
  refine (query_faithful_iff rfl calls_size).mpr ⟨hleg, fun typeFilter k c hc => ?_⟩
  have hmem := List.mem_of_mem_filter (List.mem_of_getElem? hc)
  simp only [calls, List.mem_cons, List.not_mem_nil, or_false] at hmem
  rcases hmem with rfl | rfl
  · rfl
  · rfl

/-- A detail that ends its row and writes another. -/
def forging : LogCall :=
  ⟨noon, [], .toolExecution, bytes "s1",
    .obj [(bytes "q", .str (bytes "a |\n| 13:00:00 | ipc_auth | root | uid=0"))]⟩

theorem forging_size : (total date [forging]).length < kMaxFileSize := by decide +kernel

/-- One call, and the query returns two entries, the other of the type that the detail names. -/
theorem forged_row :
    (total date [forging]).length < kMaxFileSize ∧
      ¬ Faithful [] date (fun _ _ => .toolExecution) (fun _ => none) [forging] ∧
      ((lines (total date [forging])).foldl (readLine (fun _ => .toolExecution) []) {}).results.map
        (fun e => e.sessionId) = [bytes "s1", bytes "root"] := by
  refine ⟨forging_size, fun h => ?_, by decide +kernel⟩
  obtain ⟨details, hd, hdetails, -⟩ :=
    legible_of_faithful rfl forging_size h forging List.mem_cons_self
  obtain rfl := Except.ok.inj hd
  exact hdetails.plain.line (by decide)

end Counterexample

end AuditLogger
