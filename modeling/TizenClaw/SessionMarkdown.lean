import TizenClaw.JsonParse
import TizenClaw.LlmTypes

/-! The session file: the writer, the reader, and saving and loading one session. -/
namespace SessionMarkdown

open ByteString JsonValue JsonDump JsonParse LlmTypes

/-- The text of the clock, a single line. -/
abbrev Timestamp := { t : Bytes // newline ∉ t }

/-- A fenced JSON block; the serializer is strict. -/
def fencedJson (j : Json) : Except JsonException Bytes :=
  (dumpIndent 2 j).map fun text => bytes "```json\n" ++ text ++ bytes "\n```\n"

def toolHeading (callId name : Bytes) : Bytes :=
  bytes "## tool" ++ (if callId = [] then [] else bytes " [" ++ callId ++ bytes "]") ++
    (if name = [] then [] else bytes " " ++ name) ++ bytes "\n\n"

def callHeading (tc : LlmToolCall) : Bytes :=
  bytes "\n### tool_call: " ++ tc.name ++
    (if tc.id = [] then [] else bytes " [" ++ tc.id ++ bytes "]") ++ bytes "\n\n"

def callMarkdown (tc : LlmToolCall) : Except JsonException Bytes :=
  if tc.args.empty then .ok (callHeading tc)
  else (fencedJson tc.args).map fun block => callHeading tc ++ block

def callsMarkdown : List LlmToolCall → Except JsonException Bytes
  | [] => .ok []
  | tc :: tcs => (callMarkdown tc).bind fun c => (callsMarkdown tcs).map fun cs => c ++ cs

def messageMarkdown (msg : LlmMessage) : Except JsonException Bytes :=
  if msg.role = .tool then
    if msg.toolResult.isNull then .ok (toolHeading msg.toolCallId msg.toolName)
    else (fencedJson msg.toolResult).map fun block =>
      toolHeading msg.toolCallId msg.toolName ++ block
  else
    (callsMarkdown msg.toolCalls).map fun calls =>
      bytes "## " ++ roleText msg.role ++ bytes "\n\n" ++
        (if msg.text = [] then [] else msg.text ++ [newline]) ++ calls

def separator : Bytes := bytes "\n---\n\n"

def bodyMarkdown : List LlmMessage → Except JsonException Bytes
  | [] => .ok []
  | [msg] => messageMarkdown msg
  | msg :: msgs =>
    (messageMarkdown msg).bind fun m => (bodyMarkdown msgs).map fun b => m ++ separator ++ b

def frontmatter (stamp : Timestamp) (count : ℕ) : Bytes :=
  bytes "---\nmessage_count: " ++ decimal count ++ bytes "\nupdated: " ++ stamp.1 ++
    bytes "\n---\n\n"

def messagesToMarkdown (stamp : Timestamp) (history : List LlmMessage) :
    Except JsonException Bytes :=
  (bodyMarkdown history).map fun b => frontmatter stamp history.length ++ b

/-- `substr(s + 1, e - s - 1)`: an end before the start wraps around and means the rest. -/
def between (s e : ℕ) (t : Bytes) : Bytes :=
  if s < e then (t.drop (s + 1)).take (e - s - 1) else t.drop (s + 1)

def skipFrontmatter (content : Bytes) : Bytes :=
  if content.take 4 = bytes "---\n" then
    match find (bytes "\n---\n") (content.drop 4) with
    | some i => content.drop (4 + i + 5)
    | none => content
  else content

/-- The blocks between separator lines; empty ones are dropped. -/
def splitBlocks (current : Bytes) : List Bytes → List Bytes
  | [] => if current = [] then [] else [current]
  | line :: ls =>
    if line = bytes "---" then
      if current = [] then splitBlocks [] ls else current :: splitBlocks [] ls
    else splitBlocks (current ++ line ++ [newline]) ls

def blank : Bytes := bytes " \n\r\t"

/-- Id and name in the heading of a tool message. -/
def readToolNames (header : Bytes) : Bytes × Bytes :=
  match find (bytes "[") header, find (bytes "]") header with
  | some s, some e =>
    (between s e header, if e + 2 < header.length then header.drop (e + 2) else [])
  | _, _ => ([], [])

def readToolResult (readFloat : Bytes → Option NumberText) (rest : Bytes) : Json :=
  match find (bytes "```json\n") rest with
  | none => .null
  | some i =>
    match find (bytes "\n```") (rest.drop (i + 8)) with
    | none => .null
    | some k =>
      let text := (rest.drop (i + 8)).take k
      match parse readFloat text with
      | .ok j => j
      | .error _ => .object [(bytes "output", .str text)]

/-- The tool message of a heading and the rest of its block. -/
def readToolMessage (readFloat : Bytes → Option NumberText) (header rest : Bytes) : LlmMessage :=
  { role := .tool
    toolCallId := (readToolNames header).1
    toolName := (readToolNames header).2
    toolResult := readToolResult readFloat rest }

/-- The line reader inside the tool calls of a message. -/
structure CallReader where
  calls : List LlmToolCall := []
  current : LlmToolCall := ⟨[], [], .null⟩
  inCall : Bool := false
  json : Bytes := []
  inJson : Bool := false

/-- `substr(15)` on a line of 14 bytes throws. -/
inductive OutOfRange where
  | mk
  deriving DecidableEq, Repr

def callMarker : Bytes := bytes "### tool_call:"

/-- Name and id of a heading. A bracket in the first column makes `bid - 1` wrap around. -/
def readCallHeading (header : Bytes) : Bytes × Bytes :=
  match find (bytes "[") header, find (bytes "]") header with
  | some b, some e =>
    (trimRight (bytes " ") (if b = 0 then header else header.take (b - 1)), between b e header)
  | _, _ => (trimRight (bytes " ") header, [])

def readCallLine (readFloat : Bytes → Option NumberText) (st : CallReader) (line : Bytes) :
    Except OutOfRange CallReader :=
  if line.take 14 = callMarker then
    if line.length < 15 then .error .mk
    else
      let heading := readCallHeading (line.drop 15)
      let calls := if st.inCall then st.calls ++ [st.current] else st.calls
      let args := if st.inCall then .null else st.current.args
      .ok { st with calls := calls, inCall := true, current := ⟨heading.2, heading.1, args⟩ }
  else if line = bytes "```json" then .ok { st with inJson := true, json := [] }
  else if line = bytes "```" ∧ st.inJson then
    let args := match parse readFloat st.json with
      | .ok j => j
      | .error _ => .obj []
    .ok { st with inJson := false, current := { st.current with args := args } }
  else if st.inJson then .ok { st with json := st.json ++ line ++ [newline] }
  else .ok st

def readCallLines (readFloat : Bytes → Option NumberText) (st : CallReader) :
    List Bytes → Except OutOfRange CallReader
  | [] => .ok st
  | line :: ls => (readCallLine readFloat st line).bind fun st => readCallLines readFloat st ls

def readCalls (readFloat : Bytes → Option NumberText) (s : Bytes) :
    Except OutOfRange (List LlmToolCall) :=
  (readCallLines readFloat {} (lines s)).map fun st =>
    if st.inCall then st.calls ++ [st.current] else st.calls

/-- Text and tool calls after a heading. -/
def readTextMessage (readFloat : Bytes → Option NumberText) (role : Role) (rest : Bytes) :
    Except OutOfRange LlmMessage :=
  match find callMarker rest with
  | some i =>
    (readCalls readFloat (rest.drop i)).map fun calls =>
      { role := role, text := trimRight blank (rest.take i), toolCalls := calls }
  | none => .ok { role := role, text := trimRight blank rest }

/-- Compressed turns get their mark back. -/
def markCompressed (msg : LlmMessage) : LlmMessage :=
  if msg.text = [] then msg else { msg with text := bytes "[compressed] " ++ msg.text }

def readBlock (readFloat : Bytes → Option NumberText) (block : Bytes) :
    Except OutOfRange (Option LlmMessage) :=
  let block := trimLeft (bytes " \n\r") block
  if block.take 3 ≠ bytes "## " then .ok none
  else
    let header := (block.drop 3).takeWhile (· ≠ newline)
    let rest := trimLeft blank ((block.drop 3).drop (header.length + 1))
    if header.take 4 = bytes "tool" then .ok (some (readToolMessage readFloat header rest))
    else if header = bytes "user" then (readTextMessage readFloat .user rest).map some
    else if header = bytes "assistant" then (readTextMessage readFloat .assistant rest).map some
    else if header = bytes "[compressed]" then
      (readTextMessage readFloat .assistant rest).map fun msg => some (markCompressed msg)
    else .ok none

def readBlocks (readFloat : Bytes → Option NumberText) :
    List Bytes → Except OutOfRange (List LlmMessage)
  | [] => .ok []
  | b :: bs =>
    (readBlock readFloat b).bind fun m => (readBlocks readFloat bs).map fun ms => m.toList ++ ms

def markdownToMessages (readFloat : Bytes → Option NumberText) (content : Bytes) :
    Except OutOfRange (List LlmMessage) :=
  readBlocks readFloat (splitBlocks [] (lines (skipFrontmatter content)))

def kMaxFileSize : ℕ := 512 * 1024

/-- The size limit drops the oldest messages, but keeps two. -/
def trimToSize (stamp : Timestamp) (data : Bytes) : List LlmMessage → Except JsonException Bytes
  | _ :: b :: c :: msgs =>
    if kMaxFileSize < data.length then
      (messagesToMarkdown stamp (b :: c :: msgs)).bind fun data =>
        trimToSize stamp data (b :: c :: msgs)
    else .ok data
  | _ => .ok data

/-- `SaveSession` with a name and a directory it can write to: the bytes of the file, nothing
for an empty history. -/
def saveSession (stamp : Timestamp) (history : List LlmMessage) :
    Except JsonException (Option Bytes) :=
  if history = [] then .ok none
  else (messagesToMarkdown stamp history).bind fun data => (trimToSize stamp data history).map some

/-- `LoadSession` without a file of the old format. -/
def loadSession (readFloat : Bytes → Option NumberText) (file : Option Bytes) :
    Except OutOfRange (List LlmMessage) :=
  match file with
  | none => .ok []
  | some content => markdownToMessages readFloat content

theorem succeeds_fencedJson (j : Json) : Succeeds (fencedJson j) ↔ j.utf8 = true := by
  rw [fencedJson, succeeds_map]
  exact succeeds_dumpWith _ j

theorem succeeds_callMarkdown (tc : LlmToolCall) :
    Succeeds (callMarkdown tc) ↔ tc.args.utf8 = true := by
  unfold callMarkdown
  split_ifs with h
  · simp [utf8_of_empty h]
  · rw [succeeds_map, succeeds_fencedJson]

theorem succeeds_callsMarkdown (tcs : List LlmToolCall) :
    Succeeds (callsMarkdown tcs) ↔ ∀ tc ∈ tcs, tc.args.utf8 = true := by
  induction tcs with
  | nil => simp [callsMarkdown]
  | cons tc tcs ih =>
    simp only [callsMarkdown, succeeds_bind, succeeds_map, ih, exists_and_right,
      List.forall_mem_cons]
    exact and_congr_left' (succeeds_callMarkdown tc)

/-- A message the writer can write: of a message it serializes the result or the arguments. -/
def Writable (msg : LlmMessage) : Prop :=
  if msg.role = .tool then msg.toolResult.utf8 = true
  else ∀ tc ∈ msg.toolCalls, tc.args.utf8 = true

theorem succeeds_messageMarkdown (msg : LlmMessage) :
    Succeeds (messageMarkdown msg) ↔ Writable msg := by
  unfold messageMarkdown Writable
  by_cases ht : msg.role = .tool
  · rw [if_pos ht, if_pos ht]
    split_ifs with hn
    · simp [utf8_of_isNull hn]
    · rw [succeeds_map, succeeds_fencedJson]
  · rw [if_neg ht, if_neg ht, succeeds_map, succeeds_callsMarkdown]

theorem succeeds_bodyMarkdown (msgs : List LlmMessage) :
    Succeeds (bodyMarkdown msgs) ↔ ∀ msg ∈ msgs, Writable msg := by
  induction msgs with
  | nil => simp [bodyMarkdown]
  | cons msg msgs ih =>
    cases msgs with
    | nil => simp [bodyMarkdown, succeeds_messageMarkdown]
    | cons msg' msgs =>
      rw [List.forall_mem_cons, ← ih, ← succeeds_messageMarkdown]
      simp only [bodyMarkdown, succeeds_bind, succeeds_map, exists_and_right]
      rfl

theorem succeeds_messagesToMarkdown (stamp : Timestamp) (history : List LlmMessage) :
    Succeeds (messagesToMarkdown stamp history) ↔ ∀ msg ∈ history, Writable msg := by
  rw [messagesToMarkdown, succeeds_map, succeeds_bodyMarkdown]

theorem succeeds_trimToSize (stamp : Timestamp) (data : Bytes) (history : List LlmMessage)
    (h : ∀ msg ∈ history, Writable msg) : Succeeds (trimToSize stamp data history) := by
  induction history generalizing data with
  | nil => simp [trimToSize]
  | cons a history ih =>
    match history with
    | [] => simp [trimToSize]
    | [b] => simp [trimToSize]
    | b :: c :: msgs =>
      unfold trimToSize
      split_ifs
      · have htail : ∀ msg ∈ b :: c :: msgs, Writable msg :=
          fun msg hm => h msg (List.mem_cons_of_mem a hm)
        obtain ⟨data', hd⟩ := (succeeds_messagesToMarkdown stamp _).mpr htail
        rw [succeeds_bind]
        exact ⟨data', hd, ih data' htail⟩
      · exact succeeds_ok _

/-- Saving throws on a message that cannot be written, wherever it stands. -/
theorem succeeds_saveSession (stamp : Timestamp) (history : List LlmMessage) :
    Succeeds (saveSession stamp history) ↔ ∀ msg ∈ history, Writable msg := by
  unfold saveSession
  split_ifs with hn
  · simp [hn]
  · rw [succeeds_bind, ← succeeds_messagesToMarkdown stamp]
    constructor
    · rintro ⟨data, hd, -⟩
      exact ⟨data, hd⟩
    · rintro ⟨data, hd⟩
      refine ⟨data, hd, ?_⟩
      rw [succeeds_map]
      exact succeeds_trimToSize stamp data history
        ((succeeds_messagesToMarkdown stamp history).mp ⟨data, hd⟩)

end SessionMarkdown
