import TizenClaw.JsonStorable
import TizenClaw.SessionMarkdown

/-! Which session files can be read: the reader against any content, the loader with its fallback to
the old format, and the prompts that load a session. -/
namespace SessionFileTotality

open ByteString JsonValue JsonDump JsonParse JsonStorable LlmTypes SessionMarkdown

section Legacy

/-- A role of the old format, which may be any text. -/
def roleOf (name : Bytes) : Role :=
  if name = bytes "user" then .user
  else if name = bytes "assistant" then .assistant
  else if name = bytes "tool" then .tool
  else .other name

def jsonToCall (tc : Json) : Except JsonException LlmToolCall := do
  let id ← tc.valueString (bytes "id") []
  let name ← tc.valueString (bytes "name") []
  pure ⟨id, name, (tc.member? (bytes "args")).getD .null⟩

def jsonToMessage (j : Json) : Except JsonException LlmMessage := do
  let role ← j.valueString (bytes "role") []
  let text ← j.valueString (bytes "text") []
  let toolName ← j.valueString (bytes "tool_name") []
  let toolCallId ← j.valueString (bytes "tool_call_id") []
  let toolCalls ← ((j.member? (bytes "tool_calls")).getD .null).elements.mapM jsonToCall
  pure { role := roleOf role
         text := text
         toolCalls := toolCalls
         toolName := toolName
         toolCallId := toolCallId
         toolResult := (j.member? (bytes "tool_result")).getD .null }

variable (readFloat : Bytes → Option NumberText) (stamp : Timestamp)

/-- The `try` of the fallback: the messages, and the file that they are moved to. -/
def migrate (text : Bytes) : Except JsonException (List LlmMessage × Option Bytes) := do
  let arr ← readStream readFloat text
  match arr with
  | .arr l =>
    let history ← l.mapM jsonToMessage
    let saved ← saveSession stamp history
    pure (history, saved)
  | _ => pure ([], none)

/-- The files of a session, in the new format and in the old one. -/
structure SessionFiles where
  md : Option Bytes
  json : Option Bytes

/-- What is loaded, and the files that are there afterwards. Every exception of the fallback is
caught; the reader of the new format stands outside of its `try`. -/
def loadSession (files : SessionFiles) : Except OutOfRange (List LlmMessage × SessionFiles) :=
  let fallback : List LlmMessage × SessionFiles :=
    match files.json with
    | none => ([], files)
    | some text => match migrate readFloat stamp text with
      | .ok (history, some saved) => (history, ⟨some saved, none⟩)
      | .ok (history, none) => (history, files)
      | .error _ => ([], files)
  match files.md with
  | none => .ok fallback
  | some content => (markdownToMessages readFloat content).map fun history =>
      if history ≠ [] then (history, files) else fallback

end Legacy

section Prompts

variable (readFloat : Bytes → Option NumberText)

/-- A session of the agent: its history in memory, if it is there, and its files. -/
structure Session where
  memory : Option (List LlmMessage)
  files : SessionFiles

/-- `ProcessPrompt` up to the history it sends. Nothing catches what the loader throws. -/
def openSession (stamp : Timestamp) (prompt : Bytes) (s : Session) :
    Except OutOfRange (List LlmMessage × Session) :=
  match s.memory with
  | some history =>
    .ok (history ++ [userMessage prompt],
      { s with memory := some (history ++ [userMessage prompt]) })
  | none => (loadSession readFloat stamp s.files).map fun (history, files) =>
      (history ++ [userMessage prompt], ⟨some (history ++ [userMessage prompt]), files⟩)

/-- The session after prompts that fail to open it, and nothing else. -/
def afterPrompts (s : Session) : List (Timestamp × Bytes) → Session
  | [] => s
  | (stamp, prompt) :: prompts =>
    match openSession readFloat stamp prompt s with
    | .ok (_, t) => afterPrompts t prompts
    | .error _ => afterPrompts s prompts

end Prompts

section Reader

variable {readFloat : Bytes → Option NumberText}

/-- The heading of a call without the space behind it. -/
theorem bareLine_iff (line : Bytes) :
    line.take 14 = callMarker ∧ line.length < 15 ↔ line = callMarker := by
  constructor
  · rintro ⟨htake, hlen⟩
    rwa [List.take_of_length_le (by omega)] at htake
  · rintro rfl
    decide

theorem succeeds_readCallLine {st : CallReader} {line : Bytes} :
    Succeeds (readCallLine readFloat st line) ↔ line ≠ callMarker := by
  rw [ne_eq, ← bareLine_iff]
  by_cases hmark : line.take 14 = callMarker
  · rw [readCallLine, if_pos hmark]
    split_ifs with hlen
    · simp [hmark, hlen]
    all_goals exact iff_of_true (succeeds_ok _) fun h => hlen h.2
  · rw [readCallLine, if_neg hmark]
    refine iff_of_true ?_ fun h => hmark h.1
    split_ifs <;> exact succeeds_ok _

theorem succeeds_readCallLines {st : CallReader} {ls : List Bytes} :
    Succeeds (readCallLines readFloat st ls) ↔ callMarker ∉ ls := by
  induction ls generalizing st with
  | nil => simp [readCallLines]
  | cons line ls ih =>
    rw [readCallLines, succeeds_bind, List.mem_cons, not_or]
    constructor
    · rintro ⟨st', hline, hrest⟩
      exact ⟨Ne.symm (succeeds_readCallLine.mp ⟨st', hline⟩), ih.mp hrest⟩
    · rintro ⟨hline, hrest⟩
      obtain ⟨st', hst'⟩ := succeeds_readCallLine.mpr (Ne.symm hline)
      exact ⟨st', hst', ih.mpr hrest⟩

/-- Behind the first mark of a tool call there is a line that is nothing but the mark. -/
def BareCall (rest : Bytes) : Prop :=
  ∃ i, find callMarker rest = some i ∧ callMarker ∈ lines (rest.drop i)

theorem readTextMessage_iff {role : Role} {rest : Bytes} :
    Succeeds (readTextMessage readFloat role rest) ↔ ¬ BareCall rest := by
  unfold readTextMessage BareCall
  cases find callMarker rest with
  | none => simp
  | some i =>
    rw [succeeds_map, readCalls, succeeds_map, succeeds_readCallLines]
    simp

/-- The text of a message of the user or of the assistant with such a line. -/
def BareBlock (block : Bytes) : Prop :=
  let block := trimLeft (bytes " \n\r") block
  let header := (block.drop 3).takeWhile (· ≠ newline)
  block.take 3 = bytes "## " ∧
    header ∈ [bytes "user", bytes "assistant", bytes "[compressed]"] ∧
    BareCall (trimLeft blank ((block.drop 3).drop (header.length + 1)))

theorem succeeds_readBlock {block : Bytes} :
    Succeeds (readBlock readFloat block) ↔ ¬ BareBlock block := by
  unfold readBlock BareBlock
  dsimp only
  generalize trimLeft (bytes " \n\r") block = b
  generalize trimLeft blank ((b.drop 3).drop
    (((b.drop 3).takeWhile (· ≠ newline)).length + 1)) = rest
  generalize (b.drop 3).takeWhile (· ≠ newline) = header
  by_cases hhead : b.take 3 = bytes "## "
  · rw [if_neg (not_not.mpr hhead)]
    by_cases htool : header.take 4 = bytes "tool"
    · have hnot : header ∉ [bytes "user", bytes "assistant", bytes "[compressed]"] := by
        intro hmem
        simp only [List.mem_cons, List.not_mem_nil, or_false] at hmem
        rcases hmem with rfl | rfl | rfl <;> exact absurd htool (by decide)
      rw [if_pos htool]
      exact iff_of_true (succeeds_ok _) fun h => hnot h.2.1
    · rw [if_neg htool]
      split_ifs with huser hassistant hcompressed
      · rw [succeeds_map, readTextMessage_iff]
        simp [hhead, huser]
      · rw [succeeds_map, readTextMessage_iff]
        simp [hhead, hassistant]
      · rw [succeeds_map, readTextMessage_iff]
        simp [hhead, hcompressed]
      · refine iff_of_true (succeeds_ok _) fun h => ?_
        have hmem := h.2.1
        simp only [List.mem_cons, List.not_mem_nil, or_false] at hmem
        rcases hmem with h | h | h
        · exact huser h
        · exact hassistant h
        · exact hcompressed h
  · rw [if_pos hhead]
    exact iff_of_true (succeeds_ok _) fun h => hhead h.1

theorem succeeds_readBlocks {blocks : List Bytes} :
    Succeeds (readBlocks readFloat blocks) ↔ ∀ b ∈ blocks, ¬ BareBlock b := by
  induction blocks with
  | nil => simp [readBlocks]
  | cons b blocks ih =>
    rw [readBlocks, succeeds_bind, List.forall_mem_cons, ← ih, ← succeeds_readBlock]
    simp only [succeeds_map, exists_and_right]
    rfl

def PlainRole (msg : LlmMessage) : Prop :=
  msg.role = .user ∨ msg.role = .assistant ∨ msg.role = .tool

theorem readTextMessage_role {role : Role} {rest : Bytes} {msg : LlmMessage}
    (h : readTextMessage readFloat role rest = .ok msg) : msg.role = role := by
  unfold readTextMessage at h
  split at h
  · obtain ⟨calls, -, rfl⟩ := map_eq_ok.mp h
    rfl
  · obtain rfl := Except.ok.inj h
    rfl

theorem readBlock_role {block : Bytes} {msg : LlmMessage}
    (h : readBlock readFloat block = .ok (some msg)) : PlainRole msg := by
  unfold readBlock at h
  dsimp only at h
  split_ifs at h
  · cases Except.ok.inj h
  · obtain rfl := Option.some.inj (Except.ok.inj h)
    exact .inr (.inr rfl)
  · obtain ⟨m, hm, hmsg⟩ := map_eq_ok.mp h
    obtain rfl := Option.some.inj hmsg
    exact .inl (readTextMessage_role hm)
  · obtain ⟨m, hm, hmsg⟩ := map_eq_ok.mp h
    obtain rfl := Option.some.inj hmsg
    exact .inr (.inl (readTextMessage_role hm))
  · obtain ⟨m, hm, hmsg⟩ := map_eq_ok.mp h
    obtain rfl := Option.some.inj hmsg
    refine .inr (.inl ?_)
    have hrole : (markCompressed m).role = m.role := by
      rw [markCompressed]
      split_ifs
      · rfl
      · rfl
    exact hrole.trans (readTextMessage_role hm)
  · cases Except.ok.inj h

theorem readBlocks_role {blocks : List Bytes} {history : List LlmMessage}
    (h : readBlocks readFloat blocks = .ok history) : ∀ msg ∈ history, PlainRole msg := by
  induction blocks generalizing history with
  | nil =>
    obtain rfl := Except.ok.inj h
    exact fun _ hmsg => absurd hmsg List.not_mem_nil
  | cons b blocks ih =>
    obtain ⟨m, hm, hrest⟩ := bind_eq_ok.mp h
    obtain ⟨ms, hms, rfl⟩ := map_eq_ok.mp hrest
    intro msg hmsg
    rcases List.mem_append.mp hmsg with hmsg | hmsg
    · obtain rfl := Option.mem_toList.mp hmsg
      exact readBlock_role hm
    · exact ih hms msg hmsg

end Reader

section Content

variable {readFloat : Bytes → Option NumberText} {stamp : Timestamp} {s : Session}

/-- A session file with a bare heading of a tool call in one of its messages. -/
def Bare (content : Bytes) : Prop :=
  ∃ b ∈ splitBlocks [] (lines (skipFrontmatter content)), BareBlock b

theorem succeeds_markdownToMessages {content : Bytes} :
    Succeeds (markdownToMessages readFloat content) ↔ ¬ Bare content := by
  rw [markdownToMessages, succeeds_readBlocks, Bare]
  push Not
  rfl

theorem succeeds_loadSession {content : Bytes} {json : Option Bytes} :
    Succeeds (loadSession readFloat stamp ⟨some content, json⟩) ↔ ¬ Bare content := by
  have hload : Succeeds (markdownToMessages readFloat content) ↔ ¬ Bare content :=
    succeeds_markdownToMessages
  rw [← hload, loadSession, succeeds_map]

theorem succeeds_openSession {prompt : Bytes} :
    Succeeds (openSession readFloat stamp prompt s) ↔
      s.memory = none → ∀ content, s.files.md = some content → ¬ Bare content := by
  obtain ⟨memory, ⟨md, json⟩⟩ := s
  cases memory with
  | some history => simp [openSession]
  | none =>
    rw [openSession, succeeds_map]
    cases md with
    | none => simp [loadSession]
    | some content =>
      rw [succeeds_loadSession]
      simp

/-- A prompt that cannot open its session leaves it as it is, so that the next one cannot either. -/
theorem afterPrompts_bare {content : Bytes} (hm : s.memory = none) (hmd : s.files.md = some content)
    (hbare : Bare content) (prompts : List (Timestamp × Bytes)) :
    afterPrompts readFloat s prompts = s := by
  induction prompts with
  | nil => rfl
  | cons p prompts ih =>
    obtain ⟨stamp, prompt⟩ := p
    cases hopen : openSession readFloat stamp prompt s with
    | error e =>
      rw [afterPrompts, hopen]
      exact ih
    | ok r => exact absurd hbare (succeeds_openSession.mp ⟨r, hopen⟩ hm content hmd)

/-- Prompts never bring about a session that cannot be opened. -/
theorem afterPrompts_openable (h : s.memory = none → ∀ content, s.files.md = some content →
    ¬ Bare content) (prompts : List (Timestamp × Bytes)) :
    (afterPrompts readFloat s prompts).memory = none →
      ∀ content, (afterPrompts readFloat s prompts).files.md = some content → ¬ Bare content := by
  induction prompts generalizing s with
  | nil => exact h
  | cons p prompts ih =>
    obtain ⟨stamp, prompt⟩ := p
    cases hopen : openSession readFloat stamp prompt s with
    | error e =>
      rw [afterPrompts, hopen]
      exact ih h
    | ok r =>
      rw [afterPrompts, hopen]
      refine ih fun hnone => ?_
      have hsome : ∃ history, r.2.memory = some history := by
        unfold openSession at hopen
        split at hopen
        · obtain rfl := Except.ok.inj hopen
          exact ⟨_, rfl⟩
        · obtain ⟨loaded, -, rfl⟩ := map_eq_ok.mp hopen
          exact ⟨_, rfl⟩
      obtain ⟨history, hhistory⟩ := hsome
      rw [hhistory] at hnone
      cases hnone

/-- A session file can be read, and the session it belongs to can be opened by the next prompt and
by those after it, exactly if it has no bare heading of a tool call. -/
theorem session_file_readable_iff (readFloat : Bytes → Option NumberText) (content : Bytes) :
    ((∃ history, markdownToMessages readFloat content = .ok history ∧
          ∀ msg ∈ history, PlainRole msg) ∧
        (∀ stamp json, Succeeds (loadSession readFloat stamp ⟨some content, json⟩)) ∧
        ∀ json prompts stamp prompt, Succeeds (openSession readFloat stamp prompt
          (afterPrompts readFloat ⟨none, ⟨some content, json⟩⟩ prompts))) ↔
      ¬ Bare content := by
  constructor
  · rintro ⟨⟨history, h, -⟩, -⟩
    exact succeeds_markdownToMessages.mp ⟨history, h⟩
  · intro h
    refine ⟨?_, fun _ _ => succeeds_loadSession.mpr h, fun json prompts _ _ => ?_⟩
    · obtain ⟨history, hread⟩ := succeeds_markdownToMessages.mpr h
      exact ⟨history, hread, readBlocks_role hread⟩
    · refine succeeds_openSession.mpr (afterPrompts_openable (fun _ content' h' => ?_) prompts)
      obtain rfl := Option.some.inj h'
      exact h

end Content

namespace Counterexample

def prompt : Bytes := bytes "### tool_call:"

/-- A file that is saved for the message of a user, and with it a session that no prompt opens. -/
theorem saved_message_unreadable : ∃ content,
    saveSession ⟨bytes "t", by decide⟩ [userMessage prompt] = .ok (some content) ∧
    ∀ readFloat prompts stamp text, ¬ Succeeds (openSession readFloat stamp text
      (afterPrompts readFloat ⟨none, ⟨some content, none⟩⟩ prompts)) := by
  refine ⟨_, rfl, fun readFloat prompts stamp text => ?_⟩
  have hbare : Bare (bytes
      "---\nmessage_count: 1\nupdated: t\n---\n\n## user\n\n### tool_call:\n") := by
    refine ⟨bytes "\n## user\n\n### tool_call:\n", by decide, by decide, by decide, 0, by decide,
      by decide⟩
  rw [afterPrompts_bare rfl rfl hbare]
  exact fun h => succeeds_openSession.mp h rfl _ rfl hbare

end Counterexample

end SessionFileTotality
