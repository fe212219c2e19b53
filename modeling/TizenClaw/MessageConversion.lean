import TizenClaw.HistorySanitizer
import TizenClaw.JsonDump
import Mathlib.Data.List.ReduceOption

/-! The messages of a request to each of the four providers, and what a reader of the request finds
in them of the history. -/
namespace MessageConversion

open ByteString JsonValue JsonDump LlmTypes

section Backends

inductive Backend where
  | openAi
  | anthropic
  | gemini
  | ollama
  deriving DecidableEq, Repr

def textMessage (role text : Bytes) : Json :=
  .obj [(bytes "content", .str text), (bytes "role", .str role)]

def openAiCall (tc : LlmToolCall) : Except JsonException Json :=
  (dump tc.args).map fun arguments =>
    .obj [(bytes "function",
        .obj [(bytes "arguments", .str arguments), (bytes "name", .str tc.name)]),
      (bytes "id", .str tc.id), (bytes "type", .str (bytes "function"))]

/-- A message of another role is left out. -/
def openAiMessage (msg : LlmMessage) : Except JsonException (Option Json) :=
  match msg.role with
  | .user => .ok (some (textMessage (bytes "user") msg.text))
  | .assistant =>
    if msg.toolCalls = [] then .ok (some (textMessage (bytes "assistant") msg.text))
    else (msg.toolCalls.mapM openAiCall).map fun calls =>
      some (.obj [(bytes "content", .null), (bytes "role", .str (bytes "assistant")),
        (bytes "tool_calls", .arr calls)])
  | .tool => (dump msg.toolResult).map fun content =>
    some (.obj [(bytes "content", .str content), (bytes "role", .str (bytes "tool")),
      (bytes "tool_call_id", .str msg.toolCallId)])
  | .other _ => .ok none

def anthropicCall (tc : LlmToolCall) : Json :=
  .obj [(bytes "id", .str tc.id), (bytes "input", tc.args), (bytes "name", .str tc.name),
    (bytes "type", .str (bytes "tool_use"))]

def anthropicMessage (msg : LlmMessage) : Except JsonException (Option Json) :=
  match msg.role with
  | .user => .ok (some (textMessage (bytes "user") msg.text))
  | .assistant =>
    if msg.toolCalls = [] then .ok (some (textMessage (bytes "assistant") msg.text))
    else .ok (some (.obj [(bytes "content", .arr (msg.toolCalls.map anthropicCall)),
      (bytes "role", .str (bytes "assistant"))]))
  | .tool => (dump msg.toolResult).map fun content =>
    some (.obj [(bytes "content", .arr [.obj [(bytes "content", .str content),
        (bytes "tool_use_id", .str msg.toolCallId), (bytes "type", .str (bytes "tool_result"))]]),
      (bytes "role", .str (bytes "user"))])
  | .other _ => .ok none

def geminiContent (role : Bytes) (parts : List Json) : Json :=
  .obj [(bytes "parts", .arr parts), (bytes "role", .str role)]

def geminiCall (tc : LlmToolCall) : Json :=
  .obj [(bytes "functionCall", .obj [(bytes "args", tc.args), (bytes "name", .str tc.name)])]

def geminiMessage (msg : LlmMessage) : Except JsonException (Option Json) :=
  match msg.role with
  | .user => .ok (some (geminiContent (bytes "user") [.obj [(bytes "text", .str msg.text)]]))
  | .assistant =>
    .ok (some (geminiContent (bytes "model")
      (if msg.toolCalls = [] then [.obj [(bytes "text", .str msg.text)]]
        else msg.toolCalls.map geminiCall)))
  | .tool =>
    .ok (some (geminiContent (bytes "function") [.obj [(bytes "functionResponse",
      .obj [(bytes "name", .str msg.toolName), (bytes "response", msg.toolResult)])]]))
  | .other _ => .ok none

def ollamaCall (tc : LlmToolCall) : Json :=
  .obj [(bytes "function", .obj [(bytes "arguments", tc.args), (bytes "name", .str tc.name)])]

def ollamaMessage (msg : LlmMessage) : Except JsonException (Option Json) :=
  match msg.role with
  | .user => .ok (some (textMessage (bytes "user") msg.text))
  | .assistant =>
    if msg.toolCalls = [] then .ok (some (textMessage (bytes "assistant") msg.text))
    else .ok (some (.obj [(bytes "content", .str []), (bytes "role", .str (bytes "assistant")),
      (bytes "tool_calls", .arr (msg.toolCalls.map ollamaCall))]))
  | .tool => (dump msg.toolResult).map fun content =>
    some (textMessage (bytes "tool") content)
  | .other _ => .ok none

def convert (message : LlmMessage → Except JsonException (Option Json))
    (messages : List LlmMessage) : Except JsonException Json :=
  (messages.mapM message).map fun msgs => .arr msgs.reduceOption

def toOpenAiMessages : List LlmMessage → Except JsonException Json := convert openAiMessage
def toAnthropicMessages : List LlmMessage → Except JsonException Json := convert anthropicMessage
def toGeminiContents : List LlmMessage → Except JsonException Json := convert geminiMessage
def toOllamaMessages : List LlmMessage → Except JsonException Json := convert ollamaMessage

def Backend.message : Backend → LlmMessage → Except JsonException (Option Json)
  | .openAi => openAiMessage
  | .anthropic => anthropicMessage
  | .gemini => geminiMessage
  | .ollama => ollamaMessage

def Backend.toMessages : Backend → List LlmMessage → Except JsonException Json
  | .openAi => toOpenAiMessages
  | .anthropic => toAnthropicMessages
  | .gemini => toGeminiContents
  | .ollama => toOllamaMessages

end Backends

section Content

/-- The pieces of a conversation. A call and a result have a reference by which one finds the
other. -/
inductive Entry (ρ : Type*) where
  | userText (text : Bytes)
  | assistantText (text : Bytes)
  | call (ref : ρ) (name : Bytes) (args : Json)
  | result (ref : ρ) (value : Json)
  deriving DecidableEq

/-- A result belongs to one of the calls before it that were not answered, counted from the oldest
such call. -/
inductive Content where
  | userText (text : Bytes)
  | assistantText (text : Bytes)
  | call (name : Bytes) (args : Json)
  | result (call : Option ℕ) (value : Json)
  deriving DecidableEq

variable {ρ σ : Type*} [DecidableEq ρ] [DecidableEq σ]

def Entry.mapRef (f : ρ → σ) : Entry ρ → Entry σ
  | .userText text => .userText text
  | .assistantText text => .assistantText text
  | .call ref name args => .call (f ref) name args
  | .result ref value => .result (f ref) value

def answer (calls : List ρ) : Option ℕ → List ρ
  | some k => calls.eraseIdx k
  | none => calls

/-- A result answers the oldest open call with its reference. -/
def pair : List ρ → List (Entry ρ) → List Content
  | _, [] => []
  | calls, .userText text :: es => .userText text :: pair calls es
  | calls, .assistantText text :: es => .assistantText text :: pair calls es
  | calls, .call ref name args :: es => .call name args :: pair (calls ++ [ref]) es
  | calls, .result ref value :: es =>
    .result (calls.findIdx? (· = ref)) value :: pair (answer calls (calls.findIdx? (· = ref))) es

/-- What identifies a call or the call of a result in a history. -/
structure Tag where
  id : Bytes
  name : Bytes
  deriving DecidableEq, Repr

def textEntries (entry : Bytes → Entry ρ) (text : Bytes) : List (Entry ρ) :=
  if text = [] then [] else [entry text]

def callEntry (tc : LlmToolCall) : Entry Tag := .call ⟨tc.id, tc.name⟩ tc.name tc.args

/-- The content of a message; an empty text is none. -/
def entries (msg : LlmMessage) : List (Entry Tag) :=
  match msg.role with
  | .user => textEntries .userText msg.text
  | .assistant => textEntries .assistantText msg.text ++ msg.toolCalls.map callEntry
  | .tool => [.result ⟨msg.toolCallId, msg.toolName⟩ msg.toolResult]
  | .other _ => []

end Content

section Reader

/-- Two formats give the id of a call, one the name of the tool, one nothing. -/
def Backend.ref : Backend → Tag → Option Bytes
  | .openAi, tag | .anthropic, tag => some tag.id
  | .gemini, tag => some tag.name
  | .ollama, _ => none

def Backend.argsOf : Backend → Json → Except JsonException Json
  | .openAi, args => (dump args).map .str
  | _, args => .ok args

def Backend.resultOf : Backend → Json → Except JsonException Json
  | .gemini, value => .ok value
  | _, value => (dump value).map .str

/-- The entry with the arguments or the result as the format has them. -/
def Backend.encode (b : Backend) : Entry Tag → Except JsonException (Entry Tag)
  | .call tag name args => (b.argsOf args).map (.call tag name)
  | .result tag value => (b.resultOf value).map (.result tag)
  | e => .ok e

abbrev Read := Option (List (Entry (Option Bytes)))

def text? : Json → Option Bytes
  | .str s => some s
  | _ => none

/-- A text, which may be missing. -/
def readText (entry : Bytes → Entry (Option Bytes)) : Json → Read
  | .str s => some (textEntries entry s)
  | .null => some []
  | _ => none

def readList (read : Json → Read) : Json → Read
  | .arr l => (l.mapM read).map List.flatten
  | _ => none

def readOpenAiCall (j : Json) : Read := do
  let id ← (j.member? (bytes "id")).bind text?
  let function ← j.member? (bytes "function")
  let name ← (function.member? (bytes "name")).bind text?
  let arguments ← function.member? (bytes "arguments")
  some [.call (some id) name arguments]

def readOpenAi (j : Json) : Read := do
  let role ← (j.member? (bytes "role")).bind text?
  let content ← j.member? (bytes "content")
  if role = bytes "user" then readText .userText content
  else if role = bytes "assistant" then
    let text ← readText .assistantText content
    let calls ← readList readOpenAiCall ((j.member? (bytes "tool_calls")).getD (.arr []))
    some (text ++ calls)
  else
    let id ← (j.member? (bytes "tool_call_id")).bind text?
    some [.result (some id) content]

def readAnthropicBlock (entry : Bytes → Entry (Option Bytes)) (j : Json) : Read := do
  let type ← (j.member? (bytes "type")).bind text?
  if type = bytes "text" then (j.member? (bytes "text")).bind (readText entry)
  else if type = bytes "tool_use" then
    let id ← (j.member? (bytes "id")).bind text?
    let name ← (j.member? (bytes "name")).bind text?
    let input ← j.member? (bytes "input")
    some [.call (some id) name input]
  else
    let id ← (j.member? (bytes "tool_use_id")).bind text?
    let content ← j.member? (bytes "content")
    some [.result (some id) content]

def readAnthropic (j : Json) : Read := do
  let role ← (j.member? (bytes "role")).bind text?
  let content ← j.member? (bytes "content")
  let entry := if role = bytes "user" then Entry.userText else Entry.assistantText
  if content.isArray then readList (readAnthropicBlock entry) content else readText entry content

def readGeminiPart (entry : Bytes → Entry (Option Bytes)) (j : Json) : Read :=
  if j.contains (bytes "functionCall") then do
    let call ← j.member? (bytes "functionCall")
    let name ← (call.member? (bytes "name")).bind text?
    let args ← call.member? (bytes "args")
    some [.call (some name) name args]
  else if j.contains (bytes "functionResponse") then do
    let answer ← j.member? (bytes "functionResponse")
    let name ← (answer.member? (bytes "name")).bind text?
    let response ← answer.member? (bytes "response")
    some [.result (some name) response]
  else (j.member? (bytes "text")).bind (readText entry)

def readGemini (j : Json) : Read := do
  let role ← (j.member? (bytes "role")).bind text?
  let parts ← j.member? (bytes "parts")
  readList (readGeminiPart (if role = bytes "user" then .userText else .assistantText)) parts

def readOllamaCall (j : Json) : Read := do
  let function ← j.member? (bytes "function")
  let name ← (function.member? (bytes "name")).bind text?
  let arguments ← function.member? (bytes "arguments")
  some [.call none name arguments]

def readOllama (j : Json) : Read := do
  let role ← (j.member? (bytes "role")).bind text?
  let content ← j.member? (bytes "content")
  if role = bytes "user" then readText .userText content
  else if role = bytes "assistant" then
    let text ← readText .assistantText content
    let calls ← readList readOllamaCall ((j.member? (bytes "tool_calls")).getD (.arr []))
    some (text ++ calls)
  else some [.result none content]

def Backend.readMessage : Backend → Json → Read
  | .openAi => readOpenAi
  | .anthropic => readAnthropic
  | .gemini => readGemini
  | .ollama => readOllama

def Backend.read (b : Backend) : Json → Read := readList b.readMessage

/-- The request is built, and its texts, calls and results are those of the history, each result
with its call. -/
def Preserves (b : Backend) (history : List LlmMessage) : Prop :=
  ∃ request es content, b.toMessages history = .ok request ∧ b.read request = some es ∧
    (history.flatMap entries).mapM b.encode = .ok content ∧
    pair [] es = pair [] (content.map (Entry.mapRef fun tag => some tag.id))

end Reader

section Reading

variable {ε α β : Type} {b : Backend} {msg : LlmMessage}

/-- What is read from a list of pieces, piece by piece. -/
theorem read_mapM {f : α → Except ε β} {read : β → Read}
    {g : α → Except ε (List (Entry (Option Bytes)))} (l : List α)
    (h : ∀ a, (f a).map read = (g a).map some) :
    (l.mapM f).map (fun js => (js.mapM read).map List.flatten) =
      (l.mapM g).map fun ls => some ls.flatten := by
  induction l with
  | nil => rfl
  | cons a l ih =>
    have ha := h a
    rw [List.mapM_cons, List.mapM_cons]
    cases hf : f a with
    | error e =>
      cases hg : g a with
      | error e' =>
        rw [hf, hg] at ha
        exact congrArg Except.error (Except.error.inj ha)
      | ok es => simp [hf, hg, Except.map] at ha
    | ok j =>
      cases hg : g a with
      | error e' => simp [hf, hg, Except.map] at ha
      | ok es =>
        rw [hf, hg] at ha
        have hread : read j = some es := Except.ok.inj ha
        cases hl : l.mapM f with
        | error e =>
          cases hm : l.mapM g with
          | error e' =>
            rw [hl, hm] at ih
            exact congrArg Except.error (Except.error.inj ih)
          | ok ls => simp [hl, hm, Except.map] at ih
        | ok js =>
          cases hm : l.mapM g with
          | error e' => simp [hl, hm, Except.map] at ih
          | ok ls =>
            rw [hl, hm] at ih
            have hrest : (js.mapM read).map List.flatten = some ls.flatten := Except.ok.inj ih
            obtain ⟨rest, hjs, hflat⟩ := Option.map_eq_some_iff.mp hrest
            refine congrArg Except.ok ?_
            simp [hread, hjs, hflat]

/-- What the request has of a message. -/
def sentEntries (msg : LlmMessage) : List (Entry Tag) :=
  match msg.role with
  | .assistant =>
    if msg.toolCalls = [] then textEntries .assistantText msg.text else msg.toolCalls.map callEntry
  | _ => entries msg

/-- The entries as the reader of the request has them. -/
def Backend.sent (b : Backend) (es : List (Entry Tag)) :
    Except JsonException (List (Entry (Option Bytes))) :=
  (es.mapM b.encode).map fun es => es.map (Entry.mapRef b.ref)

theorem sent_singleton (e : Entry Tag) :
    b.sent [e] = (b.encode e).map fun e => [e.mapRef b.ref] := by
  rw [Backend.sent, List.mapM_cons, List.mapM_nil]
  cases b.encode e <;> rfl

theorem sent_append (es fs : List (Entry Tag)) :
    b.sent (es ++ fs) = (b.sent es).bind fun l => (b.sent fs).map fun m => l ++ m := by
  rw [Backend.sent, List.mapM_append, Backend.sent, Backend.sent]
  cases es.mapM b.encode with
  | error e => rfl
  | ok l =>
    cases fs.mapM b.encode with
    | error e => rfl
    | ok m => exact congrArg Except.ok (List.map_append ..)

theorem sent_flatMap (l : List α) (g : α → List (Entry Tag)) :
    b.sent (l.flatMap g) = (l.mapM fun a => b.sent (g a)).map List.flatten := by
  induction l with
  | nil => rfl
  | cons a l ih =>
    rw [List.flatMap_cons, sent_append, ih, List.mapM_cons]
    cases b.sent (g a) with
    | error e => rfl
    | ok es => cases l.mapM fun a => b.sent (g a) <;> rfl

theorem sent_text {entry : Bytes → Entry Tag} {entry' : Bytes → Entry (Option Bytes)}
    (he : ∀ text, b.encode (entry text) = .ok (entry text))
    (hr : ∀ text, (entry text).mapRef b.ref = entry' text) (text : Bytes) :
    b.sent (textEntries entry text) = .ok (textEntries entry' text) := by
  by_cases h : text = []
  · simp only [textEntries, if_pos h]
    rfl
  · simp only [textEntries, if_neg h, sent_singleton, he, Except.map, hr]

theorem sent_userText (text : Bytes) :
    b.sent (textEntries .userText text) = .ok (textEntries .userText text) :=
  sent_text (fun _ => rfl) (fun _ => rfl) text

theorem sent_assistantText (text : Bytes) :
    b.sent (textEntries .assistantText text) = .ok (textEntries .assistantText text) :=
  sent_text (fun _ => rfl) (fun _ => rfl) text

theorem sent_calls {f : LlmToolCall → Except JsonException Json} {read : Json → Read}
    (h : ∀ tc, (f tc).map read = (b.sent [callEntry tc]).map some) (calls : List LlmToolCall) :
    (calls.mapM f).map (fun js => readList read (.arr js)) =
      (b.sent (calls.map callEntry)).map some := by
  rw [List.map_eq_flatMap, sent_flatMap]
  refine (read_mapM calls h).trans ?_
  cases calls.mapM fun tc => b.sent [callEntry tc] <;> rfl

/-- For a format whose calls are built without an exception. -/
theorem sent_calls_ok {f : LlmToolCall → Json} {read : Json → Read}
    (h : ∀ tc, .ok (read (f tc)) = (b.sent [callEntry tc]).map some) (calls : List LlmToolCall) :
    .ok (readList read (.arr (calls.map f))) = (b.sent (calls.map callEntry)).map some := by
  rw [← sent_calls (f := fun tc => .ok (f tc)) h]
  have hm : calls.mapM (fun tc => (.ok (f tc) : Except JsonException Json)) = .ok (calls.map f) :=
    List.mapM_pure
  rw [hm]
  rfl

theorem anthropic_call (tc : LlmToolCall) :
    .ok (readAnthropicBlock .assistantText (anthropicCall tc)) =
      (Backend.anthropic.sent [callEntry tc]).map some := by
  rw [sent_singleton]
  rfl

theorem gemini_call (tc : LlmToolCall) :
    .ok (readGeminiPart .assistantText (geminiCall tc)) =
      (Backend.gemini.sent [callEntry tc]).map some := by
  rw [sent_singleton]
  rfl

theorem ollama_call (tc : LlmToolCall) :
    .ok (readOllamaCall (ollamaCall tc)) = (Backend.ollama.sent [callEntry tc]).map some := by
  rw [sent_singleton]
  rfl

theorem openAi_call (tc : LlmToolCall) :
    (openAiCall tc).map readOpenAiCall = (Backend.openAi.sent [callEntry tc]).map some := by
  rw [sent_singleton]
  simp only [openAiCall, callEntry, Backend.encode, Backend.argsOf]
  cases dump tc.args <;> rfl

/-- The reading of a message that may be left out. -/
def readOption (read : Json → Read) (o : Option Json) : Read := o.elim (some []) read

/-- What the reader of a format finds in a message is what is sent of it. -/
def Reads (b : Backend) (msg : LlmMessage) : Prop :=
  (b.message msg).map (readOption b.readMessage) = (b.sent (sentEntries msg)).map some

theorem reads_openAi (msg : LlmMessage) : Reads .openAi msg := by
  unfold Reads
  simp only [Backend.message, openAiMessage, sentEntries, entries]
  cases msg.role with
  | user =>
    rw [sent_userText]
    rfl
  | assistant =>
    by_cases hc : msg.toolCalls = []
    · rw [if_pos hc, if_pos hc, sent_assistantText]
      exact congrArg (fun es => Except.ok (some es)) (List.append_nil _)
    · rw [if_neg hc, if_neg hc, ← sent_calls openAi_call]
      cases msg.toolCalls.mapM openAiCall with
      | error e => rfl
      | ok calls =>
        exact congrArg Except.ok (Option.bind_fun_some (readList readOpenAiCall (.arr calls)))
  | tool =>
    rw [sent_singleton]
    simp only [Backend.encode, Backend.resultOf]
    cases dump msg.toolResult <;> rfl
  | other name => rfl

theorem reads_anthropic (msg : LlmMessage) : Reads .anthropic msg := by
  unfold Reads
  simp only [Backend.message, anthropicMessage, sentEntries, entries]
  cases msg.role with
  | user =>
    rw [sent_userText]
    rfl
  | assistant =>
    by_cases hc : msg.toolCalls = []
    · rw [if_pos hc, if_pos hc, sent_assistantText]
      rfl
    · rw [if_neg hc, if_neg hc, ← sent_calls_ok anthropic_call]
      rfl
  | tool =>
    rw [sent_singleton]
    simp only [Backend.encode, Backend.resultOf]
    cases dump msg.toolResult <;> rfl
  | other name => rfl

theorem reads_gemini (msg : LlmMessage) : Reads .gemini msg := by
  unfold Reads
  simp only [Backend.message, geminiMessage, sentEntries, entries]
  cases msg.role with
  | user =>
    rw [sent_userText]
    exact congrArg (fun es => Except.ok (some es)) (List.append_nil _)
  | assistant =>
    by_cases hc : msg.toolCalls = []
    · rw [if_pos hc, if_pos hc, sent_assistantText]
      exact congrArg (fun es => Except.ok (some es)) (List.append_nil _)
    · rw [if_neg hc, if_neg hc, ← sent_calls_ok gemini_call]
      rfl
  | tool =>
    rw [sent_singleton]
    rfl
  | other name => rfl

theorem reads_ollama (msg : LlmMessage) : Reads .ollama msg := by
  unfold Reads
  simp only [Backend.message, ollamaMessage, sentEntries, entries]
  cases msg.role with
  | user =>
    rw [sent_userText]
    rfl
  | assistant =>
    by_cases hc : msg.toolCalls = []
    · rw [if_pos hc, if_pos hc, sent_assistantText]
      exact congrArg (fun es => Except.ok (some es)) (List.append_nil _)
    · rw [if_neg hc, if_neg hc, ← sent_calls_ok ollama_call]
      exact congrArg Except.ok
        (Option.bind_fun_some (readList readOllamaCall (.arr (msg.toolCalls.map ollamaCall))))
  | tool =>
    rw [sent_singleton]
    simp only [Backend.encode, Backend.resultOf]
    cases dump msg.toolResult <;> rfl
  | other name => rfl

theorem reads (b : Backend) (msg : LlmMessage) : Reads b msg :=
  match b with
  | .openAi => reads_openAi msg
  | .anthropic => reads_anthropic msg
  | .gemini => reads_gemini msg
  | .ollama => reads_ollama msg

theorem readList_reduceOption {read : Json → Read} (msgs : List (Option Json)) :
    readList read (.arr msgs.reduceOption) =
      (msgs.mapM (readOption read)).map List.flatten := by
  simp only [readList]
  induction msgs with
  | nil => rfl
  | cons o msgs ih =>
    cases o with
    | none =>
      rw [List.reduceOption_cons_of_none, ih, List.mapM_cons]
      cases msgs.mapM (readOption read) <;> rfl
    | some j =>
      rw [List.reduceOption_cons_of_some, List.mapM_cons, List.mapM_cons,
        show readOption read (some j) = read j from rfl]
      cases read j with
      | none => rfl
      | some es =>
        cases h : msgs.reduceOption.mapM read with
        | none =>
          cases h' : msgs.mapM (readOption read) with
          | none => rfl
          | some l => simp [h, h'] at ih
        | some l =>
          cases h' : msgs.mapM (readOption read) with
          | none => simp [h, h'] at ih
          | some l' =>
            rw [h, h'] at ih
            simpa using ih

/-- The request of a history has what is sent of its messages. -/
theorem read_toMessages (b : Backend) (history : List LlmMessage) :
    (b.toMessages history).map b.read = (b.sent (history.flatMap sentEntries)).map some := by
  have hb : b.toMessages history = convert b.message history := by cases b <;> rfl
  have h := read_mapM history fun msg => reads b msg
  rw [hb, convert, sent_flatMap]
  cases hm : history.mapM b.message with
  | error e =>
    rw [hm] at h
    cases hs : history.mapM fun msg => b.sent (sentEntries msg) with
    | error e' =>
      rw [hs] at h
      exact congrArg Except.error (Except.error.inj h)
    | ok l => simp [hs, Except.map] at h
  | ok msgs =>
    rw [hm] at h
    cases hs : history.mapM fun msg => b.sent (sentEntries msg) with
    | error e' => simp [hs, Except.map] at h
    | ok l =>
      rw [hs] at h
      exact congrArg Except.ok ((readList_reduceOption msgs).trans (Except.ok.inj h))

end Reading

section Pairing

theorem answer_map {α β : Type} (f : α → β) (calls : List α) (k : Option ℕ) :
    answer (calls.map f) k = (answer calls k).map f := by
  cases k with
  | none => rfl
  | some k => exact List.eraseIdx_map ..

variable {ρ : Type} [DecidableEq ρ] {r : Tag → ρ} {b : Backend}

/-- The references tell the calls of the results as the ids do. -/
def Ordered (r : Tag → ρ) : List Tag → List (Entry Tag) → Prop
  | _, [] => True
  | calls, .userText _ :: es | calls, .assistantText _ :: es => Ordered r calls es
  | calls, .call tag _ _ :: es => Ordered r (calls ++ [tag]) es
  | calls, .result tag _ :: es =>
    calls.findIdx? (fun call => r call = r tag) = calls.findIdx? (fun call => call.id = tag.id) ∧
      Ordered r (answer calls (calls.findIdx? fun call => call.id = tag.id)) es

theorem length_pair (calls : List ρ) (es : List (Entry ρ)) :
    (pair calls es).length = es.length := by
  induction es generalizing calls with
  | nil => rfl
  | cons e es ih => cases e <;> simp [pair, ih]

theorem pair_eq_iff (calls : List Tag) (es : List (Entry Tag)) :
    pair (calls.map r) (es.map (Entry.mapRef r)) =
        pair (calls.map fun tag => some tag.id) (es.map (Entry.mapRef fun tag => some tag.id)) ↔
      Ordered r calls es := by
  induction es generalizing calls with
  | nil => exact iff_of_true rfl trivial
  | cons e es ih =>
    cases e with
    | userText text | assistantText text =>
      simp only [List.map_cons, Entry.mapRef, pair, List.cons.injEq, true_and, ih, Ordered]
    | call tag name args =>
      have h := ih (calls ++ [tag])
      rw [List.map_append, List.map_append, List.map_singleton, List.map_singleton] at h
      simp only [List.map_cons, Entry.mapRef, pair, List.cons.injEq, true_and, Ordered]
      exact h
    | result tag value =>
      simp only [List.map_cons, Entry.mapRef, pair, List.cons.injEq, Content.result.injEq,
        and_true, Ordered, List.findIdx?_map, answer_map, Function.comp_def, Option.some.injEq]
      refine and_congr_right fun h => ?_
      rw [h]
      exact ih _

/-- The ids always do. -/
theorem ordered_ids (calls : List Tag) (es : List (Entry Tag)) :
    Ordered (fun tag => some tag.id) calls es := (pair_eq_iff calls es).mp rfl

theorem ordered_encode {calls : List Tag} {es content : List (Entry Tag)}
    (h : es.mapM b.encode = .ok content) : Ordered r calls content ↔ Ordered r calls es := by
  induction es generalizing calls content with
  | nil =>
    obtain rfl := Except.ok.inj h
    rfl
  | cons e es ih =>
    obtain ⟨e', content, he, hl, rfl⟩ := mapM_cons_ok.mp h
    cases e with
    | userText text | assistantText text =>
      obtain rfl := Except.ok.inj he
      exact show Ordered r calls content ↔ Ordered r calls es from ih hl
    | call tag name args =>
      simp only [Backend.encode] at he
      cases ha : b.argsOf args with
      | error _ =>
        rw [ha] at he
        cases he
      | ok args' =>
        rw [ha] at he
        obtain rfl := Except.ok.inj he
        exact ih hl
    | result tag value =>
      simp only [Backend.encode] at he
      cases hv : b.resultOf value with
      | error _ =>
        rw [hv] at he
        cases he
      | ok value' =>
        rw [hv] at he
        obtain rfl := Except.ok.inj he
        exact and_congr_right fun _ => ih hl

end Pairing

section Preservation

variable {b : Backend} {msg : LlmMessage} {history : List LlmMessage}

/-- No text comes with tool calls, what a format has as dumped text is well-formed UTF-8, and the
references of the format tell the calls of the results as the ids do. -/
structure Kept (b : Backend) (history : List LlmMessage) : Prop where
  texts : ∀ msg ∈ history, msg.role = .assistant → msg.toolCalls ≠ [] → msg.text = []
  args : b = .openAi → ∀ msg ∈ history, msg.role = .assistant →
    ∀ tc ∈ msg.toolCalls, tc.args.utf8 = true
  results : b ≠ .gemini → ∀ msg ∈ history, msg.role = .tool → msg.toolResult.utf8 = true
  order : Ordered b.ref [] (history.flatMap entries)

theorem sentEntries_sublist (msg : LlmMessage) : List.Sublist (sentEntries msg) (entries msg) := by
  unfold sentEntries entries
  cases msg.role with
  | assistant =>
    by_cases hc : msg.toolCalls = []
    · simp [hc]
    · simp [hc]
  | _ => exact List.Sublist.refl _

theorem sentEntries_eq_iff : sentEntries msg = entries msg ↔
    (msg.role = .assistant → msg.toolCalls ≠ [] → msg.text = []) := by
  unfold sentEntries entries
  cases msg.role with
  | assistant =>
    by_cases hc : msg.toolCalls = []
    · simp [hc]
    · by_cases ht : msg.text = []
      · simp [hc, ht, textEntries]
      · simp [hc, ht, textEntries]
  | _ => simp

theorem sentEntries_flatMap_sublist (history : List LlmMessage) :
    List.Sublist (history.flatMap sentEntries) (history.flatMap entries) := by
  induction history with
  | nil => exact List.Sublist.refl _
  | cons msg history ih => exact (sentEntries_sublist msg).append ih

/-- Nothing is left out of the messages if the entries sent are as many as there are. -/
theorem flatMap_sentEntries (h : (history.flatMap sentEntries).length =
    (history.flatMap entries).length) : ∀ msg ∈ history, sentEntries msg = entries msg := by
  induction history with
  | nil => simp
  | cons msg history ih =>
    have hm := (sentEntries_sublist msg).length_le
    have hh := (sentEntries_flatMap_sublist history).length_le
    simp only [List.flatMap_cons, List.length_append] at h
    rw [List.forall_mem_cons]
    exact ⟨(sentEntries_sublist msg).eq_of_length (by omega), ih (by omega)⟩

theorem dump_ok_iff {j : Json} : (∃ text, dump j = .ok text) ↔ j.utf8 = true := by
  rw [dump, dumpWith]
  split_ifs with h <;> simp [h]

theorem mem_textEntries {ρ : Type} {entry : Bytes → Entry ρ} {text : Bytes} {e : Entry ρ}
    (h : e ∈ textEntries entry text) : e = entry text := by
  unfold textEntries at h
  split at h
  · cases h
  · exact List.mem_singleton.mp h

theorem encode_ok_iff {e : Entry Tag} : (∃ e', b.encode e = .ok e') ↔ match e with
    | .call _ _ args => b = .openAi → args.utf8 = true
    | .result _ value => b ≠ .gemini → value.utf8 = true
    | _ => True := by
  cases e with
  | userText text => exact iff_of_true ⟨_, rfl⟩ trivial
  | assistantText text => exact iff_of_true ⟨_, rfl⟩ trivial
  | call tag name args =>
    cases b with
    | openAi =>
      simp only [Backend.encode, Backend.argsOf, forall_const, ← dump_ok_iff]
      cases dump args <;> simp [Except.map]
    | _ => exact iff_of_true ⟨_, rfl⟩ nofun
  | result tag value =>
    cases b with
    | gemini => exact iff_of_true ⟨_, rfl⟩ fun h => absurd rfl h
    | _ =>
      simp only [Backend.encode, Backend.resultOf, ne_eq, reduceCtorEq, not_false_eq_true,
        forall_const, ← dump_ok_iff]
      cases dump value <;> simp [Except.map]

theorem encodes_iff : (∃ content, (history.flatMap entries).mapM b.encode = .ok content) ↔
    (b = .openAi → ∀ msg ∈ history, msg.role = .assistant →
      ∀ tc ∈ msg.toolCalls, tc.args.utf8 = true) ∧
    (b ≠ .gemini → ∀ msg ∈ history, msg.role = .tool → msg.toolResult.utf8 = true) := by
  refine succeeds_mapM.trans ?_
  simp only [Succeeds, encode_ok_iff, List.mem_flatMap, forall_exists_index, and_imp]
  constructor
  · intro h
    refine ⟨fun hb msg hm hr tc htc => ?_, fun hb msg hm hr => ?_⟩
    · exact h (callEntry tc) msg hm (by
        simp only [entries, hr, List.mem_append, List.mem_map]
        exact .inr ⟨tc, htc, rfl⟩) hb
    · exact h (.result ⟨msg.toolCallId, msg.toolName⟩ msg.toolResult) msg hm
        (by simp only [entries, hr, List.mem_singleton]) hb
  · rintro ⟨hargs, hresults⟩ e msg hm he
    unfold entries at he
    cases hr : msg.role with
    | user =>
      rw [hr] at he
      obtain rfl := mem_textEntries he
      trivial
    | assistant =>
      rw [hr] at he
      rcases List.mem_append.mp he with he | he
      · obtain rfl := mem_textEntries he
        trivial
      · obtain ⟨tc, htc, rfl⟩ := List.mem_map.mp he
        exact fun hb => hargs hb msg hm hr tc htc
    | tool =>
      rw [hr] at he
      obtain rfl := List.mem_singleton.mp he
      exact fun hb => hresults hb msg hm hr
    | other name =>
      rw [hr] at he
      cases he

/-- The reader of a request finds what is sent of the history. -/
theorem read_request_iff {request : Json} {es : List (Entry (Option Bytes))}
    (h : b.toMessages history = .ok request) :
    b.read request = some es ↔ b.sent (history.flatMap sentEntries) = .ok es := by
  have hread := read_toMessages b history
  rw [h] at hread
  cases hs : b.sent (history.flatMap sentEntries) with
  | error e => simp [hs, Except.map] at hread
  | ok es' =>
    rw [hs] at hread
    rw [show b.read request = some es' from Except.ok.inj hread]
    simp

theorem sent_eq_ok {es : List (Entry Tag)} {l : List (Entry (Option Bytes))}
    (h : b.sent es = .ok l) :
    ∃ content, es.mapM b.encode = .ok content ∧ l = content.map (Entry.mapRef b.ref) := by
  unfold Backend.sent at h
  cases hs : es.mapM b.encode with
  | error e =>
    rw [hs] at h
    cases h
  | ok content =>
    rw [hs] at h
    exact ⟨content, rfl, (Except.ok.inj h).symm⟩

theorem Preserves.kept (h : Preserves b history) : Kept b history := by
  obtain ⟨request, es, content, hreq, hes, hcontent, hpair⟩ := h
  obtain ⟨sent, hsent, rfl⟩ := sent_eq_ok ((read_request_iff hreq).mp hes)
  have hlen := congrArg List.length hpair
  simp only [length_pair, List.length_map, length_mapM hsent, length_mapM hcontent] at hlen
  have hall := flatMap_sentEntries hlen
  have heq : history.flatMap sentEntries = history.flatMap entries := List.flatMap_congr hall
  rw [heq, hcontent] at hsent
  obtain rfl := Except.ok.inj hsent
  obtain ⟨hargs, hresults⟩ := encodes_iff.mp ⟨content, hcontent⟩
  exact ⟨fun msg hm => sentEntries_eq_iff.mp (hall msg hm), hargs, hresults,
    (ordered_encode hcontent).mp ((pair_eq_iff [] content).mp hpair)⟩

theorem Kept.preserves (h : Kept b history) : Preserves b history := by
  have heq : history.flatMap sentEntries = history.flatMap entries :=
    List.flatMap_congr fun msg hm => sentEntries_eq_iff.mpr (h.texts msg hm)
  obtain ⟨content, hcontent⟩ := encodes_iff.mpr ⟨h.args, h.results⟩
  have hsent : b.sent (history.flatMap sentEntries) = .ok (content.map (Entry.mapRef b.ref)) := by
    rw [heq, Backend.sent, hcontent]
    rfl
  have hread := read_toMessages b history
  rw [hsent] at hread
  cases hreq : b.toMessages history with
  | error e => simp [hreq, Except.map] at hread
  | ok request =>
    exact ⟨request, _, content, hreq, (read_request_iff hreq).mpr hsent, hcontent,
      (pair_eq_iff [] content).mpr ((ordered_encode hcontent).mpr h.order)⟩

/-- The request of a history keeps its content exactly if no text comes with tool calls, the
dumped values are well-formed and the references tell the calls as the ids do. -/
theorem preserves_iff (b : Backend) (history : List LlmMessage) :
    Preserves b history ↔ Kept b history := ⟨Preserves.kept, Kept.preserves⟩

end Preservation

namespace Counterexample

/-- The model comments on the call it makes. -/
def comment : LlmMessage where
  role := .assistant
  text := bytes "Let me look."
  toolCalls := [⟨bytes "c1", bytes "get_battery_info", .obj []⟩]

def history : List LlmMessage :=
  [{ role := .user, text := bytes "How full is the battery?" }, comment,
    { role := .tool, toolName := bytes "get_battery_info", toolCallId := bytes "c1"
      toolResult := .obj [(bytes "level", .int 80)] }]

theorem comment_dropped :
    HistorySanitizer.sanitizeHistory history = history ∧ ∀ b, ¬ Preserves b history := by
  refine ⟨by decide, fun b h => ?_⟩
  have ht := h.kept.texts comment (by simp [history]) rfl (by decide)
  exact absurd ht (by decide)

end Counterexample

end MessageConversion
