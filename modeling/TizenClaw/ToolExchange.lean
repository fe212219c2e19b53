import TizenClaw.JsonParseUtf8
import TizenClaw.SessionMarkdown
import TizenClaw.ToolDispatch

/-! The end of a round of tool calls: results are collected in the order of the calls, wrapped,
shown to the display, stored in the session and compared with the rounds before. -/
namespace ToolExchange

open ByteString JsonValue JsonDump JsonParse LlmTypes ToolPolicy ToolDispatch SessionMarkdown

/-- The display server and, in a session that asks for it, the model that turns results into
user interface descriptions. What the model says was a string of its JSON answer. -/
structure Canvas where
  running : Bool
  describe : Option (Bytes → { text : Bytes // Utf8.valid text = true })

section Collect

variable (readFloat : Bytes → Option NumberText)

/-- The stored result: the output as JSON, or wrapped when it is not JSON. -/
def wrapResult (output : Bytes) : Json :=
  match parse readFloat output with
  | .ok j => j
  | .error _ => .object [(bytes "output", .str output)]

def toolMessage (r : ToolExecResult) : LlmMessage :=
  { role := .tool, toolName := r.name, toolCallId := r.id,
    toolResult := wrapResult readFloat r.output }

/-- `BroadcastToolResult` and `BroadcastA2UIResult`, which differ in two keys. -/
def broadcast (running : Bool) (type key name session : Bytes) (value : Json) :
    Except JsonException Unit :=
  if running then
    (dump (.object [(bytes "type", .str type), (bytes "tool_name", .str name),
      (bytes "session_id", .str session), (key, value)])).map fun _ => ()
  else .ok ()

def broadcastToolResult (running : Bool) : Bytes → Bytes → Json → Except JsonException Unit :=
  broadcast running (bytes "tool_result") (bytes "result")

def broadcastA2UIResult (running : Bool) : Bytes → Bytes → Json → Except JsonException Unit :=
  broadcast running (bytes "a2ui_result") (bytes "a2ui")

def fence : Bytes := bytes "```"

/-- The text without the code fence a model may put around it. -/
def stripFences (s : Bytes) : Bytes :=
  let s := match find fence s with
    | none => s
    | some i => match find [newline] (s.drop i) with
      | none => s
      | some k => s.drop (i + k + 1)
  let s := match find fence s.reverse with
    | none => s
    | some i => s.take (s.length - i - 3)
  trimRight (bytes " \t\r\n") (trimLeft (bytes " \t\r\n") s)

/-- `A2UIAgent::Process` -/
def a2uiProcess (chat : Bytes → { text : Bytes // Utf8.valid text = true })
    (name session : Bytes) (result : Json) : Except JsonException Json :=
  (dump (.object [(bytes "tool_name", .str name), (bytes "session_id", .str session),
    (bytes "tool_result", result)])).map fun userMessage =>
      let text := (chat userMessage).1
      if text = [] then
        .object [(bytes "error", .str (bytes "empty LLM response")), (bytes "raw", result)]
      else
        let asText := .object [(bytes "type", .str (bytes "text")), (bytes "title", .str name),
          (bytes "data", .object [(bytes "text", .str text)]), (bytes "raw", result)]
        match parse readFloat (stripFences text) with
        | .error _ => asText
        | .ok j => match j.valueString (bytes "type") (bytes "<unknown>") with
          | .error _ => asText
          | .ok _ => j

/-- What a result goes through before it is kept. -/
def present (canvas : Option Canvas) (session : Bytes) (msg : LlmMessage) :
    Except JsonException Unit :=
  match canvas with
  | none => .ok ()
  | some c =>
    (broadcastToolResult c.running msg.toolName session msg.toolResult).bind fun _ =>
      match c.describe with
      | none => .ok ()
      | some chat => (a2uiProcess readFloat chat msg.toolName session msg.toolResult).bind
          (broadcastA2UIResult c.running msg.toolName session)

/-- `get` on the futures, in order. The first exception ends the round. -/
def collect (canvas : Option Canvas) (session : Bytes) :
    List (Except ToolException ToolExecResult) → Except ToolException (List LlmMessage)
  | [] => .ok []
  | .error e :: _ => .error e
  | .ok r :: rs =>
    match present readFloat canvas session (toolMessage readFloat r) with
    | .error e => .error (.json e)
    | .ok _ => (collect canvas session rs).map fun msgs => toolMessage readFloat r :: msgs

end Collect

/-- The signature of a round: names and results. -/
def signature : List LlmMessage → Except JsonException Bytes
  | [] => .ok []
  | msg :: msgs =>
    (if msg.toolResult.isNull then .ok [] else dump msg.toolResult).bind fun result =>
      (signature msgs).map fun rest => msg.toolName ++ bytes ":" ++ result ++ bytes ";" ++ rest

inductive RoundEnd where
  | again
  | idle
  | threw (e : ToolException)
  deriving DecidableEq, Repr

structure Round where
  appended : List LlmMessage
  ending : RoundEnd
  idleHistory : List Bytes

/-- The round after the tools have run. `saved` is what the session holds when an idle round
saves it: other calls may have changed it meanwhile. -/
def toolRound (readFloat : Bytes → Option NumberText) (canvas : Option Canvas) (stamp : Timestamp)
    (session : Bytes) (idle : List Bytes) (saved : List LlmMessage)
    (results : List (Except ToolException ToolExecResult)) : Round :=
  match collect readFloat canvas session results with
  | .error e => ⟨[], .threw e, idle⟩
  | .ok msgs =>
    match signature msgs with
    | .error e => ⟨msgs, .threw (.json e), idle⟩
    | .ok sig =>
      let check := checkIdleProgress idle sig
      if check.1 then
        match saveSession stamp saved with
        | .error e => ⟨msgs, .threw (.json e), check.2⟩
        | .ok _ => ⟨msgs, .idle, check.2⟩
      else ⟨msgs, .again, check.2⟩

end ToolExchange
