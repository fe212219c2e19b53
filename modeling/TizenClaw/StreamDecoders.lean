import TizenClaw.JsonParse
import TizenClaw.LineBuffer
import TizenClaw.LlmTypes
import TizenClaw.OrderedMap
import TizenClaw.PipelineExecutor
import TizenClaw.ToolPolicy
import TizenClaw.TryBlock

/-! The callbacks that decode a streamed reply: lines of server-sent events, or of JSON. -/
namespace StreamDecoders

open ByteString JsonValue JsonParse LineBuffer LlmTypes OrderedMap PipelineExecutor ToolPolicy
  TryBlock

/-- `streamed` is what `on_chunk` was given, put together. -/
structure Stream (τ : Type) where
  text : Bytes := []
  streamed : Bytes := []
  tools : τ

abbrev StreamAction (τ : Type) := Action JsonException (Stream τ)

/-- What is left of a chunk that is passed on as a C string. -/
def cString (chunk : Bytes) : Bytes := chunk.takeWhile (· ≠ 0)

structure Decoder (τ : Type) where
  init : τ
  line : Stream τ → Bytes → Stream τ
  toolCalls : τ → List LlmToolCall

structure Decoded where
  text : Bytes
  toolCalls : List LlmToolCall
  streamed : Bytes
  deriving DecidableEq, Repr

section Decode

variable {τ : Type} (d : Decoder τ)

def start : Buffered UInt8 (Stream τ) := { state := { tools := d.init } }

/-- The chunk callback. -/
def streamCb (s : Buffered UInt8 (Stream τ)) (chunk : Bytes) : Buffered UInt8 (Stream τ) :=
  feed newline d.line s (cString chunk)

def result (s : Buffered UInt8 (Stream τ)) : Decoded :=
  ⟨s.state.text, d.toolCalls s.state.tools, s.state.streamed⟩

def decode (chunks : List Bytes) : Decoded := result d (chunks.foldl (streamCb d) (start d))

end Decode

section Common

variable {τ : Type}

def emit (text : Bytes) : StreamAction τ Unit :=
  modify fun s => { s with text := s.text ++ text, streamed := s.streamed ++ text }

/-- What is done with a member, if there is one: it has to be a string. -/
def onString (key : Bytes) (j : Json) (f : Bytes → StreamAction τ Unit) : StreamAction τ Unit :=
  match j.member? key with
  | some v => do
    let s ← v.getString
    f s
  | none => pure ()

def stripCr (line : Bytes) : Bytes := if line.getLast? = some 0x0D then line.dropLast else line

def eventPrefix : Bytes := bytes "event: "
def dataPrefix : Bytes := bytes "data: "

/-- A string of arguments that does not parse is kept as it is. -/
def parseArgs (readFloat : Bytes → Option NumberText) (args : Bytes) : Json :=
  match parse readFloat args with
  | .ok j => j
  | .error _ => .str args

end Common

section OpenAi

variable (readFloat : Bytes → Option NumberText) (truncate : NumberText → ℤ)

structure ToolCallAccum where
  id : Bytes := []
  name : Bytes := []
  arguments : Bytes := []
  deriving DecidableEq, Repr

abbrev Accums := Map ℤ ToolCallAccum

def updateAccum (idx : ℤ) (f : ToolCallAccum → ToolCallAccum) : StreamAction Accums Unit :=
  modify fun s => { s with tools := s.tools.insert idx (f ((s.tools.get idx).getD {})) }

/-- One element of `tool_calls`: its parts come in any order and over several events. -/
def openAiTool (tc : Json) : StreamAction Accums Unit := do
  let idx ← tc.value (getInt truncate) (bytes "index") 0
  onString (bytes "id") tc fun id => updateAccum idx fun t => { t with id := id }
  match tc.member? (bytes "function") with
  | some fn => do
    onString (bytes "name") fn fun name => updateAccum idx fun t => { t with name := name }
    onString (bytes "arguments") fn fun fragment =>
      updateAccum idx fun t => { t with arguments := t.arguments ++ fragment }
  | none => pure ()

def openAiContent (delta : Json) : StreamAction Accums Unit :=
  match delta.member? (bytes "content") with
  | some content => if content.isNull then pure () else do
    let text ← content.getString
    emit text
  | none => pure ()

def openAiEvent (j : Json) : StreamAction Accums Unit :=
  match j.member? (bytes "choices") with
  | some choices => if choices.empty then pure () else do
    let choice ← choices.item 0
    let delta ← choice.field (bytes "delta")
    openAiContent delta
    match delta.member? (bytes "tool_calls") with
    | some calls => calls.elements.forM (openAiTool truncate)
    | none => pure ()
  | none => pure ()

def openAiLine (s : Stream Accums) (line : Bytes) : Stream Accums :=
  let line := stripCr line
  if dataPrefix.isPrefixOf line then
    if line.drop 6 = bytes "[DONE]" then s
    else match parse readFloat (line.drop 6) with
      | .ok j => attempt (openAiEvent truncate j) s
      | .error _ => s
  else s

def openAi : Decoder Accums where
  init := .empty
  line := openAiLine readFloat truncate
  toolCalls accums := accums.entries.map fun e =>
    ⟨e.2.id, e.2.name, parseArgs readFloat e.2.arguments⟩

end OpenAi

section Anthropic

variable (readFloat : Bytes → Option NumberText)

structure ToolAccum where
  id : Bytes
  name : Bytes
  inputJson : Bytes := []
  deriving DecidableEq, Repr

/-- `current` is the tool that fragments of arguments belong to. -/
structure Blocks where
  event : Bytes := []
  accums : List ToolAccum := []
  current : Option ℕ := none
  deriving DecidableEq, Repr

def blockStart : Bytes := bytes "content_block_start"
def blockDelta : Bytes := bytes "content_block_delta"

def setBlocks (f : Blocks → Blocks) : StreamAction Blocks Unit :=
  modify fun s => { s with tools := f s.tools }

def anthropicStart (j : Json) : StreamAction Blocks Unit := do
  let block ← j.field (bytes "content_block")
  let type ← block.valueString (bytes "type") []
  if type = bytes "tool_use" then do
    let id ← block.valueString (bytes "id") []
    let name ← block.valueString (bytes "name") []
    setBlocks fun b =>
      { b with accums := b.accums ++ [{ id := id, name := name }], current := some b.accums.length }
  else setBlocks fun b => { b with current := none }

def anthropicDelta (j : Json) : StreamAction Blocks Unit := do
  let delta ← j.field (bytes "delta")
  let type ← delta.valueString (bytes "type") []
  if type = bytes "text_delta" then do
    let text ← delta.field (bytes "text")
    let text ← text.getString
    emit text
  else if type = bytes "input_json_delta" then do
    let s ← get
    match s.tools.current with
    | some i => do
      let fragment ← delta.field (bytes "partial_json")
      let fragment ← fragment.getString
      setBlocks fun b =>
        { b with accums := b.accums.modify i fun t =>
          { t with inputJson := t.inputJson ++ fragment } }
    | none => pure ()
  else pure ()

def anthropicEvent (event : Bytes) (j : Json) : StreamAction Blocks Unit :=
  if event = blockStart then anthropicStart j
  else if event = blockDelta then anthropicDelta j
  else pure ()

def anthropicLine (s : Stream Blocks) (line : Bytes) : Stream Blocks :=
  let line := stripCr line
  if eventPrefix.isPrefixOf line then { s with tools := { s.tools with event := line.drop 7 } }
  else if dataPrefix.isPrefixOf line then
    match parse readFloat (line.drop 6) with
    | .ok j => attempt (anthropicEvent s.tools.event j) s
    | .error _ => s
  else if line = [] then { s with tools := { s.tools with event := [] } }
  else s

def anthropic : Decoder Blocks where
  init := {}
  line := anthropicLine readFloat
  toolCalls b := b.accums.map fun t => ⟨t.id, t.name, parseArgs readFloat t.inputJson⟩

end Anthropic

section Gemini

variable (readFloat : Bytes → Option NumberText) (clock : ℕ → ℕ)

structure Calls where
  calls : List LlmToolCall := []
  toolIdx : ℕ := 0
  deriving DecidableEq, Repr

def setCalls (f : Calls → Calls) : StreamAction Calls Unit :=
  modify fun s => { s with tools := f s.tools }

/-- The clock is read once for each id. -/
def geminiId (idx : ℕ) : Bytes :=
  bytes "gemini_" ++ hexText (clock idx) ++ bytes "_" ++ hexText idx

def geminiPart (part : Json) : StreamAction Calls Unit :=
  match part.member? (bytes "text"), part.member? (bytes "functionCall") with
  | some v, _ => do
    let text ← v.getString
    emit text
  | none, some call => do
    let s ← get
    setCalls fun c => { c with toolIdx := c.toolIdx + 1 }
    let name ← call.field (bytes "name")
    let name ← name.getString
    let args ← call.field (bytes "args")
    setCalls fun c => { c with calls := c.calls ++ [⟨geminiId clock s.tools.toolIdx, name, args⟩] }
  | none, none => pure ()

def geminiEvent (j : Json) : StreamAction Calls Unit :=
  match j.member? (bytes "candidates") with
  | some candidates => if candidates.empty then pure () else do
    let candidate ← candidates.item 0
    let content ← candidate.field (bytes "content")
    let parts ← content.field (bytes "parts")
    (List.range parts.size).forM fun i => do
      let part ← parts.item i
      geminiPart clock part
  | none => pure ()

def geminiLine (s : Stream Calls) (line : Bytes) : Stream Calls :=
  let line := stripCr line
  if dataPrefix.isPrefixOf line then
    match parse readFloat (line.drop 6) with
    | .ok j => attempt (geminiEvent clock j) s
    | .error _ => s
  else s

def gemini : Decoder Calls where
  init := {}
  line := geminiLine readFloat clock
  toolCalls c := c.calls

end Gemini

section Ollama

variable (readFloat : Bytes → Option NumberText)

def ollamaEvent (j : Json) : StreamAction Unit Unit :=
  match (j.member? (bytes "message")).bind (Json.member? (bytes "content")) with
  | some content => do
    let text ← content.getString
    if text = [] then pure () else emit text
  | none => pure ()

/-- A stream with tools is not asked for. -/
def ollamaLine (s : Stream Unit) (line : Bytes) : Stream Unit :=
  if line = [] then s
  else match parse readFloat line with
    | .ok j => attempt (ollamaEvent j) s
    | .error _ => s

def ollama : Decoder Unit where
  init := ()
  line := ollamaLine readFloat
  toolCalls _ := []

end Ollama

section Chunks

variable {τ : Type} {d : Decoder τ}

theorem cString_of_nul_free {chunk : Bytes} (h : 0 ∉ chunk) : cString chunk = chunk := by
  apply List.takeWhile_eq_self_iff.mpr
  intro b hb
  have hne : b ≠ 0 := fun h0 => h (h0 ▸ hb)
  simpa using hne

/-- The callback takes a stream in as if byte by byte. -/
theorem foldl_streamCb_push (chunks : List Bytes) {s : Buffered UInt8 (Stream τ)}
    (hs : newline ∉ s.buffer) :
    chunks.foldl (streamCb d) s = (chunks.map cString).flatten.foldl (push newline d.line) s := by
  rw [← foldl_feed (chunks.map cString) hs, List.foldl_map]
  rfl

theorem foldl_streamCb {chunks : List Bytes} (h : 0 ∉ chunks.flatten)
    {s : Buffered UInt8 (Stream τ)} (hs : newline ∉ s.buffer) :
    chunks.foldl (streamCb d) s = chunks.flatten.foldl (push newline d.line) s := by
  have hall : ∀ chunk ∈ chunks, cString chunk = chunk := fun chunk hc =>
    cString_of_nul_free fun h0 => h (List.mem_flatten_of_mem hc h0)
  rw [foldl_streamCb_push chunks hs, List.map_congr_left hall, List.map_id']

theorem decode_flatten {chunks : List Bytes} (h : 0 ∉ chunks.flatten) :
    decode d chunks = decode d [chunks.flatten] := by
  unfold decode
  rw [foldl_streamCb h List.not_mem_nil, foldl_streamCb (by simpa using h) List.not_mem_nil]
  simp

/-- Every decoder makes the same of a stream, however it is cut into chunks. -/
theorem chunking_invariant (readFloat : Bytes → Option NumberText) (truncate : NumberText → ℤ)
    (clock : ℕ → ℕ) (chunks : List Bytes) (h : 0 ∉ chunks.flatten) :
    decode (openAi readFloat truncate) chunks =
      decode (openAi readFloat truncate) [chunks.flatten] ∧
    decode (anthropic readFloat) chunks = decode (anthropic readFloat) [chunks.flatten] ∧
    decode (gemini readFloat clock) chunks = decode (gemini readFloat clock) [chunks.flatten] ∧
    decode (ollama readFloat) chunks = decode (ollama readFloat) [chunks.flatten] :=
  ⟨decode_flatten h, decode_flatten h, decode_flatten h, decode_flatten h⟩

/-- A stream that is cut in its first prefix and in a character. -/
theorem cut_stream : decode (openAi (fun _ => none) fun _ => 0)
    [bytes "dat", bytes "a: \x7b\"choices\":[\x7b\"delta\":\x7b\"content\":\"" ++ [0xC3],
      0xA9 :: bytes "\"\x7d\x7d]\x7d\n"] = ⟨bytes "é", [], bytes "é"⟩ :=
  (chunking_invariant (fun _ => none) (fun _ => 0) id _ (by decide +kernel)).1.trans
    (by decide +kernel)

end Chunks

end StreamDecoders
