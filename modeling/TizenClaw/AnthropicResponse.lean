import TizenClaw.JsonParseUtf8
import TizenClaw.StreamDecoders

/-! The two decoders of an Anthropic reply: the parser of a whole message, and the callback fed
with the events of the same content blocks. -/
namespace AnthropicResponse

open ByteString JsonValue JsonParse JsonParseUtf8 LineBuffer LlmTypes StreamDecoders TryBlock

section Parser

variable (readFloat : Bytes → Option NumberText) (truncate : NumberText → ℤ)

abbrev ResponseAction := Action JsonException LlmResponse

def refuse (message : Bytes) : ResponseAction Unit :=
  modify fun r => { r with success := false, errorMessage := message }

/-- A newline comes between a text and the next one. -/
def separate (text : Bytes) : Bytes := if text = [] then [] else text ++ [newline]

def parseBlock (block : Json) : ResponseAction Unit := do
  let type ← block.valueString (bytes "type") []
  if type = bytes "text" then do
    modify fun r => { r with text := separate r.text }
    let text ← block.field (bytes "text")
    let text ← text.getString
    modify fun r => { r with text := r.text ++ text }
  else if type = bytes "tool_use" then do
    let id ← block.valueString (bytes "id") []
    let name ← block.field (bytes "name")
    let name ← name.getString
    let input ← block.field (bytes "input")
    modify fun r => { r with toolCalls := r.toolCalls ++ [⟨id, name, input⟩] }
  else pure ()

def parseUsage (usage : Json) : ResponseAction Unit := do
  let prompt ← usage.value (PipelineExecutor.getInt truncate) (bytes "input_tokens") 0
  modify fun r => { r with promptTokens := prompt }
  let completion ← usage.value (PipelineExecutor.getInt truncate) (bytes "output_tokens") 0
  modify fun r => { r with completionTokens := completion, totalTokens := prompt + completion }

def parseMessage (j : Json) : ResponseAction Unit :=
  match j.member? (bytes "error"), j.member? (bytes "content") with
  | some error, _ => do
    modify fun r => { r with success := false }
    let message ← error.valueString (bytes "message") (bytes "Unknown error")
    refuse message
  | none, none => refuse (bytes "Empty content")
  | none, some content => if content.empty then refuse (bytes "Empty content") else do
    modify fun r => { r with success := true }
    content.elements.forM parseBlock
    match j.member? (bytes "usage") with
    | some usage => parseUsage truncate usage
    | none => pure ()

/-- What was read before an exception stays in the response, but the response is a failure. -/
def parseAnthropicResponse (what : JsonException → Bytes) (body : Bytes) : LlmResponse :=
  match parse readFloat body with
  | .error e => { errorMessage := bytes "Parse error: " ++ what e }
  | .ok j => match (parseMessage truncate j).run ({} : LlmResponse) with
    | (.ok _, r) => r
    | (.error e, r) => { r with success := false, errorMessage := bytes "Parse error: " ++ what e }

end Parser

section Blocks

variable (readFloat : Bytes → Option NumberText)

/-- A content block, with the pieces it is streamed in. -/
inductive Block where
  | text (deltas : List Bytes)
  | toolUse (id name : Bytes) (input : List (Bytes × Json)) (fragments : List Bytes)

/-- The block in the content of a message. -/
def Shows : Block → Json → Prop
  | .text deltas, j => j.member? (bytes "type") = some (.str (bytes "text")) ∧
      j.member? (bytes "text") = some (.str deltas.flatten)
  | .toolUse id name input _, j => j.member? (bytes "type") = some (.str (bytes "tool_use")) ∧
      j.member? (bytes "id") = some (.str id) ∧ j.member? (bytes "name") = some (.str name) ∧
      j.member? (bytes "input") = some (.obj input)

/-- A body with these blocks as its content. -/
def Message (blocks : List Block) (body : Bytes) : Prop :=
  ∃ j content, parse readFloat body = .ok j ∧ j.member? (bytes "error") = none ∧
    j.member? (bytes "content") = some (.arr content) ∧ List.Forall₂ Shows blocks content

structure SseEvent where
  name : Bytes
  data : Bytes

/-- The start of a block; the fragments of an empty input may be empty. -/
def Starts : Block → Json → Prop
  | .text _, j => ∃ block, j.member? (bytes "content_block") = some block ∧
      block.member? (bytes "type") = some (.str (bytes "text"))
  | .toolUse id name input fragments, j =>
    (∃ block, j.member? (bytes "content_block") = some block ∧
      block.member? (bytes "type") = some (.str (bytes "tool_use")) ∧
      block.member? (bytes "id") = some (.str id) ∧
      block.member? (bytes "name") = some (.str name)) ∧
      (parse readFloat fragments.flatten = .ok (.obj input) ∨ fragments.flatten = [] ∧ input = [])

def Carries (type field piece : Bytes) (j : Json) : Prop :=
  ∃ delta, j.member? (bytes "delta") = some delta ∧
    delta.member? (bytes "type") = some (.str type) ∧ delta.member? field = some (.str piece)

def CarriesPiece : Block → Bytes → Json → Prop
  | .text _ => Carries (bytes "text_delta") (bytes "text")
  | .toolUse _ _ _ _ => Carries (bytes "input_json_delta") (bytes "partial_json")

def Block.pieces : Block → List Bytes
  | .text deltas => deltas
  | .toolUse _ _ _ fragments => fragments

/-- The data of an event is one line of JSON. -/
def Event (name : Bytes) (holds : Json → Prop) (e : SseEvent) : Prop :=
  e.name = name ∧ newline ∉ e.data ∧ 0x0D ∉ e.data ∧ ∃ j, parse readFloat e.data = .ok j ∧ holds j

def blockStop : Bytes := bytes "content_block_stop"

def Emits (block : Block) (events : List SseEvent) : Prop :=
  ∃ first deltas last, events = first :: deltas ++ [last] ∧
    Event readFloat blockStart (Starts readFloat block) first ∧
    List.Forall₂ (fun piece => Event readFloat blockDelta (CarriesPiece block piece))
      block.pieces deltas ∧
    Event readFloat blockStop (fun _ => True) last

def render (eol : Bytes) (e : SseEvent) : Bytes :=
  eventPrefix ++ e.name ++ eol ++ (dataPrefix ++ e.data ++ eol) ++ eol

/-- The stream of the blocks, with either kind of line end and with or without the last ones. -/
def Streamed (blocks : List Block) (stream : Bytes) : Prop :=
  ∃ cr events dropped, (cr = [] ∨ cr = [0x0D]) ∧ List.Forall₂ (Emits readFloat) blocks events ∧
    stream ++ dropped = events.flatten.flatMap (render (cr ++ [newline])) ∧
    dropped <:+ (cr ++ [newline]) ++ (cr ++ [newline])

end Blocks

end AnthropicResponse
