import TizenClaw.ExchangeCompleteness

/-! The steps that serialize a stored tool message later on: the signature of its round, the
requests to the models and the session file. -/
namespace StoredResults

open ByteString JsonValue JsonDump JsonParse LlmTypes ToolDispatch SessionMarkdown ToolExchange
  ExchangeCompleteness

def text (s : String) : Json := .str (bytes s)

/-- A message of a request; only the key of the content differs between the services. -/
def entryWith (key role : String) (content : Json) : Json :=
  .object [(bytes "role", text role), (bytes key, content)]

def entry (role : String) (content : Json) : Json := entryWith "content" role content

section Backends

/-- A tool call whose arguments are sent as a string. -/
def openAiCall (tc : LlmToolCall) : Except JsonException Json :=
  (dump tc.args).map fun arguments =>
    .object [(bytes "id", .str tc.id), (bytes "type", text "function"),
      (bytes "function", .object [(bytes "name", .str tc.name),
        (bytes "arguments", .str arguments)])]

def convertAll {α β : Type} (f : α → Except JsonException β) :
    List α → Except JsonException (List β)
  | [] => .ok []
  | x :: xs => (f x).bind fun y => (convertAll f xs).map fun ys => y :: ys

/-- `ToOpenAiMessages` on one message. -/
def toOpenAiMessage (msg : LlmMessage) : Except JsonException (Option Json) :=
  match msg.role with
  | .user => .ok (some (entry "user" (.str msg.text)))
  | .assistant =>
    if msg.toolCalls ≠ [] then
      (convertAll openAiCall msg.toolCalls).map fun tcs =>
        some (.object [(bytes "role", text "assistant"), (bytes "tool_calls", .arr tcs),
          (bytes "content", .null)])
    else .ok (some (entry "assistant" (.str msg.text)))
  | .tool => (dump msg.toolResult).map fun content =>
      some (.object [(bytes "role", text "tool"), (bytes "tool_call_id", .str msg.toolCallId),
        (bytes "content", .str content)])
  | .other _ => .ok none

/-- `ToAnthropicMessages` on one message. -/
def toAnthropicMessage (msg : LlmMessage) : Except JsonException (Option Json) :=
  match msg.role with
  | .user => .ok (some (entry "user" (.str msg.text)))
  | .assistant =>
    if msg.toolCalls ≠ [] then
      .ok (some (entry "assistant" (.arr (msg.toolCalls.map fun tc =>
        .object [(bytes "type", text "tool_use"), (bytes "id", .str tc.id),
          (bytes "name", .str tc.name), (bytes "input", tc.args)]))))
    else .ok (some (entry "assistant" (.str msg.text)))
  | .tool => (dump msg.toolResult).map fun content =>
      some (entry "user" (.arr [.object [(bytes "type", text "tool_result"),
        (bytes "tool_use_id", .str msg.toolCallId), (bytes "content", .str content)]]))
  | .other _ => .ok none

/-- `ToGeminiContents` on one message; here the result is sent as it is. -/
def toGeminiContent (msg : LlmMessage) : Except JsonException (Option Json) :=
  let parts (role : String) (l : List Json) : Except JsonException (Option Json) :=
    .ok (some (entryWith "parts" role (.arr l)))
  match msg.role with
  | .user => parts "user" [.object [(bytes "text", .str msg.text)]]
  | .assistant =>
    if msg.toolCalls ≠ [] then
      parts "model" (msg.toolCalls.map fun tc => .object [(bytes "functionCall",
        .object [(bytes "name", .str tc.name), (bytes "args", tc.args)])])
    else parts "model" [.object [(bytes "text", .str msg.text)]]
  | .tool => parts "function" [.object [(bytes "functionResponse",
      .object [(bytes "name", .str msg.toolName), (bytes "response", msg.toolResult)])]]
  | .other _ => .ok none

/-- `ToOllamaMessages` on one message. -/
def toOllamaMessage (msg : LlmMessage) : Except JsonException (Option Json) :=
  match msg.role with
  | .user => .ok (some (entry "user" (.str msg.text)))
  | .assistant =>
    if msg.toolCalls ≠ [] then
      .ok (some (.object [(bytes "role", text "assistant"),
        (bytes "tool_calls", .arr (msg.toolCalls.map fun tc => .object [(bytes "function",
          .object [(bytes "name", .str tc.name), (bytes "arguments", tc.args)])])),
        (bytes "content", text "")]))
    else .ok (some (entry "assistant" (.str msg.text)))
  | .tool => (dump msg.toolResult).map fun content =>
      some (entry "tool" (.str content))
  | .other _ => .ok none

/-- A plugin gets arguments and results as JSON texts and no other JSON. -/
def toPluginMessage (msg : LlmMessage) : Except JsonException Unit :=
  (convertAll (fun tc : LlmToolCall => dump tc.args) msg.toolCalls).bind fun _ =>
    if msg.toolName ≠ [] then (dump msg.toolResult).map fun _ => () else .ok ()

inductive Backend where
  | openai
  | anthropic
  | gemini
  | ollama
  | plugin
  deriving DecidableEq, Repr

/-- The messages of a request: converted one by one, then written with the payload. -/
def jsonRequest (f : LlmMessage → Except JsonException (Option Json)) (history : List LlmMessage) :
    Except JsonException Bytes :=
  (convertAll f history).bind fun l => dump (.arr (l.filterMap id))

def request (history : List LlmMessage) : Backend → Except JsonException Bytes
  | .openai => jsonRequest toOpenAiMessage history
  | .anthropic => jsonRequest toAnthropicMessage history
  | .gemini => jsonRequest toGeminiContent history
  | .ollama => jsonRequest toOllamaMessage history
  | .plugin => (convertAll toPluginMessage history).map fun _ => []

end Backends

/-- Everything the serializers read of a message is well-formed. -/
structure WellFormed (msg : LlmMessage) : Prop where
  text : Utf8.valid msg.text = true
  callId : Utf8.valid msg.toolCallId = true
  toolName : Utf8.valid msg.toolName = true
  result : msg.toolResult.utf8 = true
  calls : ∀ tc ∈ msg.toolCalls, Utf8.valid tc.id = true ∧ Utf8.valid tc.name = true ∧
    tc.args.utf8 = true

theorem convertAll_ok {α β : Type} {f : α → Except JsonException β} {P : β → Prop} {l : List α}
    (h : ∀ x ∈ l, ∃ y, f x = .ok y ∧ P y) : ∃ ys, convertAll f l = .ok ys ∧ ∀ y ∈ ys, P y := by
  induction l with
  | nil => exact ⟨[], rfl, by simp⟩
  | cons x l ih =>
    obtain ⟨y, hy, hP⟩ := h x (by simp)
    obtain ⟨ys, hys, hall⟩ := ih fun z hz => h z (by simp [hz])
    refine ⟨y :: ys, ?_, ?_⟩
    · rw [convertAll, hy]
      simp only [Except.bind, hys]
      rfl
    · intro z hz
      rcases List.mem_cons.mp hz with rfl | hz
      · exact hP
      · exact hall z hz

theorem entryWith_utf8 {key role : String} {content : Json} (hk : Utf8.valid (bytes key) = true)
    (hr : Utf8.valid (bytes role) = true) (hc : content.utf8 = true) :
    (entryWith key role content).utf8 = true := by
  refine utf8Members_of ?_
  simp only [utf8Members, text, Json.utf8, hk, hr, hc]
  decide

variable {msg : LlmMessage}

theorem openAiCall_ok {tc : LlmToolCall} (hid : Utf8.valid tc.id = true)
    (hname : Utf8.valid tc.name = true) (hargs : tc.args.utf8 = true) :
    ∃ j, openAiCall tc = .ok j ∧ j.utf8 = true := by
  obtain ⟨arguments, ha⟩ := (succeeds_dump tc.args).mpr hargs
  have hcall : (Json.object [(bytes "name", .str tc.name),
      (bytes "arguments", .str arguments)]).utf8 = true := by
    refine utf8Members_of ?_
    simp only [utf8Members, Json.utf8, hname, dump_valid ha]
    decide
  refine ⟨_, by rw [openAiCall, ha]; rfl, ?_⟩
  refine utf8Members_of ?_
  simp only [utf8Members, text, hcall]
  simp only [Json.utf8, hid]
  decide

theorem toOpenAiMessage_ok (hw : WellFormed msg) :
    ∃ o, toOpenAiMessage msg = .ok o ∧ ∀ j ∈ o, j.utf8 = true := by
  unfold toOpenAiMessage
  cases msg.role with
  | user =>
    refine ⟨_, rfl, ?_⟩
    rintro j ⟨⟩
    exact entryWith_utf8 (by decide) (by decide) hw.text
  | assistant =>
    dsimp only
    split_ifs
    · obtain ⟨tcs, htcs, hall⟩ := convertAll_ok fun tc htc =>
        openAiCall_ok (hw.calls tc htc).1 (hw.calls tc htc).2.1 (hw.calls tc htc).2.2
      refine ⟨_, by rw [htcs]; rfl, ?_⟩
      rintro j ⟨⟩
      refine utf8Members_of ?_
      simp only [utf8Members, text, Json.utf8, (utf8List_iff tcs).mpr hall]
      decide
    · refine ⟨_, rfl, ?_⟩
      rintro j ⟨⟩
      exact entryWith_utf8 (by decide) (by decide) hw.text
  | tool =>
    obtain ⟨content, hc⟩ := (succeeds_dump msg.toolResult).mpr hw.result
    refine ⟨_, by rw [hc]; rfl, ?_⟩
    rintro j ⟨⟩
    refine utf8Members_of ?_
    simp only [utf8Members, text, Json.utf8, hw.callId, dump_valid hc]
    decide
  | other role => exact ⟨none, rfl, by simp⟩

theorem toAnthropicMessage_ok (hw : WellFormed msg) :
    ∃ o, toAnthropicMessage msg = .ok o ∧ ∀ j ∈ o, j.utf8 = true := by
  unfold toAnthropicMessage
  cases msg.role with
  | user =>
    refine ⟨_, rfl, ?_⟩
    rintro j ⟨⟩
    exact entryWith_utf8 (by decide) (by decide) hw.text
  | assistant =>
    dsimp only
    split_ifs
    · refine ⟨_, rfl, ?_⟩
      rintro j ⟨⟩
      refine entryWith_utf8 (by decide) (by decide) ((utf8List_iff _).mpr ?_)
      intro j hj
      obtain ⟨tc, htc, rfl⟩ := List.mem_map.mp hj
      obtain ⟨hid, hname, hargs⟩ := hw.calls tc htc
      refine utf8Members_of ?_
      simp only [utf8Members, text, hargs]
      simp only [Json.utf8, hid, hname]
      decide
    · refine ⟨_, rfl, ?_⟩
      rintro j ⟨⟩
      exact entryWith_utf8 (by decide) (by decide) hw.text
  | tool =>
    obtain ⟨content, hc⟩ := (succeeds_dump msg.toolResult).mpr hw.result
    refine ⟨_, by rw [hc]; rfl, ?_⟩
    rintro j ⟨⟩
    refine entryWith_utf8 (by decide) (by decide) ((utf8List_iff _).mpr ?_)
    intro j hj
    obtain rfl := List.mem_singleton.mp hj
    refine utf8Members_of ?_
    simp only [utf8Members, text, Json.utf8, hw.callId, dump_valid hc]
    decide
  | other role => exact ⟨none, rfl, by simp⟩

/-- An object with one member under a fixed key. -/
theorem single_utf8 {key : String} {j : Json} (hk : Utf8.valid (bytes key) = true)
    (hj : j.utf8 = true) : (Json.object [(bytes key, j)]).utf8 = true := by
  refine utf8Members_of ?_
  simp only [utf8Members, hk, hj]
  decide

/-- An object with a name and a value under a fixed key. -/
theorem named_utf8 {key : String} {name : Bytes} {j : Json} (hk : Utf8.valid (bytes key) = true)
    (hn : Utf8.valid name = true) (hj : j.utf8 = true) :
    (Json.object [(bytes "name", .str name), (bytes key, j)]).utf8 = true := by
  refine utf8Members_of ?_
  simp only [utf8Members, hk, hj]
  simp only [Json.utf8, hn]
  decide

theorem toGeminiContent_ok (hw : WellFormed msg) :
    ∃ o, toGeminiContent msg = .ok o ∧ ∀ j ∈ o, j.utf8 = true := by
  have hparts : ∀ (role : String) (l : List Json), Utf8.valid (bytes role) = true →
      (∀ j ∈ l, j.utf8 = true) → ∃ o, (Except.ok (some (entryWith "parts" role (.arr l))) :
        Except JsonException (Option Json)) = .ok o ∧ ∀ j ∈ o, j.utf8 = true := by
    intro role l hr hl
    refine ⟨_, rfl, ?_⟩
    rintro j ⟨⟩
    exact entryWith_utf8 (by decide) hr ((utf8List_iff l).mpr hl)
  have htext : (Json.object [(bytes "text", .str msg.text)]).utf8 = true :=
    single_utf8 (by decide) hw.text
  unfold toGeminiContent
  cases msg.role with
  | user => exact hparts _ _ (by decide) (by simpa using htext)
  | assistant =>
    dsimp only
    split_ifs
    · refine hparts _ _ (by decide) ?_
      intro j hj
      obtain ⟨tc, htc, rfl⟩ := List.mem_map.mp hj
      obtain ⟨-, hname, hargs⟩ := hw.calls tc htc
      exact single_utf8 (by decide) (named_utf8 (by decide) hname hargs)
    · exact hparts _ _ (by decide) (by simpa using htext)
  | tool =>
    refine hparts _ _ (by decide) ?_
    intro j hj
    obtain rfl := List.mem_singleton.mp hj
    exact single_utf8 (by decide) (named_utf8 (by decide) hw.toolName hw.result)
  | other role => exact ⟨none, rfl, by simp⟩

theorem toOllamaMessage_ok (hw : WellFormed msg) :
    ∃ o, toOllamaMessage msg = .ok o ∧ ∀ j ∈ o, j.utf8 = true := by
  unfold toOllamaMessage
  cases msg.role with
  | user =>
    refine ⟨_, rfl, ?_⟩
    rintro j ⟨⟩
    exact entryWith_utf8 (by decide) (by decide) hw.text
  | assistant =>
    dsimp only
    split_ifs
    · refine ⟨_, rfl, ?_⟩
      rintro j ⟨⟩
      have hcalls : utf8List (msg.toolCalls.map fun tc => Json.object [(bytes "function",
          .object [(bytes "name", .str tc.name), (bytes "arguments", tc.args)])]) = true := by
        refine (utf8List_iff _).mpr ?_
        intro j hj
        obtain ⟨tc, htc, rfl⟩ := List.mem_map.mp hj
        obtain ⟨-, hname, hargs⟩ := hw.calls tc htc
        exact single_utf8 (by decide) (named_utf8 (by decide) hname hargs)
      refine utf8Members_of ?_
      simp only [utf8Members, text, Json.utf8, hcalls]
      decide
    · refine ⟨_, rfl, ?_⟩
      rintro j ⟨⟩
      exact entryWith_utf8 (by decide) (by decide) hw.text
  | tool =>
    obtain ⟨content, hc⟩ := (succeeds_dump msg.toolResult).mpr hw.result
    refine ⟨_, by rw [hc]; rfl, ?_⟩
    rintro j ⟨⟩
    exact entryWith_utf8 (by decide) (by decide) (dump_valid hc)
  | other role => exact ⟨none, rfl, by simp⟩

theorem toPluginMessage_ok (hw : WellFormed msg) : ∃ u, toPluginMessage msg = .ok u ∧ True := by
  obtain ⟨l, hl, -⟩ := convertAll_ok (f := fun tc : LlmToolCall => dump tc.args)
    (P := fun _ => True) fun tc htc => by
      obtain ⟨t, ht⟩ := (succeeds_dump tc.args).mpr (hw.calls tc htc).2.2
      exact ⟨t, ht, trivial⟩
  obtain ⟨t, ht⟩ := (succeeds_dump msg.toolResult).mpr hw.result
  unfold toPluginMessage
  rw [hl]
  by_cases hn : msg.toolName = []
  · exact ⟨(), by simp [Except.bind, hn], trivial⟩
  · exact ⟨(), by simp [Except.bind, hn, ht, Except.map], trivial⟩

theorem succeeds_jsonRequest {f : LlmMessage → Except JsonException (Option Json)}
    {history : List LlmMessage}
    (h : ∀ m ∈ history, ∃ o, f m = .ok o ∧ ∀ j ∈ o, j.utf8 = true) :
    Succeeds (jsonRequest f history) := by
  obtain ⟨l, hl, hall⟩ := convertAll_ok h
  rw [jsonRequest, succeeds_bind]
  refine ⟨l, hl, (succeeds_dump _).mpr ((utf8List_iff _).mpr ?_)⟩
  intro j hj
  obtain ⟨o, ho, rfl⟩ := List.mem_filterMap.mp hj
  exact hall _ ho j rfl

/-- Well-formed messages can be sent to every model. -/
theorem succeeds_request {history : List LlmMessage} (h : ∀ m ∈ history, WellFormed m)
    (b : Backend) : Succeeds (request history b) := by
  cases b with
  | openai => exact succeeds_jsonRequest fun m hm => toOpenAiMessage_ok (h m hm)
  | anthropic => exact succeeds_jsonRequest fun m hm => toAnthropicMessage_ok (h m hm)
  | gemini => exact succeeds_jsonRequest fun m hm => toGeminiContent_ok (h m hm)
  | ollama => exact succeeds_jsonRequest fun m hm => toOllamaMessage_ok (h m hm)
  | plugin =>
    obtain ⟨l, hl, -⟩ := convertAll_ok fun m hm => toPluginMessage_ok (h m hm)
    rw [request, succeeds_map]
    exact ⟨l, hl⟩

/-- The note about the size starts with a newline, so it completes no cut character. -/
theorem truncateOutput_valid (output : Bytes) :
    Utf8.valid (truncateOutput output) = Utf8.valid (output.take maxToolOutputSize) := by
  unfold truncateOutput
  split_ifs with hl
  · have hnote : ∀ b ∈ bytes "\n... (truncated, " ++ decimal output.length ++
        bytes " bytes total)", b ≤ 0x7F := by
      intro b hb
      rcases List.mem_append.mp hb with hb | hb
      · rcases List.mem_append.mp hb with hb | hb
        · exact Utf8.ascii_of_all (by decide) b hb
        · exact decimal_ascii _ b hb
      · exact Utf8.ascii_of_all (by decide) b hb
    rw [List.append_assoc, List.append_assoc, ← List.append_assoc (bytes "\n... (truncated, ")]
    refine Utf8.valid_append_head _ ?_ (Utf8.valid_ascii hnote)
    exact fun b hb => hnote b (List.mem_of_mem_head? hb)
  · rw [List.take_of_length_le (Nat.le_of_not_lt hl)]

theorem routedHint_valid {name resolved : Bytes} (hn : Utf8.valid name = true)
    (hr : Utf8.valid resolved = true) : Utf8.valid (routedHint name resolved) = true := by
  unfold routedHint
  rw [List.append_assoc, List.append_assoc, List.append_assoc, Utf8.valid_append (by decide),
    Utf8.valid_append hn, Utf8.valid_append (by decide), Utf8.valid_append hr]
  decide

theorem processOutput_valid {name resolved : Bytes} (hn : Utf8.valid name = true)
    (hr : Utf8.valid resolved = true) (output : Bytes) :
    Utf8.valid (processOutput name resolved output) =
      Utf8.valid (output.take maxToolOutputSize) := by
  rw [← truncateOutput_valid]
  unfold processOutput
  dsimp only
  split_ifs
  · refine Utf8.valid_append_head _ ?_ (routedHint_valid hn hr)
    intro b hb
    obtain rfl : (32 : UInt8) = b := Option.some.inj hb
    decide
  · rfl

/-- Text that came out of parsed JSON. -/
abbrev Text := { t : Bytes // Utf8.valid t = true }

/-- What a tool returned to a call that passed the checks. -/
structure ToolReturn where
  id : Text
  name : Text
  resolved : Text
  output : Bytes

/-- A message of the session, or a tool's output on its way there. -/
inductive Entry where
  | said (msg : { msg : LlmMessage // WellFormed msg })
  | returned (r : ToolReturn)

section Main

variable (readFloat : Bytes → Option NumberText)

def stored : Entry → LlmMessage
  | .said msg => msg.1
  | .returned r => toolMessage readFloat
      ⟨r.id.1, r.resolved.1, processOutput r.name.1 r.resolved.1 r.output⟩

def store (entries : List Entry) : List LlmMessage := entries.map (stored readFloat)

/-- Every later step with this history: a round that ends in it is shown and signed, a prompt
sends it, and it is saved. -/
structure StepsSerialize (history : List LlmMessage) : Prop where
  shown : ∀ (canvas : Option Canvas) (session : Text), ∀ msg ∈ history,
    Succeeds (present readFloat canvas session.1 msg)
  signed : ∀ round, round <:+: history → Succeeds (signature round)
  sent : ∀ b, Succeeds (request history b)
  saved : ∀ stamp, Succeeds (saveSession stamp history)

variable {readFloat}

theorem steps_serialize_of_wellFormed {history : List LlmMessage}
    (h : ∀ msg ∈ history, WellFormed msg) : StepsSerialize readFloat history where
  shown canvas session msg hm := (succeeds_present canvas session.1 msg).mpr fun _ =>
    ⟨⟨session.2, (h msg hm).toolName⟩, (h msg hm).result⟩
  signed round hr := (succeeds_signature round).mpr fun msg hm => (h msg (hr.subset hm)).result
  sent := succeeds_request h
  saved stamp := by
    rw [succeeds_saveSession]
    intro msg hm
    unfold Writable
    split_ifs
    · exact (h msg hm).result
    · exact fun tc htc => ((h msg hm).calls tc htc).2.2

theorem stored_returned_result (r : ToolReturn) :
    (stored readFloat (.returned r)).toolResult.utf8 =
      Utf8.valid (r.output.take maxToolOutputSize) := by
  rw [stored, toolMessage, wrapResult_utf8, processOutput_valid r.name.2 r.resolved.2]

theorem stored_wellFormed {e : Entry}
    (h : ∀ r, e = .returned r → Utf8.valid (r.output.take maxToolOutputSize) = true) :
    WellFormed (stored readFloat e) := by
  cases e with
  | said msg => exact msg.2
  | returned r =>
    exact {
      text := rfl
      callId := r.id.2
      toolName := r.resolved.2
      result := (stored_returned_result r).trans (h r rfl)
      calls := by simp [stored, toolMessage] }

end Main

namespace Counterexample

open GateDomination.Counterexample

def noText : Text := ⟨[], rfl⟩

/-- A full page of ASCII characters before a two-byte character. -/
def page : Bytes := List.replicate 4095 0x61 ++ bytes "é"

end Counterexample

end StoredResults
