import TizenClaw.IpcTotality
import TizenClaw.JsonRpc
import TizenClaw.McpServer

/-! The MCP server on standard input: one request or notification a line. Which lines it treats as
JSON-RPC asks it to. -/
namespace McpStdio

open ByteString JsonValue JsonDump JsonParse JsonParseUtf8 IpcRequest IpcHandler IpcTotality JsonRpc
  TryBlock McpServer

section Model

/-- The agent behind the server. -/
structure Agent (σ : Type) where
  processPrompt : Bytes → Bytes → Action Thrown σ Bytes
  executeSkillForMcp : Bytes → Json → Action Thrown σ Bytes

variable {σ : Type} (agent : Agent σ) (tools : List ToolInfo)
  (readFloat : Bytes → Option NumberText)

/-- `HandleInitialize` -/
def handleInitialize : Json :=
  .object [(bytes "protocolVersion", .str (bytes "2024-11-05")),
    (bytes "capabilities", .object [(bytes "tools", .object [])]),
    (bytes "serverInfo", .object [(bytes "name", .str (bytes "TizenClaw-MCP-Server")),
      (bytes "version", .str (bytes "1.0.0"))])]

def toolJson (t : ToolInfo) : Json :=
  .object [(bytes "name", .str t.name), (bytes "description", .str t.description),
    (bytes "inputSchema", t.inputSchema)]

/-- `HandleToolsList` -/
def handleToolsList : Json := .object [(bytes "tools", .arr (tools.map toolJson))]

def textContent (text : Bytes) : Json :=
  .arr [.object [(bytes "type", .str (bytes "text")), (bytes "text", .str text)]]

def refusal (text : Bytes) : Json :=
  .object [(bytes "isError", .bool true), (bytes "content", textContent text)]

def toolResult (text : Bytes) : Json := .object [(bytes "content", textContent text)]

/-- What a `tools/call` does once its parameters are read. -/
def carryOut : ToolsCall → Action Thrown σ Json
  | .refused text => pure (refusal text)
  | .ask prompt => do
    let text ← agent.processPrompt (bytes "mcp_session") prompt
    pure (toolResult text)
  | .skill name args => do
    let text ← agent.executeSkillForMcp name args
    pure (toolResult text)

def callTool (params : Json) : Action Thrown σ Json := do
  let call ← liftM (caught (handleToolsCall tools params))
  carryOut agent call

/-- `ProcessRequest`, without a response for the one notification that it knows. -/
def respond (request : Json) : Action Thrown σ (Option Json) := do
  let method ← liftM (caught (request.valueString (bytes "method") []))
  let params ← liftM (caught (request.value .ok (bytes "params") (.object [])))
  let id ← liftM (caught (request.value .ok (bytes "id") .null))
  if method = bytes "initialize" then pure (some ((Reply.result handleInitialize).json id))
  else if method = bytes "notifications/initialized" then pure none
  else if method = bytes "tools/list" then
    pure (some ((Reply.result (handleToolsList tools)).json id))
  else if method = bytes "tools/call" then do
    let result ← callTool agent tools params
    pure (some ((Reply.result result).json id))
  else pure (some ((Reply.error (-32601) (bytes "Method not found")).json id))

/-- A response and the line that is written for it. -/
structure Written where
  response : Json
  text : Bytes

def write (response : Json) : Action Thrown σ (List Written) := do
  let text ← liftM (caught (dump response))
  pure [⟨response, text⟩]

def answer (request : Json) : Action Thrown σ (List Written) := do
  let response ← respond agent tools request
  match response with
  | none => pure []
  | some response => write response

def parseError : Json := (Reply.error (-32700) (bytes "Parse error")).json .null

/-- A round of `RunStdio`: every exception is answered as one of the parser. -/
def handleLine (line : Bytes) : Action Thrown σ (List Written) :=
  if line = [] then pure []
  else
    tryCatch (do
      let request ← liftM (caught (parse readFloat line))
      answer agent tools request) fun _ => write parseError

/-- A round, with the agent's state before it. -/
structure Exchange (σ : Type) where
  line : Bytes
  before : σ
  out : Except Thrown (List Written)

/-- `RunStdio`, which an exception would leave. -/
def runStdio : List Bytes → σ → List (Exchange σ)
  | [], _ => []
  | line :: lines, s =>
    let x := (handleLine agent tools readFloat line).run s
    ⟨line, s, x.1⟩ :: if x.1.toBool then runStdio lines x.2 else []

end Model

section Discipline

variable {σ : Type} (agent : Agent σ) (tools : List ToolInfo)
  (readFloat : Bytes → Option NumberText)

/-- A request got its response, and a notification got none. -/
def Answered (request : Json) (out : List Written) : Prop :=
  ∀ m, request = .obj m →
    if request.contains (bytes "id") then
      ∃ w, out = [w] ∧ dump w.response = .ok w.text ∧ IsResponse request w.response
    else out = []

/-- No exception escaped from the round, and its line was answered if it was JSON. -/
def Disciplined (x : Exchange σ) : Prop :=
  ∃ out, x.out = .ok out ∧ ∀ request, parse readFloat x.line = .ok request → Answered request out

/-- The agent comes back with a text in UTF-8. -/
def ReturnsText (x : Action Thrown σ Bytes) (s : σ) : Prop :=
  Returns x (fun text _ => Utf8.valid text = true) s

/-- The parameters of a `tools/call` can be read, and the agent does what they ask for. -/
def Called (params : Json) (s : σ) : Prop :=
  ∃ name arguments, params.valueString (bytes "name") [] = .ok name ∧
    params.value .ok (bytes "arguments") (.obj []) = .ok arguments ∧
      ∀ tool ∈ tools.find? fun t => t.name = name,
        if tool.isSkill then ReturnsText (agent.executeSkillForMcp name arguments) s
        else ∃ prompt, arguments.valueString (bytes "prompt") [] = .ok prompt ∧
          (prompt ≠ [] → ReturnsText (agent.processPrompt (bytes "mcp_session") prompt) s)

/-- The method is a string, the tools can be listed, and a tool can be called. -/
def Served (request : Json) (s : σ) : Prop :=
  ∃ method, request.valueString (bytes "method") [] = .ok method ∧
    (method = bytes "tools/list" → (handleToolsList tools).utf8 = true) ∧
      (method = bytes "tools/call" →
        Called agent tools ((request.member? (bytes "params")).getD (.object [])) s)

/-- The method is the one of the notification that the server knows. -/
def Initialized (request : Json) : Prop :=
  request.valueString (bytes "method") [] = .ok (bytes "notifications/initialized")

/-- A message with an id is no notification of the kind the server knows, and it can be served or
its id is null; a message without an id is such a notification. -/
def Proper (request : Json) (s : σ) : Prop :=
  ∀ m, request = .obj m →
    if request.contains (bytes "id") then
      ¬ Initialized request ∧
        (request.member? (bytes "id") = some .null ∨ Served agent tools request s)
    else Initialized request

def Permitted (x : Exchange σ) : Prop :=
  ∀ request, parse readFloat x.line = .ok request → Proper agent tools request x.before

end Discipline

section Utf8

theorem textContent_utf8 (text : Bytes) :
    (textContent text).utf8 = true ↔ Utf8.valid text = true := by
  have hkeys : Utf8.valid (bytes "type") = true ∧ Utf8.valid (bytes "text") = true := by decide
  rw [textContent, Json.utf8, utf8List, utf8_object [bytes "type", bytes "text"] rfl (by decide)]
  simp [utf8Members, utf8List, Json.utf8, hkeys]

theorem toolResult_utf8 (text : Bytes) :
    (toolResult text).utf8 = true ↔ Utf8.valid text = true := by
  rw [toolResult, utf8_object [bytes "content"] rfl (by decide), ← textContent_utf8]
  simp [utf8Members, show Utf8.valid (bytes "content") = true by decide]

theorem refusal_utf8 (text : Bytes) : (refusal text).utf8 = true ↔ Utf8.valid text = true := by
  have hkeys : Utf8.valid (bytes "isError") = true ∧ Utf8.valid (bytes "content") = true := by
    decide
  rw [refusal, utf8_object [bytes "isError", bytes "content"] rfl (by decide), ← textContent_utf8]
  simp [utf8Members, Json.utf8, hkeys]

theorem handleInitialize_utf8 : handleInitialize.utf8 = true := by decide +kernel

end Utf8

section Answers

variable {σ : Type} {agent : Agent σ} {tools : List ToolInfo} {s : σ}

theorem returns_write {response : Json} {good : List Written → σ → Prop} :
    Returns (write response) good s ↔ ∃ text, dump response = .ok text ∧
      good [⟨response, text⟩] s := by
  rw [write, returns_bind, returns_lift]
  rfl

/-- The call of a tool has a result that can be written exactly if the tool can be called. -/
theorem returns_callTool {params : Json} (hp : params.utf8 = true) :
    Returns (callTool agent tools params) (fun result _ => result.utf8 = true) s ↔
      Called agent tools params s := by
  have htext : ∀ x : Action Thrown σ Bytes,
      Returns (x >>= fun text => pure (toolResult text)) (fun result _ => result.utf8 = true) s ↔
        ReturnsText x s := by
    intro x
    rw [returns_bind]
    exact returns_congr x fun text t => toolResult_utf8 text
  rw [callTool, returns_bind, returns_lift, Called]
  simp only [handleToolsCall, bind_eq_ok]
  constructor
  · rintro ⟨call, ⟨name, hn, arguments, ha, hcall⟩, hr⟩
    refine ⟨name, arguments, hn, ha, ?_⟩
    intro tool ht
    simp only [Option.mem_def.mp ht] at hcall
    by_cases hs : tool.isSkill = true
    · rw [if_pos hs] at hcall ⊢
      obtain rfl := Except.ok.inj hcall
      exact (htext _).mp hr
    · rw [if_neg hs] at hcall ⊢
      obtain ⟨prompt, hprompt, rfl⟩ := map_eq_ok.mp hcall
      refine ⟨prompt, hprompt, ?_⟩
      intro hne
      rw [if_neg hne] at hr
      exact (htext _).mp hr
  · rintro ⟨name, arguments, hn, ha, hr⟩
    cases hf : tools.find? fun t => t.name = name with
    | none =>
      refine ⟨.refused (bytes "Tool not found: " ++ name),
        ⟨name, hn, arguments, ha, by simp only [hf]⟩, ?_⟩
      apply (refusal_utf8 _).mpr
      rw [Utf8.valid_append (by decide)]
      exact valueString_utf8 hp rfl hn
    | some tool =>
      have hr := hr tool hf
      by_cases hs : tool.isSkill = true
      · rw [if_pos hs] at hr
        exact ⟨.skill name arguments, ⟨name, hn, arguments, ha, by simp only [hf, if_pos hs]⟩,
          (htext _).mpr hr⟩
      · rw [if_neg hs] at hr
        obtain ⟨prompt, hprompt, hr⟩ := hr
        refine ⟨if prompt = [] then .refused (bytes "Missing 'prompt' argument") else .ask prompt,
          ⟨name, hn, arguments, ha, ?_⟩, ?_⟩
        · simp only [hf, if_neg hs, hprompt]
          rfl
        · by_cases hne : prompt = []
          · rw [if_pos hne]
            exact (refusal_utf8 _).mpr (by decide)
          · rw [if_neg hne]
            exact (htext _).mpr (hr hne)

variable {m : List (Bytes × Json)}

/-- A response of the server can be written as far as its reply is in UTF-8. -/
theorem returns_reply {id : Json} (hid : id.utf8 = true) (reply : Reply)
    {good : List Written → σ → Prop}
    (hgood : ∀ text, dump (reply.json id) = .ok text → good [⟨reply.json id, text⟩] s) :
    Returns (write (reply.json id)) good s ↔ ReplyUtf8 reply := by
  rw [returns_write, ← json_utf8 hid, ← succeeds_dump]
  exact ⟨fun ⟨text, ht, _⟩ => ⟨text, ht⟩, fun ⟨text, ht⟩ => ⟨text, ht, hgood text ht⟩⟩

/-- Of a message that is an object and not the notification, the answer is its response; there is
one exactly if the message can be served. -/
theorem returns_answer (hu : (Json.obj m).utf8 = true) (hi : ¬ Initialized (.obj m))
    {good : List Written → σ → Prop}
    (hgood : ∀ w t, dump w.response = .ok w.text → IsResponse (.obj m) w.response → good [w] t) :
    Returns (answer agent tools (.obj m)) good s ↔ Served agent tools (.obj m) s := by
  have hparams : Json.value .ok (.obj m) (bytes "params") (.object []) =
      .ok (((Json.obj m).member? (bytes "params")).getD (.object [])) := by
    rw [Json.value, Json.member?]
    cases m.lookup (bytes "params") <;> rfl
  have hid : Json.value .ok (.obj m) (bytes "id") .null =
      .ok (((Json.obj m).member? (bytes "id")).getD .null) := by
    rw [Json.value, Json.member?]
    cases m.lookup (bytes "id") <;> rfl
  have hreply : ∀ (reply : Reply) (t : σ),
      Returns (write (reply.json (((Json.obj m).member? (bytes "id")).getD .null))) good t ↔
        ReplyUtf8 reply := by
    intro reply t
    apply returns_reply (getD_utf8 hu rfl)
    exact fun text ht => hgood _ t ht ((isResponse_iff reply).mpr rfl)
  rw [answer, respond, returns_bind, returns_bind, returns_lift, Served]
  apply exists_congr
  intro method
  apply and_congr_right
  intro hmethod
  rw [returns_ok hparams, returns_ok hid]
  by_cases hinit : method = bytes "initialize"
  · rw [if_pos hinit]
    refine iff_of_true ((hreply (.result handleInitialize) s).mpr handleInitialize_utf8) ?_
    subst hinit
    exact ⟨fun h => absurd h (by decide), fun h => absurd h (by decide)⟩
  rw [if_neg hinit]
  have hnot : method ≠ bytes "notifications/initialized" := by
    rintro rfl
    exact hi hmethod
  rw [if_neg hnot]
  by_cases hlist : method = bytes "tools/list"
  · rw [if_pos hlist]
    refine (hreply (.result (handleToolsList tools)) s).trans ?_
    subst hlist
    exact ⟨fun h => ⟨fun _ => h, fun h => absurd h (by decide)⟩, fun h => h.1 rfl⟩
  rw [if_neg hlist]
  by_cases hcall : method = bytes "tools/call"
  · rw [if_pos hcall, returns_bind]
    refine (returns_congr _ fun result t => hreply (.result result) t).trans ?_
    refine (returns_callTool (getD_utf8 hu rfl)).trans ?_
    subst hcall
    exact ⟨fun h => ⟨fun h => absurd h (by decide), fun _ => h⟩, fun h => h.2 rfl⟩
  · rw [if_neg hcall]
    refine iff_of_true ((hreply (.error (-32601) (bytes "Method not found")) s).mpr ?_) ?_
    · change Utf8.valid _ = true
      decide
    · exact ⟨fun h => absurd h hlist, fun h => absurd h hcall⟩

/-- The notification gets no response. -/
theorem answer_initialized (hi : Initialized (.obj m)) :
    (answer agent tools (.obj m)).run s = (.ok [], s) := by
  have hvalue : ∀ (key : Bytes) (d : Json), ∃ v, Json.value .ok (.obj m) key d = .ok v := by
    intro key d
    rw [Json.value]
    cases m.lookup key with
    | none => exact ⟨d, rfl⟩
    | some v => exact ⟨v, rfl⟩
  obtain ⟨params, hparams⟩ := hvalue (bytes "params") (.object [])
  obtain ⟨id, hid⟩ := hvalue (bytes "id") .null
  have hr : Returns (answer agent tools (.obj m)) (fun out t => out = [] ∧ t = s) s := by
    rw [answer, respond, returns_bind, returns_ok hi, returns_ok hparams, returns_ok hid,
      if_neg (by decide), if_pos rfl, returns_pure, returns_pure]
    exact ⟨rfl, rfl⟩
  obtain ⟨out, t, hrun, rfl, rfl⟩ := returns_iff_run.mp hr
  exact hrun

end Answers

section Lines

variable {σ : Type} {agent : Agent σ} {tools : List ToolInfo}
  {readFloat : Bytes → Option NumberText} {s t : σ} {line : Bytes} {request : Json}

theorem line_ne_nil (hp : parse readFloat line = .ok request) : line ≠ [] := by
  rintro rfl
  cases hp

theorem write_parseError (s : σ) : ∃ text, dump parseError = .ok text ∧
    (write parseError).run s = (.ok [⟨parseError, text⟩], s) := by
  obtain ⟨text, ht⟩ := (succeeds_dump parseError).mpr (by decide +kernel)
  have hr : Returns (write parseError) (fun out t => out = [⟨parseError, text⟩] ∧ t = s) s :=
    returns_write.mpr ⟨text, ht, rfl, rfl⟩
  obtain ⟨out, t, hrun, rfl, rfl⟩ := returns_iff_run.mp hr
  exact ⟨text, ht, hrun⟩

/-- The answer is written. -/
theorem handleLine_answered (hp : parse readFloat line = .ok request) {out : List Written}
    (h : (answer agent tools request).run s = (.ok out, t)) :
    (handleLine agent tools readFloat line).run s = (.ok out, t) := by
  have hline : (do
      let request ← liftM (caught (parse readFloat line))
      answer agent tools request : Action Thrown σ (List Written)).run s = (.ok out, t) := by
    rw [run_bind (run_lift (congrArg caught hp) s), h]
  rw [handleLine, if_neg (line_ne_nil hp), run_tryCatch, hline]

/-- An exception is answered as an error of the parser. -/
theorem handleLine_failed (hp : parse readFloat line = .ok request) {e : Thrown}
    (h : (answer agent tools request).run s = (.error e, t)) :
    ∃ text, dump parseError = .ok text ∧
      (handleLine agent tools readFloat line).run s = (.ok [⟨parseError, text⟩], t) := by
  have hline : (do
      let request ← liftM (caught (parse readFloat line))
      answer agent tools request : Action Thrown σ (List Written)).run s = (.error e, t) := by
    rw [run_bind (run_lift (congrArg caught hp) s), h]
  obtain ⟨text, ht, hw⟩ := write_parseError t
  refine ⟨text, ht, ?_⟩
  rw [handleLine, if_neg (line_ne_nil hp), run_tryCatch, hline]
  exact hw

/-- No exception escapes. -/
theorem handleLine_returns (agent : Agent σ) (tools : List ToolInfo)
    (readFloat : Bytes → Option NumberText) (line : Bytes) (s : σ) :
    ∃ out t, (handleLine agent tools readFloat line).run s = (.ok out, t) := by
  by_cases hl : line = []
  · exact ⟨[], s, by rw [handleLine, if_pos hl]; rfl⟩
  · rw [handleLine, if_neg hl, run_tryCatch]
    split
    next out t _ => exact ⟨out, t, rfl⟩
    next e t _ =>
      obtain ⟨text, -, hw⟩ := write_parseError t
      exact ⟨_, _, hw⟩

/-- What has to be written for an object with an id, and for one without. -/
theorem answered_iff {m : List (Bytes × Json)} {out : List Written} : Answered (.obj m) out ↔
    if (Json.obj m).contains (bytes "id") then
      ∃ w, out = [w] ∧ dump w.response = .ok w.text ∧ IsResponse (.obj m) w.response
    else out = [] := by
  rw [Answered]
  constructor
  · exact fun h => h m rfl
  · rintro h _ ⟨⟩
    exact h

theorem proper_iff {m : List (Bytes × Json)} : Proper agent tools (.obj m) s ↔
    if (Json.obj m).contains (bytes "id") then
      ¬ Initialized (.obj m) ∧
        ((Json.obj m).member? (bytes "id") = some .null ∨ Served agent tools (.obj m) s)
    else Initialized (.obj m) := by
  rw [Proper]
  constructor
  · exact fun h => h m rfl
  · rintro h _ ⟨⟩
    exact h

/-- The error of the parser is a response to the request if that has the id null. -/
theorem isResponse_parseError {m : List (Bytes × Json)}
    (hc : (Json.obj m).contains (bytes "id") = true) :
    IsResponse (.obj m) parseError ↔ (Json.obj m).member? (bytes "id") = some .null := by
  rw [parseError, isResponse_iff]
  obtain ⟨id, hid⟩ := Option.isSome_iff_exists.mp hc
  rw [hid, Option.getD_some, Option.some.injEq]

/-- A message is answered exactly if it is a proper one. -/
theorem answered_handleLine {m : List (Bytes × Json)} {out : List Written}
    (hp : parse readFloat line = .ok (.obj m))
    (h : (handleLine agent tools readFloat line).run s = (.ok out, t)) :
    Answered (.obj m) out ↔ Proper agent tools (.obj m) s := by
  rw [answered_iff, proper_iff]
  by_cases hi : Initialized (.obj m)
  · have hans : (answer agent tools (.obj m)).run s = (.ok [], s) := answer_initialized hi
    rw [handleLine_answered hp hans] at h
    obtain ⟨hout, -⟩ := Prod.mk.inj h
    obtain rfl := Except.ok.inj hout
    by_cases hc : (Json.obj m).contains (bytes "id") = true
    · rw [if_pos hc, if_pos hc]
      exact iff_of_false (by simp) fun hno => hno.1 hi
    · rw [if_neg hc, if_neg hc]
      exact iff_of_true rfl hi
  · have hans : Returns (answer agent tools (.obj m)) (fun out _ => ∃ w, out = [w] ∧
        dump w.response = .ok w.text ∧ IsResponse (.obj m) w.response) s ↔
          Served agent tools (.obj m) s :=
      returns_answer (parse_utf8 hp).2 hi fun w _ hd hr => ⟨w, rfl, hd, hr⟩
    by_cases hs : Served agent tools (.obj m) s
    · obtain ⟨out', t', hrun, w, rfl, hw⟩ := returns_iff_run.mp (hans.mpr hs)
      rw [handleLine_answered hp hrun] at h
      obtain ⟨hout, -⟩ := Prod.mk.inj h
      obtain rfl := Except.ok.inj hout
      by_cases hc : (Json.obj m).contains (bytes "id") = true
      · rw [if_pos hc, if_pos hc]
        exact iff_of_true ⟨w, rfl, hw⟩ ⟨hi, .inr hs⟩
      · rw [if_neg hc, if_neg hc]
        exact iff_of_false (by simp) hi
    · have hthrow : ¬ Returns (answer agent tools (.obj m)) (fun _ _ => True) s := by
        intro hr
        exact hs ((returns_answer (parse_utf8 hp).2 hi fun _ _ _ _ => trivial).mp hr)
      obtain ⟨e, t', hrun⟩ := throws_of_not_returns hthrow
      obtain ⟨text, ht, hline⟩ := handleLine_failed hp hrun
      rw [hline] at h
      obtain ⟨hout, -⟩ := Prod.mk.inj h
      obtain rfl := Except.ok.inj hout
      by_cases hc : (Json.obj m).contains (bytes "id") = true
      · rw [if_pos hc, if_pos hc, or_iff_left hs, ← isResponse_parseError hc]
        constructor
        · rintro ⟨w, hw, -, hr⟩
          obtain rfl := List.singleton_inj.mp hw
          exact ⟨hi, hr⟩
        · exact fun hr => ⟨_, rfl, ht, hr.2⟩
      · rw [if_neg hc, if_neg hc]
        exact iff_of_false (by simp) hi

/-- So the round of a line is as it should be exactly if its message is, whatever the line is. -/
theorem disciplined_iff (line : Bytes) (s : σ) :
    Disciplined readFloat ⟨line, s, ((handleLine agent tools readFloat line).run s).1⟩ ↔
      Permitted agent tools readFloat ⟨line, s, ((handleLine agent tools readFloat line).run s).1⟩ := by
  obtain ⟨out, t, hrun⟩ := handleLine_returns agent tools readFloat line s
  rw [Disciplined, Permitted, hrun]
  constructor
  · rintro ⟨out', hout, h⟩ request hp m rfl
    obtain rfl := Except.ok.inj hout
    exact (answered_handleLine hp hrun).mp (h _ hp) m rfl
  · intro h
    refine ⟨out, rfl, ?_⟩
    rintro request hp m rfl
    exact (answered_handleLine hp hrun).mpr (h _ hp) m rfl

end Lines

section Loop

variable {σ : Type} (agent : Agent σ) (tools : List ToolInfo)
  (readFloat : Bytes → Option NumberText)

theorem mem_runStdio {lines : List Bytes} {s : σ} {x : Exchange σ}
    (h : x ∈ runStdio agent tools readFloat lines s) :
    x.out = ((handleLine agent tools readFloat x.line).run x.before).1 := by
  induction lines generalizing s with
  | nil => cases h
  | cons line lines ih =>
    rw [runStdio] at h
    rcases List.mem_cons.mp h with rfl | h
    · rfl
    · split_ifs at h
      · exact ih h
      · cases h

/-- Every line is read, since no exception leaves the loop. -/
theorem runStdio_lines (lines : List Bytes) (s : σ) :
    (runStdio agent tools readFloat lines s).map Exchange.line = lines := by
  induction lines generalizing s with
  | nil => rfl
  | cons line lines ih =>
    obtain ⟨out, t, hrun⟩ := handleLine_returns agent tools readFloat line s
    rw [runStdio, hrun, List.map_cons]
    simp [Except.toBool, ih]

/-- For all lines and whatever the agent does: all lines are read without an exception that escapes,
and each is answered as JSON-RPC asks exactly if it is a proper one at that time. -/
theorem discipline_iff (lines : List Bytes) (s : σ) :
    ((runStdio agent tools readFloat lines s).map Exchange.line = lines ∧
      ∀ x ∈ runStdio agent tools readFloat lines s, Disciplined readFloat x) ↔
      ∀ x ∈ runStdio agent tools readFloat lines s, Permitted agent tools readFloat x := by
  rw [and_iff_right (runStdio_lines agent tools readFloat lines s)]
  apply forall₂_congr
  rintro ⟨line, before, out⟩ hx
  have hout : out = _ := mem_runStdio agent tools readFloat hx
  rw [hout]
  exact disciplined_iff line before

end Loop

namespace Counterexample

/-- An agent that has nothing to say. -/
def quiet : Agent Unit := ⟨fun _ _ => pure [], fun _ _ => pure []⟩

def cancelled : Bytes :=
  bytes "\x7b\"jsonrpc\":\"2.0\",\"method\":\"notifications/cancelled\"\x7d"

def numbered : Bytes :=
  bytes "\x7b\"id\":7,\"method\":\"tools/call\",\"params\":\x7b\"name\":5\x7d\x7d"

/-- A notification of another kind is answered, and a request with a name that is no string gets
its answer without its id. -/
theorem answered_wrongly :
    (¬ ∀ x ∈ runStdio quiet [askTool] (fun _ => none) [cancelled] (),
      Disciplined (fun _ => none) x) ∧
    ¬ ∀ x ∈ runStdio quiet [askTool] (fun _ => none) [numbered] (),
      Disciplined (fun _ => none) x := by
  constructor
  · intro h
    have hp : parse (fun _ => none) cancelled = .ok (.obj [(bytes "jsonrpc", .str (bytes "2.0")),
      (bytes "method", .str (bytes "notifications/cancelled"))]) := by decide +kernel
    have hi : Initialized _ := (disciplined_iff cancelled ()).mp (h _ List.mem_cons_self) _ hp _ rfl
    exact absurd (Except.ok.inj hi) (by decide)
  · intro h
    have hp : parse (fun _ => none) numbered = .ok (.obj [(bytes "id", .int 7),
      (bytes "method", .str (bytes "tools/call")),
      (bytes "params", .obj [(bytes "name", .int 5)])]) := by decide +kernel
    have hproper := (disciplined_iff numbered ()).mp (h _ List.mem_cons_self) _ hp _ rfl
    rcases hproper.2 with hnull | ⟨method, hm, -, hcall⟩
    · cases hnull
    · obtain rfl := Except.ok.inj hm
      obtain ⟨name, -, hname, -⟩ := hcall rfl
      cases hname

end Counterexample

end McpStdio
