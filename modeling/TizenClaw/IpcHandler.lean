import TizenClaw.IpcRequest
import TizenClaw.TryBlock

/-! The handler of a client of the daemon: it takes frames off the socket, has each one answered by
the agent and its adapters, and writes the responses. -/
namespace IpcHandler

open ByteString JsonValue JsonDump JsonParse IpcRequest TryBlock

/-- The exceptions that the handler tells apart. -/
inductive Thrown where
  | json (e : JsonException)
  | std (what : Bytes)
  deriving DecidableEq, Repr

/-- What a request for token usage is answered from; the count is of entries or of requests. -/
structure Usage where
  promptTokens : ℤ
  completionTokens : ℤ
  count : ℤ
  deriving DecidableEq, Repr

/-- A run of `ProcessPrompt`. It hands out chunks, and each may come back as an exception. -/
inductive PromptRun (σ : Type) where
  | ends (r : Except Thrown Bytes) (s : σ)
  | chunk (text : Bytes) (next : Except Thrown Unit → PromptRun σ)

/-- The agent, its adapters and the channels, over the state of the daemon. -/
structure Services (σ : Type) where
  processPrompt : Bytes → Bytes → σ → PromptRun σ
  setSessionMode : Bytes → Bytes → Action Thrown σ Unit
  loadTokenUsage : Bytes → Action Thrown σ Usage
  loadMonthlyUsage : Bytes → Action Thrown σ Usage
  loadDailyUsage : Bytes → Action Thrown σ Usage
  broadcast : Bytes → Action Thrown σ Unit
  sendTo : Bytes → Bytes → Action Thrown σ Bool
  executeSupervisorOp : Bytes → Json → Bytes → Action Thrown σ Bytes
  perceptionStatus : Option (Action Thrown σ Json)
  generateToolDoc : Bytes → Bytes → Bytes → Action Thrown σ Bytes
  registerTool : Bytes → SystemCliToolConfig → Bytes → Action Thrown σ Bytes
  unregisterTool : Bytes → Action Thrown σ Bytes
  reloadSkills : Action Thrown σ Unit
  getMcpToolsJson : Action Thrown σ Json
  connectMcpServers : Bytes → Action Thrown σ Bool
  getRegisteredToolsJson : Action Thrown σ Json

section Client

/-- A call of `ProcessPrompt`, from a request or with the payload as its text. -/
structure PromptCall where
  session : Bytes
  text : Bytes
  isPayload : Bool
  deriving DecidableEq, Repr

/-- What a client takes of a response: all, less than all, or not even its length. -/
inductive Delivery where
  | whole
  | cut
  | refused
  deriving DecidableEq, Repr

inductive Frame where
  | chunk (text : Bytes)
  | response (text : Bytes) (delivery : Delivery)
  deriving DecidableEq, Repr

/-- The daemon, with what a request has led to so far. -/
structure Client (σ : Type) where
  daemon : σ
  prompts : List PromptCall := []
  frames : List Frame := []

variable {σ α : Type}

def write (f : Frame) : Action Thrown (Client σ) Unit :=
  modify fun c => { c with frames := c.frames ++ [f] }

/-- A call of a service. -/
def onDaemon (x : Action Thrown σ α) : Action Thrown (Client σ) α := fun c =>
  let (r, s) := x.run c.daemon
  (r, { c with daemon := s })

def caught (x : Except JsonException α) : Except Thrown α := x.mapError .json

/-- What a response says. Its `id` is the one of the request. -/
inductive Reply where
  | result (j : Json)
  | error (code : ℤ) (message : Bytes)
  deriving DecidableEq, Repr

def Reply.json (id : Json) : Reply → Json
  | .result j => .object [(bytes "jsonrpc", .str (bytes "2.0")), (bytes "id", id),
      (bytes "result", j)]
  | .error code message => .object [(bytes "jsonrpc", .str (bytes "2.0")),
      (bytes "error", .object [(bytes "code", .int code), (bytes "message", .str message)]),
      (bytes "id", id)]

def textResult (text : Bytes) : Reply := .result (.object [(bytes "text", .str text)])

end Client

section Prompt

variable {σ : Type}

def chunkNotice (text : Bytes) : Json :=
  .object [(bytes "jsonrpc", .str (bytes "2.0")), (bytes "method", .str (bytes "stream_chunk")),
    (bytes "params", .object [(bytes "text", .str text)])]

/-- `on_chunk` up to its writes. Without a stream there is no such function to call. -/
def onChunk (stream : Bool) (text : Bytes) : Except Thrown Bytes :=
  if stream then caught (dump (chunkNotice text)) else .error (.std (bytes "bad_function_call"))

def PromptRun.play (stream : Bool) : PromptRun σ → Action Thrown (Client σ) Bytes
  | .ends r s => fun c => (r, { c with daemon := s })
  | .chunk text next => fun c =>
    match onChunk stream text with
    | .ok cs => (next (.ok ())).play stream { c with frames := c.frames ++ [.chunk cs] }
    | .error e => (next (.error e)).play stream c

def runPrompt (st : Services σ) (call : PromptCall) (stream : Bool) :
    Action Thrown (Client σ) Bytes := do
  modify fun c => { c with prompts := c.prompts ++ [call] }
  fun c => (st.processPrompt call.session call.text c.daemon).play stream c

end Prompt

section Perform

variable {σ : Type} (st : Services σ) (readFloat : Bytes → Option NumberText)

def usageReply (usageType key value counter : Bytes) (u : Usage) : Reply :=
  .result (.object [(bytes "usage_type", .str usageType), (key, .str value),
    (bytes "prompt_tokens", .int u.promptTokens),
    (bytes "completion_tokens", .int u.completionTokens), (counter, .int u.count)])

/-- The answer to a tool that was registered or taken away, or to the error instead. -/
def toolReply (name err message : Bytes) : Action Thrown (Client σ) Reply :=
  if err = [] then do
    onDaemon st.reloadSkills
    pure (.result (.object [(bytes "status", .str (bytes "ok")), (bytes "tool", .str name),
      (bytes "message", .str message)]))
  else pure (.error (-32602) err)

def performPrompt (sessionId text : Bytes) (stream a2ui : Bool) :
    Action Thrown (Client σ) Reply := do
  onDaemon (st.setSessionMode sessionId (if a2ui then bytes "a2ui" else bytes "default"))
  if text = [] then pure (.error (-32602) (bytes "Empty prompt"))
  else do
    let result ← runPrompt st ⟨sessionId, text, false⟩ stream
    pure (textResult result)

def performSendTo (channel text : Bytes) : Action Thrown (Client σ) Reply :=
  if channel = [] ∨ text = [] then pure (.error (-32602) (bytes "channel and text required"))
  else do
    let sent ← if channel = bytes "all" then do
        onDaemon (st.broadcast text)
        pure true
      else onDaemon (st.sendTo channel text)
    pure (.result (.object [(bytes "sent", .bool sent), (bytes "channel", .str channel)]))

/-- A document from the language model takes the place of the one given. -/
def performRegister (name : Bytes) (cfg : SystemCliToolConfig) (toolDoc helpOutput : Bytes) :
    Action Thrown (Client σ) Reply := do
  let doc ← if helpOutput = [] then pure []
    else onDaemon (st.generateToolDoc name cfg.binaryPath helpOutput)
  let err ← onDaemon (st.registerTool name cfg (if doc = [] then toolDoc else doc))
  toolReply st name err (bytes "Tool registered successfully")

def perform : Order → Action Thrown (Client σ) Reply
  | .sessionUsage sessionId => do
    let u ← onDaemon (st.loadTokenUsage sessionId)
    pure (usageReply (bytes "session") (bytes "session_id") sessionId (bytes "entries") u)
  | .monthlyUsage month => do
    let u ← onDaemon (st.loadMonthlyUsage month)
    pure (usageReply (bytes "monthly") (bytes "month") month (bytes "total_requests") u)
  | .dailyUsage date => do
    let u ← onDaemon (st.loadDailyUsage date)
    pure (usageReply (bytes "daily") (bytes "date") date (bytes "total_requests") u)
  | .prompt sessionId text stream a2ui => performPrompt st sessionId text stream a2ui
  | .sendTo channel text => performSendTo st channel text
  | .listAgents params => do
    let text ← onDaemon (st.executeSupervisorOp (bytes "list_agents") params (bytes "ipc"))
    match parse readFloat text with
    | .ok j => pure (.result j)
    | .error _ => pure (textResult text)
  | .perceptionStatus =>
    match st.perceptionStatus with
    | some status => do
      let j ← onDaemon status
      pure (.result j)
    | none => pure (.result (.object [(bytes "error",
        .str (bytes "PerceptionEngine not initialized"))]))
  | .registerSystemCli name cfg toolDoc helpOutput => performRegister st name cfg toolDoc helpOutput
  | .unregisterSystemCli name => do
    let err ← onDaemon (st.unregisterTool name)
    toolReply st name err (bytes "Tool unregistered successfully")
  | .listMcpTools => do
    let j ← onDaemon st.getMcpToolsJson
    pure (.result j)
  | .connectMcpServers configPath => do
    let ok ← onDaemon (st.connectMcpServers configPath)
    pure (if ok then .result (.object [(bytes "status", .str (bytes "ok")),
        (bytes "message", .str (bytes "MCP servers connected"))])
      else .error (-32602) (bytes "Failed to load MCP config"))
  | .listSystemCli => do
    let j ← onDaemon st.getRegisteredToolsJson
    pure (.result j)
  | .unknown => pure (.error (-32601) (bytes "Method not found"))

end Perform

section Serve

variable {σ : Type} (st : Services σ) (readFloat : Bytes → Option NumberText)
  (truncate : NumberText → ℤ)

/-- The block under `try`. -/
def answer (raw : Bytes) : Action Thrown (Client σ) Json := do
  let req ← liftM (caught (parse readFloat raw))
  let request ← liftM (caught (readRequest truncate req))
  match request with
  | .invalid id => pure ((Reply.error (-32600) (bytes "Invalid Request")).json id)
  | .call id order => do
    let reply ← perform st readFloat order
    pure (reply.json id)

/-- The handlers of that block. Every exception of the JSON library counts as plain text. -/
def recover (raw : Bytes) : Thrown → Action Thrown (Client σ) Json
  | .json _ => do
    let result ← runPrompt st ⟨bytes "default", raw, true⟩ false
    pure ((textResult result).json .null)
  | .std what => pure ((Reply.error (-32000) (bytes "Internal error: " ++ what)).json .null)

/-- The response is serialized and written behind the handlers. -/
def respond (raw : Bytes) (delivery : Delivery) : Action Thrown (Client σ) Unit := do
  let response ← tryCatch (answer st readFloat truncate raw) (recover st raw)
  let text ← liftM (caught (dump response))
  write (.response text delivery)

/-- What a request led to, with the exception that left the handler. -/
structure Round where
  prompts : List PromptCall
  frames : List Frame
  escaped : Option Thrown
  deriving DecidableEq, Repr

def round (raw : Bytes) (delivery : Delivery) (s : σ) : Round × σ :=
  let (r, c) := (respond st readFloat truncate raw delivery).run ⟨s, [], []⟩
  (⟨c.prompts, c.frames, match r with
    | .ok _ => none
    | .error e => some e⟩, c.daemon)

def kMaxPayload : ℕ := 10 * 1024 * 1024

/-- A length in network byte order. -/
def netLen (a b c d : UInt8) : ℕ := ((a.toNat * 256 + b.toNat) * 256 + c.toNat) * 256 + d.toNat

/-- A length as it stands before a frame, cut to 32 bits. -/
def lengthBytes (n : ℕ) : Bytes :=
  [UInt8.ofNat (n / 2 ^ 24), UInt8.ofNat (n / 2 ^ 16), UInt8.ofNat (n / 2 ^ 8), UInt8.ofNat n]

theorem netLen_lengthBytes (n : ℕ) :
    netLen (UInt8.ofNat (n / 2 ^ 24)) (UInt8.ofNat (n / 2 ^ 16)) (UInt8.ofNat (n / 2 ^ 8))
      (UInt8.ofNat n) = n % 2 ^ 32 := by
  simp only [netLen, UInt8.toNat_ofNat']
  omega

/-- What is taken off the socket: a frame, the few bytes of a client without frames, or nothing. -/
inductive Received where
  | framed (raw rest : Bytes)
  | legacy (raw : Bytes)
  | nothing
  deriving DecidableEq, Repr

/-- `incoming` is all that the client still sends. -/
def receive : Bytes → Received
  | [] => .nothing
  | a :: b :: c :: d :: rest =>
    if kMaxPayload < netLen a b c d then .nothing
    else if rest.length < netLen a b c d then .nothing
    else .framed (rest.take (netLen a b c d)) (rest.drop (netLen a b c d))
  | raw => .legacy raw

theorem receive_lengthBytes (n : ℕ) (s : Bytes) :
    receive (lengthBytes n ++ s) =
      if kMaxPayload < n % 2 ^ 32 then .nothing
      else if s.length < n % 2 ^ 32 then .nothing
      else .framed (s.take (n % 2 ^ 32)) (s.drop (n % 2 ^ 32)) := by
  rw [← netLen_lengthBytes n]
  rfl

/-- The loop of `HandleIpcClient`; `deliver` says what the client takes of each response. -/
def serve (deliver : ℕ → Delivery) : ℕ → ℕ → Bytes → σ → List Round
  | 0, _, _, _ => []
  | n + 1, i, incoming, s =>
    match receive incoming with
    | .nothing => []
    | .framed raw rest =>
      if raw = [] then []
      else
        let x := round st readFloat truncate raw (deliver i) s
        -- after a response that was cut the loop goes on
        if x.1.escaped.isNone ∧ deliver i ≠ .refused then
          x.1 :: serve deliver n (i + 1) rest x.2
        else [x.1]
    | .legacy raw => [(round st readFloat truncate raw (deliver i) s).1]

def handleIpcClient (deliver : ℕ → Delivery) (incoming : Bytes) (s : σ) : List Round :=
  serve st readFloat truncate deliver (incoming.length + 1) 0 incoming s

end Serve

end IpcHandler
