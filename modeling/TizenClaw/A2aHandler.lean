import TizenClaw.IpcHandler
import TizenClaw.OrderedMap

/-! The A2A handler: JSON-RPC requests of other agents create tasks, ask for them and cancel them.
The tasks are under a lock, which is not held while the agent works on a prompt. -/
namespace A2aHandler

open ByteString JsonValue JsonDump IpcHandler OrderedMap TryBlock

section Tasks

inductive A2aTaskStatus where
  | submitted
  | working
  | inputRequired
  | completed
  | failed
  | cancelled
  deriving DecidableEq, Repr

/-- `TaskStatusToString` -/
def A2aTaskStatus.text : A2aTaskStatus → Bytes
  | .submitted => bytes "submitted"
  | .working => bytes "working"
  | .inputRequired => bytes "input-required"
  | .completed => bytes "completed"
  | .failed => bytes "failed"
  | .cancelled => bytes "cancelled"

/-- The states that `TaskCancel` leaves as they are. -/
def A2aTaskStatus.Terminal (status : A2aTaskStatus) : Prop :=
  status = .completed ∨ status = .failed ∨ status = .cancelled

instance : DecidablePred A2aTaskStatus.Terminal :=
  fun _ => inferInstanceAs (Decidable (_ ∨ _ ∨ _))

structure A2aTask where
  id : Bytes
  status : A2aTaskStatus := .submitted
  sessionId : Bytes
  message : Json
  artifacts : Json
  createdAt : Bytes
  updatedAt : Bytes
  deriving DecidableEq, Repr

/-- `tasks_` and the counter behind the ids. -/
structure Handler where
  tasks : Map Bytes A2aTask := .empty
  counter : UInt32 := 0

/-- A number as the stream writes it after `std::hex`. -/
def hex (n : ℕ) : Bytes := if n = 0 then [0x30] else (Nat.digits 16 n).reverse.map hexDigit

def taskId (millis : ℤ) (seq : UInt32) : Bytes :=
  bytes "a2a-" ++ hex (millis % 2 ^ 64).toNat ++ bytes "-" ++ hex seq.toNat

/-- `GenerateTaskId`, at a time in milliseconds. -/
def Handler.generateTaskId (millis : ℤ) (h : Handler) : Bytes × Handler :=
  (taskId millis h.counter, { h with counter := h.counter + 1 })

def newTask (id : Bytes) (message : Json) (stamp : Bytes) : A2aTask where
  id := id
  sessionId := bytes "a2a_" ++ id
  message := message
  artifacts := .arr []
  createdAt := stamp
  updatedAt := stamp

def Handler.put (task : A2aTask) (h : Handler) : Handler :=
  { h with tasks := h.tasks.insert task.id task }

def Handler.update (id : Bytes) (f : A2aTask → A2aTask) (h : Handler) : Handler :=
  match h.tasks.get id with
  | some task => { h with tasks := h.tasks.insert id (f task) }
  | none => h

/-- The section that follows the creation; `operator[]` would make a task that is not there. -/
def Handler.setWorking (id stamp : Bytes) (h : Handler) : Handler :=
  let task := (h.tasks.get id).getD ⟨[], .submitted, [], .null, .null, [], []⟩
  { h with tasks := h.tasks.insert id { task with status := .working, updatedAt := stamp } }

def textArtifacts (result : Bytes) : Json :=
  .arr [.object [(bytes "type", .str (bytes "text")), (bytes "text", .str result)]]

/-- The section behind the prompt. The status it finds is not looked at. -/
def Handler.complete (id result stamp : Bytes) (h : Handler) : Handler :=
  h.update id fun task =>
    { task with status := .completed, updatedAt := stamp, artifacts := textArtifacts result }

/-- The result of a method that could not do its work. -/
def failure (text : Bytes) : Json := .object [(bytes "error", .str text)]

/-- The id that a request names. -/
def requestedId (params : Json) : Option Bytes :=
  match params.member? (bytes "id") with
  | some (.str id) => some id
  | _ => none

def taskJson (task : A2aTask) : Json :=
  .object [(bytes "id", .str task.id), (bytes "status", .str task.status.text),
    (bytes "artifacts", task.artifacts), (bytes "created_at", .str task.createdAt),
    (bytes "updated_at", .str task.updatedAt)]

def Handler.taskGet (params : Json) (h : Handler) : Json :=
  match requestedId params with
  | none => failure (bytes "id is required")
  | some id =>
    match h.tasks.get id with
    | none => failure (bytes "Task not found: " ++ id)
    | some task => taskJson task

def Handler.taskCancel (params : Json) (stamp : Bytes) (h : Handler) : Json × Handler :=
  match requestedId params with
  | none => (failure (bytes "id is required"), h)
  | some id =>
    match h.tasks.get id with
    | none => (failure (bytes "Task not found: " ++ id), h)
    | some task =>
      if task.status.Terminal then
        (failure (bytes "Cannot cancel task in terminal state: " ++ task.status.text), h)
      else
        (.object [(bytes "id", .str id), (bytes "status", .str A2aTaskStatus.cancelled.text),
          (bytes "updated_at", .str stamp)],
          h.update id fun task => { task with status := .cancelled, updatedAt := stamp })

end Tasks

section Message

def partText (part : Json) : Except JsonException Bytes :=
  match part.member? (bytes "text") with
  | some text => text.getString
  | none => .ok []

def partsText : List Json → Except JsonException Bytes
  | [] => .ok []
  | part :: parts => (partText part).bind fun text => (partsText parts).map fun s => text ++ s

/-- The text of a message: of its parts, if it has any, or its own. -/
def messageText (message : Json) : Except JsonException Bytes :=
  match message.member? (bytes "parts") with
  | some (.arr parts) => partsText parts
  | _ => partText message

end Message

section Requests

/-- The clock during one request: in milliseconds, and as `GetTimestamp` gives it each time. -/
structure Clock where
  millis : ℤ
  stamp : ℕ → Bytes

/-- `ProcessPrompt`. Other requests are handled while it runs. -/
abbrev Agent := Bytes → Bytes → Action Thrown Handler Bytes

def taskSend (agent : Agent) (clock : Clock) (params : Json) : Action Thrown Handler Json :=
  match params.member? (bytes "message") with
  | none => pure (failure (bytes "message is required"))
  | some message => do
    let text ← liftM (caught (messageText message))
    if text = [] then pure (failure (bytes "No text content in message"))
    else do
      let id ← modifyGet (Handler.generateTaskId clock.millis)
      modify (Handler.put (newTask id message (clock.stamp 0)))
      modify (Handler.setWorking id (clock.stamp 1))
      let result ← agent (bytes "a2a_" ++ id) text
      modify (Handler.complete id result (clock.stamp 2))
      pure (.object [(bytes "id", .str id), (bytes "status", .str A2aTaskStatus.completed.text),
        (bytes "artifacts", textArtifacts result), (bytes "created_at", .str (clock.stamp 0)),
        (bytes "updated_at", .str (clock.stamp 3))])

def jsonRpcError (code : ℤ) (message : Bytes) (id : Json) : Json :=
  .object [(bytes "jsonrpc", .str (bytes "2.0")), (bytes "id", id),
    (bytes "error", .object [(bytes "code", .int code), (bytes "message", .str message)])]

def jsonRpcResult (result id : Json) : Json :=
  .object [(bytes "jsonrpc", .str (bytes "2.0")), (bytes "id", id), (bytes "result", result)]

/-- The method handlers, behind the checks and the audit record. -/
def route (agent : Agent) (clock : Clock) (method : Bytes) (params id : Json) :
    Action Thrown Handler Json :=
  if method = bytes "tasks/send" then do
    let result ← taskSend agent clock params
    pure (jsonRpcResult result id)
  else if method = bytes "tasks/get" then do
    let h ← get
    pure (jsonRpcResult (h.taskGet params) id)
  else if method = bytes "tasks/cancel" then do
    let result ← modifyGet (Handler.taskCancel params (clock.stamp 0))
    pure (jsonRpcResult result id)
  else pure (jsonRpcError (-32601) (bytes "Method not found: " ++ method) id)

def requestId (request : Json) : Except JsonException Json :=
  request.value .ok (bytes "id") .null

def handleJsonRpc (agent : Agent) (clock : Clock) (request : Json) : Action Thrown Handler Json :=
  if request.member? (bytes "jsonrpc") ≠ some (.str (bytes "2.0")) then do
    let id ← liftM (caught (requestId request))
    pure (jsonRpcError (-32600) (bytes "Invalid Request") id)
  else
    match request.member? (bytes "method") with
    | some (.str method) => do
      let id ← liftM (caught (requestId request))
      let params ← liftM (caught (request.value .ok (bytes "params") (.object [])))
      route agent clock method params id
    | _ => do
      let id ← liftM (caught (requestId request))
      pure (jsonRpcError (-32600) (bytes "Missing method") id)

end Requests

end A2aHandler
