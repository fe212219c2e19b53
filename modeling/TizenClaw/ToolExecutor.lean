import TizenClaw.IpcRequest
import TizenClaw.JsonRpc
import TizenClaw.SkillManifest
import TizenClaw.StreamDecoders

/-! The tool executor: what a client asks it for, the programs it runs for that, and the response
that it makes of their outputs. -/
namespace ToolExecutor

open ByteString JsonValue JsonDump JsonParse StreamDecoders IpcHandler TryBlock SkillManifest
open PipelineExecutor (getInt)

section Outputs

/-- Inside single quotes a quote is closed, escaped and opened again. -/
def escapeShellArg (s : Bytes) : Bytes :=
  0x27 :: (s.flatMap fun c => if c = 0x27 then [0x27, 0x5C, 0x27, 0x27] else [c]) ++ [0x27]

/-- A call of `fgets` that takes at most `n` bytes. -/
def fgets : ℕ → Bytes → Bytes × Bytes
  | 0, s => ([], s)
  | _ + 1, [] => ([], [])
  | n + 1, b :: s =>
    if b = newline then ([b], s)
    else
      let r := fgets n s
      (b :: r.1, r.2)

def readPieces : ℕ → Bytes → Bytes
  | 0, _ => []
  | n + 1, s =>
    if s = [] then []
    else
      let r := fgets 4095 s
      cString r.1 ++ readPieces n r.2

/-- The loop over the pipe of a command. Each piece is appended as a C string. -/
def readPipe (raw : Bytes) : Bytes := readPieces raw.length raw

/-- The last line, if it looks like JSON. -/
def extractJsonOutput (raw : Bytes) : Bytes :=
  let output := trimRight [newline] raw
  let lastLine := output.rtakeWhile (· ≠ newline)
  if lastLine.head? = some 0x7B ∨ lastLine.head? = some 0x5B then lastLine else output

/-- `WEXITSTATUS` under `WIFEXITED` -/
def exitCode (status : ℤ) : ℤ := if status % 128 = 0 then status / 256 % 256 else -1

def response (status output : Bytes) : Json :=
  .object [(bytes "status", .str status), (bytes "output", .str output)]

def okResponse (output : Bytes) : Json := response (bytes "ok") output
def errorResponse (output : Bytes) : Json := response (bytes "error") output

end Outputs

section System

/-- How a run of `RunCommand` ends. -/
inductive CommandRun where
  | refused
  | timedOut
  | ended (output : Bytes) (status : ℤ)
  deriving DecidableEq, Repr

inductive CliExecutionMode where
  | kInteractive
  | kStreaming
  | kPipe
  deriving DecidableEq, Repr

/-- An entry of `sessions_`. Its path comes from a request. -/
structure Session where
  id : Bytes
  toolName : Bytes
  active : Bool
  utf8 : Utf8.valid id = true ∧ Utf8.valid toolName = true

/-- What the executor asks of the system, of the code sandbox and of its Python, over their state.
None of these calls throws. A command comes with what it wrote and its status. -/
structure System (σ : Type) where
  pid : ℤ
  connectToSandbox : StateM σ Bool
  /-- The response to a payload, or nothing. -/
  exchange : Bytes → StateM σ (Option Bytes)
  isInitialized : StateM σ Bool
  runCode : Bytes → StateM σ (Bytes × ℤ)
  findPython3 : StateM σ Bytes
  mkstemps : StateM σ (Option Bytes)
  writeFile : Bytes → Bytes → StateM σ Unit
  unlink : Bytes → StateM σ Unit
  popen : Bytes → StateM σ (Option (Bytes × ℤ))
  fileExists : Bytes → StateM σ Bool
  readable : Bytes → StateM σ Bool
  skillFiles : Bytes → StateM σ SkillFiles
  runCommand : Bytes → StateM σ CommandRun
  /-- The time and the number in the identifier of a new session. -/
  createSession : Bytes → Bytes → CliExecutionMode → ℤ → StateM σ (Option (ℤ × ℤ))
  sendInput : Bytes → Bytes → ℤ → StateM σ Bytes
  readOutput : Bytes → ℤ → StateM σ Bytes
  /-- Nothing for a session that is not there. -/
  isActive : Bytes → StateM σ (Option Bool)
  closeSession : Bytes → StateM σ Unit
  listSessions : StateM σ (List Session)

variable {σ α : Type}

def call (x : StateM σ α) : Action Thrown σ α := ExceptT.lift x

end System

section Code

variable {σ : Type} (sys : System σ) (readFloat : Bytes → Option NumberText)

/-- Every failure gives null. -/
def forwardRequest (req : Json) : Action Thrown σ Json := do
  if ← call sys.connectToSandbox then
    let payload ← liftM (caught (dump req))
    match ← call (sys.exchange payload) with
    | none => pure .null
    | some text => match parse readFloat text with
      | .ok j => pure j
      | .error _ => pure .null
  else pure .null

/-- Where code ran, and what came of it. -/
inductive CodeRun where
  | sandbox (reply : Json)
  | inProcess (output : Bytes) (rc : ℤ)
  | script (raw : Bytes) (status : ℤ)
  | failed (message : Bytes)

def CodeRun.response : CodeRun → Json
  | .sandbox reply => reply
  | .inProcess output rc =>
    if rc ≠ 0 ∧ output = [] then
      errorResponse (bytes "Python execution failed (rc=" ++ decimalInt rc ++ bytes ")")
    else if rc ≠ 0 then errorResponse (output.take 500)
    else okResponse (extractJsonOutput output)
  | .script raw status =>
    if status ≠ 0 then
      errorResponse (bytes "exit " ++ decimalInt status ++ bytes ": " ++ (readPipe raw).take 500)
    else okResponse (extractJsonOutput (readPipe raw))
  | .failed message => errorResponse message

/-- The last of the fallbacks: a script of its own. -/
def runScript (code : Bytes) : StateM σ CodeRun := do
  let python ← sys.findPython3
  if python = [] then pure (.failed (bytes "python3 not found"))
  else
    match ← sys.mkstemps with
    | none => pure (.failed (bytes "Failed to create temp file"))
    | some path =>
      sys.writeFile path code
      let ran ← sys.popen (python ++ [space] ++ escapeShellArg path)
      sys.unlink path
      match ran with
      | none => pure (.failed (bytes "popen failed"))
      | some (raw, status) => pure (.script raw status)

def runLocally (code : Bytes) : StateM σ CodeRun := do
  if ← sys.isInitialized then
    let (output, rc) ← sys.runCode code
    pure (.inProcess output rc)
  else runScript sys code

def codeRequest (code : Bytes) (timeout : ℤ) : Json :=
  .object [(bytes "command", .str (bytes "execute_code")), (bytes "code", .str code),
    (bytes "timeout", .int timeout)]

def handleExecuteCode (code : Bytes) (timeout : ℤ) : Action Thrown σ CodeRun := do
  let reply ← forwardRequest sys readFloat (codeRequest code timeout)
  if reply.empty then call (runLocally sys code) else pure (.sandbox reply)

def packageRequest (type name : Bytes) : Json :=
  .object [(bytes "command", .str (bytes "install_package")), (bytes "type", .str type),
    (bytes "name", .str name)]

def handleInstallPackage (type name : Bytes) : Action Thrown σ Json := do
  let reply ← forwardRequest sys readFloat (packageRequest type name)
  if reply.empty then
    pure (errorResponse (bytes "Code sandbox not available for package installation"))
  else pure reply

end Code

section Cli

variable {σ : Type} (sys : System σ) (readFloat : Bytes → Option NumberText)

inductive CliRun where
  | notFound (binPath : Bytes)
  | noPipe
  | ran (raw : Bytes) (status : ℤ)

def binPath (cliTool : Bytes) : Bytes :=
  if cliTool.head? = some 0x2F then cliTool else bytes "/usr/bin/" ++ cliTool

def runCli (cliTool cliArgs : Bytes) : StateM σ CliRun := do
  if ← sys.fileExists (binPath cliTool) then
    match ← sys.popen (binPath cliTool ++ [space] ++ cliArgs ++ bytes " 2>&1") with
    | none => pure .noPipe
    | some (raw, status) => pure (.ran raw status)
  else pure (.notFound (binPath cliTool))

/-- The `try` around the parser and its handler. What has been parsed stays in `result`. -/
def cliResult (cliTool output : Bytes) (code : ℤ) : Except JsonException Json :=
  let handler := fun result : Json =>
    (Json.assign (bytes "tool") (.str cliTool) result).bind
      (Json.assign (bytes "output") (.str output))
  match parse readFloat output with
  | .error _ => handler (.object [(bytes "exit_code", .int code)])
  | .ok parsed => match Json.assign (bytes "exit_code") (.int code) parsed with
    | .ok result => .ok result
    | .error _ => handler parsed

def CliRun.response (cliTool : Bytes) : CliRun → Except JsonException Json
  | .notFound path => .ok (errorResponse (bytes "CLI binary not found: " ++ path))
  | .noPipe => .ok (errorResponse (bytes "popen failed for " ++ cliTool))
  | .ran raw status =>
    ((cliResult readFloat cliTool (trimRight [newline] (readPipe raw)) (exitCode status)).bind
      dump).map okResponse

end Cli

section Tools

variable {σ : Type} (sys : System σ) (readFloat : Bytes → Option NumberText)

def kToolSearchPaths : List Bytes :=
  [bytes "/opt/usr/share/tizen-tools/skills", bytes "/opt/usr/share/tizen-tools/custom_skills",
    bytes "/opt/usr/share/tizen-tools/cli"]

/-- The first manifest on the search path that is not empty. -/
def findManifest (toolName : Bytes) : List Bytes → StateM σ (Option Json)
  | [] => pure none
  | base :: bases => do
    let files ← sys.skillFiles (base ++ [0x2F] ++ toolName)
    let j := load readFloat files
    if j.empty then findManifest toolName bases else pure (some j)

/-- `entry_point`, or else `entrypoint`. -/
def entryText (j : Json) : Except JsonException Bytes :=
  match j.member? (bytes "entry_point") with
  | some v => v.getString
  | none => match j.member? (bytes "entrypoint") with
    | some v => v.getString
    | none => .ok []

def defaultEntry (toolName runtime : Bytes) : Bytes :=
  if runtime = bytes "python" then toolName ++ bytes ".py"
  else if runtime = bytes "node" then toolName ++ bytes ".js"
  else toolName

/-- The runtime and the entry point in a manifest. -/
def readRuntime (toolName : Bytes) (j : Json) : Except JsonException (Bytes × Bytes) :=
  (j.valueString (bytes "runtime") (bytes "python")).bind fun runtime =>
  (entryText j).map fun ep =>
    (runtime, if ep = [] then defaultEntry toolName runtime else ep.rtakeWhile (· ≠ space))

def detectRuntime (toolName : Bytes) : Action Thrown σ (Bytes × Bytes) := do
  match ← call (findManifest sys readFloat toolName kToolSearchPaths) with
  | none => pure (bytes "python", toolName ++ bytes ".py")
  | some j => liftM (caught (readRuntime toolName j))

def findToolScript (toolName entryPoint : Bytes) : List Bytes → StateM σ (Option Bytes)
  | [] => pure none
  | base :: bases => do
    let path := base ++ [0x2F] ++ toolName ++ [0x2F] ++ entryPoint
    if ← sys.readable path then pure (some path) else findToolScript toolName entryPoint bases

inductive ToolRun where
  | noEntry
  | noPython
  | ran (run : CommandRun)

/-- `RunCommand` as a pair of its output and code. -/
def CommandRun.result : CommandRun → Bytes × ℤ
  | .refused => ([], -1)
  | .timedOut => (bytes "Execution timed out after 30s", -1)
  | .ended output status => (output, exitCode status)

def ToolRun.response (toolName : Bytes) : ToolRun → Json
  | .noEntry => errorResponse (bytes "Entry point not found for tool: " ++ toolName)
  | .noPython => errorResponse (bytes "python3 not found")
  | .ran run =>
    if run.result.2 ≠ 0 then
      errorResponse (bytes "exit " ++ decimalInt run.result.2 ++ bytes ": " ++
        run.result.1.take 500)
    else okResponse (extractJsonOutput run.result.1)

/-- The tool with the entry point that was detected. -/
def runTool (toolName argsStr runtime entryPoint : Bytes) : StateM σ ToolRun := do
  match ← findToolScript sys toolName entryPoint kToolSearchPaths with
  | none => pure .noEntry
  | some script =>
    let env := bytes "CLAW_ARGS=" ++ escapeShellArg argsStr
    if runtime = bytes "python" then
      let python ← sys.findPython3
      if python = [] then pure .noPython
      else
        let run ← sys.runCommand (env ++ [space] ++ python ++ [space] ++ escapeShellArg script)
        pure (.ran run)
    else if runtime = bytes "node" then
      let run ← sys.runCommand (env ++ bytes " /usr/bin/node " ++ escapeShellArg script)
      pure (.ran run)
    else
      let run ← sys.runCommand (env ++ [space] ++ escapeShellArg script)
      pure (.ran run)

def handleTool (toolName argsStr : Bytes) : Action Thrown σ Json := do
  let detected ← detectRuntime sys readFloat toolName
  let run ← call (runTool sys toolName argsStr detected.1 detected.2)
  pure (run.response toolName)

end Tools

section Sessions

variable {σ : Type} (sys : System σ)

def sessionMode (mode : Bytes) : CliExecutionMode :=
  if mode = bytes "streaming" then .kStreaming
  else if mode = bytes "pipe" then .kPipe
  else .kInteractive

/-- `GenerateSessionId` -/
def sessionId (time seq : ℤ) : Bytes :=
  bytes "cli_" ++ decimalInt time ++ bytes "_" ++ decimalInt seq

def startSession (cliTool cliArgs mode : Bytes) (timeout : ℤ) : StateM σ Json := do
  match ← sys.createSession (binPath cliTool) cliArgs (sessionMode mode) timeout with
  | none => pure (errorResponse (bytes "Failed to start session"))
  | some (time, seq) => pure (.object [(bytes "status", .str (bytes "ok")),
      (bytes "session_id", .str (sessionId time seq)), (bytes "mode", .str mode)])

def sendToSession (sid input : Bytes) (timeout : ℤ) : StateM σ Json := do
  let output ← sys.sendInput sid input timeout
  pure (.object [(bytes "status", .str (bytes "ok")), (bytes "session_id", .str sid),
    (bytes "output", .str output)])

def readSession (sid : Bytes) (timeout : ℤ) : StateM σ Json := do
  let output ← sys.readOutput sid timeout
  let active ← sys.isActive sid
  pure (.object [(bytes "status", .str (bytes "ok")), (bytes "session_id", .str sid),
    (bytes "output", .str output), (bytes "active", .bool (active.getD false))])

def Session.json (s : Session) : Json :=
  .object [(bytes "id", .str s.id), (bytes "tool", .str s.toolName),
    (bytes "active", .bool s.active)]

def listOfSessions : StateM σ Json := do
  let sessions ← sys.listSessions
  pure (.object [(bytes "status", .str (bytes "ok")),
    (bytes "sessions", .arr (sessions.map Session.json))])

end Sessions

section Client

variable {σ : Type} (sys : System σ) (readFloat : Bytes → Option NumberText)
  (truncate : NumberText → ℤ) (what : Bytes → Bytes)

/-- A text field of the request. -/
def text (req : Json) (key default : Bytes) : Action Thrown σ Bytes :=
  liftM (caught (req.valueString key default))

/-- An integer field of the request. -/
def integer (req : Json) (key : Bytes) (default : ℤ) : Action Thrown σ ℤ :=
  liftM (caught (req.value (getInt truncate) key default))

def kCodeExecTimeout : ℤ := 15

/-- The branches of `HandleClient`, each with the fields that it reads. -/
def handle (req : Json) : Action Thrown σ Json := do
  let command ← text req (bytes "command") []
  if command = bytes "diag" then
    pure (okResponse (bytes "tool-executor alive, pid=" ++ decimalInt sys.pid))
  else if command = bytes "execute_code" then
    let code ← text req (bytes "code") []
    let timeout ← integer truncate req (bytes "timeout") kCodeExecTimeout
    if code = [] then pure (errorResponse (bytes "No code provided"))
    else
      let run ← handleExecuteCode sys readFloat code timeout
      pure run.response
  else if command = bytes "install_package" then
    let type ← text req (bytes "type") (bytes "pip")
    let name ← text req (bytes "name") []
    if name = [] then pure (errorResponse (bytes "No package name"))
    else handleInstallPackage sys readFloat type name
  else if command = bytes "execute_cli" then
    let cliTool ← text req (bytes "tool_name") []
    let cliArgs ← text req (bytes "arguments") []
    let _ ← integer truncate req (bytes "timeout") 10
    if cliTool = [] then pure (errorResponse (bytes "No tool_name"))
    else
      let run ← call (runCli sys cliTool cliArgs)
      liftM (caught (run.response readFloat cliTool))
  else if command = bytes "execute_cli_session" then
    let cliTool ← text req (bytes "tool_name") []
    let cliArgs ← text req (bytes "arguments") []
    let mode ← text req (bytes "mode") (bytes "interactive")
    let timeout ← integer truncate req (bytes "timeout") 60
    call (startSession sys cliTool cliArgs mode timeout)
  else if command = bytes "cli_session_send" then
    let sid ← text req (bytes "session_id") []
    let input ← text req (bytes "input") []
    let timeout ← integer truncate req (bytes "read_timeout_ms") 2000
    call (sendToSession sys sid input timeout)
  else if command = bytes "cli_session_read" then
    let sid ← text req (bytes "session_id") []
    let timeout ← integer truncate req (bytes "read_timeout_ms") 1000
    call (readSession sys sid timeout)
  else if command = bytes "cli_session_close" then
    let sid ← text req (bytes "session_id") []
    call (sys.closeSession sid)
    pure (.object [(bytes "status", .str (bytes "ok"))])
  else if command = bytes "cli_session_list" then call (listOfSessions sys)
  else
    let tool ← text req (bytes "tool") []
    let args ← text req (bytes "args") (bytes "\x7b\x7d")
    if tool = [] then pure (errorResponse (bytes "No tool specified"))
    else handleTool sys readFloat tool args

/-- The payload of the response to a payload. `what` is the message of the parser's exception. -/
def respond (raw : Bytes) : Action Thrown σ Bytes :=
  match parse readFloat raw with
  | .error _ => liftM (caught (dump (errorResponse (bytes "Bad JSON: " ++ what raw))))
  | .ok req => do
    let resp ← handle sys readFloat truncate req
    liftM (caught (dump resp))

/-- The loop of `HandleClient` behind the check of the peer, for a client that takes its
responses: what is sent for each payload, or the exception that ends the thread. -/
def handleClient : List Bytes → σ → List (Except Thrown Bytes)
  | [], _ => []
  | raw :: payloads, s =>
    let x := (respond sys readFloat truncate what raw).run s
    x.1 :: if x.1.toBool then handleClient payloads x.2 else []

end Client

end ToolExecutor
