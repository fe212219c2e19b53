import TizenClaw.JsonStorable
import TizenClaw.ToolExecutor

/-! How often a skill, a command or a piece of code is run for one request of the agent: by the tool
executor behind its socket, by the code sandbox behind the executor, and by the fallbacks of both.
The runs are counted beside the state of the system. -/
namespace ToolRuns

open ByteString JsonValue JsonDump JsonParse JsonRoundTrip JsonStorable TryBlock SkillManifest
  ToolExecutor
open IpcHandler (Thrown caught)
open PipelineExecutor (wrap32)

section Executor

variable {σ α : Type}

/-- A call of the system, with the runs that it adds. -/
def counting (x : StateM σ α) (runs : α → ℕ) : StateM (σ × ℕ) α := fun t =>
  let y := x t.1
  (y.1, (y.2, t.2 + runs y.1))

/-- The system of the executor with a counter. `sandboxRuns` and `pythonRuns` say whether the sandbox
and the Python of the executor get so far as to run the code. -/
def counted (sys : System σ) (sandboxRuns pythonRuns : Bytes → σ → Bool) : System (σ × ℕ) where
  pid := sys.pid
  connectToSandbox := counting sys.connectToSandbox fun _ => 0
  exchange payload := fun t =>
    counting (sys.exchange payload) (fun _ => if sandboxRuns payload t.1 then 1 else 0) t
  isInitialized := counting sys.isInitialized fun _ => 0
  runCode code := fun t =>
    counting (sys.runCode code) (fun _ => if pythonRuns code t.1 then 1 else 0) t
  findPython3 := counting sys.findPython3 fun _ => 0
  mkstemps := counting sys.mkstemps fun _ => 0
  writeFile path s := counting (sys.writeFile path s) fun _ => 0
  unlink path := counting (sys.unlink path) fun _ => 0
  popen cmd := counting (sys.popen cmd) fun ran => if ran.isSome then 1 else 0
  fileExists path := counting (sys.fileExists path) fun _ => 0
  readable path := counting (sys.readable path) fun _ => 0
  skillFiles dir := counting (sys.skillFiles dir) fun _ => 0
  runCommand cmd := counting (sys.runCommand cmd) fun run => if run = .refused then 0 else 1
  createSession path args mode timeout :=
    counting (sys.createSession path args mode timeout) fun _ => 0
  sendInput sid input timeout := counting (sys.sendInput sid input timeout) fun _ => 0
  readOutput sid timeout := counting (sys.readOutput sid timeout) fun _ => 0
  isActive sid := counting (sys.isActive sid) fun _ => 0
  closeSession sid := counting (sys.closeSession sid) fun _ => 0
  listSessions := counting sys.listSessions fun _ => 0

end Executor

section Model

/-- What comes back over the socket: nothing in time, the response of the executor, or other bytes. -/
inductive Answer where
  | lost
  | whole
  | garbled (text : Bytes)

/-- What becomes of a request. The executor may be gone before it serves a request that was sent. -/
inductive Delivery where
  | notConnected
  | notSent
  | sent (served : Bool) (answer : Answer)

/-- What the agent finds on its own host. A command is not started, or leaves its output and code; a
pipe gives what was written to it and the status. -/
structure Host where
  initialized : Bool
  skillDirs : Bytes → Option Bytes
  skillsDir : Bytes
  skillFiles : Bytes → SkillFiles
  readable : Bytes → Bool
  python : Bytes
  runCommand : Bytes → Option (Bytes × ℤ)
  hasTool : Bytes → Bool
  validateArguments : Bytes → Bytes → Bytes
  getTimeout : Bytes → Int32
  resolve : Bytes → Bytes
  cliDirs : Bytes → Option Bytes
  fileExists : Bytes → Bool
  popen : Bytes → Option (Bytes × ℤ)

variable {σ : Type} (sys : System σ) (readFloat : Bytes → Option NumberText)
  (truncate : NumberText → ℤ) (what : Bytes → Bytes) (host : Host) (delivery : Delivery)

def kMaxPayload : ℕ := 10 * 1024 * 1024

/-- One turn of the executor on the new connection. -/
def serve (payload : Bytes) : Action Thrown σ Bytes :=
  if payload.length > kMaxPayload then
    liftM (caught (dump (errorResponse (bytes "Payload too large"))))
  else respond sys readFloat truncate what payload

/-- What the agent receives. An exception ends the thread of the executor without a response. -/
def received : Answer → Option (Except Thrown Bytes) → Option Bytes
  | .lost, _ => none
  | .whole, some (.ok text) => some text
  | .whole, _ => none
  | .garbled text, _ => some text

/-- The request over the socket. -/
def exchange (req : Json) : Action Thrown σ (Option Bytes) :=
  match delivery with
  | .notConnected => pure none
  | .notSent => do
    let _ ← liftM (caught (dump req))
    pure none
  | .sent served answer => do
    let payload ← liftM (caught (dump req))
    if served then
      let sent ← call (serve sys readFloat truncate what payload).run
      pure (received answer (some sent))
    else pure (received answer none)

def emptyObject : Bytes := bytes "\x7b\x7d"

def isSession (req : Json) : Except JsonException Bool :=
  match req.member? (bytes "command") with
  | none => .ok false
  | some command => command.getString.map fun s => (find (bytes "session") s).isSome

/-- What a response stands for, or `{}`. -/
def readAnswer (req : Json) (text : Bytes) : Bytes :=
  if text.length > kMaxPayload then emptyObject
  else
    let result : Except JsonException Bytes := do
      let resp ← parse readFloat text
      let status ← resp.valueString (bytes "status") (bytes "error")
      if status = bytes "ok" then
        if ← isSession req then dump resp else resp.valueString (bytes "output") []
      else dump resp
    match result with
    | .ok s => s
    | .error _ => emptyObject

def executeToolExecutorCommand (req : Json) : Action Thrown σ Bytes := do
  let text ← exchange sys readFloat truncate what delivery req
  pure ((text.map (readAnswer readFloat req)).getD emptyObject)

/-- `ContainerEngine::ExecuteCode` and `AgentCore::ExecuteCode` -/
def executeCode (code : Bytes) : Action Thrown σ Bytes := do
  if host.initialized then
    let response ← executeToolExecutorCommand sys readFloat truncate what delivery
      (codeRequest code 15)
    pure (if response = [] then bytes "\x7b\"error\": \"Code execution failed\"\x7d" else response)
  else pure emptyObject

def cliRequest (toolName arguments : Bytes) (timeout : ℤ) : Json :=
  .object [(bytes "command", .str (bytes "execute_cli")), (bytes "tool_name", .str toolName),
    (bytes "arguments", .str arguments), (bytes "timeout", .int timeout)]

/-- `ContainerEngine::ExecuteCliTool` -/
def executeCliTool (toolName arguments : Bytes) (timeout : ℤ) : Action Thrown σ Bytes :=
  if host.initialized then
    executeToolExecutorCommand sys readFloat truncate what delivery
      (cliRequest toolName arguments timeout)
  else pure emptyObject

end Model

section Agent

variable {σ : Type} (sys : System (σ × ℕ)) (readFloat : Bytes → Option NumberText)
  (truncate : NumberText → ℤ) (what : Bytes → Bytes) (host : Host) (delivery : Delivery)

/-- A run on the host of the agent. -/
def hostRun : Action Thrown (σ × ℕ) Unit := modify fun t => (t.1, t.2 + 1)

def extractJsonResult (raw : Bytes) : Bytes :=
  let trimmed := trimRight [newline, 0x0D, space] raw
  let last := trimmed.rtakeWhile (· ≠ newline)
  if newline ∈ trimmed ∧ (last.head? = some 0x7B ∨ last.head? = some 0x5B) then last else trimmed

def detectSkillRuntime (skillName : Bytes) : Except JsonException (Bytes × Bytes) :=
  let j := load readFloat (host.skillFiles (host.skillsDir ++ [0x2F] ++ skillName))
  if j.empty then .ok (bytes "python", skillName ++ bytes ".py") else readRuntime skillName j

def errorObject (members : List (Bytes × Json)) : Action Thrown (σ × ℕ) Bytes :=
  liftM (caught (dump (.object members)))

/-- The command of a skill, where its interpreter is there. -/
def skillCommand (runtime path argStr : Bytes) : Option Bytes :=
  let env := bytes "CLAW_ARGS=" ++ escapeShellArg argStr
  if runtime = bytes "python" then
    if host.python = [] then none
    else some (env ++ bytes " LD_LIBRARY_PATH=/usr/lib:/usr/lib64:/lib:/lib64 " ++ host.python ++
      [space] ++ escapeShellArg path)
  else if runtime = bytes "node" then
    some (env ++ bytes " /usr/bin/node " ++ escapeShellArg path)
  else some (env ++ [space] ++ escapeShellArg path)

def hostSkillPath (skillName entry : Bytes) : Bytes :=
  host.skillsDir ++ [0x2F] ++ skillName ++ [0x2F] ++ entry

def hostSkillResult (output : Bytes) (rc : ℤ) : Action Thrown (σ × ℕ) Bytes :=
  if rc ≠ 0 ∨ output = [] then
    errorObject [(bytes "error", .str (bytes "Skill failed with exit " ++ decimalInt rc)),
      (bytes "details", .str (output.take 500))]
  else pure (extractJsonResult output)

/-- The host-direct fallback. -/
def hostSkill (skillName argStr : Bytes) : Action Thrown (σ × ℕ) Bytes := do
  let (runtime, entry) ← liftM (caught (detectSkillRuntime readFloat host skillName))
  let path := hostSkillPath host skillName entry
  if host.readable path then
    match skillCommand host runtime path argStr with
    | none => errorObject [(bytes "error", .str (bytes "python3 not found on host or rootfs"))]
    | some cmd =>
      if (host.runCommand cmd).isSome then hostRun
      let (output, rc) := (host.runCommand cmd).getD ([], -1)
      hostSkillResult output rc
  else
    errorObject [(bytes "error", .str (bytes "Skill entry point not found: " ++ path))]

def skillRequest (skillName argStr : Bytes) : Json :=
  .object [(bytes "tool", .str skillName), (bytes "args", .str argStr)]

/-- A result that the agent does not take for one of the skill. -/
def unusableSkill (result : Bytes) : Bool :=
  if result = [] ∨ result = emptyObject then true
  else match parse readFloat result with
    | .error _ => false
    | .ok rj => match rj.member? (bytes "error") with
      | some (.str _) => true
      | _ => false

/-- `ContainerEngine::ExecuteSkill` -/
def containerSkill (skillName argStr : Bytes) : Action Thrown (σ × ℕ) Bytes := do
  if host.initialized then
    let result ← executeToolExecutorCommand sys readFloat truncate what delivery
      (skillRequest skillName argStr)
    if unusableSkill readFloat result then hostSkill readFloat host skillName argStr
    else pure result
  else pure emptyObject

/-- `AgentCore::ExecuteSkill` -/
def executeSkill (skillName : Bytes) (args : Json) : Action Thrown (σ × ℕ) Bytes := do
  let dirName := (host.skillDirs skillName).getD skillName
  let argStr ← liftM (caught (dump args))
  let response ← containerSkill sys readFloat truncate what host delivery dirName argStr
  pure (if response = [] then bytes "\x7b\"error\": \"Skill failed\"\x7d" else response)

/-- The fallback to a pipe, and the record of its output unless it is JSON. -/
def hostCli (path arguments noPipe : Bytes) (wrap : ℤ → Bytes → List (Bytes × Json)) :
    Action Thrown (σ × ℕ) Bytes :=
  match host.popen (path ++ [space] ++ arguments ++ bytes " 2>&1") with
  | none => pure noPipe
  | some (raw, status) => do
    hostRun
    let output := trimRight [newline] (readPipe raw)
    match (parse readFloat output).bind dump with
    | .ok s => pure s
    | .error _ => errorObject (wrap (exitCode status) output)

/-- A command by its own path, then on the host if nothing came of it. -/
def cliWithFallback (toolName path arguments noPipe : Bytes) (timeout : ℤ)
    (wrap : ℤ → Bytes → List (Bytes × Json)) : Action Thrown (σ × ℕ) Bytes := do
  let result ← executeCliTool sys readFloat truncate what host delivery toolName arguments timeout
  if result = [] ∨ result = emptyObject then hostCli readFloat host path arguments noPipe wrap
  else pure result

def pluginDir (toolName : Bytes) : Bytes := (host.cliDirs toolName).getD toolName

/-- The executable of a plugin has the name of its directory, or is called `executable`. -/
def pluginPath (toolName : Bytes) : Bytes :=
  let cliDir := bytes "/opt/usr/share/tizen-tools/cli/" ++ pluginDir host toolName
  let path := cliDir ++ [0x2F] ++ pluginDir host toolName
  if host.fileExists path then path else cliDir ++ bytes "/executable"

/-- `AgentCore::ExecuteCli`. `noPipe` is the text of an error of `popen`. -/
def executeCli (noPipe toolName arguments : Bytes) : Action Thrown (σ × ℕ) Bytes :=
  if toolName = [] then pure (bytes "\x7b\"error\": \"tool_name is required\"\x7d")
  else if host.hasTool toolName then
    if host.validateArguments toolName arguments ≠ [] then
      errorObject [(bytes "error", .str (host.validateArguments toolName arguments))]
    else
      cliWithFallback sys readFloat truncate what host delivery toolName (host.resolve toolName)
        arguments (bytes "\x7b\"error\": \"Failed to execute system CLI tool\"\x7d")
        (host.getTimeout toolName).toInt fun code output =>
          [(bytes "tool", .str toolName), (bytes "source", .str (bytes "system_cli")),
            (bytes "exit_code", .int code), (bytes "output", .str output)]
  else if host.fileExists (pluginPath host toolName) then
    cliWithFallback sys readFloat truncate what host delivery (pluginPath host toolName)
      (pluginPath host toolName) arguments noPipe 10 fun code output =>
        [(bytes "tool", .str toolName), (bytes "exit_code", .int code),
          (bytes "output", .str output)]
  else pure (bytes "\x7b\"error\": \"CLI tool not found: " ++ toolName ++ bytes "\"\x7d")

inductive Request where
  | skill (skillName : Bytes) (args : Json)
  | cli (toolName arguments : Bytes)
  | code (code : Bytes)

def execute (noPipe : Bytes) : Request → Action Thrown (σ × ℕ) Bytes
  | .skill skillName args => executeSkill sys readFloat truncate what host delivery skillName args
  | .cli toolName arguments =>
    executeCli sys readFloat truncate what host delivery noPipe toolName arguments
  | .code code => executeCode sys readFloat truncate what host delivery code

def hasError (output : Bytes) : Bool :=
  (find (bytes "\"error\"") output).isSome || (find (bytes "Skill failed") output).isSome ||
    output = []

/-- The loop over the attempts of a tool. -/
def attempts (tool : Action Thrown (σ × ℕ) Bytes) : ℕ → Action Thrown (σ × ℕ) Bytes
  | 0 => pure []
  | n + 1 => do
    let output ← tool
    if hasError output ∧ n ≠ 0 then attempts tool n else pure output

def kMaxToolRetries : ℕ := 1

/-- A request of the agent with its retries. -/
def runRequest (noPipe : Bytes) (r : Request) : Action Thrown (σ × ℕ) Bytes :=
  attempts (execute sys readFloat truncate what host delivery noPipe r) kMaxToolRetries

end Agent

section Tallies

variable {σ α β : Type} {x : StateM (σ × ℕ) α} {x' : StateM σ α} {n p : σ → ℕ}

/-- With the counter the executor does what it does without, and adds so many runs. -/
def Tallies (x : StateM (σ × ℕ) α) (x' : StateM σ α) (n : σ → ℕ) : Prop :=
  ∀ t, x t = ((x' t.1).1, (x' t.1).2, t.2 + n t.1)

theorem tallies_pure (a : α) : Tallies (pure a : StateM (σ × ℕ) α) (pure a) fun _ => 0 :=
  fun _ => rfl

theorem tallies_silent (x' : StateM σ α) : Tallies (counting x' fun _ => 0) x' fun _ => 0 :=
  fun _ => rfl

theorem tallies_bind {f : α → StateM (σ × ℕ) β} {f' : α → StateM σ β} {m : α → σ → ℕ}
    (hx : Tallies x x' n) (hf : ∀ a, Tallies (f a) (f' a) (m a))
    (h : ∀ s, p s = n s + m (x' s).1 (x' s).2) : Tallies (x >>= f) (x' >>= f') p := by
  intro t
  change f (x t).1 (x t).2 = _
  rw [hx t, hf, h, Nat.add_assoc]
  rfl

/-- Where the first part adds nothing, the runs are those of the second one. -/
theorem tallies_then {f : α → StateM (σ × ℕ) β} {f' : α → StateM σ β} {g : β → ℕ}
    (hx : Tallies x x' fun _ => 0) (hf : ∀ a, Tallies (f a) (f' a) fun s => g (f' a s).1) :
    Tallies (x >>= f) (x' >>= f') fun s => g ((x' >>= f') s).1 :=
  tallies_bind hx hf fun _ => (Nat.zero_add _).symm

/-- Where the second part adds nothing, the runs are those of the first one. -/
theorem tallies_last {f : α → StateM (σ × ℕ) β} {f' : α → StateM σ β} {g : α → ℕ} {g' : β → ℕ}
    (hx : Tallies x x' fun s => g (x' s).1) (hf : ∀ a, Tallies (f a) (f' a) fun _ => 0)
    (h : ∀ a s, g' (f' a s).1 = g a) : Tallies (x >>= f) (x' >>= f') fun s => g' ((x' >>= f') s).1 :=
  tallies_bind hx hf fun s => (h (x' s).1 (x' s).2).trans (Nat.add_zero _).symm

variable {y : Action Thrown (σ × ℕ) α} {y' : Action Thrown σ α}

/-- The runs behind an action, if it does not throw. -/
def runsAfter (m : α → σ → ℕ) : Except Thrown α × σ → ℕ
  | (.ok a, u) => m a u
  | (.error _, _) => 0

theorem tallies_run_bind {f : α → Action Thrown (σ × ℕ) β} {f' : α → Action Thrown σ β}
    {m : α → σ → ℕ} (hy : Tallies y.run y'.run n) (hf : ∀ a, Tallies (f a).run (f' a).run (m a)) :
    Tallies (y >>= f).run (y' >>= f').run fun s => n s + runsAfter m (y'.run s) := by
  intro t
  have hyt := hy t
  dsimp only
  rcases hy' : y'.run t.1 with ⟨r, u⟩
  rw [hy'] at hyt
  cases r with
  | error e =>
    rw [run_bind_error hyt, run_bind_error hy']
    rfl
  | ok a =>
    rw [run_bind hyt, run_bind hy', hf, Nat.add_assoc]
    rfl

@[simp] theorem runsAfter_zero : (r : Except Thrown α × σ) → runsAfter (fun _ _ => 0) r = 0
  | (.ok _, _) => rfl
  | (.error _, _) => rfl

theorem tallies_lift (r : Except Thrown α) :
    Tallies (liftM r : Action Thrown (σ × ℕ) α).run (liftM r : Action Thrown σ α).run
      fun _ => 0 := by
  intro t
  cases r with
  | error e => rfl
  | ok a => rfl

theorem tallies_ok (a : α) :
    Tallies (pure a : Action Thrown (σ × ℕ) α).run (pure a : Action Thrown σ α).run fun _ => 0 :=
  fun _ => rfl

theorem run_call (x : StateM σ α) (s : σ) :
    (call x : Action Thrown σ α).run s = (.ok (x s).1, (x s).2) := rfl

theorem tallies_call (h : Tallies x x' n) : Tallies (call x).run (call x').run n := by
  intro t
  change (Except.ok (x t).1, (x t).2) = _
  rw [h t]
  rfl

theorem Tallies.congr (h : Tallies x x' n) (hp : ∀ s, p s = n s) : Tallies x x' p := by
  rw [funext hp]
  exact h

end Tallies

section Executor

variable {σ : Type} (sys : System σ) (sandboxRuns pythonRuns : Bytes → σ → Bool)
  (readFloat : Bytes → Option NumberText)

/-- The runs of a tool, of a command and of a script, by what came of them. -/
def ToolRun.count : ToolRun → ℕ
  | .ran run => if run = .refused then 0 else 1
  | _ => 0

def CliRun.count : CliRun → ℕ
  | .ran _ _ => 1
  | _ => 0

def CodeRun.count : CodeRun → ℕ
  | .script _ _ => 1
  | _ => 0

/-- The runs of the tool that a skill request names. -/
def toolRuns (toolName argsStr : Bytes) (s : σ) : ℕ :=
  runsAfter (fun d t => ToolRun.count (runTool sys toolName argsStr d.1 d.2 t).1)
    ((detectRuntime sys readFloat toolName).run s)

/-- The runs of code in the sandbox. -/
def sandboxCount (req : Json) (s : σ) : ℕ :=
  let connected := sys.connectToSandbox s
  match connected.1, dump req with
  | true, .ok payload => if sandboxRuns payload connected.2 then 1 else 0
  | _, _ => 0

/-- The runs of code by the Python of the executor, or as a script. -/
def localCount (code : Bytes) (s : σ) : ℕ :=
  let initialized := sys.isInitialized s
  if initialized.1 then if pythonRuns code initialized.2 then 1 else 0
  else CodeRun.count (runScript sys code initialized.2).1

/-- The runs of code for a request of the agent. -/
def codeRuns (code : Bytes) (s : σ) : ℕ :=
  sandboxCount sys sandboxRuns (codeRequest code 15) s +
    runsAfter (fun reply t => if reply.empty then localCount sys pythonRuns code t else 0)
      ((forwardRequest sys readFloat (codeRequest code 15)).run s)

variable {sys sandboxRuns pythonRuns readFloat}

theorem tallies_findManifest (toolName : Bytes) (bases : List Bytes) :
    Tallies (findManifest (counted sys sandboxRuns pythonRuns) readFloat toolName bases)
      (findManifest sys readFloat toolName bases) fun _ => 0 := by
  induction bases with
  | nil => exact tallies_pure none
  | cons base bases ih =>
    refine tallies_then (g := fun _ => 0) (tallies_silent _) fun files => ?_
    dsimp only
    split_ifs
    · exact ih
    · exact tallies_pure _

theorem tallies_detectRuntime (toolName : Bytes) :
    Tallies (detectRuntime (counted sys sandboxRuns pythonRuns) readFloat toolName).run
      (detectRuntime sys readFloat toolName).run fun _ => 0 := by
  refine (tallies_run_bind (m := fun _ _ => 0) (tallies_call (tallies_findManifest _ _))
    fun found => ?_).congr fun s => ?_
  · cases found with
    | none => exact tallies_ok _
    | some j => exact tallies_lift _
  · rcases (call (findManifest sys readFloat toolName kToolSearchPaths)).run s with ⟨_ | _, _⟩
    · rfl
    · rfl

theorem tallies_findToolScript (toolName entryPoint : Bytes) (bases : List Bytes) :
    Tallies (findToolScript (counted sys sandboxRuns pythonRuns) toolName entryPoint bases)
      (findToolScript sys toolName entryPoint bases) fun _ => 0 := by
  induction bases with
  | nil => exact tallies_pure none
  | cons base bases ih =>
    refine tallies_then (g := fun _ => 0) (tallies_silent _) fun readable => ?_
    split_ifs
    · exact tallies_pure _
    · exact ih

theorem tallies_runTool (toolName argsStr runtime entryPoint : Bytes) :
    Tallies (runTool (counted sys sandboxRuns pythonRuns) toolName argsStr runtime entryPoint)
      (runTool sys toolName argsStr runtime entryPoint)
      fun s => ToolRun.count (runTool sys toolName argsStr runtime entryPoint s).1 := by
  have hrun : ∀ cmd, Tallies
      ((counted sys sandboxRuns pythonRuns).runCommand cmd >>= fun run => pure (ToolRun.ran run))
      (sys.runCommand cmd >>= fun run => pure (ToolRun.ran run))
      fun s => ToolRun.count ((sys.runCommand cmd >>= fun run => pure (ToolRun.ran run)) s).1 :=
    fun cmd => tallies_last (g := fun run => if run = .refused then 0 else 1) (fun _ => rfl)
      (fun _ => tallies_pure _) fun _ _ => rfl
  refine tallies_then (g := ToolRun.count) (tallies_findToolScript _ _ _) fun found => ?_
  cases found with
  | none => exact tallies_pure _
  | some script =>
    dsimp only
    split_ifs
    · refine tallies_then (g := ToolRun.count) (tallies_silent _) fun python => ?_
      split_ifs
      · exact tallies_pure _
      · exact hrun _
    · exact hrun _
    · exact hrun _

theorem tallies_handleTool (toolName argsStr : Bytes) :
    Tallies (handleTool (counted sys sandboxRuns pythonRuns) readFloat toolName argsStr).run
      (handleTool sys readFloat toolName argsStr).run (toolRuns sys readFloat toolName argsStr) := by
  refine (tallies_run_bind (tallies_detectRuntime _) fun d =>
    tallies_run_bind (tallies_call (tallies_runTool _ _ _ _)) fun _ => tallies_ok _).congr
      fun s => ?_
  simp [toolRuns]

theorem tallies_runCli (cliTool cliArgs : Bytes) :
    Tallies (runCli (counted sys sandboxRuns pythonRuns) cliTool cliArgs)
      (runCli sys cliTool cliArgs) fun s => CliRun.count (runCli sys cliTool cliArgs s).1 := by
  refine tallies_then (g := CliRun.count) (tallies_silent _) fun found => ?_
  split_ifs
  · refine tallies_last (g := fun ran => if ran.isSome then 1 else 0) (fun _ => rfl)
      (fun ran => ?_) fun ran s => ?_
    · cases ran with
      | none => exact tallies_pure _
      | some ran => exact tallies_pure _
    · cases ran with
      | none => rfl
      | some ran => rfl
  · exact tallies_pure _

theorem tallies_forwardRequest (req : Json) :
    Tallies (forwardRequest (counted sys sandboxRuns pythonRuns) readFloat req).run
      (forwardRequest sys readFloat req).run (sandboxCount sys sandboxRuns req) := by
  let asked (payload : Bytes) (s : σ) : ℕ := if sandboxRuns payload s then 1 else 0
  refine (tallies_run_bind (m := fun connected s => match connected, dump req with
      | true, .ok payload => asked payload s
      | _, _ => 0) (tallies_call (tallies_silent _)) fun connected => ?_).congr fun s => ?_
  · cases connected with
    | false => exact tallies_ok _
    | true =>
      refine (tallies_run_bind (m := asked) (tallies_lift _) fun payload => ?_).congr fun s => ?_
      · refine (tallies_run_bind (n := asked payload) (tallies_call fun _ => rfl)
          (m := fun _ _ => 0) fun reply => ?_).congr fun s => by simp
        rcases reply with _ | text
        · exact tallies_ok _
        · dsimp only
          cases parse readFloat text with
          | error e => exact tallies_ok _
          | ok j => exact tallies_ok _
      · cases dump req with
        | error e => rfl
        | ok payload => exact (Nat.zero_add _).symm
  · exact (Nat.zero_add _).symm

theorem tallies_runScript (code : Bytes) :
    Tallies (runScript (counted sys sandboxRuns pythonRuns) code) (runScript sys code)
      fun s => CodeRun.count (runScript sys code s).1 := by
  refine tallies_then (g := CodeRun.count) (tallies_silent _) fun python => ?_
  split_ifs
  · exact tallies_pure _
  refine tallies_then (g := CodeRun.count) (tallies_silent _) fun path => ?_
  cases path with
  | none => exact tallies_pure _
  | some path =>
    refine tallies_then (g := CodeRun.count) (tallies_silent _) fun _ => ?_
    refine tallies_last (g := fun ran => if ran.isSome then 1 else 0) (fun _ => rfl)
      (fun ran => tallies_bind (tallies_silent _) (m := fun _ _ => 0) (fun _ => ?_) fun _ => rfl)
      fun ran s => ?_
    · cases ran with
      | none => exact tallies_pure _
      | some ran => exact tallies_pure _
    · cases ran with
      | none => rfl
      | some ran => rfl

theorem tallies_runLocally (code : Bytes) :
    Tallies (runLocally (counted sys sandboxRuns pythonRuns) code) (runLocally sys code)
      (localCount sys pythonRuns code) := by
  refine tallies_bind (m := fun initialized s => if initialized then
      if pythonRuns code s then 1 else 0 else CodeRun.count (runScript sys code s).1)
    (tallies_silent _) (fun initialized => ?_) fun _ => (Nat.zero_add _).symm
  cases initialized with
  | false => exact tallies_runScript _
  | true =>
    exact tallies_bind (n := fun s => if pythonRuns code s then 1 else 0) (fun _ => rfl)
      (fun _ => tallies_pure _) fun _ => rfl

theorem tallies_handleExecuteCode (code : Bytes) :
    Tallies (handleExecuteCode (counted sys sandboxRuns pythonRuns) readFloat code 15).run
      (handleExecuteCode sys readFloat code 15).run
      (codeRuns sys sandboxRuns pythonRuns readFloat code) := by
  refine tallies_run_bind (tallies_forwardRequest _) fun reply => ?_
  cases reply.empty with
  | false => exact tallies_ok _
  | true => exact tallies_call (tallies_runLocally _)

end Executor

section Requests

variable {σ : Type} {sys : System σ} {sandboxRuns pythonRuns : Bytes → σ → Bool}
  {readFloat : Bytes → Option NumberText} {truncate : NumberText → ℤ} {what : Bytes → Bytes}

theorem text_ok {τ : Type} {req : Json} {key default s : Bytes}
    (h : req.valueString key default = .ok s) :
    (text req key default : Action Thrown τ Bytes) = pure s := by
  rw [text, h]
  rfl

/-- Texts and small integers under distinct keys are read back as they are written. -/
theorem storable_flat {m : List (Bytes × Json)} (hk : (m.map Prod.fst).Nodup)
    (hflat : ∀ e ∈ m, (∃ s, e.2 = .str s) ∨ ∃ i, e.2 = .int i ∧ InRange i)
    (hu : (Json.object m).utf8 = true) : Storable readFloat (.object m) := by
  rw [utf8_object _ rfl hk] at hu
  apply storable_object
  rw [storableMembers_iff]
  intro e he
  have hvalid : ∀ {m : List (Bytes × Json)}, utf8Members m = true →
      ∀ e ∈ m, Utf8.valid e.1 = true ∧ e.2.utf8 = true := by
    intro m
    induction m with
    | nil => exact fun _ _ h => absurd h List.not_mem_nil
    | cons x m ih =>
      intro h
      simp only [utf8Members, Bool.and_eq_true] at h
      rw [List.forall_mem_cons]
      exact ⟨h.1, ih h.2⟩
  obtain ⟨hkey, hvalue⟩ := hvalid hu e he
  refine ⟨hkey, ?_⟩
  rcases hflat e he with ⟨s, hs⟩ | ⟨i, hi, hr⟩
  · rw [hs] at hvalue ⊢
    exact hvalue
  · rw [hi]
    exact hr

theorem parse_dump {j : Json} {text : Bytes} (hs : j.utf8 = true → Storable readFloat j)
    (h : dump j = .ok text) : parse readFloat text = .ok j := by
  rw [dump, dumpWith] at h
  split_ifs at h with hu
  obtain rfl := Except.ok.inj h
  have hparse := parse_render whiteLayout_compact (hs hu) 0 white_nil white_nil
  rwa [List.append_nil, List.nil_append] at hparse

theorem storable_skillRequest (skillName argStr : Bytes)
    (h : (skillRequest skillName argStr).utf8 = true) :
    Storable readFloat (skillRequest skillName argStr) := by
  refine storable_flat ?_ ?_ h
  · have hkeys : [bytes "tool", bytes "args"].Nodup := by decide
    exact hkeys
  · simp

theorem storable_cliRequest (toolName arguments : Bytes) {timeout : ℤ} (ht : InRange timeout)
    (h : (cliRequest toolName arguments timeout).utf8 = true) :
    Storable readFloat (cliRequest toolName arguments timeout) := by
  refine storable_flat ?_ ?_ h
  · have hkeys : [bytes "command", bytes "tool_name", bytes "arguments", bytes "timeout"].Nodup := by
      decide
    exact hkeys
  · simpa using ht

theorem storable_codeRequest (code : Bytes) (h : (codeRequest code 15).utf8 = true) :
    Storable readFloat (codeRequest code 15) := by
  refine storable_flat ?_ ?_ h
  · have hkeys : [bytes "command", bytes "code", bytes "timeout"].Nodup := by decide
    exact hkeys
  · have hr : InRange 15 := by decide
    simpa using hr

theorem valueString_missing {m : List (Bytes × Json)} {key : Bytes}
    (h : (Json.object m).member? key = none) (d : Bytes) :
    (Json.object m).valueString key d = .ok d := by
  rw [Json.object, Json.member?] at h
  simp only [Json.object, Json.valueString, Json.value, h]

theorem integer_ok {τ : Type} {m : List (Bytes × Json)} {key : Bytes} {i default : ℤ}
    (h : (Json.object m).member? key = some (.int i)) :
    (integer truncate (.object m) key default : Action Thrown τ ℤ) = pure (wrap32 i) := by
  rw [Json.object, Json.member?] at h
  simp only [integer, Json.object, Json.value, h]
  rfl

/-- What the executor does for the request of a skill. -/
theorem handle_skillRequest (skillName argStr : Bytes) :
    handle sys readFloat truncate (skillRequest skillName argStr) =
      if skillName = [] then pure (errorResponse (bytes "No tool specified"))
      else handleTool sys readFloat skillName argStr := by
  have hnodup : ([bytes "tool", bytes "args"] : List Bytes).Nodup := by decide
  have hmember : ∀ key, (skillRequest skillName argStr).member? key =
      [(bytes "tool", Json.str skillName), (bytes "args", .str argStr)].lookup key :=
    member_object hnodup
  have hcommand : (skillRequest skillName argStr).valueString (bytes "command") [] = .ok [] :=
    valueString_missing ((hmember (bytes "command")).trans rfl) []
  have htool := valueString_of_member ((hmember (bytes "tool")).trans rfl) []
  have hargs := valueString_of_member ((hmember (bytes "args")).trans rfl) (bytes "\x7b\x7d")
  rw [handle, text_ok hcommand, pure_bind, if_neg (by decide), if_neg (by decide),
    if_neg (by decide), if_neg (by decide), if_neg (by decide), if_neg (by decide),
    if_neg (by decide), if_neg (by decide), if_neg (by decide), text_ok htool, pure_bind,
    text_ok hargs, pure_bind]

theorem handle_cliRequest (toolName arguments : Bytes) (timeout : ℤ) :
    handle sys readFloat truncate (cliRequest toolName arguments timeout) =
      if toolName = [] then pure (errorResponse (bytes "No tool_name"))
      else call (runCli sys toolName arguments) >>= fun run =>
        liftM (caught (run.response readFloat toolName)) := by
  have hnodup : ([bytes "command", bytes "tool_name", bytes "arguments", bytes "timeout"] :
    List Bytes).Nodup := by decide
  have hmember : ∀ key, (cliRequest toolName arguments timeout).member? key =
      [(bytes "command", Json.str (bytes "execute_cli")), (bytes "tool_name", .str toolName),
        (bytes "arguments", .str arguments), (bytes "timeout", .int timeout)].lookup key :=
    member_object hnodup
  have hcommand := valueString_of_member ((hmember (bytes "command")).trans rfl) []
  have htool := valueString_of_member ((hmember (bytes "tool_name")).trans rfl) []
  have hargs := valueString_of_member ((hmember (bytes "arguments")).trans rfl) []
  rw [handle, text_ok hcommand, pure_bind, if_neg (by decide), if_neg (by decide),
    if_neg (by decide), if_pos rfl, text_ok htool, pure_bind, text_ok hargs, pure_bind,
    cliRequest, integer_ok ((hmember (bytes "timeout")).trans rfl), pure_bind]

theorem handle_codeRequest (code : Bytes) :
    handle sys readFloat truncate (codeRequest code 15) =
      if code = [] then pure (errorResponse (bytes "No code provided"))
      else handleExecuteCode sys readFloat code 15 >>= fun run => pure run.response := by
  have hnodup : ([bytes "command", bytes "code", bytes "timeout"] : List Bytes).Nodup := by decide
  have hmember : ∀ key, (codeRequest code 15).member? key =
      [(bytes "command", Json.str (bytes "execute_code")), (bytes "code", .str code),
        (bytes "timeout", .int 15)].lookup key := member_object hnodup
  have hcommand := valueString_of_member ((hmember (bytes "command")).trans rfl) []
  have hvalue := valueString_of_member ((hmember (bytes "code")).trans rfl) []
  rw [handle, text_ok hcommand, pure_bind, if_neg (by decide), if_pos rfl, text_ok hvalue,
    pure_bind, codeRequest, integer_ok ((hmember (bytes "timeout")).trans rfl), pure_bind]
  rfl

end Requests

section Exchange

variable {σ : Type} {sys : System σ} {sandboxRuns pythonRuns : Bytes → σ → Bool}
  {readFloat : Bytes → Option NumberText} {truncate : NumberText → ℤ} {what : Bytes → Bytes}
  {req : Json} {n : σ → ℕ}

/-- The executor gets the whole request and does not refuse it. -/
def Delivery.serves (delivery : Delivery) (req : Json) : Bool :=
  match delivery, dump req with
  | .sent true _, .ok payload => payload.length ≤ kMaxPayload
  | _, _ => false

theorem tallies_serve {payload : Bytes} (hs : req.utf8 = true → Storable readFloat req)
    (hd : dump req = .ok payload)
    (h : Tallies (handle (counted sys sandboxRuns pythonRuns) readFloat truncate req).run
      (handle sys readFloat truncate req).run n) :
    Tallies (serve (counted sys sandboxRuns pythonRuns) readFloat truncate what payload).run
      (serve sys readFloat truncate what payload).run
      fun s => if payload.length ≤ kMaxPayload then n s else 0 := by
  rw [serve, serve]
  by_cases hlong : payload.length > kMaxPayload
  · simp only [if_pos hlong, if_neg (not_le.mpr hlong)]
    exact tallies_lift _
  · simp only [if_neg hlong, if_pos (not_lt.mp hlong), respond, parse_dump hs hd]
    exact (tallies_run_bind (m := fun _ _ => 0) h fun _ => tallies_lift _).congr
      fun s => by simp

theorem tallies_exchange (delivery : Delivery) (hs : req.utf8 = true → Storable readFloat req)
    (h : Tallies (handle (counted sys sandboxRuns pythonRuns) readFloat truncate req).run
      (handle sys readFloat truncate req).run n) :
    Tallies
      (exchange (counted sys sandboxRuns pythonRuns) readFloat truncate what delivery req).run
      (exchange sys readFloat truncate what delivery req).run
      fun s => if delivery.serves req then n s else 0 := by
  cases delivery with
  | notConnected => exact tallies_ok _
  | notSent =>
    exact (tallies_run_bind (m := fun _ _ => 0) (tallies_lift _) fun _ => tallies_ok _).congr
      fun s => by simp [Delivery.serves]
  | sent served answer =>
    cases hd : dump req with
    | error e =>
      refine Tallies.congr (n := fun _ => 0) (fun t => ?_) fun s => by simp [Delivery.serves, hd]
      rw [exchange, exchange, hd]
      rfl
    | ok payload =>
      have hfirst : ∀ {τ : Type} (f : Bytes → Action Thrown τ (Option Bytes)),
          liftM (caught (dump req)) >>= f = f payload := by
        intro τ f
        rw [hd]
        rfl
      rw [exchange, exchange, hfirst, hfirst]
      cases served with
      | false => exact (tallies_ok _).congr fun s => by simp [Delivery.serves]
      | true =>
        exact (tallies_run_bind (m := fun _ _ => 0) (tallies_call (tallies_serve hs hd h))
          fun _ => tallies_ok _).congr fun s => by simp [Delivery.serves, hd]

/-- The socket adds the runs of the executor, if the executor serves the request. -/
theorem tallies_executeToolExecutorCommand (delivery : Delivery)
    (hs : req.utf8 = true → Storable readFloat req)
    (h : Tallies (handle (counted sys sandboxRuns pythonRuns) readFloat truncate req).run
      (handle sys readFloat truncate req).run n) :
    Tallies
      (executeToolExecutorCommand (counted sys sandboxRuns pythonRuns) readFloat truncate what
        delivery req).run
      (executeToolExecutorCommand sys readFloat truncate what delivery req).run
      fun s => if delivery.serves req then n s else 0 :=
  (tallies_run_bind (m := fun _ _ => 0) (tallies_exchange delivery hs h) fun _ => tallies_ok _).congr
    fun s => by simp

/-- What comes back over the socket, where anything does. -/
def Delivery.answer : Delivery → Answer
  | .sent _ answer => answer
  | _ => .lost

/-- The agent has nothing that it can use of the response to a request: nothing came back in time, or
nothing that it takes for a result. A response that is not UTF-8 ends the thread of the executor. -/
def Unheard (readFloat : Bytes → Option NumberText) (unusable : Bytes → Prop) (req : Json)
    (resp : Except Thrown Json) : Answer → Prop
  | .lost => True
  | .garbled text => unusable (readAnswer readFloat req text)
  | .whole => ∀ j text, resp = .ok j → dump j = .ok text → unusable (readAnswer readFloat req text)

theorem serves_iff {delivery : Delivery} : delivery.serves req = true ↔
    ∃ answer payload, delivery = .sent true answer ∧ dump req = .ok payload ∧
      payload.length ≤ kMaxPayload := by
  constructor
  · intro h
    unfold Delivery.serves at h
    split at h
    next answer payload hd => exact ⟨answer, payload, rfl, hd, of_decide_eq_true h⟩
    next => cases h
  · rintro ⟨answer, payload, rfl, hd, hlen⟩
    simp [Delivery.serves, hd, hlen]

theorem run_serve {payload : Bytes} {s t : σ} {resp : Except Thrown Json}
    (hs : req.utf8 = true → Storable readFloat req) (hd : dump req = .ok payload)
    (hlen : payload.length ≤ kMaxPayload)
    (h : (handle sys readFloat truncate req).run s = (resp, t)) :
    (serve sys readFloat truncate what payload).run s = (resp.bind fun j => caught (dump j), t) := by
  rw [serve, if_neg (not_lt.mpr hlen), respond, parse_dump hs hd]
  cases resp with
  | error e => exact run_bind_error h _
  | ok j => exact (run_bind h).trans (run_liftM _ t)

/-- The answer to a request that the executor responds to is of no use just when it is unheard. -/
theorem unusable_iff_unheard {unusable : Bytes → Prop} (hempty : unusable emptyObject)
    (resp : Except Thrown Json) (answer : Answer) :
    unusable (((received answer (some (resp.bind fun j => caught (dump j)))).map
      (readAnswer readFloat req)).getD emptyObject) ↔ Unheard readFloat unusable req resp answer := by
  cases answer with
  | lost => exact iff_of_true hempty trivial
  | garbled text => exact Iff.rfl
  | whole =>
    cases resp with
    | error e => exact iff_of_true hempty fun _ _ h => nomatch h
    | ok j =>
      change unusable (((received .whole (some (caught (dump j)))).map
        (readAnswer readFloat req)).getD emptyObject) ↔ Unheard readFloat unusable req (.ok j) .whole
      have hunheard : Unheard readFloat unusable req (.ok j) .whole ↔
          ∀ text, dump j = .ok text → unusable (readAnswer readFloat req text) :=
        ⟨fun h text => h j text rfl, fun h j' text hj => Except.ok.inj hj ▸ h text⟩
      rw [hunheard]
      cases dump j with
      | error e => exact iff_of_true hempty fun _ h => nomatch h
      | ok text => exact ⟨fun h text' htext => Except.ok.inj htext ▸ h, fun h => h text rfl⟩

/-- What the agent makes of the response to a request that the executor served. -/
theorem run_executeToolExecutorCommand {delivery : Delivery} {unusable : Bytes → Prop} {s t : σ}
    {resp : Except Thrown Json} (hs : req.utf8 = true → Storable readFloat req)
    (hserves : delivery.serves req = true) (hempty : unusable emptyObject)
    (h : (handle sys readFloat truncate req).run s = (resp, t)) :
    ∃ result, (executeToolExecutorCommand sys readFloat truncate what delivery req).run s =
      (.ok result, t) ∧ (unusable result ↔ Unheard readFloat unusable req resp delivery.answer) := by
  obtain ⟨answer, payload, rfl, hd, hlen⟩ := serves_iff.mp hserves
  have hsent : (call (serve sys readFloat truncate what payload).run : Action Thrown σ _).run s =
      (.ok (resp.bind fun j => caught (dump j)), t) := by
    rw [run_call, run_serve hs hd hlen h]
  have hpayload : (liftM (caught (dump req)) : Action Thrown σ Bytes).run s = (.ok payload, s) := by
    rw [hd]
    rfl
  have hexchange : (exchange sys readFloat truncate what (.sent true answer) req).run s =
      (.ok (received answer (some (resp.bind fun j => caught (dump j)))), t) :=
    (run_bind hpayload).trans (run_bind hsent)
  exact ⟨_, run_bind hexchange, unusable_iff_unheard hempty resp answer⟩

end Exchange

section Agent

variable {σ α β : Type} {sys : System σ} {sandboxRuns pythonRuns : Bytes → σ → Bool}
  {readFloat : Bytes → Option NumberText} {truncate : NumberText → ℤ} {what : Bytes → Bytes}
  {host : Host} {delivery : Delivery} {y : Action Thrown (σ × ℕ) α} {n : σ → ℕ}

/-- The action adds so many runs. -/
def Adds (y : Action Thrown (σ × ℕ) α) (n : σ → ℕ) : Prop := ∀ t, (y.run t).2.2 = t.2 + n t.1

theorem adds_pure (a : α) : Adds (pure a : Action Thrown (σ × ℕ) α) fun _ => 0 := fun _ => rfl

theorem adds_lift (r : Except Thrown α) : Adds (liftM r : Action Thrown (σ × ℕ) α) fun _ => 0 :=
  fun t => by rw [run_liftM, Nat.add_zero]

theorem adds_hostRun : Adds (hostRun : Action Thrown (σ × ℕ) Unit) fun _ => 1 := fun _ => rfl

theorem adds_then {f : α → Action Thrown (σ × ℕ) β} (hy : Adds y n)
    (hf : ∀ a, Adds (f a) fun _ => 0) : Adds (y >>= f) n := by
  intro t
  rcases hrun : y.run t with ⟨r, u⟩
  have hadds := hy t
  rw [hrun] at hadds
  cases r with
  | error e => rw [run_bind_error hrun, hadds]
  | ok a => rw [run_bind hrun, hf a, Nat.add_zero, hadds]

theorem adds_bind {y' : Action Thrown σ α} {f : α → Action Thrown (σ × ℕ) β} {m : α → ℕ}
    (hy : Tallies y.run y'.run n) (hf : ∀ a, Adds (f a) fun _ => m a) :
    Adds (y >>= f) fun s => n s + runsAfter (fun a _ => m a) (y'.run s) := by
  intro t
  have hyt := hy t
  dsimp only
  rcases hy' : y'.run t.1 with ⟨r, u⟩
  rw [hy'] at hyt
  cases r with
  | error e =>
    rw [run_bind_error hyt]
    rfl
  | ok a =>
    rw [run_bind hyt, hf, Nat.add_assoc]
    rfl

/-- The script of the skill can be read on the host, and its interpreter starts. -/
def hostRunsSkill (readFloat : Bytes → Option NumberText) (host : Host)
    (skillName argStr : Bytes) : Bool :=
  match detectSkillRuntime readFloat host skillName with
  | .error _ => false
  | .ok (runtime, entry) =>
    host.readable (hostSkillPath host skillName entry) &&
      match skillCommand host runtime (hostSkillPath host skillName entry) argStr with
      | none => false
      | some cmd => (host.runCommand cmd).isSome

theorem adds_hostSkillResult (output : Bytes) (rc : ℤ) :
    Adds (hostSkillResult output rc : Action Thrown (σ × ℕ) Bytes) fun _ => 0 := by
  unfold hostSkillResult
  split_ifs
  · exact adds_lift _
  · exact adds_pure _

theorem adds_hostSkill (skillName argStr : Bytes) :
    Adds (hostSkill readFloat host skillName argStr : Action Thrown (σ × ℕ) Bytes)
      fun _ => if hostRunsSkill readFloat host skillName argStr then 1 else 0 := by
  unfold hostSkill hostRunsSkill
  cases detectSkillRuntime readFloat host skillName with
  | error e => exact fun _ => rfl
  | ok d =>
    obtain ⟨runtime, entry⟩ := d
    have hfirst : ∀ f : Bytes × Bytes → Action Thrown (σ × ℕ) Bytes,
      liftM (caught (.ok (runtime, entry))) >>= f = f (runtime, entry) := fun _ => rfl
    rw [hfirst]
    dsimp only
    by_cases hreadable : host.readable (hostSkillPath host skillName entry) = true
    · simp only [hreadable, if_true, Bool.true_and]
      cases skillCommand host runtime (hostSkillPath host skillName entry) argStr with
      | none => exact adds_lift _
      | some cmd =>
        by_cases hran : (host.runCommand cmd).isSome = true
        · simp only [hran, if_true]
          exact adds_then adds_hostRun fun _ => adds_hostSkillResult _ _
        · simp only [hran]
          exact adds_hostSkillResult _ _
    · simp only [hreadable]
      exact adds_lift _

theorem adds_hostCli (path arguments noPipe : Bytes) (wrap : ℤ → Bytes → List (Bytes × Json)) :
    Adds (hostCli readFloat host path arguments noPipe wrap : Action Thrown (σ × ℕ) Bytes)
      fun _ => if (host.popen (path ++ [space] ++ arguments ++ bytes " 2>&1")).isSome then 1 else 0 := by
  unfold hostCli
  cases host.popen (path ++ [space] ++ arguments ++ bytes " 2>&1") with
  | none => exact adds_pure _
  | some ran =>
    refine adds_then adds_hostRun fun _ => ?_
    dsimp only
    split
    · exact adds_pure _
    · exact adds_lift _

/-- The agent takes the result of the executor, or falls back to the host. -/
theorem adds_fallback {req : Json} {unusable : Bytes → Bool} {fallback : Action Thrown (σ × ℕ) Bytes}
    {k : ℕ} (hs : req.utf8 = true → Storable readFloat req)
    (h : Tallies (handle (counted sys sandboxRuns pythonRuns) readFloat truncate req).run
      (handle sys readFloat truncate req).run n) (hk : Adds fallback fun _ => k) :
    Adds
      (executeToolExecutorCommand (counted sys sandboxRuns pythonRuns) readFloat truncate what
        delivery req >>= fun result => if unusable result then fallback else pure result)
      fun s => (if delivery.serves req then n s else 0) +
        runsAfter (fun result _ => if unusable result then k else 0)
          ((executeToolExecutorCommand sys readFloat truncate what delivery req).run s) := by
  refine adds_bind (tallies_executeToolExecutorCommand delivery hs h) fun result => ?_
  cases unusable result with
  | false => exact adds_pure _
  | true => exact hk

/-- Both run it where the executor has run it and the agent finds nothing in its answer. -/
theorem fallback_le_one_iff {req : Json} {unusable : Bytes → Bool} {k : ℕ} {s : σ}
    (hs : req.utf8 = true → Storable readFloat req) (hempty : unusable emptyObject = true)
    (hn : n s ≤ 1) (hk : k ≤ 1) :
    (if delivery.serves req then n s else 0) +
        runsAfter (fun result _ => if unusable result then k else 0)
          ((executeToolExecutorCommand sys readFloat truncate what delivery req).run s) ≤ 1 ↔
      ¬ (delivery.serves req = true ∧ n s = 1 ∧
        Unheard readFloat (unusable · = true) req ((handle sys readFloat truncate req).run s).1
          delivery.answer ∧ k = 1) := by
  cases hserves : delivery.serves req with
  | false =>
    have hafter : ∀ r : Except Thrown Bytes × σ,
        runsAfter (fun result _ => if unusable result then k else 0) r ≤ 1
      | (.ok result, _) => by
        change (if unusable result then k else 0) ≤ 1
        split_ifs
        · exact hk
        · exact Nat.zero_le 1
      | (.error _, _) => Nat.zero_le 1
    simpa using hafter _
  | true =>
    obtain ⟨result, hrun, hresult⟩ := @run_executeToolExecutorCommand σ sys readFloat truncate what
      req delivery (unusable · = true) s _ _ hs hserves hempty Prod.mk.eta.symm
    rw [hrun, ← hresult]
    change (if true = true then n s else 0) + (if unusable result then k else 0) ≤ 1 ↔ _
    cases unusable result with
    | false => simpa using hn
    | true =>
      simp only [if_true, true_and]
      omega

/-- What came of the command of a tool, where the executor gets so far. -/
def toolOutcome (sys : System σ) (readFloat : Bytes → Option NumberText) (toolName argsStr : Bytes)
    (s : σ) : Option CommandRun :=
  match (detectRuntime sys readFloat toolName).run s with
  | (.ok d, t) => match (runTool sys toolName argsStr d.1 d.2 t).1 with
    | .ran run => some run
    | _ => none
  | _ => none

theorem toolRuns_eq (toolName argsStr : Bytes) (s : σ) :
    toolRuns sys readFloat toolName argsStr s =
      (toolOutcome sys readFloat toolName argsStr s).elim 0 fun run => ToolRun.count (.ran run) := by
  rw [toolRuns, toolOutcome]
  rcases (detectRuntime sys readFloat toolName).run s with ⟨_ | d, t⟩
  · rfl
  · change ToolRun.count (runTool sys toolName argsStr d.1 d.2 t).1 = _
    dsimp only
    cases (runTool sys toolName argsStr d.1 d.2 t).1 with
    | noEntry => rfl
    | noPython => rfl
    | ran run => rfl

theorem toolRuns_le_one (toolName argsStr : Bytes) (s : σ) :
    toolRuns sys readFloat toolName argsStr s ≤ 1 := by
  rw [toolRuns_eq]
  cases toolOutcome sys readFloat toolName argsStr s with
  | none => exact Nat.zero_le 1
  | some run =>
    change (if run = .refused then 0 else 1) ≤ 1
    split_ifs
    · exact Nat.zero_le 1
    · exact le_refl 1

theorem toolRuns_eq_one_iff {toolName argsStr : Bytes} {s : σ} :
    toolRuns sys readFloat toolName argsStr s = 1 ↔
      ∃ run, toolOutcome sys readFloat toolName argsStr s = some run ∧ run ≠ .refused := by
  rw [toolRuns_eq]
  cases toolOutcome sys readFloat toolName argsStr s with
  | none => simp
  | some run => simp [ToolRun.count]

theorem handleTool_of_outcome {toolName argsStr : Bytes} {s : σ} {run : CommandRun}
    (h : toolOutcome sys readFloat toolName argsStr s = some run) :
    ((handleTool sys readFloat toolName argsStr).run s).1 =
      .ok ((ToolRun.ran run).response toolName) := by
  rw [toolOutcome] at h
  rcases hd : (detectRuntime sys readFloat toolName).run s with ⟨_ | d, t⟩
  · rw [hd] at h
    cases h
  · rw [hd] at h
    dsimp only at h
    rw [handleTool, run_bind hd]
    change Except.ok ((runTool sys toolName argsStr d.1 d.2 t).1.response toolName) = _
    split at h
    next ran hran =>
      obtain rfl := Option.some.inj h
      rw [hran]
    next => cases h

/-- There is no reply of the sandbox, or none that stops the executor from running the code itself. -/
def noReply (readFloat : Bytes → Option NumberText) : Option Bytes → Bool
  | none => true
  | some text => match parse readFloat text with
    | .ok j => j.empty
    | .error _ => true

/-- The sandbox runs the code and leaves no such reply, and the executor can run the code too. -/
def SandboxAndExecutor (sys : System σ) (sandboxRuns pythonRuns : Bytes → σ → Bool)
    (readFloat : Bytes → Option NumberText) (code : Bytes) (s : σ) : Prop :=
  ∃ payload, dump (codeRequest code 15) = .ok payload ∧ (sys.connectToSandbox s).1 = true ∧
    sandboxRuns payload (sys.connectToSandbox s).2 = true ∧
    noReply readFloat (sys.exchange payload (sys.connectToSandbox s).2).1 = true ∧
    localCount sys pythonRuns code (sys.exchange payload (sys.connectToSandbox s).2).2 = 1

theorem CodeRun.count_le_one (run : CodeRun) : CodeRun.count run ≤ 1 := by
  cases run with
  | script raw status => exact le_refl 1
  | _ => exact Nat.zero_le 1

theorem localCount_le_one (code : Bytes) (s : σ) : localCount sys pythonRuns code s ≤ 1 := by
  unfold localCount
  dsimp only
  split_ifs
  · exact le_refl 1
  · exact Nat.zero_le 1
  · exact CodeRun.count_le_one _

/-- What the executor gets to read where it reaches the sandbox. -/
theorem run_forwardRequest {req : Json} {payload : Bytes} {s : σ} (hd : dump req = .ok payload)
    (hc : (sys.connectToSandbox s).1 = true) :
    ∃ reply, (forwardRequest sys readFloat req).run s =
        (.ok reply, (sys.exchange payload (sys.connectToSandbox s).2).2) ∧
      reply.empty = noReply readFloat (sys.exchange payload (sys.connectToSandbox s).2).1 := by
  rcases hconnect : sys.connectToSandbox s with ⟨connected, t⟩
  rw [hconnect] at hc
  obtain rfl : connected = true := hc
  have hconnected : (call sys.connectToSandbox : Action Thrown σ Bool).run s = (.ok true, t) := by
    rw [run_call, hconnect]
  have hpayload : (liftM (caught (dump req)) : Action Thrown σ Bytes).run t = (.ok payload, t) := by
    rw [hd]
    rfl
  rcases hexchange : sys.exchange payload t with ⟨reply, u⟩
  have hreply : (call (sys.exchange payload) : Action Thrown σ _).run t = (.ok reply, u) := by
    rw [run_call, hexchange]
  rw [forwardRequest, run_bind hconnected, if_pos rfl, run_bind hpayload, run_bind hreply]
  cases reply with
  | none => exact ⟨.null, rfl, rfl⟩
  | some text =>
    dsimp only [noReply]
    cases parse readFloat text with
    | error e => exact ⟨.null, rfl, rfl⟩
    | ok j => exact ⟨j, rfl, rfl⟩

theorem codeRuns_le_one_iff {code : Bytes} {s : σ} :
    codeRuns sys sandboxRuns pythonRuns readFloat code s ≤ 1 ↔
      ¬ SandboxAndExecutor sys sandboxRuns pythonRuns readFloat code s := by
  by_cases hc : (sys.connectToSandbox s).1 = true
  · cases hd : dump (codeRequest code 15) with
    | error e =>
      refine iff_of_true ?_ fun ⟨payload, hpayload, _⟩ => ?_
      · have hconnected := run_call sys.connectToSandbox s
        have hpayload : (liftM (caught (dump (codeRequest code 15))) : Action Thrown σ Bytes).run
            (sys.connectToSandbox s).2 = (.error (.json e), (sys.connectToSandbox s).2) := by
          rw [hd]
          rfl
        rw [hc] at hconnected
        rw [codeRuns, sandboxCount, hd, hc, forwardRequest, run_bind hconnected, if_pos rfl,
          run_bind_error hpayload]
        exact Nat.zero_le 1
      · rw [hd] at hpayload
        cases hpayload
    | ok payload =>
      obtain ⟨reply, hrun, hreply⟩ := @run_forwardRequest σ sys readFloat _ _ s hd hc
      have hlocal := @localCount_le_one σ sys pythonRuns code
        (sys.exchange payload (sys.connectToSandbox s).2).2
      have htwice : SandboxAndExecutor sys sandboxRuns pythonRuns readFloat code s ↔
          sandboxRuns payload (sys.connectToSandbox s).2 = true ∧ reply.empty = true ∧
            localCount sys pythonRuns code
              (sys.exchange payload (sys.connectToSandbox s).2).2 = 1 := by
        rw [SandboxAndExecutor, hreply]
        simp [hd, hc]
      rw [htwice, codeRuns, hrun, sandboxCount, hd, hc]
      change (if sandboxRuns payload (sys.connectToSandbox s).2 then 1 else 0) +
        (if reply.empty then _ else 0) ≤ 1 ↔ _
      split_ifs with h1 h2 h2 <;> simp [h1, h2] <;> omega
  · refine iff_of_true ?_ fun ⟨_, _, hc', _⟩ => hc hc'
    have hnot : (sys.connectToSandbox s).1 = false := Bool.not_eq_true _ ▸ hc
    have hrun : (forwardRequest sys readFloat (codeRequest code 15)).run s =
        (.ok .null, (sys.connectToSandbox s).2) := by
      have hconnected := run_call sys.connectToSandbox s
      rw [hnot] at hconnected
      rw [forwardRequest, run_bind hconnected]
      rfl
    rw [codeRuns, hrun, sandboxCount, hnot, Nat.zero_add]
    exact localCount_le_one code _

/-- The executor runs the skill, the agent finds nothing in the answer, and the host runs it. -/
def SkillTwice (sys : System σ) (readFloat : Bytes → Option NumberText) (host : Host)
    (delivery : Delivery) (skillName argStr : Bytes) (s : σ) : Prop :=
  delivery.serves (skillRequest skillName argStr) = true ∧ skillName ≠ [] ∧
    (∃ run, toolOutcome sys readFloat skillName argStr s = some run ∧ run ≠ .refused ∧
      Unheard readFloat (unusableSkill readFloat · = true) (skillRequest skillName argStr)
        (.ok ((ToolRun.ran run).response skillName)) delivery.answer) ∧
    hostRunsSkill readFloat host skillName argStr = true

/-- The same for a command, which the executor and the host know by `toolName` and `path`. -/
def CliTwice (sys : System σ) (readFloat : Bytes → Option NumberText) (host : Host)
    (delivery : Delivery) (toolName path arguments : Bytes) (timeout : ℤ) (s : σ) : Prop :=
  delivery.serves (cliRequest toolName arguments timeout) = true ∧ toolName ≠ [] ∧
    (∃ raw status, (runCli sys toolName arguments s).1 = .ran raw status ∧
      Unheard readFloat (fun result => result = [] ∨ result = emptyObject)
        (cliRequest toolName arguments timeout)
        (caught ((CliRun.ran raw status).response readFloat toolName)) delivery.answer) ∧
    (host.popen (path ++ [space] ++ arguments ++ bytes " 2>&1")).isSome = true

/-- The name, the path and the timeout of a command that the agent asks the executor for. -/
def cliCommand (host : Host) (toolName arguments : Bytes) : Option (Bytes × Bytes × ℤ) :=
  if toolName = [] then none
  else if host.hasTool toolName then
    if host.validateArguments toolName arguments ≠ [] then none
    else some (toolName, host.resolve toolName, (host.getTimeout toolName).toInt)
  else if host.fileExists (pluginPath host toolName) then
    some (pluginPath host toolName, pluginPath host toolName, 10)
  else none

/-- A request whose skill, command or code is run twice. -/
def Twice (sys : System σ) (sandboxRuns pythonRuns : Bytes → σ → Bool)
    (readFloat : Bytes → Option NumberText) (host : Host) (delivery : Delivery) (s : σ) :
    Request → Prop
  | .skill skillName args => host.initialized = true ∧ ∃ argStr, dump args = .ok argStr ∧
      SkillTwice sys readFloat host delivery ((host.skillDirs skillName).getD skillName) argStr s
  | .cli toolName arguments => host.initialized = true ∧ ∃ name path timeout,
      cliCommand host toolName arguments = some (name, path, timeout) ∧
      CliTwice sys readFloat host delivery name path arguments timeout s
  | .code code => host.initialized = true ∧ delivery.serves (codeRequest code 15) = true ∧
      code ≠ [] ∧ SandboxAndExecutor sys sandboxRuns pythonRuns readFloat code s

theorem ite_eq_one : ∀ b : Bool, (if b then 1 else 0) = 1 ↔ b = true := by decide

theorem ite_le_one (b : Bool) : (if b then 1 else 0) ≤ 1 := by
  cases b with
  | false => exact Nat.zero_le 1
  | true => exact le_refl 1

theorem containerSkill_runs (hinit : host.initialized = true) (skillName argStr : Bytes) :
    ∃ n, Adds (containerSkill (counted sys sandboxRuns pythonRuns) readFloat truncate what host
        delivery skillName argStr) n ∧
      ∀ s, n s ≤ 1 ↔ ¬ SkillTwice sys readFloat host delivery skillName argStr s := by
  have hs : (skillRequest skillName argStr).utf8 = true → Storable readFloat _ :=
    storable_skillRequest skillName argStr
  have hempty : unusableSkill readFloat emptyObject = true := rfl
  have hk := ite_le_one (hostRunsSkill readFloat host skillName argStr)
  rw [containerSkill, if_pos hinit]
  by_cases hname : skillName = []
  · have hhandle : Tallies (handle (counted sys sandboxRuns pythonRuns) readFloat truncate
          (skillRequest skillName argStr)).run
        (handle sys readFloat truncate (skillRequest skillName argStr)).run fun _ => 0 := by
      rw [handle_skillRequest, handle_skillRequest, if_pos hname, if_pos hname]
      exact tallies_ok _
    refine ⟨_, adds_fallback hs hhandle (adds_hostSkill skillName argStr), fun s => ?_⟩
    rw [fallback_le_one_iff (n := fun _ => 0) hs hempty (Nat.zero_le 1) hk]
    exact iff_of_true (fun h => nomatch h.2.1) fun h => h.2.1 hname
  · have hhandle : Tallies (handle (counted sys sandboxRuns pythonRuns) readFloat truncate
          (skillRequest skillName argStr)).run
        (handle sys readFloat truncate (skillRequest skillName argStr)).run
        (toolRuns sys readFloat skillName argStr) := by
      rw [handle_skillRequest, handle_skillRequest, if_neg hname, if_neg hname]
      exact tallies_handleTool skillName argStr
    refine ⟨_, adds_fallback hs hhandle (adds_hostSkill skillName argStr), fun s => ?_⟩
    rw [fallback_le_one_iff hs hempty (toolRuns_le_one skillName argStr s) hk, not_iff_not,
      toolRuns_eq_one_iff, handle_skillRequest, if_neg hname, SkillTwice]
    constructor
    · rintro ⟨hserves, ⟨run, hrun, hran⟩, hunheard, hhost⟩
      rw [handleTool_of_outcome hrun] at hunheard
      exact ⟨hserves, hname, ⟨run, hrun, hran, hunheard⟩, (ite_eq_one _).mp hhost⟩
    · rintro ⟨hserves, -, ⟨run, hrun, hran, hunheard⟩, hhost⟩
      rw [handleTool_of_outcome hrun]
      exact ⟨hserves, ⟨run, hrun, hran⟩, hunheard, if_pos hhost⟩

theorem CliRun.count_le_one (run : CliRun) : CliRun.count run ≤ 1 := by
  cases run with
  | ran raw status => exact le_refl 1
  | _ => exact Nat.zero_le 1

theorem CliRun.count_eq_one_iff {run : CliRun} :
    CliRun.count run = 1 ↔ ∃ raw status, run = .ran raw status := by
  cases run <;> simp [CliRun.count]

theorem cliWithFallback_runs (hinit : host.initialized = true) (toolName path arguments : Bytes)
    (noPipe : Bytes) {timeout : ℤ} (ht : InRange timeout) (wrap : ℤ → Bytes → List (Bytes × Json)) :
    ∃ n, Adds (cliWithFallback (counted sys sandboxRuns pythonRuns) readFloat truncate what host
        delivery toolName path arguments noPipe timeout wrap) n ∧
      ∀ s, n s ≤ 1 ↔ ¬ CliTwice sys readFloat host delivery toolName path arguments timeout s := by
  have hs : (cliRequest toolName arguments timeout).utf8 = true → Storable readFloat _ :=
    storable_cliRequest toolName arguments ht
  let unusable (result : Bytes) : Bool := result = [] ∨ result = emptyObject
  have hempty : unusable emptyObject = true := rfl
  have hunheard : ∀ resp, Unheard readFloat (unusable · = true)
        (cliRequest toolName arguments timeout) resp delivery.answer ↔
      Unheard readFloat (fun result => result = [] ∨ result = emptyObject)
        (cliRequest toolName arguments timeout) resp delivery.answer := by
    simp only [unusable, decide_eq_true_eq, implies_true]
  have hk := ite_le_one (host.popen (path ++ [space] ++ arguments ++ bytes " 2>&1")).isSome
  have hfallback : ∀ f : Bytes → Action Thrown (σ × ℕ) Bytes,
      (fun result => if result = [] ∨ result = emptyObject then f result else pure result) =
        fun result => if unusable result then f result else pure result := by
    simp only [unusable, decide_eq_true_eq, implies_true]
  rw [cliWithFallback, executeCliTool, if_pos hinit, hfallback]
  by_cases hname : toolName = []
  · have hhandle : Tallies (handle (counted sys sandboxRuns pythonRuns) readFloat truncate
          (cliRequest toolName arguments timeout)).run
        (handle sys readFloat truncate (cliRequest toolName arguments timeout)).run fun _ => 0 := by
      rw [handle_cliRequest, handle_cliRequest, if_pos hname, if_pos hname]
      exact tallies_ok _
    refine ⟨_, adds_fallback hs hhandle (adds_hostCli path arguments noPipe wrap), fun s => ?_⟩
    rw [fallback_le_one_iff (n := fun _ => 0) hs hempty (Nat.zero_le 1) hk]
    exact iff_of_true (fun h => nomatch h.2.1) fun h => h.2.1 hname
  · have hhandle : Tallies (handle (counted sys sandboxRuns pythonRuns) readFloat truncate
          (cliRequest toolName arguments timeout)).run
        (handle sys readFloat truncate (cliRequest toolName arguments timeout)).run
        fun s => CliRun.count (runCli sys toolName arguments s).1 := by
      rw [handle_cliRequest, handle_cliRequest, if_neg hname, if_neg hname]
      exact (tallies_run_bind (m := fun _ _ => 0) (tallies_call (tallies_runCli _ _))
        fun _ => tallies_lift _).congr fun s => by simp
    refine ⟨_, adds_fallback hs hhandle (adds_hostCli path arguments noPipe wrap), fun s => ?_⟩
    have hresponse : ((handle sys readFloat truncate
          (cliRequest toolName arguments timeout)).run s).1 =
        caught ((runCli sys toolName arguments s).1.response readFloat toolName) := by
      rw [handle_cliRequest, if_neg hname, run_bind (run_call _ s), run_liftM]
    rw [fallback_le_one_iff (n := fun s => CliRun.count (runCli sys toolName arguments s).1) hs
      hempty (CliRun.count_le_one _) hk, not_iff_not, hresponse,
      CliRun.count_eq_one_iff, hunheard, CliTwice]
    constructor
    · rintro ⟨hserves, ⟨raw, status, hran⟩, hunheard, hhost⟩
      rw [hran] at hunheard
      exact ⟨hserves, hname, ⟨raw, status, hran, hunheard⟩, (ite_eq_one _).mp hhost⟩
    · rintro ⟨hserves, -, ⟨raw, status, hran, hunheard⟩, hhost⟩
      rw [hran]
      exact ⟨hserves, ⟨raw, status, rfl⟩, hunheard, if_pos hhost⟩

theorem executeCode_runs (hinit : host.initialized = true) (code : Bytes) :
    ∃ n, Tallies (executeCode (counted sys sandboxRuns pythonRuns) readFloat truncate what host
          delivery code).run
        (executeCode sys readFloat truncate what host delivery code).run n ∧
      ∀ s, n s ≤ 1 ↔ ¬ (delivery.serves (codeRequest code 15) = true ∧ code ≠ [] ∧
        SandboxAndExecutor sys sandboxRuns pythonRuns readFloat code s) := by
  have hhandle : Tallies (handle (counted sys sandboxRuns pythonRuns) readFloat truncate
        (codeRequest code 15)).run (handle sys readFloat truncate (codeRequest code 15)).run
      fun s => if code = [] then 0 else codeRuns sys sandboxRuns pythonRuns readFloat code s := by
    rw [handle_codeRequest, handle_codeRequest]
    by_cases hcode : code = []
    · simp only [if_pos hcode]
      exact tallies_ok _
    · simp only [if_neg hcode]
      exact (tallies_run_bind (m := fun _ _ => 0) (tallies_handleExecuteCode code)
        fun _ => tallies_ok _).congr fun s => by simp
  rw [executeCode, executeCode, if_pos hinit, if_pos hinit]
  refine ⟨_, tallies_run_bind (m := fun _ _ => 0)
    (tallies_executeToolExecutorCommand delivery (storable_codeRequest code) hhandle)
    fun _ => tallies_ok _, fun s => ?_⟩
  rw [runsAfter_zero, Nat.add_zero]
  cases delivery.serves (codeRequest code 15) with
  | false => simp
  | true =>
    by_cases hcode : code = []
    · simp [hcode]
    · simpa [hcode] using codeRuns_le_one_iff

/-- The command that is asked for decides what the agent does for it. -/
theorem executeCli_runs (hinit : host.initialized = true) (noPipe toolName arguments : Bytes) :
    ∃ n, Adds (executeCli (counted sys sandboxRuns pythonRuns) readFloat truncate what host
        delivery noPipe toolName arguments) n ∧
      ∀ s, n s ≤ 1 ↔ ¬ ∃ name path timeout,
        cliCommand host toolName arguments = some (name, path, timeout) ∧
        CliTwice sys readFloat host delivery name path arguments timeout s := by
  have hnothing : ∀ {y : Action Thrown (σ × ℕ) Bytes}, Adds y (fun _ => 0) →
      cliCommand host toolName arguments = none →
      ∃ n, Adds y n ∧ ∀ s, n s ≤ 1 ↔ ¬ ∃ name path timeout,
        cliCommand host toolName arguments = some (name, path, timeout) ∧
        CliTwice sys readFloat host delivery name path arguments timeout s := by
    intro y hy hcommand
    refine ⟨_, hy, fun s => iff_of_true (Nat.zero_le 1) ?_⟩
    rintro ⟨name, path, timeout, h, -⟩
    rw [hcommand] at h
    cases h
  have hsome : ∀ {y : Action Thrown (σ × ℕ) Bytes} {name path : Bytes} {timeout : ℤ},
      (∃ n, Adds y n ∧ ∀ s, n s ≤ 1 ↔
        ¬ CliTwice sys readFloat host delivery name path arguments timeout s) →
      cliCommand host toolName arguments = some (name, path, timeout) →
      ∃ n, Adds y n ∧ ∀ s, n s ≤ 1 ↔ ¬ ∃ name path timeout,
        cliCommand host toolName arguments = some (name, path, timeout) ∧
        CliTwice sys readFloat host delivery name path arguments timeout s := by
    rintro y name path timeout ⟨n, hy, hn⟩ hcommand
    refine ⟨n, hy, fun s => (hn s).trans (not_congr ?_)⟩
    rw [hcommand]
    simp
  unfold executeCli
  split_ifs with hname htool hvalid hfile
  · exact hnothing (adds_pure _) (if_pos hname)
  · refine hnothing (adds_lift _) ?_
    rw [cliCommand, if_neg hname, if_pos htool, if_pos hvalid]
  · refine hsome (cliWithFallback_runs hinit _ _ _ _ ?_ _) ?_
    · have hlow := (host.getTimeout toolName).le_toInt
      have hhigh := (host.getTimeout toolName).toInt_lt
      exact ⟨by omega, by omega⟩
    · rw [cliCommand, if_neg hname, if_pos htool, if_neg hvalid]
  · refine hsome (cliWithFallback_runs hinit _ _ _ _ (by decide) _) ?_
    rw [cliCommand, if_neg hname, if_neg htool, if_pos hfile]
  · refine hnothing (adds_pure _) ?_
    rw [cliCommand, if_neg hname, if_neg htool, if_neg hfile]

theorem Tallies.adds {y' : Action Thrown σ α} (h : Tallies y.run y'.run n) : Adds y n :=
  fun t => by rw [h t]

theorem executeSkill_runs (hinit : host.initialized = true) (skillName : Bytes) (args : Json) :
    ∃ n, Adds (executeSkill (counted sys sandboxRuns pythonRuns) readFloat truncate what host
        delivery skillName args) n ∧
      ∀ s, n s ≤ 1 ↔ ¬ ∃ argStr, dump args = .ok argStr ∧ SkillTwice sys readFloat host delivery
        ((host.skillDirs skillName).getD skillName) argStr s := by
  unfold executeSkill
  cases dump args with
  | error e =>
    refine ⟨fun _ => 0, fun _ => rfl, fun s => iff_of_true (Nat.zero_le 1) ?_⟩
    rintro ⟨argStr, h, -⟩
    cases h
  | ok argStr =>
    have hfirst : ∀ f : Bytes → Action Thrown (σ × ℕ) Bytes,
      liftM (caught (.ok argStr)) >>= f = f argStr := fun _ => rfl
    rw [hfirst]
    obtain ⟨n, hn, htwice⟩ := @containerSkill_runs σ sys sandboxRuns pythonRuns readFloat
      truncate what host delivery hinit ((host.skillDirs skillName).getD skillName) argStr
    refine ⟨n, adds_then hn fun response => adds_pure _, fun s => (htwice s).trans ?_⟩
    simp

/-- Without its container the agent can only run a command on the host. -/
theorem execute_uninitialized (hinit : host.initialized = false) (noPipe : Bytes) (r : Request) :
    ∃ n, Adds (execute (counted sys sandboxRuns pythonRuns) readFloat truncate what host delivery
      noPipe r) n ∧ ∀ s, n s ≤ 1 := by
  have hnot : ¬ host.initialized = true := by rw [hinit]; exact Bool.false_ne_true
  have hnothing : ∀ {y : Action Thrown (σ × ℕ) Bytes}, Adds y (fun _ => 0) →
      ∃ n, Adds y n ∧ ∀ s, n s ≤ 1 := fun hy => ⟨_, hy, fun _ => Nat.zero_le 1⟩
  cases r with
  | skill skillName args =>
    refine hnothing ?_
    rw [execute, executeSkill]
    unfold containerSkill
    refine adds_then (adds_lift _) fun argStr => ?_
    rw [if_neg hnot]
    exact adds_pure _
  | cli toolName arguments =>
    have hfallback : ∀ name path noPipe timeout wrap, ∃ n,
        Adds (cliWithFallback (counted sys sandboxRuns pythonRuns) readFloat truncate what host
          delivery name path arguments noPipe timeout wrap) n ∧ ∀ s, n s ≤ 1 := by
      intro name path noPipe timeout wrap
      rw [cliWithFallback, executeCliTool, if_neg hnot, pure_bind, if_pos (Or.inr rfl)]
      exact ⟨_, adds_hostCli path arguments noPipe wrap, fun _ => ite_le_one _⟩
    rw [execute]
    unfold executeCli
    split_ifs
    · exact hnothing (adds_pure _)
    · exact hnothing (adds_lift _)
    · exact hfallback _ _ _ _ _
    · exact hfallback _ _ _ _ _
    · exact hnothing (adds_pure _)
  | code code =>
    refine hnothing ?_
    rw [execute, executeCode, if_neg hnot]
    exact adds_pure _

/-- The runs for a request, and when it is more than one. -/
theorem execute_runs (noPipe : Bytes) (r : Request) :
    ∃ n, Adds (execute (counted sys sandboxRuns pythonRuns) readFloat truncate what host delivery
        noPipe r) n ∧
      ∀ s, n s ≤ 1 ↔ ¬ Twice sys sandboxRuns pythonRuns readFloat host delivery s r := by
  cases hinit : host.initialized with
  | false =>
    obtain ⟨n, hn, hle⟩ := @execute_uninitialized σ sys sandboxRuns pythonRuns readFloat truncate
      what host delivery hinit noPipe r
    refine ⟨n, hn, fun s => iff_of_true (hle s) ?_⟩
    cases r <;> simp [Twice, hinit]
  | true =>
    cases r with
    | skill skillName args =>
      simpa only [Twice, execute, hinit, true_and] using executeSkill_runs hinit skillName args
    | cli toolName arguments =>
      simpa only [Twice, execute, hinit, true_and] using
        executeCli_runs hinit noPipe toolName arguments
    | code code =>
      obtain ⟨n, hn, htwice⟩ := executeCode_runs hinit code
      refine ⟨n, hn.adds, ?_⟩
      simpa only [Twice, hinit, true_and] using htwice

theorem runRequest_runs (noPipe : Bytes) (r : Request) :
    ∃ n, Adds (runRequest (counted sys sandboxRuns pythonRuns) readFloat truncate what host
        delivery noPipe r) n ∧
      ∀ s, n s ≤ 1 ↔ ¬ Twice sys sandboxRuns pythonRuns readFloat host delivery s r := by
  obtain ⟨n, hn, htwice⟩ := @execute_runs σ sys sandboxRuns pythonRuns readFloat truncate what host
    delivery noPipe r
  refine ⟨n, adds_then hn fun output => ?_, htwice⟩
  rw [if_neg fun h => h.2 rfl]
  exact adds_pure _

end Agent

namespace Counterexample

/-- An executor whose commands print `done`, with nothing behind it. -/
def executor : System Unit where
  pid := 1
  connectToSandbox := pure false
  exchange _ := pure none
  isInitialized := pure false
  runCode _ := pure ([], -1)
  findPython3 := pure []
  mkstemps := pure none
  writeFile _ _ := pure ()
  unlink _ := pure ()
  popen _ := pure (some (bytes "done", 0))
  fileExists _ := pure true
  readable _ := pure false
  skillFiles _ := pure ⟨[], none, none⟩
  runCommand _ := pure .refused
  createSession _ _ _ _ := pure none
  sendInput _ _ _ := pure []
  readOutput _ _ := pure []
  isActive _ := pure none
  closeSession _ := pure ()
  listSessions := pure []

def host : Host where
  initialized := true
  skillDirs _ := none
  skillsDir := []
  skillFiles _ := ⟨[], none, none⟩
  readable _ := false
  python := []
  runCommand _ := none
  hasTool _ := true
  validateArguments _ _ := []
  getTimeout _ := 10
  resolve name := bytes "/usr/bin/" ++ name
  cliDirs _ := none
  fileExists _ := true
  popen _ := some (bytes "done", 0)

end Counterexample

end ToolRuns
