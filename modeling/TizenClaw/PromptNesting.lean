import TizenClaw.AgentMachine
import TizenClaw.NestedCalls
import TizenClaw.OfflineFallback

/-! `ProcessPrompt` as the body of a recursive function. It is entered again for a reply that
looks like a missing capability, for a message to another session, and by the supervisor, the
pipelines and the workflows. -/
namespace PromptNesting

open ByteString JsonValue JsonDump JsonParse LlmTypes ToolDispatch AgentMachine OfflineFallback
  NestedCalls

abbrev Result := Except ToolException Bytes

/-- A call of `ProcessPrompt`. -/
structure Call where
  session : Bytes
  prompt : Bytes
  deriving DecidableEq, Repr

/-- A run of a pipeline or a workflow: the prompts it sends, one after the other, and its output
in the end. -/
inductive EngineRun where
  | output (r : Result)
  | prompt (session text : Bytes) (next : Result → EngineRun)

/-- One tool call of a reply, and what it meets: what the checks say, the name the router makes of
it, and what its tool does. -/
structure ToolUse where
  call : LlmToolCall
  refusal : Option Bytes
  resolved : Bytes
  outcome : Result
  engine : EngineRun
  stamps : ℕ → ℕ

/-- One turn of the loop in `ProcessPrompt`. `after` is whether the round counts as idle, or what
its results throw. -/
inductive Turn where
  | unavailable (error : Bytes) (use : ToolUse)
  | text (text : Bytes)
  | calls (text : Bytes) (uses : List ToolUse) (after : Except ToolException Bool)
  | throws (e : ToolException)

abbrev PromptBody := Body Turn Call Result

/-- An agent with what it was started with. The agents that generate skills and supervise are
part of every initialized agent. -/
structure Agent where
  initialized : Bool
  hasBackend : Bool
  config : Config
  rules : List FallbackRule
  roles : List AgentRole
  readFloat : Bytes → Option NumberText

section AutoSkill

def gapPatterns : List Bytes :=
  [bytes "I don't have a tool", bytes "I don't have access to a tool", bytes "no existing tool",
    bytes "no tool available", bytes "don't have the ability", bytes "don't have a way to",
    bytes "cannot directly", bytes "I'm unable to", bytes "I can't directly",
    bytes "not currently able", bytes "no suitable tool", bytes "적합한 도구가 없",
    bytes "해당 기능이 없", bytes "도구가 없어", bytes "직접적으로 할 수 없",
    bytes "해당 도구를 가지고 있지 않", bytes "지원하지 않"]

def detectCapabilityGap (response : Bytes) : Bool :=
  gapPatterns.any fun pattern => (find pattern response).isSome

def metaPrompt (userPrompt : Bytes) : Bytes :=
  bytes "The user asked: \"" ++ userPrompt ++
    bytes "\"\n\nNo existing tool can handle this request. You MUST create a new custom skill to " ++
      bytes "fulfill it. Follow this exact sequence:\n\n1. First, use `execute_code` to prototype and " ++
      bytes "test Python code that accomplishes the task. The code must print valid JSON to " ++
      bytes "stdout.\n2. If the prototype succeeds, use `manage_custom_skill` with " ++
      bytes "operation=\"create\" to register it as a permanent skill. Use a descriptive snake_case " ++
      bytes "name, proper description, and parameters_schema.\n3. After registration, execute the " ++
      bytes "newly created skill to get the actual result.\n4. Finally, respond with the answer to the " ++
      bytes "user's original question AND mention that a new skill was created.\n\nAvailable Tizen " ++
      bytes "libraries for ctypes: libcapi-system-info.so.0, libcapi-system-device.so.0, " ++
      bytes "libcapi-appfw-app-manager.so.0, libcapi-appfw-app-control.so.0, " ++
      bytes "libcapi-network-connection.so.1, libglib-2.0.so, libicuuc.so, libsqlite3.so, " ++
      bytes "libcurl.so.\n\nIMPORTANT: Do NOT say you cannot do it. Create the skill and answer the " ++
      bytes "question."

/-- The session a skill is generated in. -/
def autoSession (session : Bytes) : Bytes := session ++ bytes "_auto_skill"

/-- The response tells of a new skill, and not of an error. -/
def skillCreated (response : Bytes) : Bool :=
  (¬ bytes "Error:" <+: response) ∧
    [bytes "created", bytes "registered", bytes "생성", bytes "등록"].any fun word =>
      (find word response).isSome

/-- A final reply; behind a capability gap the agent prompts itself for a skill first. -/
def finalText (session prompt text : Bytes) : PromptBody :=
  let reply := if text = [] then bytes "No response text." else text
  if detectCapabilityGap text then
    .call ⟨autoSession session, metaPrompt prompt⟩ fun
      | .error e => .done (.error e)
      | .ok response => .done (.ok (if skillCreated response then response else reply))
  else .done (.ok reply)

end AutoSkill

/-- The output of a tool that answers with a JSON object. -/
def dumped (members : List (Bytes × Json)) : Result :=
  (dump (Json.object members)).mapError .json

/-- `send_to_session`; a session does not send to itself. -/
def sendToSession (caller : Bytes) (args : Json) : PromptBody :=
  match args.valueString (bytes "target_session") [], args.valueString (bytes "message") [] with
  | .error e, _ => .done (.error (.json e))
  | _, .error e => .done (.error (.json e))
  | .ok target, .ok message =>
    if target = [] ∨ message = [] then
      .done (.ok (errorOutput (bytes "target_session and message are required")))
    else if target = caller then .done (.ok (errorOutput (bytes "Cannot send message to self")))
    else
      .call ⟨target, message⟩ fun result => .done (result.bind fun response =>
        dumped [(bytes "status", .str (bytes "ok")), (bytes "target_session", .str target),
          (bytes "response", .str response)])

section Supervisor

variable (a : Agent)

def decompositionPrompt (goal : Bytes) : Bytes :=
  bytes "You are a task decomposition engine. Given a goal and a list of available specialist " ++
    bytes "roles, decompose the goal into sub-tasks assigned to appropriate roles.\n\nAvailable " ++
      bytes "roles:\n" ++
    (a.roles.flatMap fun role =>
      bytes "- " ++ role.name ++ bytes ": " ++ role.systemPrompt.take 80 ++ bytes "\n") ++
    bytes "\nGoal: " ++ goal ++
    bytes "\n\nRespond ONLY with a JSON array of objects, each with 'role' and 'task' fields. " ++
      bytes "Example:\n[\x7b\"role\": \"researcher\", \"task\": \"Find information about X\"\x7d, " ++
      bytes "\x7b\"role\": \"writer\", \"task\": \"Write a summary based on the " ++
      bytes "research\"\x7d]\n\nIMPORTANT: Use only roles from the available list above. Output ONLY " ++
      bytes "the JSON array, nothing else."

/-- The elements of the array up to the first that is not an object with two strings. -/
def readSubTasks : List Json → List (Bytes × Bytes)
  | [] => []
  | t :: ts =>
    match t.valueString (bytes "role") [], t.valueString (bytes "task") [] with
    | .ok role, .ok task =>
      if role ≠ [] ∧ task ≠ [] then (role, task) :: readSubTasks ts else readSubTasks ts
    | _, _ => []

/-- `rfind` of one byte. -/
def rfindByte (c : UInt8) (s : Bytes) : Option ℕ :=
  (find [c] s.reverse).map fun i => s.length - 1 - i

/-- The sub-tasks in the response: from its first opening to its last closing bracket. -/
def subTasks (response : Bytes) : List (Bytes × Bytes) :=
  match find [0x5B] response, rfindByte 0x5D response with
  | some start, some stop =>
    if stop ≤ start then []
    else match parse a.readFloat ((response.drop start).take (stop - start + 1)) with
      | .ok (.arr tasks) => readSubTasks tasks
      | _ => []
  | _, _ => []

structure DelegationResult where
  roleName : Bytes
  result : Bytes
  success : Bool

def getRole (name : Bytes) : Option AgentRole := a.roles.find? fun role => role.name = name

def roleSession (role : AgentRole) (stamp : ℕ) : Bytes :=
  bytes "agent_role_" ++ role.name ++ bytes "_" ++ decimal (stamp % 100000)

def delegationPrompt (role : AgentRole) (task : Bytes) : Bytes :=
  if role.allowedTools = [] then task
  else task ++ bytes "\n\n[Note: You may only use these tools: " ++
    (bytes ", ").intercalate role.allowedTools ++ bytes "]"

/-- One result for each sub-task. In sequence an exception ends the delegations; in parallel the
others go on. -/
def delegate (parallel : Bool) (stamps : ℕ → ℕ) :
    List (Bytes × Bytes) → (List (Except ToolException DelegationResult) → PromptBody) → PromptBody
  | [], next => next []
  | (name, task) :: rest, next =>
    match getRole a name with
    | none => delegate parallel stamps rest fun rs =>
      next (.ok ⟨name, bytes "Error: role '" ++ name ++ bytes "' not configured", false⟩ :: rs)
    | some role =>
      if role.systemPrompt = [] then delegate parallel stamps rest fun rs =>
        next (.ok ⟨name, bytes "Failed to create role session: system_prompt is required", false⟩ ::
          rs)
      else .call ⟨roleSession role (stamps rest.length), delegationPrompt role task⟩ fun
        | .error e =>
          if parallel then delegate parallel stamps rest fun rs => next (.error e :: rs)
          else .done (.error e)
        | .ok result => delegate parallel stamps rest fun rs =>
          next (.ok ⟨name, result, result ≠ [] ∧ ¬ bytes "Error:" <+: result⟩ :: rs)

def validationPrompt (goal : Bytes) (results : List DelegationResult) : Bytes :=
  bytes "You are a result aggregator. Given a goal and results from multiple specialist agents, " ++
    bytes "synthesize them into a single coherent response.\n\nOriginal goal: " ++ goal ++
    bytes "\n\nResults from specialist agents:\n" ++
    (results.flatMap fun dr =>
      bytes "\n--- " ++ dr.roleName ++ bytes " ---\n" ++
        (if dr.success then dr.result else bytes "[FAILED] " ++ dr.result) ++ bytes "\n") ++
    bytes "\nSynthesize these results into a single comprehensive response that addresses the " ++
      bytes "original goal. Note any failures or gaps."

/-- `ValidateResults`, which prompts only for more than one result. -/
def validateResults (goal session : Bytes) (results : List DelegationResult)
    (next : Result → PromptBody) : PromptBody :=
  match results with
  | [] => next (.ok (bytes "No results to validate."))
  | [dr] => next (.ok dr.result)
  | _ => .call ⟨bytes "supervisor_validate_" ++ session, validationPrompt goal results⟩ next

/-- With parallel delegation the roles that are not known come first. -/
def inOrder (parallel : Bool) (tasks : List (Bytes × Bytes)) : List (Bytes × Bytes) :=
  if parallel then
    tasks.filter (fun t => (getRole a t.1).isNone) ++ tasks.filter (fun t => (getRole a t.1).isSome)
  else tasks

def runSupervisor (session goal strategy : Bytes) (stamps : ℕ → ℕ) (next : Result → PromptBody) :
    PromptBody :=
  let parallel := strategy = bytes "parallel"
  .call ⟨bytes "supervisor_decomp_" ++ session, decompositionPrompt a goal⟩ fun
    | .error e => next (.error e)
    | .ok response =>
      match inOrder a parallel (subTasks a response) with
      | [] => next (.ok (bytes
          "Failed to decompose goal into sub-tasks. Please provide a more specific goal."))
      | tasks => delegate a parallel stamps tasks fun results =>
        match results.mapM id with
        | .error e => next (.error e)
        | .ok results => validateResults goal session results next

/-- The tool `run_supervisor`. -/
def supervisorOp (session : Bytes) (args : Json) (stamps : ℕ → ℕ) : PromptBody :=
  match args.valueString (bytes "goal") [],
    args.valueString (bytes "strategy") (bytes "sequential") with
  | .error e, _ => .done (.error (.json e))
  | _, .error e => .done (.error (.json e))
  | .ok goal, .ok strategy =>
    if goal = [] then .done (dumped [(bytes "error", .str (bytes "goal is required"))])
    else runSupervisor a session goal strategy stamps fun result =>
      .done (result.bind fun response =>
        dumped [(bytes "status", .str (bytes "ok")), (bytes "goal", .str goal),
          (bytes "strategy", .str strategy), (bytes "result", .str response)])

end Supervisor

def EngineRun.body : EngineRun → PromptBody
  | .output r => .done r
  | .prompt session text next => .call ⟨session, text⟩ fun r => (next r).body

section Prompt

variable (a : Agent)

/-- A tool behind the checks. -/
def handle (session name : Bytes) (args : Json) (use : ToolUse) : PromptBody :=
  if name = bytes "send_to_session" then sendToSession session args
  else if name = bytes "run_supervisor" then supervisorOp a session args use.stamps
  else if name = bytes "run_pipeline" ∨ name = bytes "run_workflow" then use.engine.body
  else .done use.outcome

def toolUse (session : Bytes) (use : ToolUse) : PromptBody :=
  match use.refusal with
  | some output => .done (.ok output)
  | none => handle a session use.resolved use.call.args use

/-- All tools of a round, and the first exception among their results. -/
def toolRound (session : Bytes) :
    List ToolUse → (Except ToolException Unit → PromptBody) → PromptBody
  | [], next => next (.ok ())
  | use :: uses, next =>
    (toolUse a session use).bind fun result => toolRound session uses fun rest =>
      next (result.bind fun _ => rest)

/-- The answer without a backend: by the first offline rule that matches, else an error. -/
def offline (call : Call) (error : Bytes) (use : ToolUse) : PromptBody :=
  match matchRule a.rules call.prompt with
  | none => .done (.ok (bytes "Error: All language model backends are unavailable. " ++ error))
  | some rule =>
    let tool : PromptBody :=
      if rule.toolName = [] then .done (.ok [])
      else if rule.toolName ∈ toolDispatch a.config.codeGenerator then
        handle a call.session rule.toolName rule.defaultArgs use
      else .done (.ok (errorOutput (bytes "Tool not found: " ++ rule.toolName)))
    tool.bind fun result => .done (result.map fun result =>
      if rule.responseTemplate ≠ [] then rule.responseTemplate
      else bytes "[Offline mode] " ++ result)

def idleMessage : Bytes := bytes
  "I've been running the same tools without making progress. Stopping to prevent an infinite " ++
    bytes "loop. Please try a different approach."

/-- The loop, with the iterations that are left and the text of the last reply. -/
def loop (call : Call) : ℕ → Bytes → PromptBody
  | 0, last =>
    .done (.ok (if last = [] then bytes "Task partially completed (reached iteration limit)."
      else last))
  | n + 1, _ => .ask fun
    | .unavailable error use => offline a call error use
    | .text text => finalText call.session call.prompt text
    | .calls text uses after => toolRound a call.session uses fun result =>
      match result.bind fun _ => after with
      | .error e => .done (.error e)
      | .ok true => .done (.ok idleMessage)
      | .ok false => loop call n text
    | .throws e => .done (.error e)

def processPrompt (call : Call) : PromptBody :=
  if a.initialized ∧ a.hasBackend then loop a call a.config.policy.maxIterations.toNat []
  else .done (.ok (bytes "Error: AgentCore is not initialized."))

end Prompt

end PromptNesting
