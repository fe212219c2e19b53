import TizenClaw.ToolPolicy
import TizenClaw.ToolRouting
import TizenClaw.SafetyChecks
import TizenClaw.LlmTypes

/-! One tool call of a model response: the checks it passes, the branch that runs it and the
text that is kept of its output. -/
namespace ToolDispatch

open ByteString JsonValue JsonDump LlmTypes ToolPolicy ToolRouting SafetyChecks UserProfileStore

/-- The keys of `tool_dispatch_`; the first two depend on a build option. -/
def toolDispatch (codeGenerator : Bool) : List Bytes :=
  (if codeGenerator then [bytes "execute_code", bytes "manage_custom_skill"] else []) ++
  [bytes "switch_user",
    bytes "create_task", bytes "list_tasks", bytes "cancel_task",
    bytes "create_session", bytes "list_sessions", bytes "send_to_session",
    bytes "ingest_document", bytes "search_knowledge", bytes "lookup_web_api",
    bytes "run_supervisor", bytes "list_agent_roles", bytes "get_agent_status",
    bytes "list_agents", bytes "spawn_agent", bytes "list_dynamic_agents", bytes "remove_agent",
    bytes "create_pipeline", bytes "list_pipelines", bytes "run_pipeline",
    bytes "delete_pipeline",
    bytes "create_workflow", bytes "list_workflows", bytes "run_workflow",
    bytes "delete_workflow",
    bytes "remember", bytes "recall", bytes "forget",
    bytes "execute_cli",
    bytes "start_cli_session", bytes "send_to_cli", bytes "read_cli_output",
    bytes "close_cli_session",
    bytes "generate_web_app"]

inductive Branch where
  | handler
  | action
  | mcp
  | skill
  deriving DecidableEq, Repr

def isMcpTool (name : Bytes) : Bool := (bytes "mcp__").isPrefixOf name

/-- Where a resolved name is executed. -/
def branch (codeGenerator : Bool) (name : Bytes) : Branch :=
  if name ∈ toolDispatch codeGenerator then .handler
  else if name = bytes "execute_action" ∨ (bytes "action_").isPrefixOf name then .action
  else if isMcpTool name then .mcp
  else .skill

/-- What a tool or a serializer throws. -/
inductive ToolException where
  | json (e : JsonException)
  | other
  deriving DecidableEq, Repr

def errorOutput (message : Bytes) : Bytes :=
  bytes "\x7b\"error\": \"" ++ message ++ bytes "\"\x7d"

/-- The handler of `switch_user`: its output and the user the session is bound to. -/
def switchUser (args : Json) : Except JsonException (Bytes × Option Bytes) :=
  (args.valueString (bytes "user_id") []).map fun target =>
    if target = [] then (errorOutput (bytes "user_id is required"), none)
    else
      (bytes "\x7b\"status\": \"success\", \"message\": \"Switched to " ++ target ++ bytes "\"\x7d",
        some target)

def maxToolOutputSize : ℕ := 4096

def truncateOutput (output : Bytes) : Bytes :=
  if maxToolOutputSize < output.length then
    output.take maxToolOutputSize ++ bytes "\n... (truncated, " ++ decimal output.length ++
      bytes " bytes total)"
  else output

def routedHint (name resolved : Bytes) : Bytes :=
  bytes " [Routed: " ++ name ++ bytes " -> " ++ resolved ++ bytes "]"

/-- What is kept of a tool's output: a cut at a byte count, and a hint after a redirection. -/
def processOutput (name resolved output : Bytes) : Bytes :=
  let output := truncateOutput output
  if resolved ≠ name ∧ output ≠ [] then output ++ routedHint name resolved else output

def rateText (name : Bytes) : Bytes :=
  bytes "Action rate limit exceeded for " ++ name ++ bytes ". Please wait before retrying."

structure ToolExecResult where
  id : Bytes
  name : Bytes
  output : Bytes
  deriving DecidableEq, Repr

/-- The configuration the checks read; none of it changes while the agent runs. -/
structure Config where
  codeGenerator : Bool := false
  policy : ToolPolicyConfig := {}
  guard : SafetyGuard := {}
  profiles : Profiles := []
  stdHash : Bytes → ℕ
  num : NumericLibrary

/-- What one task finds in the shared components when it gets to them, and what its tool does.
Other tasks run between these moments, so nothing relates the fields. -/
structure Seen where
  callHistory : CallHistory
  role : UserRole
  rateHistory : RateHistory
  now : ℤ
  router : ToolRouter
  outcome : Except ToolException Bytes

section Task

variable (cfg : Config) (session : Bytes) (tc : LlmToolCall)

/-- The error text of a refused call; `none` when all checks let it pass. -/
def refusal (seen : Seen) : Option Bytes :=
  let violation := (checkPolicy cfg.policy cfg.stdHash seen.callHistory session tc.name tc.args).1
  if violation ≠ [] then some (errorOutput violation)
  else
    let safety := validate cfg.num cfg.guard tc.name tc.args seen.role
    if safety.allowed = false then some (errorOutput safety.reason)
    else if (checkActionRateLimit cfg.guard seen.rateHistory seen.now tc.name).1 then
      some (errorOutput (rateText tc.name))
    else none

/-- The body of the task: its result, or the exception that comes out of `get`. -/
def toolTask (seen : Seen) : Except ToolException ToolExecResult :=
  match refusal cfg session tc seen with
  | some output => .ok ⟨tc.id, tc.name, output⟩
  | none =>
    let resolved := seen.router.resolve tc.name
    seen.outcome.map fun output => ⟨tc.id, resolved, processOutput tc.name resolved output⟩

end Task

theorem toolTask_id {cfg : Config} {session : Bytes} {tc : LlmToolCall} {seen : Seen}
    {r : ToolExecResult} (h : toolTask cfg session tc seen = .ok r) : r.id = tc.id := by
  unfold toolTask at h
  split at h
  · obtain rfl := Except.ok.inj h
    rfl
  · cases ho : seen.outcome with
    | error e => simp [ho, Except.map] at h
    | ok output =>
      rw [ho] at h
      obtain rfl := Except.ok.inj h
      rfl

end ToolDispatch
