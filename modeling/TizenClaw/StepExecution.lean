import TizenClaw.WorkflowEngine
import Mathlib.Logic.Function.Basic

/-! How a run works on the sessions of the agent: the session its steps prompt in, and the one it
clears at its end. -/
namespace StepExecution

open ByteString JsonValue JsonDump PipelineExecutor WorkflowEngine

section Requests

variable (interpolate : Bytes → Except JsonException Bytes)

mutual

/-- `InterpolateJson`: all strings of the value, but not its keys. -/
def interpolateJson : Json → Except JsonException Json
  | .str s => (interpolate s).map .str
  | .arr l => (interpolateElements l).map .arr
  | .obj m => (interpolateMembers m).map .obj
  | .null => .ok .null
  | .bool b => .ok (.bool b)
  | .int i => .ok (.int i)
  | .float t => .ok (.float t)

def interpolateElements : List Json → Except JsonException (List Json)
  | [] => .ok []
  | x :: xs => do
    let y ← interpolateJson x
    let ys ← interpolateElements xs
    pure (y :: ys)

def interpolateMembers : List (Bytes × Json) → Except JsonException (List (Bytes × Json))
  | [] => .ok []
  | (k, x) :: m => do
    let y ← interpolateJson x
    let ys ← interpolateMembers m
    pure ((k, y) :: ys)

end

/-- What a step asks the agent for: the prompt, and before it a session for code. -/
structure Request where
  code : Option Bytes := none
  prompt : Bytes

/-- The prompt that has the model use a tool. -/
def toolRequest (step : PipelineStep) : Except JsonException Request := do
  let args ← interpolateJson interpolate step.args
  let args ← dump args
  pure { prompt := bytes "Use the " ++ step.toolName ++
    bytes " tool with these arguments: " ++ args }

def codeRequest (step : PipelineStep) : Except JsonException Request := do
  let args ← interpolateJson interpolate step.args
  let code ← args.valueString (bytes "code") []
  pure { code := some code, prompt := bytes "Use the execute_code tool with this code: " ++ code }

def promptRequest (step : PipelineStep) : Except JsonException Request := do
  let prompt ← interpolate step.prompt
  pure { prompt }

end Requests

/-- An executor: the word its session ids begin with, and the requests of its steps. -/
structure Engine where
  word : Bytes
  request : Variables → PipelineStep → Except JsonException Request

def pipelineEngine : Engine where
  word := bytes "pipeline_"
  request vars step :=
    if step.type = .tool then
      if step.toolName = bytes "execute_code" then
        codeRequest (PipelineExecutor.interpolate vars) step
      else toolRequest (PipelineExecutor.interpolate vars) step
    else promptRequest (PipelineExecutor.interpolate vars) step

def workflowEngine : Engine where
  word := bytes "workflow_"
  request vars step :=
    if step.type = .tool then toolRequest (WorkflowEngine.interpolate vars) step
    else promptRequest (WorkflowEngine.interpolate vars) step

/-- The sessions of an agent, and what the run did with them: the ids it passed on, the sessions
that were created for it, and those it cleared. -/
structure World (η : Type) where
  sessions : Bytes → Option η
  passed : List Bytes := []
  created : List Bytes := []
  cleared : List Bytes := []

/-- `ProcessPrompt` on the history of its session. -/
abbrev Agent (η : Type) := Bytes → Option η → Bytes → StepOutcome × Option η

section Execute

variable {η : Type} (agent : Agent η) (stamp : Bytes → ℕ) (what : JsonException → Bytes)

/-- The id of the session that `create_session` creates; without a system prompt it refuses. -/
def createSession (args : Json) : Except JsonException (Option Bytes) := do
  let name ← args.valueString (bytes "name") (bytes "agent")
  let prompt ← args.valueString (bytes "system_prompt") []
  pure (if prompt = [] then none
    else some (bytes "agent_" ++ name ++ bytes "_" ++ decimal (stamp name % 100000)))

/-- `ExecuteSessionOp` with the operation `create_session`. -/
def executeSessionOp (args : Json) (caller : Bytes) (w : World η) :
    Except JsonException (World η) := do
  let id ← createSession stamp args
  pure { w with passed := w.passed ++ [caller], created := w.created ++ id.toList }

def processPrompt (session prompt : Bytes) (w : World η) : StepOutcome × World η :=
  let (outcome, history) := agent session (w.sessions session) prompt
  (outcome, { w with
    sessions := Function.update w.sessions session history
    passed := w.passed ++ [session] })

/-- `ExecuteStep` with the session id of the run. -/
def executeStep (e : Engine) (step : PipelineStep) (vars : Variables) (sessionId : Bytes)
    (w : World η) : StepOutcome × World η :=
  match e.request vars step with
  | .error x => (.threw (what x), w)
  | .ok request =>
    match request.code.elim (.ok w) fun code =>
      executeSessionOp stamp (.obj [(bytes "code", .str code)]) sessionId w with
    | .error x => (.threw (what x), w)
    | .ok w => processPrompt agent (e.word ++ sessionId) request.prompt w

end Execute

section Run

variable {η : Type} (readFloat : Bytes → Option NumberText) (agent : Agent η) (stamp : Bytes → ℕ)
variable (what : JsonException → Bytes) (e : Engine) (p : Pipeline)

def sessionId : Bytes := e.word ++ p.id

def clearSession (session : Bytes) (w : World η) : World η :=
  { w with sessions := Function.update w.sessions session none, cleared := w.cleared ++ [session] }

/-- What an attempt at the step comes to; a condition asks for nothing. -/
def attempt (l : Loop) (w : World η) : StepOutcome × World η :=
  match p.steps[l.stepIdx]? with
  | none => (.returned [], w)
  | some step =>
    if step.type = .condition then (.returned [], w)
    else executeStep agent stamp what e step l.vars (sessionId e p) w

/-- One turn of the loop. At its end the session of the run is cleared, but not behind an
exception. -/
def turn (x : Loop × World η) :
    (Loop × World η) ⊕ (Except JsonException PipelineRunResult × World η) :=
  let (outcome, w) := attempt agent stamp what e p x.1 x.2
  match tick readFloat p (fun _ => outcome) x.1 with
  | .inl l => .inl (l, w)
  | .inr (.ok r) => .inr (.ok r, clearSession (sessionId e p) w)
  | .inr (.error x) => .inr (.error x, w)

/-- The run of a pipeline or workflow from the sessions that there are. -/
def begin (inputVars : Json) (sessions : Bytes → Option η) : Loop × World η :=
  (PipelineExecutor.start inputVars, { sessions })

end Run

end StepExecution
