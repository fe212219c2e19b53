import TizenClaw.Iteration
import TizenClaw.JsonDump
import TizenClaw.JsonParse

/-! Pipelines: their definitions, the conditions and the interpreter. The execution of one step is
a stream of outcomes, one for each attempt. -/
namespace PipelineExecutor

open ByteString JsonValue JsonDump JsonParse

inductive PipelineStepType where
  | tool
  | prompt
  | condition
  deriving DecidableEq, Repr

structure PipelineStep where
  id : Bytes
  type : PipelineStepType := .tool
  toolName : Bytes := []
  args : Json := .null
  prompt : Bytes := []
  condition : Bytes := []
  thenStep : Bytes := []
  elseStep : Bytes := []
  skipOnFailure : Bool := false
  maxRetries : ℤ := 0
  outputVar : Bytes := []
  deriving DecidableEq, Repr

structure Pipeline where
  id : Bytes
  name : Bytes
  description : Bytes
  steps : List PipelineStep
  trigger : Bytes
  deriving DecidableEq, Repr

section Create

def stringToStepType (s : Bytes) : PipelineStepType :=
  if s = bytes "prompt" then .prompt
  else if s = bytes "condition" then .condition
  else .tool

/-- A 32-bit integer. -/
def wrap32 (i : ℤ) : ℤ := i.bmod (2 ^ 32)

theorem wrap32_of_range {i : ℤ} (h : -2 ^ 31 ≤ i) (hlt : i < 2 ^ 31) : wrap32 i = i := by
  unfold wrap32
  exact Int.bmod_eq_of_le (by omega) (by omega)

theorem wrap32_lt (i : ℤ) : wrap32 i < 2 ^ 31 := by
  have h := Int.bmod_lt (x := i) (m := 2 ^ 32) (by decide)
  exact h.trans_le (by decide)

theorem neg_le_wrap32 (i : ℤ) : -2 ^ 31 ≤ wrap32 i := by
  have h := Int.le_bmod (x := i) (m := 2 ^ 32) (by decide)
  unfold wrap32
  omega

/-- Only at the upper bound a count goes down, and only at the lower bound up. -/
theorem le_wrap32 {i : ℤ} (h : i < 2 ^ 31) : i ≤ wrap32 i := by
  by_cases hl : -2 ^ 31 ≤ i
  · rw [wrap32_of_range hl h]
  · have := neg_le_wrap32 i
    omega

theorem wrap32_le {i : ℤ} (h : -2 ^ 31 ≤ i) : wrap32 i ≤ i := by
  by_cases hlt : i < 2 ^ 31
  · rw [wrap32_of_range h hlt]
  · have := wrap32_lt i
    omega

variable (truncate : NumberText → ℤ)

/-- `get<int>()` -/
def getInt : Json → Except JsonException ℤ
  | .int i => .ok (wrap32 i)
  | .float t => .ok (wrap32 (truncate t))
  | .bool b => .ok (if b then 1 else 0)
  | _ => .error (.typeError 302)

/-- `get<bool>()` -/
def getBool : Json → Except JsonException Bool
  | .bool b => .ok b
  | _ => .error (.typeError 302)

def stepOf (sj : Json) (index : ℕ) : Except JsonException PipelineStep := do
  let id ← sj.valueString (bytes "id") (bytes "step_" ++ decimal index)
  let type ← sj.valueString (bytes "type") (bytes "tool")
  let toolName ← sj.valueString (bytes "tool_name") []
  let prompt ← sj.valueString (bytes "prompt") []
  let condition ← sj.valueString (bytes "condition") []
  let thenStep ← sj.valueString (bytes "then_step") []
  let elseStep ← sj.valueString (bytes "else_step") []
  let skipOnFailure ← sj.value getBool (bytes "skip_on_failure") false
  let maxRetries ← sj.value (getInt truncate) (bytes "max_retries") 0
  let outputVar ← sj.valueString (bytes "output_var") id
  pure { id, type := stringToStepType type, toolName, prompt, condition, thenStep, elseStep
         skipOnFailure, maxRetries, outputVar, args := (sj.member? (bytes "args")).getD .null }

def stepsOf : List Json → ℕ → Except JsonException (List PipelineStep)
  | [], _ => pure []
  | sj :: rest, index => do
    let step ← stepOf truncate sj index
    let steps ← stepsOf rest (index + 1)
    pure (step :: steps)

/-- The pipeline that `CreatePipeline` stores under a generated id, if it accepts the definition. -/
def createPipeline (id : Bytes) (definition : Json) : Except JsonException (Option Pipeline) := do
  let name ← definition.valueString (bytes "name") []
  let description ← definition.valueString (bytes "description") []
  let trigger ← definition.valueString (bytes "trigger") (bytes "manual")
  if name = [] then pure none
  else
    let steps ← match definition.member? (bytes "steps") with
      | some (.arr l) => stepsOf truncate l 0
      | _ => pure []
    if steps = [] then pure none else pure (some { id, name, description, steps, trigger })

end Create

abbrev Variables := List (Bytes × Json)

section Conditions

def openBraces : Bytes := bytes "\x7b\x7b"
def closeBraces : Bytes := bytes "\x7d\x7d"

/-- The name in a match of the pattern for variables at the start of a text. -/
def variableAt (s : Bytes) : Option Bytes :=
  if openBraces.isPrefixOf s then
    let name := (s.drop 2).takeWhile (· ≠ 0x7D)
    if name ≠ [] ∧ closeBraces.isPrefixOf ((s.drop 2).dropWhile (· ≠ 0x7D)) then some name else none
  else none

/-- The names of successive matches; `skip` bytes belong to the last one. -/
def variablesIn (skip : ℕ) : Bytes → List Bytes
  | [] => []
  | c :: s =>
    match skip with
    | skip + 1 => variablesIn skip s
    | 0 => match variableAt (c :: s) with
      | some name => name :: variablesIn (name.length + 3) s
      | none => variablesIn 0 s

variable (vars : Variables)

def text : Json → Except JsonException Bytes
  | .str s => .ok s
  | j => dump j

def replacement (name : Bytes) : Except JsonException Bytes :=
  match find (bytes ".") name with
  | some dot =>
    match vars.lookup (name.take dot) with
    | some (.obj m) => match m.lookup (name.drop (dot + 1)) with
      | some val => text val
      | none => .ok []
    | _ => .ok []
  | none => match vars.lookup name with
    | some val => text val
    | none => .ok []

/-- The first occurrence of a text replaced. -/
def replaceFirst (target new s : Bytes) : Bytes :=
  match find target s with
  | some pos => s.take pos ++ new ++ s.drop (pos + target.length)
  | none => s

def interpolate (tmpl : Bytes) : Except JsonException Bytes :=
  (variablesIn 0 tmpl).foldlM
    (fun result name => do
      let new ← replacement vars name
      pure (replaceFirst (openBraces ++ name ++ closeBraces) new result)) tmpl

/-- The texts around the first occurrence of an operator. -/
def operands (operator s : Bytes) : Option (Bytes × Bytes) :=
  (find operator s).map fun pos => (s.take pos, s.drop (pos + operator.length))

def evalCondition (expr : Bytes) : Except JsonException Bool := do
  let resolved ← interpolate vars expr
  match operands (bytes " == ") resolved with
  | some (left, right) => pure (left = right)
  | none =>
    match operands (bytes " != ") resolved with
    | some (left, right) => pure (left ≠ right)
    | none =>
      match operands (bytes " contains ") resolved with
      | some (left, right) => pure (find right left).isSome
      | none =>
        pure (resolved ≠ [] ∧ resolved ≠ bytes "false" ∧ resolved ≠ bytes "0" ∧
          resolved ≠ bytes "null")

end Conditions

structure PipelineRunResult where
  pipelineId : Bytes
  status : Bytes
  vars : Variables := []
  stepResults : List (Bytes × Bytes) := []

/-- What one call of `ExecuteStep` comes to. -/
inductive StepOutcome where
  | returned (result : Bytes)
  | threw (what : Bytes)

/-- The local variables of `RunPipeline`; `attempt` counts the calls of `ExecuteStep`. -/
structure Loop where
  stepIdx : ℕ := 0
  retries : ℤ := 0
  attempt : ℕ := 0
  vars : Variables
  stepResults : List (Bytes × Bytes) := []
  allSuccess : Bool := true

section Interpreter

variable (readFloat : Bytes → Option NumberText) (p : Pipeline) (results : ℕ → StepOutcome)

def outVar (step : PipelineStep) : Bytes :=
  if step.outputVar = [] then step.id else step.outputVar

/-- The step after a condition: the first one with the id of the target, else the next one. -/
def jump (steps : List PipelineStep) (target : Bytes) (stepIdx : ℕ) : ℕ :=
  if target = [] then stepIdx + 1
  else (steps.findIdx? fun step => step.id = target).getD (stepIdx + 1)

def branch (step : PipelineStep) (condResult : Bool) : Bytes :=
  if condResult then step.thenStep else step.elseStep

def finish (l : Loop) : PipelineRunResult where
  pipelineId := p.id
  status :=
    if l.allSuccess ∧ p.steps.length ≤ l.stepIdx then bytes "success"
    else if p.steps.length ≤ l.stepIdx then bytes "partial"
    else bytes "failed"
  vars := l.vars
  stepResults := l.stepResults

/-- The result of a step as a variable: its JSON value, or the text itself. -/
def resultValue (result : Bytes) : Json :=
  match parse readFloat result with
  | .ok j => j
  | .error _ => .str result

/-- A tool or prompt step is over; its retries start from zero the next time. -/
def stored (step : PipelineStep) (result : Bytes) (l : Loop) : Loop :=
  { l with
    retries := 0
    attempt := l.attempt + 1
    vars := insertMember (outVar step) (resultValue readFloat result) l.vars
    stepResults := l.stepResults ++ [(step.id, result)] }

def conditionStep (step : PipelineStep) (l : Loop) :
    Loop ⊕ Except JsonException PipelineRunResult :=
  match evalCondition l.vars step.condition with
  | .error e => .inr (.error e)
  | .ok condResult => .inl { l with
      vars := insertMember (outVar step) (.bool condResult) l.vars
      stepIdx := jump p.steps (branch step condResult) l.stepIdx }

/-- One attempt of a tool or prompt step. -/
def executeStep (step : PipelineStep) (l : Loop) :
    Loop ⊕ Except JsonException PipelineRunResult :=
  match results l.attempt with
  | .returned result =>
    let l := stored readFloat step result l
    .inl { l with stepIdx := l.stepIdx + 1 }
  | .threw what =>
    let retries := wrap32 (l.retries + 1)
    if retries ≤ step.maxRetries then .inl { l with retries := retries, attempt := l.attempt + 1 }
    else
      let l := stored readFloat step (bytes "Error: " ++ what) l
      let l := { l with allSuccess := false }
      if step.skipOnFailure then .inl { l with stepIdx := l.stepIdx + 1 }
      else .inr (.ok (finish p l))

/-- One turn of the loop, or of the retry loop within it. -/
def tick (l : Loop) : Loop ⊕ Except JsonException PipelineRunResult :=
  match p.steps[l.stepIdx]? with
  | none => .inr (.ok (finish p l))
  | some step =>
    if step.type = .condition then conditionStep p step l
    else executeStep readFloat p results step l

def start (inputVars : Json) : Loop where
  vars := match inputVars with
    | .obj m => ofMembers m
    | _ => []

/-- `RunPipeline` comes to its end and returns a result. -/
def Returns (inputVars : Json) : Prop :=
  ∃ n r, Iteration.run (tick readFloat p results) n (start inputVars) = some (.ok r)

end Interpreter

end PipelineExecutor
