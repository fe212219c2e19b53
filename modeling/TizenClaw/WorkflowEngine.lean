import TizenClaw.PipelineExecutor

/-! Workflows, whose steps are instructions and tools. Their loop is the one of the pipelines
without conditions. -/
namespace WorkflowEngine

open ByteString JsonValue PipelineExecutor

inductive WorkflowStepType where
  | prompt
  | tool
  deriving DecidableEq, Repr

structure WorkflowStep where
  id : Bytes
  type : WorkflowStepType := .prompt
  instruction : Bytes := []
  toolName : Bytes := []
  args : Json := .null
  outputVar : Bytes := []
  skipOnFailure : Bool := false
  maxRetries : ℤ := 0
  deriving DecidableEq, Repr

structure Workflow where
  id : Bytes
  name : Bytes
  description : Bytes
  trigger : Bytes
  steps : List WorkflowStep
  deriving DecidableEq, Repr

section Interpolation

variable (vars : Variables)

/-- The whole name is looked up, dots and all. -/
def replacement (name : Bytes) : Except JsonException Bytes :=
  match vars.lookup name with
  | some val => text val
  | none => .ok []

def interpolate (tmpl : Bytes) : Except JsonException Bytes :=
  (variablesIn 0 tmpl).foldlM
    (fun result name => do
      let new ← replacement vars name
      pure (replaceFirst (openBraces ++ name ++ closeBraces) new result)) tmpl

end Interpolation

section Interpreter

def WorkflowStepType.asPipeline : WorkflowStepType → PipelineStepType
  | .prompt => .prompt
  | .tool => .tool

def WorkflowStep.asPipeline (step : WorkflowStep) : PipelineStep where
  id := step.id
  type := step.type.asPipeline
  toolName := step.toolName
  args := step.args
  prompt := step.instruction
  skipOnFailure := step.skipOnFailure
  maxRetries := step.maxRetries
  outputVar := step.outputVar

/-- The workflow as the loop sees it. -/
def Workflow.asPipeline (w : Workflow) : Pipeline where
  id := w.id
  name := w.name
  description := w.description
  steps := w.steps.map WorkflowStep.asPipeline
  trigger := w.trigger

/-- No step of a workflow is a condition. -/
theorem not_condition {w : Workflow} {i : ℕ} {step : PipelineStep}
    (h : w.asPipeline.steps[i]? = some step) : step.type ≠ .condition := by
  obtain ⟨s, -, rfl⟩ :=
    Option.map_eq_some_iff.mp (List.getElem?_map (f := WorkflowStep.asPipeline) ▸ h)
  change s.type.asPipeline ≠ .condition
  cases s.type with
  | prompt => exact PipelineStepType.noConfusion
  | tool => exact PipelineStepType.noConfusion

end Interpreter

end WorkflowEngine
