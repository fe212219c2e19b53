import TizenClaw.PipelineTermination
import TizenClaw.PromptExits
import TizenClaw.TaskScheduler
import TizenClaw.WorkflowEngine

/-! Failed prompts that pipelines, workflows and the scheduler take for results: they look for
exceptions, and a prompt that fails returns a text. -/
namespace FailureReporting

open ByteString JsonValue Iteration TransitionSystem PipelineExecutor PipelineTermination
open WorkflowEngine PromptExits TaskSchedule

section Attempts

/-- A prompt that came to an end. -/
structure Prompted where
  agent : PromptNesting.Agent
  answers : ℕ → PromptNesting.Turn
  callee : PromptNesting.Call → ℕ → Option (NestedCalls.Outcome PromptNesting.Result)
  call : PromptNesting.Call
  position : ℕ := 0
  exit : Exit
  ends : promptExit agent answers callee call position = some exit

/-- What the prompt returned is the result of its exit. -/
theorem Prompted.result (x : Prompted) :
    (NestedCalls.play x.answers x.callee
      (PromptNesting.processPrompt x.agent x.call) x.position).map
      Prod.fst = some x.exit.result := by
  rw [play_processPrompt, x.ends]
  rfl

/-- An attempt at a step: its text cannot be put together, or it is prompted for. -/
inductive Attempt where
  | threw (what : Bytes)
  | prompted (x : Prompted)

def Attempt.Failed : Attempt → Prop
  | .threw _ => False
  | .prompted x => x.exit.Failure

variable (what : ToolDispatch.ToolException → Bytes)

def Attempt.outcome : Attempt → StepOutcome
  | .threw w => .threw w
  | .prompted x => match x.exit.result with
    | .ok text => .returned text
    | .error e => .threw (what e)

def taskOutcome (x : Prompted) : TaskScheduler.Outcome :=
  match x.exit.result with
  | .ok text => .returned text
  | .error e => .threw (what e)

/-- A failure leaves as a text. -/
theorem failure_text {exit : Exit} (h : exit.Failure) : ∃ text, exit.result = .ok text := by
  cases exit with
  | uninitialized => exact ⟨_, rfl⟩
  | unavailable error => exact ⟨_, rfl⟩
  | idle => exact ⟨_, rfl⟩
  | limit last => exact ⟨_, rfl⟩
  | answered text => exact absurd h id
  | threw e => exact absurd h id

theorem failed_outcome {a : Attempt} (h : a.Failed) : ∃ text, a.outcome what = .returned text := by
  cases a with
  | threw w => exact absurd h id
  | prompted x =>
    obtain ⟨text, ht⟩ := failure_text h
    refine ⟨text, ?_⟩
    unfold Attempt.outcome
    dsimp only
    rw [ht]

theorem failure_outcome {x : Prompted} (h : x.exit.Failure) :
    ∃ text, taskOutcome what x = .returned text := by
  obtain ⟨text, ht⟩ := failure_text h
  refine ⟨text, ?_⟩
  unfold taskOutcome
  rw [ht]

end Attempts

section Runs

variable (readFloat : Bytes → Option NumberText) (what : ToolDispatch.ToolException → Bytes)
variable (p : Pipeline) (attempts : ℕ → Attempt) (inputVars : Json)

/-- The loop on the outcomes of the attempts. -/
def turn : Loop → Loop ⊕ Except JsonException PipelineRunResult :=
  tick readFloat p fun k => (attempts k).outcome what

def Reached (l : Loop) : Prop :=
  ∃ n, after (turn readFloat what p attempts) n (start inputVars) = some l

/-- The attempt that is made here ends on a failure exit. -/
def FailsAt (l : Loop) (step : PipelineStep) : Prop :=
  p.steps[l.stepIdx]? = some step ∧ step.type ≠ .condition ∧ (attempts l.attempt).Failed

/-- There are retries left. -/
def Retries (l : Loop) (step : PipelineStep) : Prop := wrap32 (l.retries + 1) ≤ step.maxRetries

def retry (l : Loop) : Loop :=
  { l with retries := wrap32 (l.retries + 1), attempt := l.attempt + 1 }

/-- Every attempt that fails so is retried; after the last one the run ends, or with
`skip_on_failure` goes on without success. A run is a success only if no step ended so. -/
structure Recorded : Prop where
  retried : ∀ l step, Reached readFloat what p attempts inputVars l → FailsAt p attempts l step →
    Retries l step → turn readFloat what p attempts l = .inl (retry l)
  aborted : ∀ l step, Reached readFloat what p attempts inputVars l → FailsAt p attempts l step →
    ¬ Retries l step → step.skipOnFailure = false →
      ∃ r, turn readFloat what p attempts l = .inr (.ok r) ∧ r.status = bytes "failed"
  skipped : ∀ l step, Reached readFloat what p attempts inputVars l → FailsAt p attempts l step →
    ¬ Retries l step → step.skipOnFailure = true →
      ∃ l', turn readFloat what p attempts l = .inl l' ∧ l'.allSuccess = false
  status : ∀ n r, run (turn readFloat what p attempts) n (start inputVars) = some (.ok r) →
    r.status = bytes "success" → ∀ l step, Reached readFloat what p attempts inputVars l →
      FailsAt p attempts l step → turn readFloat what p attempts l = .inl (retry l)

/-- Only last attempts that are skipped may fail so, when the run is no success any more. -/
def Unheard : Prop :=
  ∀ l step, Reached readFloat what p attempts inputVars l → FailsAt p attempts l step →
    ¬ Retries l step ∧ step.skipOnFailure = true ∧ l.allSuccess = false

end Runs

section Steps

variable {readFloat : Bytes → Option NumberText} {what : ToolDispatch.ToolException → Bytes}
variable {p : Pipeline} {attempts : ℕ → Attempt} {inputVars : Json}

variable (readFloat what) in
/-- The loop takes the failure for the result of the step. -/
theorem turn_fails {l : Loop} {step : PipelineStep} (h : FailsAt p attempts l step) :
    ∃ l', turn readFloat what p attempts l = .inl l' ∧ l'.stepIdx = l.stepIdx + 1 ∧
      l'.allSuccess = l.allSuccess := by
  obtain ⟨hs, ht, hf⟩ := h
  obtain ⟨text, htext⟩ := failed_outcome what hf
  have hturn : turn readFloat what p attempts l =
      executeStep readFloat p (fun k => (attempts k).outcome what) step l := tick_execute hs ht
  rw [hturn, executeStep, htext]
  exact ⟨_, rfl, rfl, rfl⟩

theorem turn_fails_ne_retry {l : Loop} {step : PipelineStep} (h : FailsAt p attempts l step) :
    turn readFloat what p attempts l ≠ .inl (retry l) := by
  obtain ⟨l', hl', hidx, -⟩ := turn_fails readFloat what h
  intro hr
  rw [hl'] at hr
  have hsame : l'.stepIdx = (retry l).stepIdx := congrArg Loop.stepIdx (Sum.inl.inj hr)
  have hretry : (retry l).stepIdx = l.stepIdx := rfl
  omega

theorem finish_failed {l : Loop} (hl : l.allSuccess = false) :
    (finish p l).status ≠ bytes "success" := by
  have hno : ¬ (l.allSuccess = true ∧ p.steps.length ≤ l.stepIdx) := by simp [hl]
  unfold finish
  dsimp only
  rw [if_neg hno]
  split_ifs
  · decide
  · decide

/-- A step that failed is not forgotten. -/
theorem turn_keeps_failed {l : Loop} (hl : l.allSuccess = false) :
    (∀ l', turn readFloat what p attempts l = .inl l' → l'.allSuccess = false) ∧
    ∀ r, turn readFloat what p attempts l = .inr (.ok r) → r.status ≠ bytes "success" := by
  unfold turn
  cases hs : p.steps[l.stepIdx]? with
  | none =>
    rw [tick_end hs]
    refine ⟨fun l' h => (by cases h), fun r hr => ?_⟩
    obtain rfl := Except.ok.inj (Sum.inr.inj hr)
    exact finish_failed hl
  | some step =>
    by_cases ht : step.type = .condition
    · rw [tick_condition hs ht, conditionStep]
      split
      · exact ⟨fun l' h => (by cases h), fun r hr => (by cases hr)⟩
      · refine ⟨fun l' h => ?_, fun r hr => (by cases hr)⟩
        obtain rfl := Sum.inl.inj h
        exact hl
    · rw [tick_execute hs ht, executeStep]
      split
      · refine ⟨fun l' h => ?_, fun r hr => (by cases hr)⟩
        obtain rfl := Sum.inl.inj h
        exact hl
      · dsimp only
        split_ifs
        · refine ⟨fun l' h => ?_, fun r hr => (by cases hr)⟩
          obtain rfl := Sum.inl.inj h
          exact hl
        · refine ⟨fun l' h => ?_, fun r hr => (by cases hr)⟩
          obtain rfl := Sum.inl.inj h
          rfl
        · refine ⟨fun l' h => (by cases h), fun r hr => ?_⟩
          obtain rfl := Except.ok.inj (Sum.inr.inj hr)
          exact finish_failed rfl

theorem recorded_iff_unheard :
    Recorded readFloat what p attempts inputVars ↔ Unheard readFloat what p attempts inputVars := by
  constructor
  · rintro ⟨hretried, haborted, hskipped, -⟩ l step hl hf
    have hretries : ¬ Retries l step := fun hr => turn_fails_ne_retry hf (hretried l step hl hf hr)
    obtain ⟨l', hl', -, hsuccess⟩ := turn_fails readFloat what hf
    have hskip : step.skipOnFailure = true := by
      by_contra hno
      obtain ⟨r, hr, -⟩ := haborted l step hl hf hretries (Bool.eq_false_iff.mpr hno)
      rw [hl'] at hr
      cases hr
    obtain ⟨l'', hl'', hfalse⟩ := hskipped l step hl hf hretries hskip
    rw [hl'] at hl''
    obtain rfl := Sum.inl.inj hl''
    exact ⟨hretries, hskip, hsuccess.symm.trans hfalse⟩
  · intro h
    constructor
    · intro l step hl hf hr
      exact absurd hr (h l step hl hf).1
    · intro l step hl hf _ hskip
      rw [(h l step hl hf).2.1] at hskip
      cases hskip
    · intro l step hl hf _ _
      obtain ⟨l', hl', -, hsuccess⟩ := turn_fails readFloat what hf
      exact ⟨l', hl', hsuccess.trans (h l step hl hf).2.2⟩
    · intro n r hr hstatus l step hl hf
      exfalso
      obtain ⟨m, hm⟩ := hl
      have hmn : m ≤ n := by
        by_contra hlt
        rw [after_of_run hr (not_le.mp hlt).le] at hm
        cases hm
      rw [← Nat.add_sub_cancel' hmn, run_after hm] at hr
      obtain ⟨t, ht, htr⟩ := result_of_run (I := fun l : Loop => l.allSuccess = false)
        (fun s t hs hst => (turn_keeps_failed hs).1 t hst) (h l step ⟨m, hm⟩ hf).2.2 hr
      exact (turn_keeps_failed ht).2 r htr hstatus

end Steps

section Tasks

open TaskScheduler

variable (what : ToolDispatch.ToolException → Bytes) (prompts : ℕ → Prompted)

/-- The execution is counted and logged as failed, and disables the task when too many were. -/
structure TaskFailed (before after : ScheduledTask) : Prop where
  counted : after.failCount = before.failCount + 1
  disabled : before.maxRetries ≤ before.failCount + 1 → after.status = .failed
  logged : ∃ entry ∈ after.history.head?, entry.status = bytes "failed"

/-- The event ends the execution of a task by its prompt. -/
def Finishes (x : State × Event) (prompt : Prompted) (before after : ScheduledTask) : Prop :=
  x.1.executor = .executing before ∧ ∃ timestamp durationMs lastRun,
    x.2 = .finish timestamp durationMs (taskOutcome what prompt) lastRun ∧
      after = executed before timestamp durationMs (taskOutcome what prompt) lastRun

def TasksRecorded (tr : List (State × Event)) : Prop :=
  ∀ k, ∀ x ∈ tr[k]?, ∀ before after, Finishes what x (prompts k) before after →
    (prompts k).exit.Failure → TaskFailed before after

/-- No execution of the run has a prompt that fails. -/
def TasksAnswered (tr : List (State × Event)) : Prop :=
  ∀ k, ∀ x ∈ tr[k]?, ∀ before after, Finishes what x (prompts k) before after →
    ¬ (prompts k).exit.Failure

variable {what prompts}

/-- A failure is logged as a success. -/
theorem finishes_failure {x : State × Event} {prompt : Prompted} {before after : ScheduledTask}
    (h : Finishes what x prompt before after) (hf : prompt.exit.Failure) :
    after.failCount = 0 ∧
      ∃ entry rest, after.history = entry :: rest ∧ entry.status = bytes "success" := by
  obtain ⟨-, timestamp, durationMs, lastRun, -, rfl⟩ := h
  obtain ⟨text, ht⟩ := failure_outcome what hf
  rw [ht]
  exact ⟨rfl, _, _, rfl, rfl⟩

theorem tasks_recorded_iff (tr : List (State × Event)) :
    TasksRecorded what prompts tr ↔ TasksAnswered what prompts tr := by
  constructor
  · intro h k x hx before after hfin hf
    obtain ⟨entry, hentry, hstatus⟩ := (h k x hx before after hfin hf).logged
    obtain ⟨-, entry', rest, hhistory, hsuccess⟩ := finishes_failure hfin hf
    rw [hhistory, List.head?_cons] at hentry
    obtain rfl := Option.some.inj hentry
    rw [hsuccess] at hstatus
    exact absurd hstatus (by decide)
  · intro h k x hx before after hfin hf
    exact absurd hf (h k x hx before after hfin)

end Tasks

/-- Failed prompts are recorded as failed exactly if there are none, but for last attempts that are
skipped in a run that is no success any more. -/
theorem failures_recorded_iff (readFloat : Bytes → Option NumberText)
    (what : ToolDispatch.ToolException → Bytes) (attempts : ℕ → Attempt) (prompts : ℕ → Prompted) :
    (∀ (p : Pipeline) inputVars, Recorded readFloat what p attempts inputVars ↔
      Unheard readFloat what p attempts inputVars) ∧
    (∀ (wf : Workflow) inputVars, Recorded readFloat what wf.asPipeline attempts inputVars ↔
      Unheard readFloat what wf.asPipeline attempts inputVars) ∧
    ∀ cal tr t, Run (TaskScheduler.scheduler cal) tr t →
      (TasksRecorded what prompts tr ↔ TasksAnswered what prompts tr) :=
  ⟨fun _ _ => recorded_iff_unheard, fun _ _ => recorded_iff_unheard,
    fun _ tr _ _ => tasks_recorded_iff tr⟩

namespace Counterexample

open TaskScheduler TaskScheduler.Sample

def noFloat (_ : Bytes) : Option NumberText := none

def agent (hasBackend : Bool) : PromptNesting.Agent where
  initialized := true
  hasBackend := hasBackend
  config := { stdHash := List.length
              num := ⟨fun i => .finite i, fun _ => .nan, fun _ => none, fun _ => []⟩ }
  rules := []
  roles := []
  readFloat := noFloat

/-- A prompt that no backend is there for. -/
def unserved : Prompted where
  agent := agent false
  answers _ := .text []
  callee _ _ := none
  call := ⟨bytes "pipeline_pipeline_pipe-1", bytes "hello"⟩
  exit := .uninitialized
  ends := rfl

def answered : Prompted where
  agent := agent true
  answers _ := .text (bytes "done")
  callee _ _ := none
  call := ⟨bytes "pipeline_pipeline_pipe-1", bytes "hello"⟩
  exit := .answered (bytes "done")
  ends := by decide +kernel

def onlyStep : PipelineStep :=
  { id := bytes "s", type := .prompt, prompt := bytes "hello", maxRetries := 2 }

def pipeline : Pipeline := ⟨bytes "pipe-1", bytes "p", [], [onlyStep], bytes "manual"⟩

def workflow : Workflow :=
  ⟨bytes "wf-1", bytes "w", [], bytes "manual",
    [{ id := bytes "s", instruction := bytes "hello", maxRetries := 2 }]⟩

def task : ScheduledTask := { id := taskId 7, prompt := bytes "hello", failCount := 2 }

/-- The status of a run all of whose attempts end like one prompt. -/
def statusOf (p : Pipeline) (x : Prompted) : Option Bytes :=
  (run (turn noFloat (fun _ => []) p fun _ => .prompted x) 2
    (PipelineExecutor.start .null)).bind fun r =>
    r.toOption.map PipelineRunResult.status

/-- Without a backend everything succeeds at once, and the task loses count of its failures. -/
theorem unserved_succeeds :
    unserved.exit.Failure ∧
    statusOf pipeline unserved = some (bytes "success") ∧
    statusOf workflow.asPipeline unserved = some (bytes "success") ∧
    (executed task [] 0 (taskOutcome (fun _ => []) unserved) 0).failCount = 0 ∧
    (executed task [] 0 (taskOutcome (fun _ => []) unserved) 0).history.map TaskExecEntry.status =
      [bytes "success"] := by decide +kernel

/-- Where all prompts are answered, nothing is recorded wrongly. -/
theorem answered_recorded :
    Recorded noFloat (fun _ => []) pipeline (fun _ => .prompted answered) .null ∧
    Recorded noFloat (fun _ => []) workflow.asPipeline (fun _ => .prompted answered) .null ∧
    ∃ tr t, Run (scheduler utc) tr t ∧ (∃ x ∈ tr, x.2 = finishAt 120) ∧
      TasksRecorded (fun _ => []) (fun _ => answered) tr := by
  obtain ⟨hpipeline, hworkflow, htasks⟩ :=
    failures_recorded_iff noFloat (fun _ => []) (fun _ => .prompted answered) fun _ => answered
  obtain ⟨tr₁, u, tr₂, t, hr, -⟩ := exists_run utc start (start_init utc)
    [createTask 7 "interval 10s" 100, passAt 110, .dequeue, .copy, .start] (finishAt 120) []
    (fun _ _ _ _ => true) (by decide +kernel)
  refine ⟨(hpipeline _ _).mpr ?_, (hworkflow _ _).mpr ?_, tr₁ ++ (u, finishAt 120) :: tr₂, t, hr,
    ⟨(u, finishAt 120), by simp, rfl⟩, (htasks _ _ _ hr).mpr ?_⟩
  · exact fun _ _ _ hf => absurd hf.2.2 id
  · exact fun _ _ _ hf => absurd hf.2.2 id
  · exact fun _ _ _ _ _ _ hf => hf

end Counterexample

end FailureReporting
