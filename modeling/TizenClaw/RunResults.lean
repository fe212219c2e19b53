import TizenClaw.PipelineTermination
import TizenClaw.WorkflowEngine

/-! What the result of a run says about the steps that were executed in it. -/
namespace RunResults

open ByteString JsonValue JsonParse PipelineExecutor PipelineTermination WorkflowEngine
open Iteration

section Workflows

variable (readFloat : Bytes → Option NumberText) (w : Workflow) (results : ℕ → StepOutcome)

def workflowVar (step : WorkflowStep) : Bytes :=
  if step.outputVar = [] then step.id else step.outputVar

def workflowFinish (l : Loop) : PipelineRunResult where
  pipelineId := w.id
  status :=
    if l.allSuccess ∧ w.steps.length ≤ l.stepIdx then bytes "success"
    else if w.steps.length ≤ l.stepIdx then bytes "partial"
    else bytes "failed"
  vars := l.vars
  stepResults := l.stepResults

def workflowStored (step : WorkflowStep) (result : Bytes) (l : Loop) : Loop :=
  { l with
    retries := 0
    attempt := l.attempt + 1
    vars := insertMember (workflowVar step) (resultValue readFloat result) l.vars
    stepResults := l.stepResults ++ [(step.id, result)] }

/-- One turn of the loop of `RunWorkflow`, or of the retry loop within it. -/
def workflowTick (l : Loop) : Loop ⊕ Except JsonException PipelineRunResult :=
  match w.steps[l.stepIdx]? with
  | none => .inr (.ok (workflowFinish w l))
  | some step =>
    match results l.attempt with
    | .returned result =>
      let l := workflowStored readFloat step result l
      .inl { l with stepIdx := l.stepIdx + 1 }
    | .threw what =>
      let retries := wrap32 (l.retries + 1)
      if retries ≤ step.maxRetries then
        .inl { l with retries := retries, attempt := l.attempt + 1 }
      else
        let l := workflowStored readFloat step (bytes "Error: " ++ what) l
        let l := { l with allSuccess := false }
        if step.skipOnFailure then .inl { l with stepIdx := l.stepIdx + 1 }
        else .inr (.ok (workflowFinish w l))

theorem workflowFinish_eq (l : Loop) : workflowFinish w l = finish w.asPipeline l := by
  unfold workflowFinish finish Workflow.asPipeline
  rw [List.length_map]

/-- The two loops take the same turns, that of a workflow without conditions. -/
theorem workflowTick_eq (l : Loop) :
    workflowTick readFloat w results l = tick readFloat w.asPipeline results l := by
  have hsteps : w.asPipeline.steps[l.stepIdx]? =
      w.steps[l.stepIdx]?.map WorkflowStep.asPipeline := List.getElem?_map
  cases hs : w.steps[l.stepIdx]? with
  | none =>
    rw [hs] at hsteps
    rw [workflowTick, hs, tick_end hsteps, ← workflowFinish_eq]
  | some step =>
    rw [hs] at hsteps
    rw [workflowTick, hs, tick_execute hsteps (not_condition hsteps), executeStep]
    cases results l.attempt with
    | returned result => rfl
    | threw what =>
      dsimp only
      rw [workflowFinish_eq]
      rfl

end Workflows

section Executions

def failed : StepOutcome → Bool
  | .returned _ => false
  | .threw _ => true

/-- The text that stands for an outcome in the results. -/
def reply : StepOutcome → Bytes
  | .returned result => result
  | .threw what => bytes "Error: " ++ what

/-- An executed step, with the outcomes of its attempts before the last and of the last. -/
structure Execution where
  step : PipelineStep
  earlier : List StepOutcome
  last : StepOutcome

def Execution.attempts (e : Execution) : ℕ := e.earlier.length + 1

def Execution.failed (e : Execution) : Bool := RunResults.failed e.last

/-- A step is attempted until its first success, and `max 0 maxRetries + 1` times at most. -/
structure Execution.Lawful (e : Execution) : Prop where
  untilSuccess : ∀ o ∈ e.earlier, RunResults.failed o = true
  bounded : (e.attempts : ℤ) ≤ max 0 e.step.maxRetries + 1
  exhausted : e.failed = true → (e.attempts : ℤ) = max 0 e.step.maxRetries + 1

/-- A run under observation: the attempts of the step that is being executed, and the executed
steps. -/
structure Watched where
  loop : Loop
  tried : List StepOutcome := []
  log : List Execution := []

/-- The end of a run, at the step where the loop was left. -/
structure Ended where
  result : Except JsonException PipelineRunResult
  stepIdx : ℕ
  log : List Execution

variable (tick : Loop → Loop ⊕ Except JsonException PipelineRunResult) (p : Pipeline)
  (results : ℕ → StepOutcome)

/-- The step that this turn calls `ExecuteStep` for. -/
def executing (l : Loop) : Option PipelineStep :=
  p.steps[l.stepIdx]?.filter fun step => step.type ≠ .condition

/-- A turn of the loop under observation. The execution of a step is over when the loop leaves
it. -/
def watch (s : Watched) : Watched ⊕ Ended :=
  match executing p s.loop, tick s.loop with
  | none, .inl l => .inl { s with loop := l }
  | none, .inr r => .inr ⟨r, s.loop.stepIdx, s.log⟩
  | some step, .inl l =>
    let outcome := results s.loop.attempt
    if l.stepIdx = s.loop.stepIdx then .inl ⟨l, s.tried ++ [outcome], s.log⟩
    else .inl ⟨l, [], s.log ++ [⟨step, s.tried, outcome⟩]⟩
  | some step, .inr r =>
    .inr ⟨r, s.loop.stepIdx, s.log ++ [⟨step, s.tried, results s.loop.attempt⟩]⟩

def watchedStart (inputVars : Json) : Watched := { loop := start inputVars }

/-- Observation does not change the run. -/
theorem watch_erase (s : Watched) :
    Sum.map Watched.loop Ended.result (watch tick p results s) = tick s.loop := by
  unfold watch
  cases executing p s.loop with
  | none => cases tick s.loop <;> rfl
  | some step =>
    cases tick s.loop with
    | inr r => rfl
    | inl l =>
      dsimp only
      split_ifs <;> rfl

/-- The run ended early, at a step that failed and is not to be skipped. -/
def Aborted (log : List Execution) : Prop :=
  ∃ e ∈ log.getLast?, e.failed = true ∧ e.step.skipOnFailure = false

/-- What a result says about the steps that were executed and about where the loop was left. -/
structure ResultLaw (stepIdx : ℕ) (log : List Execution) (r : PipelineRunResult) : Prop where
  stepResults : r.stepResults = log.map fun x => (x.step.id, reply x.last)
  success : r.status = bytes "success" ↔
    p.steps.length ≤ stepIdx ∧ ∀ x ∈ log, x.failed = false
  someFailed : r.status = bytes "partial" ↔
    p.steps.length ≤ stepIdx ∧ ∃ x ∈ log, x.failed = true
  aborted : r.status = bytes "failed" ↔ Aborted log

/-- A run is over: each step had its attempts, only the last one may have failed without being
skipped, and the result, if none of the conditions threw, is that of the executed steps. -/
structure RunLaw (e : Ended) : Prop where
  attempts : ∀ x ∈ e.log, x.Lawful
  last : ∀ before x after, e.log = before ++ x :: after → x.failed = true →
    x.step.skipOnFailure = false → after = []
  result : ∀ r, e.result = .ok r → ResultLaw p e.stepIdx e.log r

end Executions

section Turns

variable {readFloat : Bytes → Option NumberText} {p : Pipeline} {results : ℕ → StepOutcome}

theorem executing_some {l : Loop} {step : PipelineStep} (h : executing p l = some step) :
    p.steps[l.stepIdx]? = some step ∧ step.type ≠ .condition := by
  obtain ⟨hs, ht⟩ := Option.filter_eq_some_iff.mp h
  exact ⟨hs, of_decide_eq_true ht⟩

theorem executing_none {l : Loop} (h : executing p l = none) :
    p.steps[l.stepIdx]? = none ∨
      ∃ step, p.steps[l.stepIdx]? = some step ∧ step.type = .condition := by
  cases hs : p.steps[l.stepIdx]? with
  | none => exact .inl rfl
  | some step =>
    refine .inr ⟨step, rfl, ?_⟩
    have ht := Option.filter_eq_none_iff.mp h step hs
    by_contra hne
    exact ht (decide_eq_true hne)

/-- The ways a run goes on under observation. -/
inductive Goes (readFloat : Bytes → Option NumberText) (p : Pipeline) (results : ℕ → StepOutcome)
    (s : Watched) : Watched → Prop where
  | condition {vars stepIdx} : executing p s.loop = none →
      Goes readFloat p results s { s with loop := { s.loop with vars, stepIdx } }
  | retry {step what} : executing p s.loop = some step →
      results s.loop.attempt = .threw what → wrap32 (s.loop.retries + 1) ≤ step.maxRetries →
      Goes readFloat p results s
        ⟨{ s.loop with retries := wrap32 (s.loop.retries + 1), attempt := s.loop.attempt + 1 },
          s.tried ++ [.threw what], s.log⟩
  | success {step result} : executing p s.loop = some step →
      results s.loop.attempt = .returned result →
      Goes readFloat p results s
        ⟨{ stored readFloat step result s.loop with stepIdx := s.loop.stepIdx + 1 }, [],
          s.log ++ [⟨step, s.tried, .returned result⟩]⟩
  | skip {step what} : executing p s.loop = some step →
      results s.loop.attempt = .threw what → ¬ wrap32 (s.loop.retries + 1) ≤ step.maxRetries →
      step.skipOnFailure = true →
      Goes readFloat p results s
        ⟨{ stored readFloat step (bytes "Error: " ++ what) s.loop with
            allSuccess := false, stepIdx := s.loop.stepIdx + 1 }, [],
          s.log ++ [⟨step, s.tried, .threw what⟩]⟩

/-- The ways a run ends. -/
inductive Ends (readFloat : Bytes → Option NumberText) (p : Pipeline) (results : ℕ → StepOutcome)
    (s : Watched) : Ended → Prop where
  | reached : p.steps[s.loop.stepIdx]? = none →
      Ends readFloat p results s ⟨.ok (finish p s.loop), s.loop.stepIdx, s.log⟩
  | throws {e} : executing p s.loop = none →
      Ends readFloat p results s ⟨.error e, s.loop.stepIdx, s.log⟩
  | abort {step what} : executing p s.loop = some step →
      results s.loop.attempt = .threw what → ¬ wrap32 (s.loop.retries + 1) ≤ step.maxRetries →
      step.skipOnFailure = false →
      Ends readFloat p results s
        ⟨.ok (finish p { stored readFloat step (bytes "Error: " ++ what) s.loop with
            allSuccess := false }), s.loop.stepIdx, s.log ++ [⟨step, s.tried, .threw what⟩]⟩

/-- A turn in which no step is executed. -/
theorem watch_none {s : Watched} (h : executing p s.loop = none) :
    (∃ s', watch (tick readFloat p results) p results s = .inl s' ∧
        Goes readFloat p results s s') ∨
      ∃ e, watch (tick readFloat p results) p results s = .inr e ∧
        Ends readFloat p results s e := by
  unfold watch
  rw [h]
  rcases executing_none h with hs | ⟨step, hs, ht⟩
  · rw [tick_end hs]
    exact .inr ⟨_, rfl, .reached hs⟩
  · rw [tick_condition hs ht, conditionStep]
    cases evalCondition s.loop.vars step.condition with
    | error e => exact .inr ⟨_, rfl, .throws h⟩
    | ok c => exact .inl ⟨_, rfl, .condition h⟩

/-- A turn with an attempt of a step. -/
theorem watch_some {s : Watched} {step : PipelineStep} (h : executing p s.loop = some step) :
    (∃ s', watch (tick readFloat p results) p results s = .inl s' ∧
        Goes readFloat p results s s') ∨
      ∃ e, watch (tick readFloat p results) p results s = .inr e ∧
        Ends readFloat p results s e := by
  obtain ⟨hs, ht⟩ := executing_some h
  have hleft : s.loop.stepIdx + 1 ≠ s.loop.stepIdx := by omega
  unfold watch
  rw [h, tick_execute hs ht, executeStep]
  cases hr : results s.loop.attempt with
  | returned result =>
    dsimp only [stored]
    rw [if_neg hleft]
    exact .inl ⟨_, rfl, .success h hr⟩
  | threw what =>
    dsimp only
    by_cases hretry : wrap32 (s.loop.retries + 1) ≤ step.maxRetries
    · rw [if_pos hretry]
      dsimp only
      rw [if_pos rfl]
      exact .inl ⟨_, rfl, .retry h hr hretry⟩
    · rw [if_neg hretry]
      by_cases hskip : step.skipOnFailure = true
      · rw [if_pos hskip]
        dsimp only [stored]
        rw [if_neg hleft]
        exact .inl ⟨_, rfl, .skip h hr hretry hskip⟩
      · rw [if_neg hskip]
        exact .inr ⟨_, rfl, .abort h hr hretry (Bool.eq_false_iff.mpr hskip)⟩

theorem watch_cases (readFloat : Bytes → Option NumberText) (results : ℕ → StepOutcome)
    (s : Watched) :
    (∃ s', watch (tick readFloat p results) p results s = .inl s' ∧
        Goes readFloat p results s s') ∨
      ∃ e, watch (tick readFloat p results) p results s = .inr e ∧
        Ends readFloat p results s e := by
  cases h : executing p s.loop with
  | none => exact watch_none h
  | some step => exact watch_some h

theorem goes_of_watch {s s' : Watched}
    (h : watch (tick readFloat p results) p results s = .inl s') :
    Goes readFloat p results s s' := by
  rcases watch_cases readFloat results s with ⟨t, ht, hgoes⟩ | ⟨e, he, -⟩
  · rw [ht] at h
    exact Sum.inl.inj h ▸ hgoes
  · rw [he] at h
    cases h

theorem ends_of_watch {s : Watched} {e : Ended}
    (h : watch (tick readFloat p results) p results s = .inr e) :
    Ends readFloat p results s e := by
  rcases watch_cases readFloat results s with ⟨t, ht, -⟩ | ⟨e', he, hends⟩
  · rw [ht] at h
    cases h
  · rw [he] at h
    exact Sum.inr.inj h ▸ hends

end Turns

section Invariant

variable {readFloat : Bytes → Option NumberText} {p : Pipeline} {results : ℕ → StepOutcome}

/-- As long as no count of retries has overflowed, it is the number of failed attempts, and the
steps executed so far are what the result says of them. -/
structure Sound (p : Pipeline) (s : Watched) : Prop where
  tried : ∀ o ∈ s.tried, failed o = true
  retries : s.loop.retries = s.tried.length
  allowed : s.tried ≠ [] → ∃ step, executing p s.loop = some step ∧
    (s.tried.length : ℤ) ≤ step.maxRetries
  lawful : ∀ e ∈ s.log, e.Lawful
  skipped : ∀ e ∈ s.log, e.failed = true → e.step.skipOnFailure = true
  stepResults : s.loop.stepResults = s.log.map fun e => (e.step.id, reply e.last)
  allSuccess : s.loop.allSuccess = true ↔ ∀ e ∈ s.log, e.failed = false

theorem sound_start (p : Pipeline) (inputVars : Json) : Sound p (watchedStart inputVars) where
  tried o ho := by cases ho
  retries := rfl
  allowed h := absurd rfl h
  lawful e he := by cases he
  skipped e he := by cases he
  stepResults := rfl
  allSuccess := iff_of_true rfl fun e he => by cases he

/-- An attempt that fails is counted unless the count overflows. -/
theorem Sound.counted {s : Watched} (h : Sound p s) {step : PipelineStep} {what : Bytes}
    (hs : executing p s.loop = some step) (hr : results s.loop.attempt = .threw what)
    (hfits : ¬ RetriesOverflow p results s.loop) :
    wrap32 (s.loop.retries + 1) = s.tried.length + 1 := by
  obtain ⟨hget, ht⟩ := executing_some hs
  have hlt : s.loop.retries < 2 ^ 31 - 1 := by
    by_contra hle
    exact hfits ⟨step, hget, ht, ⟨what, hr⟩, not_lt.mp hle⟩
  have hretries := h.retries
  rw [wrap32_of_range (by omega) (by omega), hretries]

/-- The attempts of a step that comes to its end with one that returned, or with the last one that
is allowed. -/
theorem Sound.lawful_success {s : Watched} (h : Sound p s) {step : PipelineStep}
    (hs : executing p s.loop = some step) (result : Bytes) :
    Execution.Lawful ⟨step, s.tried, .returned result⟩ := by
  refine ⟨h.tried, ?_, fun hfailed => by cases hfailed⟩
  unfold Execution.attempts
  dsimp only
  by_cases htried : s.tried = []
  · rw [htried]
    have := le_max_left 0 step.maxRetries
    push_cast [List.length_nil]
    omega
  · obtain ⟨step', hs', hle⟩ := h.allowed htried
    obtain rfl := Option.some.inj (hs'.symm.trans hs)
    have := le_max_right 0 step'.maxRetries
    push_cast
    omega

theorem Sound.lawful_failure {s : Watched} (h : Sound p s) {step : PipelineStep} {what : Bytes}
    (hs : executing p s.loop = some step) (hr : results s.loop.attempt = .threw what)
    (hlast : ¬ wrap32 (s.loop.retries + 1) ≤ step.maxRetries)
    (hfits : ¬ RetriesOverflow p results s.loop) :
    Execution.Lawful ⟨step, s.tried, .threw what⟩ := by
  have hattempts : ((s.tried.length + 1 : ℕ) : ℤ) = max 0 step.maxRetries + 1 := by
    rw [h.counted hs hr hfits] at hlast
    by_cases htried : s.tried = []
    · rw [htried] at hlast ⊢
      rw [List.length_nil] at hlast ⊢
      rw [max_eq_left (by omega)]
      rfl
    · obtain ⟨step', hs', hle⟩ := h.allowed htried
      obtain rfl := Option.some.inj (hs'.symm.trans hs)
      have hpos := List.length_pos_iff.mpr htried
      rw [max_eq_right (by omega)]
      push_cast
      omega
  exact ⟨h.tried, hattempts.le, fun _ => hattempts⟩

/-- A step that was executed is added to the log. -/
theorem Sound.close {s : Watched} (h : Sound p s) {e : Execution} {l : Loop} (hlawful : e.Lawful)
    (hskipped : e.failed = true → e.step.skipOnFailure = true) (hretries : l.retries = 0)
    (hresults : l.stepResults = s.loop.stepResults ++ [(e.step.id, reply e.last)])
    (hsuccess : l.allSuccess = (s.loop.allSuccess && !e.failed)) :
    Sound p ⟨l, [], s.log ++ [e]⟩ where
  tried o ho := by cases ho
  retries := hretries
  allowed hne := absurd rfl hne
  lawful := List.forall_mem_append.mpr ⟨h.lawful, List.forall_mem_singleton.mpr hlawful⟩
  skipped := List.forall_mem_append.mpr ⟨h.skipped, List.forall_mem_singleton.mpr hskipped⟩
  stepResults := by rw [hresults, h.stepResults, List.map_append, List.map_singleton]
  allSuccess := by
    rw [hsuccess, Bool.and_eq_true, h.allSuccess, Bool.not_eq_true', List.forall_mem_append,
      List.forall_mem_singleton]

theorem Sound.goes {s s' : Watched} (h : Sound p s) (hfits : ¬ RetriesOverflow p results s.loop)
    (hgoes : Goes readFloat p results s s') : Sound p s' := by
  cases hgoes with
  | @condition vars stepIdx hs =>
    have htried : s.tried = [] := by
      by_contra htried
      obtain ⟨step, hs', -⟩ := h.allowed htried
      rw [hs] at hs'
      cases hs'
    exact ⟨h.tried, h.retries, fun hne => absurd htried hne, h.lawful, h.skipped, h.stepResults,
      h.allSuccess⟩
  | @retry step what hs hr hle =>
    have hcount := h.counted hs hr hfits
    refine ⟨?_, ?_, fun _ => ⟨step, hs, ?_⟩, h.lawful, h.skipped, h.stepResults, h.allSuccess⟩
    · intro o ho
      rcases List.mem_append.mp ho with ho | ho
      · exact h.tried o ho
      · rw [List.mem_singleton.mp ho]
        rfl
    · rw [List.length_append, List.length_singleton]
      exact_mod_cast hcount
    · rw [hcount] at hle
      rw [List.length_append, List.length_singleton]
      exact_mod_cast hle
  | @success step result hs hr =>
    exact h.close (h.lawful_success hs result) (fun hfailed => by cases hfailed) rfl rfl
      (Bool.and_true _).symm
  | @skip step what hs hr hlast hskip =>
    exact h.close (h.lawful_failure hs hr hlast hfits) (fun _ => hskip) rfl rfl
      (Bool.and_false _).symm

theorem finish_status (p : Pipeline) (l : Loop) :
    ((finish p l).status = bytes "success" ↔
        p.steps.length ≤ l.stepIdx ∧ l.allSuccess = true) ∧
      ((finish p l).status = bytes "partial" ↔
        p.steps.length ≤ l.stepIdx ∧ l.allSuccess = false) ∧
      ((finish p l).status = bytes "failed" ↔ ¬ p.steps.length ≤ l.stepIdx) := by
  have hsp : bytes "success" ≠ bytes "partial" := by decide
  have hsf : bytes "success" ≠ bytes "failed" := by decide
  have hpf : bytes "partial" ≠ bytes "failed" := by decide
  unfold finish
  dsimp only
  by_cases hend : p.steps.length ≤ l.stepIdx
  · cases hall : l.allSuccess with
    | true => simp [hend, hsp, hsf]
    | false => simp [hend, hsp.symm, hpf]
  · simp [hend, hsf.symm, hpf.symm]

theorem exists_failed_iff (log : List Execution) :
    (∃ e ∈ log, e.failed = true) ↔ ¬ ∀ e ∈ log, e.failed = false := by
  push Not
  simp only [Bool.not_eq_false]

/-- While the run goes on, every step that failed is one to be skipped. -/
theorem Sound.not_kept {s : Watched} (h : Sound p s) {x : Execution} (hx : x ∈ s.log)
    (hfailed : x.failed = true) (hkept : x.step.skipOnFailure = false) : False := by
  have hskipped := h.skipped x hx hfailed
  rw [hkept] at hskipped
  cases hskipped

/-- The end of the steps was reached, with the failed ones skipped. -/
theorem Sound.reached {s : Watched} (h : Sound p s) (hend : p.steps.length ≤ s.loop.stepIdx) :
    ResultLaw p s.loop.stepIdx s.log (finish p s.loop) := by
  obtain ⟨hsuccess, hmixed, hfailed⟩ := finish_status p s.loop
  refine ⟨h.stepResults, ?_, ?_, ?_⟩
  · rw [hsuccess, h.allSuccess]
  · rw [hmixed, exists_failed_iff, ← h.allSuccess, Bool.not_eq_true]
  · rw [hfailed]
    refine iff_of_false (not_not.mpr hend) ?_
    rintro ⟨x, hx, hxfailed, hkept⟩
    exact h.not_kept (List.mem_of_getLast? hx) hxfailed hkept

/-- The loop was left at a step that failed, in front of the end. -/
theorem Sound.aborted {s : Watched} (h : Sound p s) {step : PipelineStep} {what : Bytes} {l : Loop}
    (hs : executing p s.loop = some step) (hkept : step.skipOnFailure = false)
    (hidx : l.stepIdx = s.loop.stepIdx)
    (hresults : l.stepResults = s.loop.stepResults ++ [(step.id, bytes "Error: " ++ what)]) :
    ResultLaw p s.loop.stepIdx (s.log ++ [⟨step, s.tried, .threw what⟩]) (finish p l) := by
  obtain ⟨hsuccess, hmixed, hfailed⟩ := finish_status p l
  obtain ⟨hlt, -⟩ := List.getElem?_eq_some_iff.mp (executing_some hs).1
  rw [hidx] at hsuccess hmixed hfailed
  refine ⟨?_, ?_, ?_, ?_⟩
  · rw [List.map_append, ← h.stepResults]
    exact hresults
  · rw [hsuccess]
    exact iff_of_false (fun hend => absurd hend.1 (not_le.mpr hlt))
      fun hend => absurd hend.1 (not_le.mpr hlt)
  · rw [hmixed]
    exact iff_of_false (fun hend => absurd hend.1 (not_le.mpr hlt))
      fun hend => absurd hend.1 (not_le.mpr hlt)
  · rw [hfailed]
    exact iff_of_true (not_le.mpr hlt)
      ⟨_, List.getLast?_append_cons _ _ [], rfl, hkept⟩

theorem Sound.ends {s : Watched} {e : Ended} (h : Sound p s)
    (hfits : ¬ RetriesOverflow p results s.loop) (hends : Ends readFloat p results s e) :
    RunLaw p e := by
  have hlast : ∀ before x after, s.log = before ++ x :: after → x.failed = true →
      x.step.skipOnFailure = false → after = [] := by
    intro before x after hlog hfailed hkept
    exact (h.not_kept (by rw [hlog]; simp) hfailed hkept).elim
  cases hends with
  | reached hs =>
    refine ⟨h.lawful, hlast, fun r hr => ?_⟩
    obtain rfl := Except.ok.inj hr
    exact h.reached (List.getElem?_eq_none_iff.mp hs)
  | @throws e hs =>
    refine ⟨h.lawful, hlast, fun r hr => ?_⟩
    cases hr
  | @abort step what hs hr hretry hkept =>
    have hlawful := h.lawful_failure hs hr hretry hfits
    refine ⟨List.forall_mem_append.mpr ⟨h.lawful, List.forall_mem_singleton.mpr hlawful⟩, ?_, ?_⟩
    · intro before x after hlog hfailed hx
      -- an earlier step that failed was skipped, so only the one added now is left
      rcases after.eq_nil_or_concat with rfl | ⟨init, y, rfl⟩
      · rfl
      · have hinit : s.log = before ++ x :: init := by
          dsimp only at hlog
          rw [List.concat_eq_append, ← List.cons_append, ← List.append_assoc] at hlog
          exact List.append_inj_left' hlog rfl
        exact (h.not_kept (by rw [hinit]; simp) hfailed hx).elim
    · rintro r hr
      obtain rfl := Except.ok.inj hr
      exact h.aborted hs hkept rfl rfl

end Invariant

section Overflow

variable {readFloat : Bytes → Option NumberText} {p : Pipeline} {results : ℕ → StepOutcome}

/-- After an overflow a step has more failed attempts than any count of retries allows. -/
structure Overflowed (p : Pipeline) (s : Watched) : Prop where
  attending : s.tried ≠ [] → ∃ step, executing p s.loop = some step
  counted : 2 ^ 31 ≤ s.tried.length ∨ ∃ e ∈ s.log, ¬ e.Lawful

theorem not_lawful {e : Execution} (hm : e.step.maxRetries < 2 ^ 31)
    (h : 2 ^ 31 ≤ e.earlier.length) : ¬ e.Lawful := by
  intro hlawful
  have hbounded := hlawful.bounded
  unfold Execution.attempts at hbounded
  have hmax : max 0 e.step.maxRetries < 2 ^ 31 := max_lt (by decide) hm
  push_cast at hbounded
  omega

theorem Overflowed.closed {s : Watched} (h : Overflowed p s)
    (hm : ∀ step ∈ p.steps, step.maxRetries < 2 ^ 31) {step : PipelineStep}
    (hs : executing p s.loop = some step) (o : StepOutcome) :
    ∃ e ∈ s.log ++ [⟨step, s.tried, o⟩], ¬ e.Lawful := by
  rcases h.counted with htried | ⟨e, he, hunlawful⟩
  · exact ⟨⟨step, s.tried, o⟩, by simp,
      not_lawful (hm step (List.mem_of_getElem? (executing_some hs).1)) htried⟩
  · exact ⟨e, List.mem_append_left _ he, hunlawful⟩

theorem Overflowed.unattended {s : Watched} (h : Overflowed p s) (hs : executing p s.loop = none) :
    s.tried = [] ∧ ∃ e ∈ s.log, ¬ e.Lawful := by
  have htried : s.tried = [] := by
    by_contra htried
    obtain ⟨step, hstep⟩ := h.attending htried
    rw [hs] at hstep
    cases hstep
  refine ⟨htried, ?_⟩
  rcases h.counted with hle | hunlawful
  · rw [htried] at hle
    exact absurd hle (by decide)
  · exact hunlawful

theorem Overflowed.goes {s s' : Watched} (h : Overflowed p s)
    (hm : ∀ step ∈ p.steps, step.maxRetries < 2 ^ 31)
    (hgoes : Goes readFloat p results s s') : Overflowed p s' := by
  cases hgoes with
  | condition hs =>
    obtain ⟨htried, hunlawful⟩ := h.unattended hs
    exact ⟨fun hne => absurd htried hne, .inr hunlawful⟩
  | @retry step what hs hr hle =>
    refine ⟨fun _ => ⟨step, hs⟩, ?_⟩
    rcases h.counted with htried | hunlawful
    · exact .inl (htried.trans (by simp))
    · exact .inr hunlawful
  | success hs hr => exact ⟨fun hne => absurd rfl hne, .inr (h.closed hm hs _)⟩
  | skip hs hr hretry hskip => exact ⟨fun hne => absurd rfl hne, .inr (h.closed hm hs _)⟩

theorem Overflowed.ends {s : Watched} {e : Ended} (h : Overflowed p s)
    (hm : ∀ step ∈ p.steps, step.maxRetries < 2 ^ 31)
    (hends : Ends readFloat p results s e) : ¬ RunLaw p e := by
  intro hlaw
  have hunlawful : ∃ x ∈ e.log, ¬ x.Lawful := by
    cases hends with
    | reached hs =>
      have hnone : executing p s.loop = none := by
        unfold executing
        rw [hs, Option.filter_none]
      exact (h.unattended hnone).2
    | throws hs => exact (h.unattended hs).2
    | abort hs hr hretry hkept => exact h.closed hm hs _
  obtain ⟨x, hx, hx'⟩ := hunlawful
  exact hx' (hlaw.attempts x hx)

theorem Overflowed.run {n : ℕ} {s : Watched} {e : Ended} (h : Overflowed p s)
    (hm : ∀ step ∈ p.steps, step.maxRetries < 2 ^ 31)
    (hrun : run (watch (tick readFloat p results) p results) n s = some e) : ¬ RunLaw p e := by
  obtain ⟨t, ht, hend⟩ := result_of_run
    (fun _ _ hI hst => Overflowed.goes hI hm (goes_of_watch hst)) h hrun
  exact ht.ends hm (ends_of_watch hend)

/-- The count that overflows goes below every bound, so the step is attempted once more. -/
theorem Sound.overflows (readFloat : Bytes → Option NumberText) {s : Watched} (h : Sound p s)
    (hm : ∀ step ∈ p.steps, step.maxRetries < 2 ^ 31) (hover : RetriesOverflow p results s.loop) :
    ∃ s', watch (tick readFloat p results) p results s = .inl s' ∧ Overflowed p s' := by
  obtain ⟨step, hget, ht, ⟨what, hr⟩, hle⟩ := hover
  have hs : executing p s.loop = some step := Option.filter_eq_some_iff.mpr
    ⟨hget, decide_eq_true ht⟩
  have hretries := h.retries
  have htried : s.tried ≠ [] := by
    intro hnil
    rw [hnil] at hretries
    rw [hretries] at hle
    exact absurd hle (by decide)
  obtain ⟨step', hs', hallowed⟩ := h.allowed htried
  obtain rfl := Option.some.inj (hs'.symm.trans hs)
  have hlt := hm step' (List.mem_of_getElem? hget)
  have hretry : wrap32 (s.loop.retries + 1) ≤ step'.maxRetries := by
    have hmax : s.loop.retries + 1 = 2 ^ 31 := by omega
    have hwrap : wrap32 (2 ^ 31) = -2 ^ 31 := by decide
    rw [hmax, hwrap]
    omega
  have hgoes : watch (tick readFloat p results) p results s = .inl
      ⟨{ s.loop with retries := wrap32 (s.loop.retries + 1), attempt := s.loop.attempt + 1 },
        s.tried ++ [.threw what], s.log⟩ := by
    unfold watch
    rw [hs, tick_execute hget ht, executeStep, hr]
    dsimp only
    rw [if_pos hretry]
    dsimp only
    rw [if_pos rfl]
  refine ⟨_, hgoes, fun _ => ⟨step', hs⟩, .inl ?_⟩
  rw [List.length_append, List.length_singleton]
  omega

end Overflow

section Runs

variable {readFloat : Bytes → Option NumberText} {p : Pipeline} {results : ℕ → StepOutcome}

theorem runLaw_iff_watched (hm : ∀ step ∈ p.steps, step.maxRetries < 2 ^ 31) {n : ℕ} {s : Watched}
    {e : Ended} (h : Sound p s)
    (hrun : run (watch (tick readFloat p results) p results) n s = some e) :
    RunLaw p e ↔ ∀ m t, after (watch (tick readFloat p results) p results) m s = some t →
      ¬ RetriesOverflow p results t.loop := by
  induction n generalizing s with
  | zero => cases hrun
  | succ n ih =>
    by_cases hover : RetriesOverflow p results s.loop
    · obtain ⟨s', hs', hoverflowed⟩ := h.overflows readFloat hm hover
      rw [run_inl hs'] at hrun
      exact iff_of_false (hoverflowed.run hm hrun) fun hall => hall 0 s rfl hover
    · cases hstep : watch (tick readFloat p results) p results s with
      | inl s' =>
        rw [run_inl hstep] at hrun
        rw [ih (h.goes hover (goes_of_watch hstep)) hrun]
        constructor
        · intro hall m t ht
          cases m with
          | zero =>
            obtain rfl := Option.some.inj ht
            exact hover
          | succ m =>
            rw [after_inl hstep] at ht
            exact hall m t ht
        · intro hall m t ht
          exact hall (m + 1) t ((after_inl hstep m).trans ht)
      | inr e' =>
        simp only [run, hstep] at hrun
        obtain rfl := Option.some.inj hrun
        refine iff_of_true (h.ends hover (ends_of_watch hstep)) fun m t ht => ?_
        cases m with
        | zero =>
          obtain rfl := Option.some.inj ht
          exact hover
        | succ m =>
          simp only [after, hstep] at ht
          cases ht

/-- No turn of the run counts a failed attempt beyond the 32-bit integers. -/
def Counted (tick : Loop → Loop ⊕ Except JsonException PipelineRunResult) (p : Pipeline)
    (results : ℕ → StepOutcome) (inputVars : Json) : Prop :=
  ∀ m l, after tick m (start inputVars) = some l → ¬ RetriesOverflow p results l

/-- The run is over with a result, and its end is what the executed steps make it. -/
def Obeys (tick : Loop → Loop ⊕ Except JsonException PipelineRunResult) (p : Pipeline)
    (results : ℕ → StepOutcome) (inputVars : Json) (n : ℕ)
    (r : Except JsonException PipelineRunResult) : Prop :=
  ∃ e, run (watch tick p results) n (watchedStart inputVars) = some e ∧ e.result = r ∧ RunLaw p e

theorem obeys_iff (hm : ∀ step ∈ p.steps, step.maxRetries < 2 ^ 31) {inputVars : Json} {n : ℕ}
    {r : Except JsonException PipelineRunResult}
    (hrun : run (tick readFloat p results) n (start inputVars) = some r) :
    Obeys (tick readFloat p results) p results inputVars n r ↔
      Counted (tick readFloat p results) p results inputVars := by
  have herase := watch_erase (tick readFloat p results) p results
  have hrun' := run_map herase n (watchedStart inputVars)
  have hafter := after_map herase
  rw [watchedStart, hrun] at hrun'
  obtain ⟨e, he, hresult⟩ := Option.map_eq_some_iff.mp hrun'
  have hlaw := runLaw_iff_watched hm (sound_start p inputVars) he
  have hcounted : (∀ m t, after (watch (tick readFloat p results) p results) m
      (watchedStart inputVars) = some t → ¬ RetriesOverflow p results t.loop) ↔
      Counted (tick readFloat p results) p results inputVars := by
    constructor
    · intro hall m l hl
      have hmap := hafter m (watchedStart inputVars)
      rw [watchedStart, hl] at hmap
      obtain ⟨t, ht, rfl⟩ := Option.map_eq_some_iff.mp hmap
      exact hall m t ht
    · intro hall m t ht
      have hmap := hafter m (watchedStart inputVars)
      rw [ht] at hmap
      exact hall m t.loop hmap.symm
  rw [← hcounted, ← hlaw]
  constructor
  · rintro ⟨e', he', -, hlaw'⟩
    rw [watchedStart, he] at he'
    obtain rfl := Option.some.inj he'
    exact hlaw'
  · intro hlaw'
    exact ⟨e, he, hresult, hlaw'⟩

/-- Steps that allow fewer retries than the largest count never overflow it. -/
theorem counted_of_lt (hm : ∀ step ∈ p.steps, step.maxRetries < 2 ^ 31 - 1) (inputVars : Json) :
    Counted (tick readFloat p results) p results inputVars := by
  rintro m l hl ⟨step, -, -, -, hle⟩
  exact absurd hle (not_le.mpr (retries_lt_of_after hm hl))

/-- Pipelines and workflows obey the law in a run that ends exactly if no count of retries overflows
in it. -/
theorem run_obeys_iff (readFloat : Bytes → Option NumberText) (results : ℕ → StepOutcome)
    (inputVars : Json) (n : ℕ) (r : Except JsonException PipelineRunResult) :
    (∀ p : Pipeline, (∀ step ∈ p.steps, step.maxRetries < 2 ^ 31) →
      run (tick readFloat p results) n (start inputVars) = some r →
      (Obeys (tick readFloat p results) p results inputVars n r ↔
        Counted (tick readFloat p results) p results inputVars)) ∧
    (∀ w : Workflow, (∀ step ∈ w.steps, step.maxRetries < 2 ^ 31) →
      run (workflowTick readFloat w results) n (start inputVars) = some r →
      (Obeys (workflowTick readFloat w results) w.asPipeline results inputVars n r ↔
        Counted (workflowTick readFloat w results) w.asPipeline results inputVars)) := by
  refine ⟨fun p hm hrun => obeys_iff hm hrun, fun w hm hrun => ?_⟩
  have htick : workflowTick readFloat w results = tick readFloat w.asPipeline results :=
    funext (workflowTick_eq readFloat w results)
  have hm' : ∀ step ∈ w.asPipeline.steps, step.maxRetries < 2 ^ 31 := by
    intro step hstep
    obtain ⟨s, hs, rfl⟩ := List.mem_map.mp hstep
    exact hm s hs
  rw [htick] at hrun ⊢
  exact obeys_iff hm' hrun

end Runs

namespace Counterexample

def noFloat (_ : Bytes) : Option NumberText := none

/-- A step that is retried up to the largest count. -/
def stubborn : PipelineStep where
  id := bytes "fetch"
  type := .tool
  toolName := bytes "fetch"
  maxRetries := 2 ^ 31 - 1

def pipeline : Pipeline := ⟨bytes "pipe_1", bytes "fetch", [], [stubborn], bytes "manual"⟩

/-- All of the attempts that are allowed fail. -/
def unavailable (k : ℕ) : StepOutcome :=
  if k < 2 ^ 31 then .threw (bytes "unavailable") else .returned (bytes "late")

def countAt (k : ℕ) : ℤ := if k < 2 ^ 31 then k else -2 ^ 31

theorem wrap32_countAt {k : ℕ} (hk : k < 2 ^ 31) : wrap32 (countAt k + 1) = countAt (k + 1) := by
  have hcount : countAt k = k := if_pos hk
  rw [hcount]
  unfold countAt
  by_cases hlast : k + 1 < 2 ^ 31
  · rw [if_pos hlast]
    rw [wrap32_of_range (by omega) (by omega)]
    push_cast
    rfl
  · have hk' : (k : ℤ) + 1 = 2 ^ 31 := by omega
    rw [if_neg hlast, hk']
    decide

theorem countAt_le (k : ℕ) : countAt k ≤ 2 ^ 31 - 1 := by
  unfold countAt
  split_ifs <;> omega

/-- After so many failures. -/
def failures (k : ℕ) : Watched where
  loop := { start .null with retries := countAt k, attempt := k }
  tried := List.replicate k (.threw (bytes "unavailable"))

theorem watch_failures {k : ℕ} (hk : k < 2 ^ 31) :
    watch (tick noFloat pipeline unavailable) pipeline unavailable (failures k) =
      .inl (failures (k + 1)) := by
  have hget : pipeline.steps[(failures k).loop.stepIdx]? = some stubborn := rfl
  have htype : stubborn.type ≠ .condition := by decide
  have hs : executing pipeline (failures k).loop = some stubborn := rfl
  have hr : unavailable (failures k).loop.attempt = .threw (bytes "unavailable") := if_pos hk
  have hwrap : wrap32 ((failures k).loop.retries + 1) = countAt (k + 1) := wrap32_countAt hk
  have hretry : wrap32 ((failures k).loop.retries + 1) ≤ stubborn.maxRetries := by
    rw [hwrap]
    exact countAt_le (k + 1)
  have htried : (failures k).tried ++ [.threw (bytes "unavailable")] =
      (failures (k + 1)).tried := List.replicate_succ'.symm
  unfold watch
  rw [hs, tick_execute hget htype, executeStep, hr]
  dsimp only
  rw [if_pos hretry]
  dsimp only
  rw [if_pos rfl, htried]
  have hloop : { (failures k).loop with
      retries := wrap32 ((failures k).loop.retries + 1)
      attempt := (failures k).loop.attempt + 1 } = (failures (k + 1)).loop := by
    rw [hwrap]
    rfl
  rw [hloop]
  rfl

theorem after_failures {k : ℕ} (hk : k ≤ 2 ^ 31) :
    after (watch (tick noFloat pipeline unavailable) pipeline unavailable) k
      (watchedStart .null) = some (failures k) := by
  induction k with
  | zero => rfl
  | succ k ih =>
    rw [after_add, ih (by omega), Option.bind_some, after_inl (watch_failures (by omega))]
    rfl

/-- The step is over with the attempt after so many failures. -/
def recovered (k : ℕ) : Watched where
  loop := { stored noFloat stubborn (bytes "late") (failures k).loop with stepIdx := 1 }
  log := [⟨stubborn, (failures k).tried, .returned (bytes "late")⟩]

theorem watch_recovered {k : ℕ} (hk : ¬ k < 2 ^ 31) :
    watch (tick noFloat pipeline unavailable) pipeline unavailable (failures k) =
      .inl (recovered k) := by
  have hget : pipeline.steps[(failures k).loop.stepIdx]? = some stubborn := rfl
  have htype : stubborn.type ≠ .condition := by decide
  have hs : executing pipeline (failures k).loop = some stubborn := rfl
  have hr : unavailable (failures k).loop.attempt = .returned (bytes "late") := if_neg hk
  unfold watch
  rw [hs, tick_execute hget htype, executeStep, hr]
  rfl

theorem watch_end (k : ℕ) :
    watch (tick noFloat pipeline unavailable) pipeline unavailable (recovered k) =
      .inr ⟨.ok (finish pipeline (recovered k).loop), 1, (recovered k).log⟩ := by
  have hget : pipeline.steps[(recovered k).loop.stepIdx]? = none := rfl
  have hs : executing pipeline (recovered k).loop = none := rfl
  unfold watch
  rw [hs, tick_end hget]
  rfl

/-- The count wraps around, and the step has one attempt more than it is allowed. -/
theorem attempted_beyond :
    ∃ n r, run (tick noFloat pipeline unavailable) n (start .null) = some (.ok r) ∧
      ¬ Obeys (tick noFloat pipeline unavailable) pipeline unavailable .null n (.ok r) := by
  obtain ⟨k, hk⟩ : ∃ k, k = 2 ^ 31 := ⟨_, rfl⟩
  have hrun : run (watch (tick noFloat pipeline unavailable) pipeline unavailable) (k + 2)
      (watchedStart .null) =
        some ⟨.ok (finish pipeline (recovered k).loop), 1, (recovered k).log⟩ := by
    rw [run_after (after_failures hk.le), run_inl (watch_recovered (by omega)), run, watch_end]
  have herase := run_map (watch_erase (tick noFloat pipeline unavailable) pipeline unavailable)
    (k + 2) (watchedStart .null)
  rw [hrun] at herase
  refine ⟨k + 2, _, herase.symm, ?_⟩
  rintro ⟨e, he, -, hlaw⟩
  rw [hrun] at he
  obtain rfl := Option.some.inj he
  have hbounded := (hlaw.attempts ⟨stubborn, (failures k).tried, .returned (bytes "late")⟩
    (List.mem_singleton_self _)).bounded
  have hattempts : Execution.attempts
      ⟨stubborn, (failures k).tried, .returned (bytes "late")⟩ = k + 1 := by
    unfold Execution.attempts failures
    rw [List.length_replicate]
  have hmax : max 0 stubborn.maxRetries = 2 ^ 31 - 1 := by decide
  rw [hattempts] at hbounded
  dsimp only at hbounded
  rw [hmax] at hbounded
  push_cast at hbounded
  omega

def once (k : ℕ) : StepOutcome :=
  if k = 0 then .threw (bytes "unavailable") else .returned (bytes "{}")

def patient : Pipeline :=
  ⟨bytes "pipe_2", bytes "fetch", [], [{ stubborn with maxRetries := 1 }], bytes "manual"⟩

def patientFlow : Workflow :=
  ⟨bytes "wf_2", bytes "fetch", [], bytes "manual",
    [{ id := bytes "fetch", type := .tool, toolName := bytes "fetch", maxRetries := 1 }]⟩

/-- A step that is allowed one retry needs it. -/
theorem retried_once :
    (∃ r, Obeys (tick noFloat patient once) patient once .null 3 (.ok r)) ∧
      ∃ r, Obeys (workflowTick noFloat patientFlow once) patientFlow.asPipeline once .null 3
        (.ok r) := by
  have hfits : ∀ step ∈ patient.steps, step.maxRetries < 2 ^ 31 - 1 := by
    intro step hstep
    rw [List.mem_singleton.mp hstep]
    decide
  have hflow : ∀ step ∈ patientFlow.asPipeline.steps, step.maxRetries < 2 ^ 31 - 1 := by
    intro step hstep
    rw [List.mem_singleton.mp hstep]
    decide
  have htick : workflowTick noFloat patientFlow once = tick noFloat patientFlow.asPipeline once :=
    funext (workflowTick_eq noFloat patientFlow once)
  refine ⟨⟨_, ((run_obeys_iff noFloat once .null 3 _).1 patient ?_ rfl).mpr
    (counted_of_lt hfits .null)⟩, ⟨_, ((run_obeys_iff noFloat once .null 3 _).2 patientFlow ?_
      rfl).mpr (htick ▸ counted_of_lt hflow .null)⟩⟩
  · intro step hstep
    have := hfits step hstep
    omega
  · intro step hstep
    rw [List.mem_singleton.mp hstep]
    decide

end Counterexample

end RunResults
