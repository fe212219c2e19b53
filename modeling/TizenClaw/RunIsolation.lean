import TizenClaw.PipelineTermination
import TizenClaw.StepExecution

/-! Runs do not leave the agent as they found it: the session they clear is not the one their
prompts go to. -/
namespace RunIsolation

open ByteString JsonValue Iteration PipelineTermination WorkflowEngine StepExecution
open PipelineExecutor hiding executeStep

section Properties

variable {η : Type} (readFloat : Bytes → Option NumberText) (agent : Agent η) (stamp : Bytes → ℕ)
variable (what : JsonException → Bytes) (e : Engine) (p : Pipeline)

/-- The run returns a result and leaves the sessions of `w`. -/
def Returned (inputVars : Json) (sessions : Bytes → Option η) (r : PipelineRunResult)
    (w : World η) :
    Prop :=
  ∃ n, run (turn readFloat agent stamp what e p) n (begin inputVars sessions) = some (.ok r, w)

/-- Every session that the run passed on or created is cleared, and the next run, on whatever
input, is the one it would have been. -/
structure Isolated (sessions : Bytes → Option η) (w : World η) : Prop where
  passed : ∀ id ∈ w.passed, id ∈ w.cleared
  created : ∀ id ∈ w.created, id ∈ w.cleared
  next : ∀ inputVars r, (∃ w', Returned readFloat agent stamp what e p inputVars w.sessions r w') ↔
    ∃ w', Returned readFloat agent stamp what e p inputVars sessions r w'

/-- The loop is at a step that gets as far as its prompt: nothing throws while its text is put
together. -/
def Prompts (l : Loop) : Prop :=
  ∃ step ∈ p.steps[l.stepIdx]?, step.type ≠ .condition ∧
    ∃ request, e.request l.vars step = .ok request

/-- No step that the run gets to prompts. -/
def Silent (inputVars : Json) (sessions : Bytes → Option η) : Prop :=
  ∀ n y, after (turn readFloat agent stamp what e p) n (begin inputVars sessions) = some y →
    ¬ Prompts e p y.1

/-- The session that the prompts of a run go to. -/
def promptSession : Bytes := e.word ++ sessionId e p

end Properties

section Attempts

variable {η : Type} {agent : Agent η} {stamp : Bytes → ℕ}
    {what : JsonException → Bytes} {e : Engine}
variable {p : Pipeline}

/-- Without a system prompt no session is created. -/
theorem executeSessionOp_code (code caller : Bytes) (w : World η) :
    executeSessionOp stamp (.obj [(bytes "code", .str code)]) caller w =
      .ok { w with passed := w.passed ++ [caller] } := by
  have hcreate : createSession stamp (.obj [(bytes "code", .str code)]) = .ok none := by
    have hname : (Json.obj [(bytes "code", .str code)]).valueString (bytes "name") (bytes "agent") =
        .ok (bytes "agent") := rfl
    have hprompt : (Json.obj [(bytes "code", .str code)]).valueString (bytes "system_prompt") [] =
        .ok [] := rfl
    unfold createSession
    rw [hname, hprompt]
    rfl
  unfold executeSessionOp
  rw [hcreate]
  simp [bind, Except.bind, pure, Except.pure]

theorem executeStep_error {step : PipelineStep} {vars : Variables} {x : JsonException}
    (h : e.request vars step = .error x) (id : Bytes) (w : World η) :
    executeStep agent stamp what e step vars id w = (.threw (what x), w) := by
  unfold executeStep
  rw [h]

theorem executeStep_ok {step : PipelineStep} {vars : Variables} {request : Request}
    (h : e.request vars step = .ok request) :
    ∃ before, ∀ w : World η, executeStep agent stamp what e step vars (sessionId e p) w =
      processPrompt agent (promptSession e p) request.prompt
        { w with passed := w.passed ++ before } := by
  unfold executeStep
  rw [h]
  cases hc : request.code with
  | none => exact ⟨[], by simp [hc, promptSession]⟩
  | some code =>
    refine ⟨[sessionId e p], fun w => ?_⟩
    simp only [hc, Option.elim_some, executeSessionOp_code]
    rfl

variable (agent stamp what) in
theorem attempt_prompts {l : Loop} (h : Prompts e p l) :
    ∃ text before, ∀ w : World η, attempt agent stamp what e p l w =
      processPrompt agent (promptSession e p) text { w with passed := w.passed ++ before } := by
  obtain ⟨step, hs, ht, request, hr⟩ := h
  obtain ⟨before, hbefore⟩ := executeStep_ok hr
  refine ⟨request.prompt, before, fun w => ?_⟩
  unfold attempt
  rw [Option.mem_def.mp hs]
  exact (if_neg ht).trans (hbefore w)

variable (agent stamp what) in
theorem attempt_silent {l : Loop} (h : ¬ Prompts e p l) :
    ∃ outcome, ∀ w : World η, attempt agent stamp what e p l w = (outcome, w) := by
  unfold attempt
  cases hs : p.steps[l.stepIdx]? with
  | none => exact ⟨_, fun _ => rfl⟩
  | some step =>
    dsimp only
    by_cases ht : step.type = .condition
    · exact ⟨.returned [], fun w => if_pos ht⟩
    · cases hr : e.request l.vars step with
      | ok request => exact absurd ⟨step, hs, ht, request, hr⟩ h
      | error x => exact ⟨.threw (what x), fun w => (if_neg ht).trans (executeStep_error hr _ w)⟩

variable (agent stamp what) in
/-- What an attempt leaves: it clears nothing and creates nothing. -/
theorem attempt_frame (l : Loop) (w : World η) :
    (attempt agent stamp what e p l w).2.created = w.created ∧
    (attempt agent stamp what e p l w).2.cleared = w.cleared ∧
    w.passed ⊆ (attempt agent stamp what e p l w).2.passed := by
  by_cases h : Prompts e p l
  · obtain ⟨text, before, hattempt⟩ := attempt_prompts agent stamp what h
    rw [hattempt]
    refine ⟨rfl, rfl, ?_⟩
    change w.passed ⊆ w.passed ++ before ++ [promptSession e p]
    rw [List.append_assoc]
    exact List.subset_append_left _ _
  · obtain ⟨outcome, hattempt⟩ := attempt_silent agent stamp what h
    rw [hattempt]
    exact ⟨rfl, rfl, List.Subset.refl _⟩

theorem attempt_passed {l : Loop} (h : Prompts e p l) (w : World η) :
    promptSession e p ∈ (attempt agent stamp what e p l w).2.passed := by
  obtain ⟨text, before, hattempt⟩ := attempt_prompts agent stamp what h
  rw [hattempt]
  exact List.mem_append_right _ (List.mem_singleton_self _)

end Attempts

section Turns

variable {η : Type} {readFloat : Bytes → Option NumberText} {agent : Agent η} {stamp : Bytes → ℕ}
variable {what : JsonException → Bytes} {e : Engine} {p : Pipeline}

/-- The next state has the world of the attempt. -/
theorem turn_inl {x y : Loop × World η} (h : turn readFloat agent stamp what e p x = .inl y) :
    y.2 = (attempt agent stamp what e p x.1 x.2).2 := by
  unfold turn at h
  dsimp only at h
  split at h
  · exact (Prod.mk.inj (Sum.inl.inj h)).2.symm
  · cases h
  · cases h

theorem turn_inr {x : Loop × World η} {r : PipelineRunResult} {w : World η}
    (h : turn readFloat agent stamp what e p x = .inr (.ok r, w)) :
    w = clearSession (sessionId e p) (attempt agent stamp what e p x.1 x.2).2 := by
  unfold turn at h
  dsimp only at h
  split at h
  · cases h
  · exact (Prod.mk.inj (Sum.inr.inj h)).2.symm
  · obtain ⟨hr, -⟩ := Prod.mk.inj (Sum.inr.inj h)
    cases hr

/-- Two states of a run that its prompts do not tell apart. -/
def Alike (e : Engine) (p : Pipeline) (x y : Loop × World η) : Prop :=
  x.1 = y.1 ∧ x.2.sessions (promptSession e p) = y.2.sessions (promptSession e p)

variable (agent stamp what) in
theorem attempt_alike {x y : Loop × World η} (h : Alike e p x y) :
    (attempt agent stamp what e p x.1 x.2).1 = (attempt agent stamp what e p y.1 y.2).1 ∧
    (attempt agent stamp what e p x.1 x.2).2.sessions (promptSession e p) =
      (attempt agent stamp what e p y.1 y.2).2.sessions (promptSession e p) := by
  obtain ⟨l, w⟩ := x
  obtain ⟨l', w'⟩ := y
  obtain ⟨rfl, hs⟩ : l = l' ∧ w.sessions (promptSession e p) = w'.sessions (promptSession e p) := h
  by_cases hp : Prompts e p l
  · obtain ⟨text, before, hattempt⟩ := attempt_prompts agent stamp what hp
    rw [hattempt, hattempt]
    unfold processPrompt
    dsimp only
    rw [hs, Function.update_self, Function.update_self]
    exact ⟨rfl, rfl⟩
  · obtain ⟨outcome, hattempt⟩ := attempt_silent agent stamp what hp
    rw [hattempt, hattempt]
    exact ⟨rfl, hs⟩

variable (readFloat agent stamp what) in
theorem turn_alike {x y : Loop × World η} (h : Alike e p x y) :
    Sum.LiftRel (Alike e p) (fun r k => r.1 = k.1) (turn readFloat agent stamp what e p x)
      (turn readFloat agent stamp what e p y) := by
  obtain ⟨houtcome, hsessions⟩ := attempt_alike agent stamp what h
  rw [h.1] at houtcome hsessions
  unfold turn
  dsimp only
  rw [h.1, houtcome]
  split
  · exact .inl ⟨rfl, hsessions⟩
  · exact .inr rfl
  · exact .inr rfl

end Turns

section Runs

variable {η : Type} {readFloat : Bytes → Option NumberText} {agent : Agent η} {stamp : Bytes → ℕ}
variable {what : JsonException → Bytes} {e : Engine} {p : Pipeline}

theorem promptSession_ne (he : e.word ≠ []) : promptSession e p ≠ sessionId e p := by
  intro h
  have hlen := congrArg List.length h
  have hpos := List.length_pos_iff.mpr he
  rw [promptSession, List.length_append] at hlen
  omega

/-- Until the end nothing is cleared or created. -/
def Untouched (w : World η) : Prop := w.cleared = [] ∧ w.created = []

theorem untouched_attempt {l : Loop} {w : World η} (h : Untouched w) :
    Untouched (attempt agent stamp what e p l w).2 := by
  obtain ⟨hcreated, hcleared, -⟩ := attempt_frame agent stamp what (e := e) (p := p) l w
  exact ⟨hcleared.trans h.1, hcreated.trans h.2⟩

theorem returned_prompted {x : Loop × World η} (hx : Untouched x.2)
    (hp : Prompts e p x.1 ∨ promptSession e p ∈ x.2.passed) {n : ℕ}
    {r : PipelineRunResult} {w : World η}
    (h : run (turn readFloat agent stamp what e p) n x = some (.ok r, w)) :
    promptSession e p ∈ w.passed ∧ w.cleared = [sessionId e p] := by
  have hpassed {y : Loop × World η} (hy : Prompts e p y.1 ∨ promptSession e p ∈ y.2.passed) :
      promptSession e p ∈ (attempt agent stamp what e p y.1 y.2).2.passed := by
    rcases hy with hy | hy
    · exact attempt_passed hy y.2
    · exact (attempt_frame agent stamp what y.1 y.2).2.2 hy
  have hstep (y z : Loop × World η)
      (hy : Untouched y.2 ∧ (Prompts e p y.1 ∨ promptSession e p ∈ y.2.passed))
      (hz : turn readFloat agent stamp what e p y = .inl z) :
      Untouched z.2 ∧ (Prompts e p z.1 ∨ promptSession e p ∈ z.2.passed) := by
    rw [turn_inl hz]
    exact ⟨untouched_attempt hy.1, .inr (hpassed hy.2)⟩
  obtain ⟨y, ⟨hy, hprompt⟩, hr⟩ := result_of_run hstep ⟨hx, hp⟩ h
  rw [turn_inr hr]
  refine ⟨hpassed hprompt, ?_⟩
  change (attempt agent stamp what e p y.1 y.2).2.cleared ++ [sessionId e p] = _
  rw [(untouched_attempt hy).1]
  rfl

/-- A silent run leaves all but the cleared session alone. -/
theorem returned_silent {x : Loop × World η} {n : ℕ} {r : PipelineRunResult} {w : World η}
    (hs : ∀ m y, after (turn readFloat agent stamp what e p) m x = some y → ¬ Prompts e p y.1)
    (h : run (turn readFloat agent stamp what e p) n x = some (.ok r, w)) :
    w = clearSession (sessionId e p) x.2 := by
  induction n generalizing x with
  | zero => cases h
  | succ n ih =>
    obtain ⟨outcome, hattempt⟩ :=
      attempt_silent agent stamp what (hs 0 x rfl)
    cases ht : turn readFloat agent stamp what e p x with
    | inl y =>
      have hy : y.2 = x.2 := (turn_inl ht).trans (by rw [hattempt])
      rw [run_inl ht] at h
      rw [← hy]
      apply ih _ h
      intro m z hz
      exact hs (m + 1) z ((after_inl ht m).trans hz)
    | inr k =>
      simp only [run, ht] at h
      obtain rfl := Option.some.inj h
      rw [turn_inr ht, hattempt]

theorem returned_alike {inputVars : Json} {s t : Bytes → Option η}
    (h : s (promptSession e p) = t (promptSession e p)) {r : PipelineRunResult} {w : World η}
    (hr : Returned readFloat agent stamp what e p inputVars s r w) :
    ∃ w', Returned readFloat agent stamp what e p inputVars t r w' := by
  obtain ⟨n, hn⟩ := hr
  have hsame := run_related (f := Prod.fst) (g := Prod.fst)
    (fun x y hxy => turn_alike readFloat agent stamp what hxy)
    (show Alike e p (begin inputVars s) (begin inputVars t) from ⟨rfl, h⟩) n
  rw [hn] at hsame
  obtain ⟨⟨k, w'⟩, hk, hkr⟩ := Option.map_eq_some_iff.mp hsame.symm
  exact ⟨w', n, by rw [hk]; exact congrArg (fun k => some (k, w')) hkr⟩

/-- A run is isolated exactly if it prompts for none of its steps. -/
theorem isolated_iff_silent (he : e.word ≠ []) {inputVars : Json} {sessions : Bytes → Option η}
    {r : PipelineRunResult} {w : World η}
    (h : Returned readFloat agent stamp what e p inputVars sessions r w) :
    Isolated readFloat agent stamp what e p sessions w ↔
      Silent readFloat agent stamp what e p inputVars sessions := by
  obtain ⟨n, hn⟩ := h
  constructor
  · intro hi m y hy hp
    have huntouched : Untouched y.2 := by
      refine after_invariant (I := fun z : Loop × World η => Untouched z.2) ?_ ⟨rfl, rfl⟩ hy
      intro u v hu huv
      rw [turn_inl huv]
      exact untouched_attempt hu
    have hmn : m ≤ n := by
      by_contra hlt
      rw [after_of_run hn (not_le.mp hlt).le] at hy
      cases hy
    have hrun : run (turn readFloat agent stamp what e p) (n - m) y = some (.ok r, w) := by
      rw [← run_after hy, Nat.add_sub_cancel' hmn]
      exact hn
    obtain ⟨hpassed, hcleared⟩ := returned_prompted huntouched (.inl hp) hrun
    have hmem := hi.passed _ hpassed
    rw [hcleared, List.mem_singleton] at hmem
    exact promptSession_ne he hmem
  · intro hs
    obtain rfl := returned_silent hs hn
    have hsame :
        (clearSession (sessionId e p) (begin inputVars sessions).2).sessions (promptSession e p) =
        sessions (promptSession e p) := Function.update_of_ne (promptSession_ne he) _ _
    refine ⟨nofun, nofun, fun inputVars r => ⟨?_, ?_⟩⟩
    · rintro ⟨w', hw'⟩
      exact returned_alike hsame hw'
    · rintro ⟨w', hw'⟩
      exact returned_alike hsame.symm hw'

end Runs

/-- Runs of pipelines and of workflows are isolated exactly if they never prompt. -/
theorem isolation_iff {η : Type} (readFloat : Bytes → Option NumberText) (agent : Agent η)
    (stamp : Bytes → ℕ) (what : JsonException → Bytes) :
    (∀ (p : Pipeline) (inputVars : Json) (sessions : Bytes → Option η) (r : PipelineRunResult)
      (w : World η), Returned readFloat agent stamp what pipelineEngine p inputVars sessions r w →
        (Isolated readFloat agent stamp what pipelineEngine p sessions w ↔
          Silent readFloat agent stamp what pipelineEngine p inputVars sessions)) ∧
    (∀ (wf : Workflow) (inputVars : Json) (sessions : Bytes → Option η) (r : PipelineRunResult)
      (w : World η),
      Returned readFloat agent stamp what workflowEngine wf.asPipeline inputVars sessions r w →
        (Isolated readFloat agent stamp what workflowEngine wf.asPipeline sessions w ↔
          Silent readFloat agent stamp what workflowEngine wf.asPipeline inputVars sessions)) := by
  constructor
  · intro p inputVars sessions r w h
    exact isolated_iff_silent (by decide) h
  · intro wf inputVars sessions r w h
    exact isolated_iff_silent (by decide) h

namespace Counterexample

def noFloat (_ : Bytes) : Option NumberText := none

/-- An agent that knows whether it was asked before. -/
def agent (_ : Bytes) (history : Option Unit) (_ : Bytes) : StepOutcome × Option Unit :=
  (.returned (if history.isNone then bytes "first" else bytes "again"), some ())

/-- A variable that is not UTF-8 cannot be put into a text. -/
def garbled : Json := .obj [(bytes "x", .arr [.str [0xFF]])]

def onlyStep : PipelineStep :=
  { id := bytes "s", type := .prompt, prompt := bytes "\x7b\x7bx\x7d\x7d" }

def pipeline : Pipeline := ⟨bytes "pipe-1", bytes "p", [], [onlyStep], bytes "manual"⟩

def workflow : Workflow :=
  ⟨bytes "wf-1", bytes "w", [], bytes "manual",
    [{ id := bytes "s", instruction := bytes "\x7b\x7bx\x7d\x7d" }]⟩

theorem garbled_silent (e : Engine) (p : Pipeline)
    (he : ∀ step ∈ p.steps[0]?, ∃ x, e.request (start garbled).vars step = .error x)
    (hend : (after (turn noFloat agent (fun _ => 0) (fun _ => []) e p) 1
      (begin garbled fun _ => none)).isNone) :
    Silent noFloat agent (fun _ => 0) (fun _ => []) e p garbled fun _ => none := by
  intro n y hy
  cases n with
  | zero =>
    obtain rfl := Option.some.inj hy
    rintro ⟨step, hs, -, request, hr⟩
    obtain ⟨x, hx⟩ := he step hs
    rw [show (begin garbled fun _ => (none : Option Unit)).1.vars =
      (start garbled).vars from rfl, hx] at hr
    cases hr
  | succ n =>
    rw [Nat.add_comm, after_add, Option.isNone_iff_eq_none.mp hend] at hy
    cases hy

/-- What the steps of two runs, one after the other, come to. -/
def results (e : Engine) (p : Pipeline) : Option (List (Bytes × Bytes)) :=
  match run (turn noFloat agent (fun _ => 0) (fun _ => []) e p) 2 (begin .null fun _ => none) with
  | some (.ok r₁, w) =>
    match run (turn noFloat agent (fun _ => 0) (fun _ => []) e p) 2 (begin .null w.sessions) with
    | some (.ok r₂, _) => some (r₁.stepResults ++ r₂.stepResults)
    | _ => none
  | _ => none

/-- The second run of a pipeline, and of a workflow, finds the session of the first. -/
theorem asked_before :
    results pipelineEngine pipeline =
      some [(bytes "s", bytes "first"), (bytes "s", bytes "again")] ∧
    results workflowEngine workflow.asPipeline =
      some [(bytes "s", bytes "first"), (bytes "s", bytes "again")] := by decide

/-- A run whose only text cannot be put together is isolated. -/
theorem garbled_isolated :
    (∃ r w, Returned noFloat agent (fun _ => 0) (fun _ => []) pipelineEngine pipeline garbled
      (fun _ => none) r w ∧
      Isolated noFloat agent (fun _ => 0) (fun _ => []) pipelineEngine pipeline (fun _ => none) w) ∧
    ∃ r w, Returned noFloat agent (fun _ => 0)
      (fun _ => []) workflowEngine workflow.asPipeline garbled
      (fun _ => none) r w ∧
      Isolated noFloat agent (fun _ => 0) (fun _ => []) workflowEngine workflow.asPipeline
        (fun _ => none) w := by
  obtain ⟨hpipeline, hworkflow⟩ := isolation_iff noFloat agent (fun _ => 0) (fun _ => [])
  have hp : Returned noFloat agent (fun _ => 0) (fun _ => []) pipelineEngine pipeline garbled
    (fun _ => none) _ _ := ⟨1, rfl⟩
  have hw : Returned noFloat agent (fun _ => 0)
    (fun _ => []) workflowEngine workflow.asPipeline garbled
    (fun _ => none) _ _ := ⟨1, rfl⟩
  refine ⟨⟨_, _, hp, (hpipeline _ _ _ _ _ hp).mpr ?_⟩, _, _, hw, (hworkflow _ _ _ _ _ hw).mpr ?_⟩
  · apply garbled_silent
    · intro step hs
      obtain rfl := Option.some.inj hs
      exact ⟨.typeError 316, rfl⟩
    · rfl
  · apply garbled_silent
    · intro step hs
      obtain rfl := Option.some.inj hs
      exact ⟨.typeError 316, rfl⟩
    · rfl

end Counterexample

end RunIsolation
