import TizenClaw.JsonParseUtf8
import TizenClaw.OrderedMap
import TizenClaw.PipelineExecutor

/-! Runs of pipelines end unless they jump backward, or retry, without end. -/
namespace PipelineTermination

open ByteString JsonValue JsonDump JsonParse PipelineExecutor Iteration OrderedMap JsonParseUtf8

variable {readFloat : Bytes → Option NumberText} {p : Pipeline} {results : ℕ → StepOutcome}

section Conditions

/-- Values whose text can be inserted: raw strings, and what the serializer accepts. -/
def Printable (vars : Variables) : Prop := ∀ x ∈ vars, (∃ s, x.2 = .str s) ∨ x.2.utf8 = true

theorem printable_insert {vars : Variables} (h : Printable vars) {k : Bytes} {v : Json}
    (hv : (∃ s, v = .str s) ∨ v.utf8 = true) : Printable (insertMember k v vars) := by
  intro x hx
  rcases mem_insertMember hx with rfl | hx
  · exact hv
  · exact h x hx

theorem text_succeeds {j : Json} (h : (∃ s, j = .str s) ∨ j.utf8 = true) : Succeeds (text j) := by
  unfold text
  split
  · exact succeeds_ok _
  · rename_i hn
    rcases h with ⟨s, rfl⟩ | h
    · exact absurd rfl (hn s)
    · exact (succeeds_dump j).mpr h

theorem replacement_succeeds {vars : Variables} (h : Printable vars) (name : Bytes) :
    Succeeds (replacement vars name) := by
  unfold replacement
  split
  · split
    · rename_i m hm
      split
      · rename_i val hval
        apply text_succeeds
        rcases h _ (mem_of_lookup hm) with ⟨s, hs⟩ | hu
        · cases hs
        · exact .inr (utf8_of_mem hu _ (mem_of_lookup hval))
      · exact succeeds_ok _
    · exact succeeds_ok _
  · split
    · rename_i val hval
      exact text_succeeds (h _ (mem_of_lookup hval))
    · exact succeeds_ok _

theorem interpolate_succeeds {vars : Variables} (h : Printable vars) (tmpl : Bytes) :
    Succeeds (interpolate vars tmpl) := by
  unfold interpolate
  generalize variablesIn 0 tmpl = names
  induction names generalizing tmpl with
  | nil => exact succeeds_ok _
  | cons name names ih =>
    obtain ⟨new, hnew⟩ := replacement_succeeds h name
    rw [List.foldlM_cons, hnew]
    exact ih _

theorem evalCondition_succeeds {vars : Variables} (h : Printable vars) (expr : Bytes) :
    Succeeds (evalCondition vars expr) := by
  obtain ⟨resolved, hr⟩ := interpolate_succeeds h expr
  unfold evalCondition
  rw [hr]
  simp only [bind, Except.bind]
  split
  · exact succeeds_ok _
  · split
    · exact succeeds_ok _
    · split
      · exact succeeds_ok _
      · exact succeeds_ok _

theorem resultValue_printable (result : Bytes) :
    (∃ s, resultValue readFloat result = .str s) ∨ (resultValue readFloat result).utf8 = true := by
  unfold resultValue
  split
  · rename_i j hj
    exact .inr (parse_utf8 hj).2
  · exact .inl ⟨result, rfl⟩

end Conditions

section Ticks

/-- The turn evaluates a condition and goes on at this or an earlier step. -/
def JumpsBack (p : Pipeline) (l : Loop) : Prop :=
  ∃ step ∈ p.steps[l.stepIdx]?, step.type = .condition ∧
    ∃ c, evalCondition l.vars step.condition = .ok c ∧
      jump p.steps (branch step c) l.stepIdx ≤ l.stepIdx

/-- The turn counts a failed attempt beyond the 32-bit integers. -/
def RetriesOverflow (p : Pipeline) (results : ℕ → StepOutcome) (l : Loop) : Prop :=
  ∃ step ∈ p.steps[l.stepIdx]?, step.type ≠ .condition ∧
    (∃ what, results l.attempt = .threw what) ∧ 2 ^ 31 - 1 ≤ l.retries

theorem tick_condition {l : Loop} {step : PipelineStep} (hs : p.steps[l.stepIdx]? = some step)
    (ht : step.type = .condition) :
    tick readFloat p results l = conditionStep p step l := by
  simp only [tick, hs, if_pos ht]

theorem tick_execute {l : Loop} {step : PipelineStep} (hs : p.steps[l.stepIdx]? = some step)
    (ht : step.type ≠ .condition) :
    tick readFloat p results l = executeStep readFloat p results step l := by
  simp only [tick, hs, if_neg ht]

theorem tick_end {l : Loop} (hs : p.steps[l.stepIdx]? = none) :
    tick readFloat p results l = .inr (.ok (finish p l)) := by
  simp only [tick, hs]

/-- The ways a turn of the loop goes on. -/
inductive Turn (p : Pipeline) (results : ℕ → StepOutcome) (l : Loop) (step : PipelineStep) :
    Loop → Prop where
  | condition {c} : step.type = .condition → evalCondition l.vars step.condition = .ok c →
      Turn p results l step { l with
        vars := insertMember (outVar step) (.bool c) l.vars
        stepIdx := jump p.steps (branch step c) l.stepIdx }
  | retry {what} : step.type ≠ .condition → results l.attempt = .threw what →
      wrap32 (l.retries + 1) ≤ step.maxRetries →
      Turn p results l step
        { l with retries := wrap32 (l.retries + 1), attempt := l.attempt + 1 }
  | advance {result l'} : step.type ≠ .condition → l'.stepIdx = l.stepIdx + 1 → l'.retries = 0 →
      l'.vars = insertMember (outVar step) result l.vars →
      (∃ s, result = .str s) ∨ result.utf8 = true → Turn p results l step l'

theorem tick_inl {l l' : Loop} (h : tick readFloat p results l = .inl l') :
    ∃ step, p.steps[l.stepIdx]? = some step ∧ Turn p results l step l' := by
  cases hs : p.steps[l.stepIdx]? with
  | none =>
    rw [tick_end hs] at h
    cases h
  | some step =>
    refine ⟨step, rfl, ?_⟩
    by_cases ht : step.type = .condition
    · rw [tick_condition hs ht, conditionStep] at h
      split at h
      · cases h
      · obtain rfl := Sum.inl.inj h
        exact .condition ht ‹_›
    · rw [tick_execute hs ht, executeStep] at h
      split at h
      · obtain rfl := Sum.inl.inj h
        exact .advance ht rfl rfl rfl (resultValue_printable _)
      · dsimp only at h
        split_ifs at h with hr hskip
        · obtain rfl := Sum.inl.inj h
          exact .retry ht ‹_› hr
        · obtain rfl := Sum.inl.inj h
          exact .advance ht rfl rfl rfl (resultValue_printable _)

/-- The steps ahead, and within a step the attempts up to an overflow. -/
def remaining (p : Pipeline) (l : Loop) : ℕ :=
  (p.steps.length - l.stepIdx) * 2 ^ 33 + (2 ^ 31 - l.retries).toNat

theorem remaining_lt {l l' : Loop} (h : tick readFloat p results l = .inl l')
    (hn : ¬ (JumpsBack p l ∨ RetriesOverflow p results l)) : remaining p l' < remaining p l := by
  obtain ⟨step, hs, ht⟩ := tick_inl h
  obtain ⟨hlt, -⟩ := List.getElem?_eq_some_iff.mp hs
  rw [not_or] at hn
  unfold remaining
  cases ht with
  | @condition c ht hc =>
    dsimp only
    have hjump : ¬ jump p.steps (branch step c) l.stepIdx ≤ l.stepIdx :=
      fun hle => hn.1 ⟨step, hs, ht, c, hc, hle⟩
    omega
  | @retry what ht hr hle =>
    dsimp only
    have hbound : ¬ 2 ^ 31 - 1 ≤ l.retries := fun hle => hn.2 ⟨step, hs, ht, ⟨what, hr⟩, hle⟩
    have := le_wrap32 (i := l.retries + 1) (by omega)
    omega
  | advance ht hidx hret =>
    rw [hidx, hret]
    omega

theorem printable_tick {l l' : Loop} (hl : Printable l.vars)
    (h : tick readFloat p results l = .inl l') : Printable l'.vars := by
  obtain ⟨step, -, ht⟩ := tick_inl h
  cases ht with
  | condition => exact printable_insert hl (.inr rfl)
  | retry => exact hl
  | advance _ _ _ hvars hv =>
    rw [hvars]
    exact printable_insert hl hv

/-- With printable variables no condition throws, so the loop ends with a result. -/
theorem tick_inr {l : Loop} (hl : Printable l.vars)
    {r : Except JsonException PipelineRunResult} (h : tick readFloat p results l = .inr r) :
    ∃ result, r = .ok result := by
  cases hs : p.steps[l.stepIdx]? with
  | none =>
    rw [tick_end hs] at h
    exact ⟨_, (Sum.inr.inj h).symm⟩
  | some step =>
    by_cases ht : step.type = .condition
    · obtain ⟨c, hc⟩ := evalCondition_succeeds hl step.condition
      rw [tick_condition hs ht, conditionStep, hc] at h
      cases h
    · rw [tick_execute hs ht, executeStep] at h
      split at h
      · cases h
      · dsimp only at h
        split_ifs at h
        exact ⟨_, (Sum.inr.inj h).symm⟩

theorem printable_start {inputVars : Json} (hv : inputVars.utf8 = true) :
    Printable (start inputVars).vars := by
  unfold start
  split
  · intro x hx
    exact .inr (utf8_of_mem (utf8Members_of hv) x hx)
  · intro x hx
    cases hx

end Ticks

theorem returns_iff_halts {inputVars : Json} (hv : inputVars.utf8 = true) :
    Returns readFloat p results inputVars ↔
      Halts (tick readFloat p results) (start inputVars) := by
  constructor
  · rintro ⟨n, r, hr⟩
    exact ⟨n, _, hr⟩
  · rintro ⟨n, r, hr⟩
    obtain ⟨l, hl, ht⟩ := result_of_run (I := fun l => Printable l.vars)
      (fun _ _ hl ht => printable_tick hl ht) (printable_start hv) hr
    obtain ⟨result, rfl⟩ := tick_inr hl ht
    exact ⟨n, result, hr⟩

/-- All conditions lead to later steps. -/
def Forward (p : Pipeline) : Prop :=
  ∀ i step, p.steps[i]? = some step → step.type = .condition →
    ∀ c, i < jump p.steps (branch step c) i

theorem retries_le {l l' : Loop} (hm : ∀ step ∈ p.steps, step.maxRetries < 2 ^ 31 - 1)
    (hl : l.retries < 2 ^ 31 - 1) (h : tick readFloat p results l = .inl l') :
    l'.retries < 2 ^ 31 - 1 := by
  obtain ⟨step, hs, ht⟩ := tick_inl h
  cases ht with
  | condition => exact hl
  | retry _ _ hle => exact hle.trans_lt (hm step (List.mem_of_getElem? hs))
  | advance _ _ hret =>
    rw [hret]
    decide

theorem retries_lt_of_after (hm : ∀ step ∈ p.steps, step.maxRetries < 2 ^ 31 - 1)
    {inputVars : Json} {n : ℕ} {l : Loop}
    (h : after (tick readFloat p results) n (start inputVars) = some l) :
    l.retries < 2 ^ 31 - 1 := by
  have hstart : (start inputVars).retries < 2 ^ 31 - 1 := by
    change (0 : ℤ) < 2 ^ 31 - 1
    decide
  exact after_invariant (I := fun l => l.retries < 2 ^ 31 - 1)
    (fun _ _ hl ht => retries_le hm hl ht) hstart h

/-- A pipeline run returns exactly if it jumps backward and overflows its count of retries only
finitely often, so in any case if the pipeline has neither backward jumps nor unbounded retries. -/
theorem returns_iff (readFloat : Bytes → Option NumberText) (p : Pipeline)
    (results : ℕ → StepOutcome) (inputVars : Json) (hv : inputVars.utf8 = true) :
    (Returns readFloat p results inputVars ↔
      ∃ N, ∀ n ≥ N, ∀ l, after (tick readFloat p results) n (start inputVars) = some l →
        ¬ (JumpsBack p l ∨ RetriesOverflow p results l)) ∧
    (Forward p → (∀ step ∈ p.steps, step.maxRetries < 2 ^ 31 - 1) →
      Returns readFloat p results inputVars) := by
  have hiff : Returns readFloat p results inputVars ↔
      ∃ N, ∀ n ≥ N, ∀ l, after (tick readFloat p results) n (start inputVars) = some l →
        ¬ (JumpsBack p l ∨ RetriesOverflow p results l) := by
    rw [returns_iff_halts hv]
    exact halts_iff (remaining p) (fun l l' ht hn => remaining_lt ht hn) (start inputVars)
  refine ⟨hiff, fun hf hm => hiff.mpr ⟨0, ?_⟩⟩
  intro n _ l hl
  rintro (⟨step, hs, ht, c, -, hle⟩ | ⟨step, -, -, -, hle⟩)
  · exact absurd hle (not_le.mpr (hf l.stepIdx step hs ht c))
  · exact absurd hle (not_le.mpr (retries_lt_of_after hm hl))

namespace Counterexample

def noFloat (_ : Bytes) : Option NumberText := none

/-- A condition that always holds and leads to itself. -/
def polling : Json :=
  .obj [(bytes "name", .str (bytes "poll")), (bytes "steps", .arr [.obj [
    (bytes "condition", .str (bytes "true")), (bytes "id", .str (bytes "again")),
    (bytes "then_step", .str (bytes "again")), (bytes "type", .str (bytes "condition"))]])]

def again : PipelineStep where
  id := bytes "again"
  type := .condition
  condition := bytes "true"
  thenStep := bytes "again"
  outputVar := bytes "again"

def poll : Pipeline :=
  ⟨bytes "pipe_1", bytes "poll", [], [again], bytes "manual"⟩

theorem evalCondition_again (vars : Variables) : evalCondition vars again.condition = .ok true := by
  have hn : variablesIn 0 again.condition = [] := by decide
  have hi : interpolate vars again.condition = .ok again.condition := by
    rw [interpolate, hn]
    rfl
  rw [evalCondition, hi]
  decide

theorem poll_never_returns :
    createPipeline (fun _ => 0) (bytes "pipe_1") polling = .ok (some poll) ∧
      ∀ results, ¬ Returns noFloat poll results (.obj []) := by
  refine ⟨by decide, ?_⟩
  intro results hr
  obtain ⟨n, r, hr⟩ := hr
  refine not_halts (I := fun l : Loop => l.stepIdx = 0) ?_ rfl ⟨n, _, hr⟩
  intro l hl
  have hs : poll.steps[l.stepIdx]? = some again := by
    rw [hl]
    rfl
  rw [tick_condition hs rfl, conditionStep, evalCondition_again]
  refine ⟨_, rfl, ?_⟩
  dsimp only
  rw [hl]
  decide

/-- Two steps in a row. -/
def greet : Pipeline :=
  ⟨bytes "pipe_2", bytes "greet", [],
    [{ id := bytes "ask", type := .prompt, prompt := bytes "hello" },
      { id := bytes "check", type := .condition, condition := bytes "\x7b\x7bask\x7d\x7d == hi" }],
    bytes "manual"⟩

theorem greet_forward : Forward greet := by
  intro i step hs ht c
  match i, hs with
  | 0, hs =>
    obtain rfl := Option.some.inj hs
    cases ht
  | 1, hs =>
    obtain rfl := Option.some.inj hs
    cases c <;> decide

theorem greet_returns :
    Returns noFloat greet (fun _ => .threw (bytes "no backend")) (.obj []) :=
  (returns_iff noFloat greet _ (.obj []) rfl).2 greet_forward (by decide)

end Counterexample

end PipelineTermination
