import TizenClaw.IpcRequest
import TizenClaw.JsonStorable
import TizenClaw.PipelineTermination
import TizenClaw.TaskRoundTrip

/-! The files that pipelines are kept in, and the runs of a pipeline that is loaded from its file
beside those of the pipeline that was saved. -/
namespace PipelinePersistence

open ByteString JsonValue JsonDump JsonParse JsonRoundTrip JsonStorable PipelineExecutor Iteration
open TaskSchedule (hex)
open PipelineTermination (tick_condition)

section Files

/-- Both numbers are written after `std::hex`. -/
def generatePipelineId (millis : ℤ) (seq : ℕ) : Bytes :=
  bytes "pipe-" ++ hex (millis % 2 ^ 64).toNat ++ bytes "-" ++ hex seq

def stepTypeToString : PipelineStepType → Bytes
  | .tool => bytes "tool"
  | .prompt => bytes "prompt"
  | .condition => bytes "condition"

/-- `empty()`: null, and objects and arrays without members. -/
def isEmpty : Json → Bool
  | .null | .obj [] | .arr [] => true
  | _ => false

/-- A text that is written only if it is not empty. -/
def nonEmpty (s : Bytes) : Option Json := if s = [] then none else some (.str s)

/-- The members of a step, without those that are left out. -/
def stepFields (step : PipelineStep) : List (Bytes × Option Json) :=
  [(bytes "id", some (.str step.id)), (bytes "type", some (.str (stepTypeToString step.type))),
    (bytes "tool_name", nonEmpty step.toolName),
    (bytes "args", if isEmpty step.args then none else some step.args),
    (bytes "prompt", nonEmpty step.prompt), (bytes "condition", nonEmpty step.condition),
    (bytes "then_step", nonEmpty step.thenStep), (bytes "else_step", nonEmpty step.elseStep),
    (bytes "skip_on_failure", if step.skipOnFailure then some (.bool true) else none),
    (bytes "max_retries", if step.maxRetries > 0 then some (.int step.maxRetries) else none),
    (bytes "output_var", nonEmpty step.outputVar)]

def present (fields : List (Bytes × Option Json)) : List (Bytes × Json) :=
  fields.filterMap fun x => x.2.map fun v => (x.1, v)

def stepJson (step : PipelineStep) : Json := .object (present (stepFields step))

def pipelineMembers (p : Pipeline) : List (Bytes × Json) :=
  [(bytes "id", .str p.id), (bytes "name", .str p.name),
    (bytes "description", .str p.description), (bytes "trigger", .str p.trigger),
    (bytes "steps", .arr (p.steps.map stepJson))]

/-- The text of the file. -/
def savePipeline (p : Pipeline) : Except JsonException Bytes :=
  dumpIndent 2 (.object (pipelineMembers p))

variable (readFloat : Bytes → Option NumberText) (truncate : NumberText → ℤ)

def loadStep (sj : Json) : Except JsonException PipelineStep := do
  let id ← sj.valueString (bytes "id") []
  let type ← sj.valueString (bytes "type") (bytes "tool")
  let toolName ← sj.valueString (bytes "tool_name") []
  let prompt ← sj.valueString (bytes "prompt") []
  let condition ← sj.valueString (bytes "condition") []
  let thenStep ← sj.valueString (bytes "then_step") []
  let elseStep ← sj.valueString (bytes "else_step") []
  let skipOnFailure ← sj.value getBool (bytes "skip_on_failure") false
  let maxRetries ← sj.value (getInt truncate) (bytes "max_retries") 0
  let outputVar ← sj.valueString (bytes "output_var") []
  pure { id, type := stringToStepType type, toolName, prompt, condition, thenStep, elseStep
         skipOnFailure, maxRetries, outputVar, args := (sj.member? (bytes "args")).getD .null }

def loadPipelineFile (content : Bytes) : Except JsonException Pipeline := do
  let j ← readStream readFloat content
  let id ← j.valueString (bytes "id") []
  let name ← j.valueString (bytes "name") []
  let description ← j.valueString (bytes "description") []
  let trigger ← j.valueString (bytes "trigger") (bytes "manual")
  let steps ← match j.member? (bytes "steps") with
    | some (.arr l) => l.mapM (loadStep truncate)
    | _ => pure []
  pure { id, name, description, trigger, steps }

end Files

section Runs

/-- What is asked of the agent. -/
inductive Action where
  | createSession (code : Bytes)
  | prompt (text : Bytes)
  deriving DecidableEq, Repr

/-- The answer to the last action, after all those before it. -/
abbrev Agent := List Action → StepOutcome

mutual

def interpolateJson (vars : Variables) : Json → Except JsonException Json
  | .str s => (interpolate vars s).map .str
  | .arr l => (interpolateList vars l).map .arr
  | .obj m => (interpolateMembers vars m).map .obj
  | j => .ok j

def interpolateList (vars : Variables) : List Json → Except JsonException (List Json)
  | [] => .ok []
  | x :: xs => do
    let y ← interpolateJson vars x
    let ys ← interpolateList vars xs
    pure (y :: ys)

def interpolateMembers (vars : Variables) :
    List (Bytes × Json) → Except JsonException (List (Bytes × Json))
  | [] => .ok []
  | (k, x) :: m => do
    let y ← interpolateJson vars x
    let ys ← interpolateMembers vars m
    pure ((k, y) :: ys)

end

/-- `type_name()` -/
def typeName : Json → Bytes
  | .null => bytes "null"
  | .bool _ => bytes "boolean"
  | .int _ | .float _ => bytes "number"
  | .str _ => bytes "string"
  | .arr _ => bytes "array"
  | .obj _ => bytes "object"

/-- `value("code", "")`, or the text of its exception. -/
def codeOf : Json → Except Bytes Bytes
  | .obj m => match m.lookup (bytes "code") with
    | none => .ok []
    | some (.str s) => .ok s
    | some j => .error (bytes "[json.exception.type_error.302] type must be string, but is " ++
        typeName j)
  | j => .error (bytes "[json.exception.type_error.306] cannot use value() with " ++ typeName j)

def executeCode : Bytes := bytes "execute_code"

/-- The agent is asked to use a tool with a text of code or of arguments. -/
def codePrompt (code : Bytes) : Bytes := bytes "Use the execute_code tool with this code: " ++ code

def toolPrompt (toolName args : Bytes) : Bytes :=
  bytes "Use the " ++ toolName ++ bytes " tool with these arguments: " ++ args

variable (readFloat : Bytes → Option NumberText) (what : Variables → Json → Bytes) (agent : Agent)

def ask (actions : List Action) (a : Action) : StepOutcome × List Action :=
  (agent (actions ++ [a]), actions ++ [a])

/-- `ExecuteStep`. `what` is the text of the exception that the serializer throws on a value. -/
def attemptStep (step : PipelineStep) (vars : Variables) (actions : List Action) :
    StepOutcome × List Action :=
  match step.type with
  | .tool =>
    match interpolateJson vars step.args with
    | .error _ => (.threw (what vars step.args), actions)
    | .ok resolvedArgs =>
      if step.toolName = executeCode then
        match codeOf resolvedArgs with
        | .error text => (.threw text, actions)
        | .ok code =>
          match ask agent actions (.createSession code) with
          | (.threw text, actions) => (.threw text, actions)
          | (.returned _, actions) => ask agent actions (.prompt (codePrompt code))
      else
        match dump resolvedArgs with
        | .error _ => (.threw (what vars resolvedArgs), actions)
        | .ok args => ask agent actions (.prompt (toolPrompt step.toolName args))
  | .prompt =>
    match interpolate vars step.prompt with
    | .error _ => (.threw (what vars (.str step.prompt)), actions)
    | .ok resolved => ask agent actions (.prompt resolved)
  | .condition => (.returned [], actions)

/-- The loop of `RunPipeline`, with all that was asked of the agent. -/
structure Session where
  loop : Loop
  actions : List Action := []

/-- One turn of the loop, or of the retry loop within it. -/
def turn (p : Pipeline) (s : Session) :
    Session ⊕ (Except JsonException PipelineRunResult × List Action) :=
  match p.steps[s.loop.stepIdx]? with
  | none => .inr (.ok (finish p s.loop), s.actions)
  | some step =>
    if step.type = .condition then
      (conditionStep p step s.loop).map (⟨·, s.actions⟩) (·, s.actions)
    else
      let x := attemptStep what agent step s.loop.vars s.actions
      (executeStep readFloat p (fun _ => x.1) step s.loop).map (⟨·, x.2⟩) (·, x.2)

/-- Two pipelines run alike from a session: turn by turn they ask the agent the same and bind the
same variables, and they come to the same result, if they come to one. -/
def SameFrom (p q : Pipeline) (s : Session) : Prop :=
  ∀ n, after (turn readFloat what agent p) n s = after (turn readFloat what agent q) n s ∧
    run (turn readFloat what agent p) n s = run (turn readFloat what agent q) n s

/-- A run begins with the input variables. -/
def begin (inputVars : Json) : Session := ⟨start inputVars, []⟩

end Runs

section Written

variable {readFloat : Bytes → Option NumberText} {truncate : NumberText → ℤ}
  {fields : List (Bytes × Option Json)}

@[simp] theorem present_none (k : Bytes) (fields : List (Bytes × Option Json)) :
    present ((k, none) :: fields) = present fields := rfl

@[simp] theorem present_some (k : Bytes) (v : Json) (fields : List (Bytes × Option Json)) :
    present ((k, some v) :: fields) = (k, v) :: present fields := rfl

theorem present_sublist (fields : List (Bytes × Option Json)) :
    List.Sublist ((present fields).map Prod.fst) (fields.map Prod.fst) := by
  induction fields with
  | nil => exact List.Sublist.slnil
  | cons x fields ih =>
    obtain ⟨k, v⟩ := x
    cases v with
    | none => exact ih.cons k
    | some v => exact ih.cons_cons k

theorem lookup_present (h : (fields.map Prod.fst).Nodup) (key : Bytes) :
    (present fields).lookup key = (fields.lookup key).join := by
  induction fields with
  | nil => rfl
  | cons x fields ih =>
    obtain ⟨k, v⟩ := x
    rw [List.map_cons, List.nodup_cons] at h
    rw [List.lookup_cons]
    by_cases hk : key = k
    · subst hk
      cases v with
      | none =>
        have hno : (present fields).lookup key = none := by
          cases hl : (present fields).lookup key with
          | none => rfl
          | some w =>
            have hmem := List.mem_map_of_mem (f := Prod.fst) (OrderedMap.mem_of_lookup hl)
            exact absurd ((present_sublist fields).subset hmem) h.1
        simp [hno]
      | some v => simp
    · rw [beq_false_of_ne hk, ← ih h.2]
      cases v with
      | none => rfl
      | some v => rw [present_some, List.lookup_cons, beq_false_of_ne hk]

theorem stepFields_nodup (step : PipelineStep) : ((stepFields step).map Prod.fst).Nodup := by
  have hkeys : [bytes "id", bytes "type", bytes "tool_name", bytes "args", bytes "prompt",
    bytes "condition", bytes "then_step", bytes "else_step", bytes "skip_on_failure",
    bytes "max_retries", bytes "output_var"].Nodup := by decide
  exact hkeys

theorem stepJson_member (step : PipelineStep) (key : Bytes) :
    (stepJson step).member? key = ((stepFields step).lookup key).join := by
  have hnodup : ((present (stepFields step)).map Prod.fst).Nodup :=
    (present_sublist _).nodup (stepFields_nodup step)
  rw [stepJson, member_object hnodup, lookup_present (stepFields_nodup step)]

/-- A field of a written step is read from its member, or is the default. -/
theorem stepJson_value {α : Type} (get : Json → Except JsonException α) (step : PipelineStep)
    (key : Bytes) (d : α) : (stepJson step).value get key d =
      match ((stepFields step).lookup key).join with
      | none => .ok d
      | some v => get v := by
  rw [← stepJson_member]
  rfl

theorem getString_nonEmpty (s : Bytes) :
    (match nonEmpty s with
      | none => .ok []
      | some v => v.getString) = (.ok s : Except JsonException Bytes) := by
  by_cases hs : s = []
  · rw [nonEmpty, if_pos hs, hs]
  · rw [nonEmpty, if_neg hs]
    rfl

theorem stringToStepType_stepTypeToString (type : PipelineStepType) :
    stringToStepType (stepTypeToString type) = type := by
  cases type <;> decide

theorem valid_stepTypeToString (type : PipelineStepType) :
    Utf8.valid (stepTypeToString type) = true := by
  cases type <;> decide

/-- What a step is after it was saved and loaded. -/
def reloadStep (step : PipelineStep) : PipelineStep :=
  { step with
    args := if isEmpty step.args then .null else step.args
    maxRetries := max 0 step.maxRetries }

def reload (p : Pipeline) : Pipeline := { p with steps := p.steps.map reloadStep }

/-- A number of retries fits into an `int`. -/
def FitsInt (i : ℤ) : Prop := -2 ^ 31 ≤ i ∧ i < 2 ^ 31

instance (i : ℤ) : Decidable (FitsInt i) := inferInstanceAs (Decidable (_ ∧ _))

theorem wrap32_of_fits {i : ℤ} (h : FitsInt i) : wrap32 i = i := wrap32_of_range h.1 h.2

theorem loadStep_stepJson {step : PipelineStep} (h : FitsInt step.maxRetries) :
    loadStep truncate (stepJson step) = .ok (reloadStep step) := by
  have htext : ∀ key {s}, ((stepFields step).lookup key).join = nonEmpty s →
      (stepJson step).valueString key [] = .ok s := by
    intro key s hkey
    rw [Json.valueString, stepJson_value, hkey]
    exact getString_nonEmpty s
  have hid : (stepJson step).valueString (bytes "id") [] = .ok step.id := by
    rw [Json.valueString, stepJson_value]
    rfl
  have htype : (stepJson step).valueString (bytes "type") (bytes "tool") =
      .ok (stepTypeToString step.type) := by
    rw [Json.valueString, stepJson_value]
    rfl
  have hskip : (stepJson step).value getBool (bytes "skip_on_failure") false =
      .ok step.skipOnFailure := by
    rw [stepJson_value, show (stepFields step).lookup (bytes "skip_on_failure") =
      some (if step.skipOnFailure then some (.bool true) else none) from rfl]
    cases step.skipOnFailure <;> rfl
  have hretries : (stepJson step).value (getInt truncate) (bytes "max_retries") 0 =
      .ok (max 0 step.maxRetries) := by
    rw [stepJson_value, show (stepFields step).lookup (bytes "max_retries") =
      some (if step.maxRetries > 0 then some (.int step.maxRetries) else none) from rfl]
    by_cases hpos : step.maxRetries > 0
    · rw [if_pos hpos, Int.max_eq_right hpos.le]
      exact congrArg Except.ok (wrap32_of_fits h)
    · rw [if_neg hpos, Int.max_eq_left (not_lt.mp hpos)]
      rfl
  have hargs : ((stepJson step).member? (bytes "args")).getD .null = (reloadStep step).args := by
    rw [stepJson_member, show (stepFields step).lookup (bytes "args") =
      some (if isEmpty step.args then none else some step.args) from rfl, reloadStep]
    cases isEmpty step.args <;> rfl
  rw [loadStep, hid, htype, htext (bytes "tool_name") rfl, htext (bytes "prompt") rfl,
    htext (bytes "condition") rfl, htext (bytes "then_step") rfl,
    htext (bytes "else_step") rfl, hskip, hretries, htext (bytes "output_var") rfl,
    hargs]
  simp only [bind, Except.bind, pure, Except.pure, stringToStepType_stepTypeToString]
  rfl

/-- What is written of a step can be read back. -/
structure Writable (readFloat : Bytes → Option NumberText) (step : PipelineStep) : Prop where
  fields : ∀ x ∈ stepFields step, ∀ v ∈ x.2, Storable readFloat v
  fits : FitsInt step.maxRetries

theorem storable_stepJson {step : PipelineStep} (h : Writable readFloat step) :
    Storable readFloat (stepJson step) := by
  have hkeys : ∀ k ∈ (stepFields step).map Prod.fst, Utf8.valid k = true := by
    have hall : ∀ k ∈ [bytes "id", bytes "type", bytes "tool_name", bytes "args", bytes "prompt",
      bytes "condition", bytes "then_step", bytes "else_step", bytes "skip_on_failure",
      bytes "max_retries", bytes "output_var"], Utf8.valid k = true := by decide
    exact hall
  apply storable_object
  rw [storableMembers_iff]
  intro e he
  obtain ⟨x, hx, hxe⟩ := List.mem_filterMap.mp he
  obtain ⟨v, hv, rfl⟩ := Option.map_eq_some_iff.mp hxe
  exact ⟨hkeys x.1 (List.mem_map_of_mem hx), h.fields x hx v hv⟩

theorem storable_nonEmpty {s : Bytes} (h : Utf8.valid s = true) :
    ∀ v ∈ nonEmpty s, Storable readFloat v := by
  intro v hv
  by_cases hs : s = []
  · rw [nonEmpty, if_pos hs] at hv
    cases hv
  · rw [nonEmpty, if_neg hs] at hv
    obtain rfl := Option.some.inj hv
    exact h

theorem fitsInt_wrap32 (i : ℤ) : FitsInt (wrap32 i) := ⟨neg_le_wrap32 i, wrap32_lt i⟩

theorem fitsInt_getInt {j : Json} {i : ℤ} (h : getInt truncate j = .ok i) : FitsInt i := by
  cases j with
  | int n =>
    obtain rfl := Except.ok.inj h
    exact fitsInt_wrap32 n
  | float t =>
    obtain rfl := Except.ok.inj h
    exact fitsInt_wrap32 _
  | bool b =>
    obtain rfl := Except.ok.inj h
    cases b <;> decide
  | _ => cases h

theorem fitsInt_value {sj : Json} {i : ℤ} {key : Bytes}
    (h : sj.value (getInt truncate) key 0 = .ok i) : FitsInt i := by
  cases sj with
  | obj m =>
    simp only [Json.value] at h
    split at h
    · obtain rfl := Except.ok.inj h
      decide
    · exact fitsInt_getInt h
  | _ => cases h

/-- A step that is accepted can be written, and read back. -/
theorem writable_stepOf {sj : Json} {index : ℕ} {step : PipelineStep}
    (hs : Storable readFloat sj) (h : stepOf truncate sj index = .ok step) :
    Writable readFloat step := by
  have hu := hs.utf8
  have hempty : Utf8.valid [] = true := rfl
  have hindex : Utf8.valid (bytes "step_" ++ decimal index) = true := by
    apply Utf8.valid_ascii
    rw [List.forall_mem_append]
    exact ⟨Utf8.ascii_of_all (by decide), decimal_ascii index⟩
  unfold stepOf at h
  obtain ⟨id, hid, h⟩ := bind_eq_ok.mp h
  obtain ⟨type, -, h⟩ := bind_eq_ok.mp h
  obtain ⟨toolName, htool, h⟩ := bind_eq_ok.mp h
  obtain ⟨prompt, hprompt, h⟩ := bind_eq_ok.mp h
  obtain ⟨condition, hcondition, h⟩ := bind_eq_ok.mp h
  obtain ⟨thenStep, hthen, h⟩ := bind_eq_ok.mp h
  obtain ⟨elseStep, helse, h⟩ := bind_eq_ok.mp h
  obtain ⟨skipOnFailure, -, h⟩ := bind_eq_ok.mp h
  obtain ⟨maxRetries, hretries, h⟩ := bind_eq_ok.mp h
  obtain ⟨outputVar, houtput, h⟩ := bind_eq_ok.mp h
  obtain rfl := Except.ok.inj h
  have hfits := fitsInt_value hretries
  have hidv := IpcRequest.valueString_utf8 hu hindex hid
  have hargs : Storable readFloat ((sj.member? (bytes "args")).getD .null) := by
    cases hm : sj.member? (bytes "args") with
    | none => trivial
    | some v => exact Storable.member hs hm
  have htext : ∀ {key s}, sj.valueString key [] = .ok s → ∀ v ∈ nonEmpty s, Storable readFloat v :=
    fun hkey => storable_nonEmpty (IpcRequest.valueString_utf8 hu hempty hkey)
  refine ⟨?_, hfits⟩
  simp only [stepFields, List.forall_mem_cons, Option.mem_def, Option.some.injEq, forall_eq']
  refine ⟨hidv, ?_, htext htool, ?_, htext hprompt, htext hcondition, htext hthen, htext helse,
    ?_, ?_, storable_nonEmpty (IpcRequest.valueString_utf8 hu hidv houtput),
    List.forall_mem_nil _⟩
  · exact valid_stepTypeToString _
  · intro v hv
    split_ifs at hv
    obtain rfl := Option.some.inj hv
    exact hargs
  · intro v hv
    split_ifs at hv
    obtain rfl := Option.some.inj hv
    trivial
  · intro v hv
    split_ifs at hv
    obtain rfl := Option.some.inj hv
    obtain ⟨hlo, hhi⟩ := hfits
    rw [Storable, InRange]
    omega

theorem writable_stepsOf {l : List Json} {index : ℕ} {steps : List PipelineStep}
    (hs : ∀ sj ∈ l, Storable readFloat sj) (h : stepsOf truncate l index = .ok steps) :
    ∀ step ∈ steps, Writable readFloat step := by
  induction l generalizing index steps with
  | nil =>
    obtain rfl := Except.ok.inj h
    exact List.forall_mem_nil _
  | cons sj l ih =>
    rw [List.forall_mem_cons] at hs
    unfold stepsOf at h
    obtain ⟨step, hstep, h⟩ := bind_eq_ok.mp h
    obtain ⟨rest, hrest, h⟩ := bind_eq_ok.mp h
    obtain rfl := Except.ok.inj h
    rw [List.forall_mem_cons]
    exact ⟨writable_stepOf hs.1 hstep, ih hs.2 hrest⟩

end Written

section Files

variable {readFloat : Bytes → Option NumberText} {truncate : NumberText → ℤ}

theorem mapM_loadStep {steps : List PipelineStep} (h : ∀ step ∈ steps, Writable readFloat step) :
    (steps.map stepJson).mapM (loadStep truncate) = .ok (steps.map reloadStep) := by
  induction steps with
  | nil => rfl
  | cons step steps ih =>
    rw [List.forall_mem_cons] at h
    rw [List.map_cons, List.mapM_cons, loadStep_stepJson h.1.fits, ih h.2]
    rfl

theorem pipelineMembers_nodup (p : Pipeline) : ((pipelineMembers p).map Prod.fst).Nodup := by
  have hkeys : [bytes "id", bytes "name", bytes "description", bytes "trigger",
    bytes "steps"].Nodup := by decide
  exact hkeys

/-- What is written of a pipeline can be read back. -/
structure PipelineWritable (readFloat : Bytes → Option NumberText) (p : Pipeline) : Prop where
  texts : ∀ s ∈ [p.id, p.name, p.description, p.trigger], Utf8.valid s = true
  steps : ∀ step ∈ p.steps, Writable readFloat step

theorem load_save {p : Pipeline} (h : PipelineWritable readFloat p) :
    ∃ text, savePipeline p = .ok text ∧
      loadPipelineFile readFloat truncate text = .ok (reload p) := by
  have hsteps : Storable readFloat (.arr (p.steps.map stepJson)) := by
    rw [Storable, storableList_iff]
    intro j hj
    obtain ⟨step, hstep, rfl⟩ := List.mem_map.mp hj
    exact storable_stepJson (h.steps step hstep)
  have htexts := h.texts
  simp only [List.forall_mem_cons] at htexts
  obtain ⟨hid, hname, hdescription, htrigger, -⟩ := htexts
  have hs : Storable readFloat (.object (pipelineMembers p)) := by
    apply storable_object
    exact ⟨by decide, hid, by decide, hname, by decide, hdescription, by decide, htrigger,
      by decide, hsteps, trivial⟩
  have hmember : ∀ key {v}, (pipelineMembers p).lookup key = some v →
      (Json.object (pipelineMembers p)).member? key = some v := fun key v hv =>
    (member_object (pipelineMembers_nodup p) key).trans hv
  have hread := readStream_render (whiteLayout_indented 2) hs white_nil
  rw [List.append_nil] at hread
  refine ⟨_, dumpWith_utf8 (indented 2) hs.utf8, ?_⟩
  have hload : (match (Json.object (pipelineMembers p)).member? (bytes "steps") with
      | some (.arr l) => l.mapM (loadStep truncate)
      | _ => pure []) = .ok (p.steps.map reloadStep) := by
    rw [hmember (bytes "steps") rfl]
    exact mapM_loadStep h.steps
  rw [loadPipelineFile]
  refine bind_eq_ok.mpr ⟨_, hread, ?_⟩
  refine bind_eq_ok.mpr ⟨_, valueString_of_member (hmember _ rfl) _, ?_⟩
  refine bind_eq_ok.mpr ⟨_, valueString_of_member (hmember _ rfl) _, ?_⟩
  refine bind_eq_ok.mpr ⟨_, valueString_of_member (hmember _ rfl) _, ?_⟩
  refine bind_eq_ok.mpr ⟨_, valueString_of_member (hmember _ rfl) _, ?_⟩
  exact bind_eq_ok.mpr ⟨_, hload, rfl⟩

theorem valid_generatePipelineId (millis : ℤ) (seq : ℕ) :
    Utf8.valid (generatePipelineId millis seq) = true := by
  have hdigits : ∀ b ∈ bytes "0123456789abcdef", b ≤ 0x7F := Utf8.ascii_of_all (by decide)
  have hhex : ∀ n, ∀ b ∈ hex n, b ≤ 0x7F := fun n b hb => hdigits b (TaskRoundTrip.mem_hex n b hb)
  apply Utf8.valid_ascii
  simp only [generatePipelineId, List.forall_mem_append]
  exact ⟨⟨⟨Utf8.ascii_of_all (by decide), hhex _⟩, Utf8.ascii_of_all (by decide)⟩, hhex _⟩

/-- A definition that is accepted can be written, and read back. -/
theorem writable_createPipeline {millis : ℤ} {seq : ℕ} {definition : Json} {p : Pipeline}
    (hs : Storable readFloat definition)
    (h : createPipeline truncate (generatePipelineId millis seq) definition = .ok (some p)) :
    PipelineWritable readFloat p := by
  have hu := hs.utf8
  unfold createPipeline at h
  obtain ⟨name, hname, h⟩ := bind_eq_ok.mp h
  obtain ⟨description, hdescription, h⟩ := bind_eq_ok.mp h
  obtain ⟨trigger, htrigger, h⟩ := bind_eq_ok.mp h
  have hend : ∀ {steps : List PipelineStep}, (∀ step ∈ steps, Writable readFloat step) →
      (if steps = [] then pure none
        else pure (some ⟨generatePipelineId millis seq, name, description, steps, trigger⟩) :
          Except JsonException (Option Pipeline)) = .ok (some p) →
      PipelineWritable readFloat p := by
    intro steps hsteps he
    split_ifs at he with hempty
    · cases Except.ok.inj he
    · obtain rfl := Option.some.inj (Except.ok.inj he)
      refine ⟨?_, hsteps⟩
      simp only [List.forall_mem_cons]
      exact ⟨valid_generatePipelineId millis seq, IpcRequest.valueString_utf8 hu rfl hname,
        IpcRequest.valueString_utf8 hu rfl hdescription,
        IpcRequest.valueString_utf8 hu (by decide) htrigger, List.forall_mem_nil _⟩
  split_ifs at h with hn
  · cases Except.ok.inj h
  · dsimp only at h
    split at h
    next l hm =>
      obtain ⟨steps, hsteps, h⟩ := bind_eq_ok.mp h
      exact hend (writable_stepsOf (storableList_iff.mp (Storable.member hs hm)) hsteps) h
    next =>
      obtain ⟨steps, hsteps, h⟩ := bind_eq_ok.mp h
      obtain rfl := Except.ok.inj hsteps
      exact hend (List.forall_mem_nil _) h

end Files

section Turns

variable {readFloat : Bytes → Option NumberText} {what : Variables → Json → Bytes} {agent : Agent}
  {p : Pipeline} {step : PipelineStep} {s t : Session}

/-- The step that a session stands at. -/
def At (p : Pipeline) (s : Session) (step : PipelineStep) : Prop :=
  p.steps[s.loop.stepIdx]? = some step

/-- A tool step with an empty object or array. (A call of `value` on an array fails as one on null
does, so that `execute_code` with an array differs only when its retries are over.) -/
def LosesArgs (step : PipelineStep) : Prop :=
  step.type = .tool ∧ (step.args = .obj [] ∨
    step.args = .arr [] ∧ (step.toolName ≠ executeCode ∨ step.maxRetries < 2 ^ 31 - 1))

/-- Retries are counted at a step that has some. -/
def Retrying (p : Pipeline) (s : Session) : Prop :=
  s.loop.retries ≠ 0 → ∃ step, At p s step ∧ step.type ≠ .condition ∧ 0 < step.maxRetries ∧
    (step.maxRetries < 2 ^ 31 - 1 → 0 ≤ s.loop.retries ∧ s.loop.retries ≤ step.maxRetries)

theorem turn_none (h : p.steps[s.loop.stepIdx]? = none) :
    turn readFloat what agent p s = .inr (.ok (finish p s.loop), s.actions) := by
  rw [turn, h]

theorem turn_condition (h : At p s step) (hc : step.type = .condition) :
    turn readFloat what agent p s =
      (conditionStep p step s.loop).map (⟨·, s.actions⟩) (·, s.actions) := by
  rw [At] at h
  rw [turn, h]
  exact if_pos hc

theorem turn_execute (h : At p s step) (hc : step.type ≠ .condition) :
    turn readFloat what agent p s =
      (executeStep readFloat p
        (fun _ => (attemptStep what agent step s.loop.vars s.actions).1) step s.loop).map
        (⟨·, (attemptStep what agent step s.loop.vars s.actions).2⟩)
        (·, (attemptStep what agent step s.loop.vars s.actions).2) := by
  rw [At] at h
  rw [turn, h]
  exact if_neg hc

theorem At.unique {step' : PipelineStep} (h : At p s step) (h' : At p s step') : step = step' :=
  Option.some.inj (h.symm.trans h')

/-- What the retries are at a step. -/
theorem Retrying.cases (hI : Retrying p s) (hs : At p s step) : s.loop.retries = 0 ∨
    step.type ≠ .condition ∧ 0 < step.maxRetries ∧
      (step.maxRetries < 2 ^ 31 - 1 → 0 ≤ s.loop.retries ∧ s.loop.retries ≤ step.maxRetries) := by
  by_cases hr : s.loop.retries = 0
  · exact .inl hr
  · obtain ⟨step', hs', hfacts⟩ := hI hr
    obtain rfl := hs.unique hs'
    exact .inr hfacts

theorem wrap32_succ {i : ℤ} (h : 0 ≤ i) (hlt : i < 2 ^ 31 - 1) : wrap32 (i + 1) = i + 1 :=
  wrap32_of_fits ⟨by omega, by omega⟩

/-- The step lemma. -/
theorem retrying_turn (hI : Retrying p s) (h : turn readFloat what agent p s = .inl t) :
    Retrying p t := by
  cases hs : p.steps[s.loop.stepIdx]? with
  | none =>
    rw [turn_none hs] at h
    cases h
  | some step =>
    by_cases hc : step.type = .condition
    · rw [turn_condition hs hc] at h
      have hzero : s.loop.retries = 0 := (hI.cases hs).resolve_right fun h => h.1 hc
      unfold conditionStep at h
      split at h
      · cases h
      · obtain rfl := Sum.inl.inj h
        exact fun hne => absurd hzero hne
    · rw [turn_execute hs hc] at h
      unfold executeStep at h
      split at h
      · obtain rfl := Sum.inl.inj h
        exact fun hne => absurd rfl hne
      · dsimp only at h
        split_ifs at h with hretry hskip
        · obtain rfl := Sum.inl.inj h
          intro _
          refine ⟨step, hs, hc, ?_, fun hm => ?_⟩
          · rcases hI.cases hs with hzero | ⟨-, hpos, -⟩
            · rw [hzero] at hretry
              exact Int.lt_of_lt_of_le (by decide) hretry
            · exact hpos
          · have hr : 0 ≤ s.loop.retries ∧ s.loop.retries < 2 ^ 31 - 1 := by
              rcases hI.cases hs with hzero | ⟨-, -, hle⟩
              · omega
              · have := hle hm
                omega
            dsimp only
            rw [wrap32_succ hr.1 hr.2] at hretry ⊢
            omega
        · obtain rfl := Sum.inl.inj h
          exact fun hne => absurd rfl hne
        · cases h

theorem at_reload (h : At p s step) : At (reload p) s (reloadStep step) := by
  rw [At] at h
  rw [At, reload, List.getElem?_map, h]
  rfl

theorem finish_reload (p : Pipeline) (l : Loop) : finish (reload p) l = finish p l := by
  simp only [finish, reload, List.length_map]

theorem jump_reload (p : Pipeline) (target : Bytes) (stepIdx : ℕ) :
    jump (reload p).steps target stepIdx = jump p.steps target stepIdx := by
  rw [jump, jump, reload, List.findIdx?_map]
  rfl

theorem conditionStep_reload (p : Pipeline) (step : PipelineStep) (l : Loop) :
    conditionStep (reload p) (reloadStep step) l = conditionStep p step l := by
  simp only [conditionStep, jump_reload]
  rfl

/-- The same attempt comes to the same in both pipelines. -/
theorem executeStep_reload (hI : Retrying p s) (hs : At p s step) (results : ℕ → StepOutcome) :
    executeStep readFloat (reload p) results (reloadStep step) s.loop =
      executeStep readFloat p results step s.loop := by
  have hretry : wrap32 (s.loop.retries + 1) ≤ max 0 step.maxRetries ↔
      wrap32 (s.loop.retries + 1) ≤ step.maxRetries := by
    rcases hI.cases hs with hzero | ⟨-, hpos, -⟩
    · have hone : wrap32 (s.loop.retries + 1) = 1 := by
        rw [hzero]
        decide
      rw [hone]
      omega
    · rw [Int.max_eq_right hpos.le]
  unfold executeStep
  cases results s.loop.attempt with
  | returned result => rfl
  | threw text =>
    dsimp only
    simp only [finish_reload]
    exact if_congr hretry rfl rfl

theorem attemptStep_reload (h : step.type = .tool → isEmpty step.args = true → step.args = .null)
    (vars : Variables) (actions : List Action) :
    attemptStep what agent (reloadStep step) vars actions =
      attemptStep what agent step vars actions := by
  have hargs : step.type = .tool → (reloadStep step).args = step.args := by
    intro ht
    rw [reloadStep]
    split_ifs with he
    · exact (h ht he).symm
    · rfl
  unfold attemptStep
  rw [show (reloadStep step).type = step.type from rfl]
  cases ht : step.type with
  | tool =>
    dsimp only
    rw [hargs ht]
    rfl
  | prompt => rfl
  | condition => rfl

/-- What a tool step without arguments asks, when they are null and when they are empty. -/
theorem attemptStep_null (ht : step.type = .tool) (hargs : step.args = .null) (vars : Variables)
    (actions : List Action) : attemptStep what agent step vars actions =
      if step.toolName = executeCode then
        (.threw (bytes "[json.exception.type_error.306] cannot use value() with null"), actions)
      else ask agent actions (.prompt (toolPrompt step.toolName (bytes "null"))) := by
  rw [attemptStep, ht, hargs]
  rfl

theorem attemptStep_array (ht : step.type = .tool) (hargs : step.args = .arr []) (vars : Variables)
    (actions : List Action) : attemptStep what agent step vars actions =
      if step.toolName = executeCode then
        (.threw (bytes "[json.exception.type_error.306] cannot use value() with array"), actions)
      else ask agent actions (.prompt (toolPrompt step.toolName (bytes "[]"))) := by
  rw [attemptStep, ht, hargs]
  rfl

theorem attemptStep_object (ht : step.type = .tool) (hargs : step.args = .obj [])
    (vars : Variables) (actions : List Action) :
    actions ++ [if step.toolName = executeCode then .createSession []
        else .prompt (toolPrompt step.toolName (bytes "\x7b\x7d"))] <+:
      (attemptStep what agent step vars actions).2 := by
  rw [attemptStep, ht, hargs]
  dsimp only [interpolateJson, interpolateMembers, Except.map]
  split_ifs with hcode
  · have hcodeOf : codeOf (.obj []) = .ok [] := rfl
    rw [hcodeOf]
    dsimp only
    split
    next text later hask =>
      obtain ⟨-, rfl⟩ := Prod.mk.inj hask
      exact List.prefix_rfl
    next result later hask =>
      obtain ⟨-, rfl⟩ := Prod.mk.inj hask
      exact List.prefix_append _ _
  · have hdump : dump (.obj []) = .ok (bytes "\x7b\x7d") := rfl
    rw [hdump]
    exact List.prefix_rfl

/-- Where an array of arguments makes a step fail, it fails as it does without arguments. -/
theorem executeStep_overflow (hm : 2 ^ 31 - 1 ≤ step.maxRetries) (l : Loop) (text text' : Bytes) :
    executeStep readFloat p (fun _ => .threw text) step l =
      executeStep readFloat p (fun _ => .threw text') step l := by
  have hretry : wrap32 (l.retries + 1) ≤ step.maxRetries := by
    have := (fitsInt_wrap32 (l.retries + 1)).2
    omega
  unfold executeStep
  dsimp only
  rw [if_pos hretry, if_pos hretry]

/-- A turn is the same in both pipelines where no arguments are lost. -/
theorem turn_reload (hI : Retrying p s) (h : ∀ step, At p s step → ¬ LosesArgs step) :
    turn readFloat what agent p s = turn readFloat what agent (reload p) s := by
  cases hs : p.steps[s.loop.stepIdx]? with
  | none =>
    have hs' : (reload p).steps[s.loop.stepIdx]? = none := by
      rw [reload, List.getElem?_map, hs]
      rfl
    rw [turn_none hs, turn_none hs', finish_reload]
  | some step =>
    by_cases hc : step.type = .condition
    · rw [turn_condition hs hc, turn_condition (at_reload hs) hc, conditionStep_reload]
    · rw [turn_execute hs hc, turn_execute (at_reload hs) hc, executeStep_reload hI hs]
      by_cases hempty : step.type = .tool → isEmpty step.args = true → step.args = .null
      · rw [attemptStep_reload hempty]
      · push Not at hempty
        obtain ⟨ht, he, hnull⟩ := hempty
        have hlost := h step hs
        -- an array of arguments of `execute_code`, with retries that never are over
        have hcases : step.args = .arr [] ∧ step.toolName = executeCode ∧
            2 ^ 31 - 1 ≤ step.maxRetries := by
          rw [LosesArgs, not_and, not_or, not_and, not_or, not_not, not_lt] at hlost
          obtain ⟨hobj, harr⟩ := hlost ht
          have hargs : step.args = .arr [] := by
            unfold isEmpty at he
            split at he
            next heq => exact absurd heq hnull
            next heq => exact absurd heq hobj
            next heq => exact heq
            next => cases he
          exact ⟨hargs, harr hargs⟩
        obtain ⟨hargs, hcode, hm⟩ := hcases
        have hnullArgs : (reloadStep step).args = .null := by
          rw [reloadStep, he]
          rfl
        rw [attemptStep_array ht hargs, @attemptStep_null what agent (reloadStep step) ht hnullArgs,
          if_pos hcode, if_pos (show (reloadStep step).toolName = executeCode from hcode),
          executeStep_overflow hm]

/-- What has been asked of the agent after a turn. -/
def asked : Session ⊕ (Except JsonException PipelineRunResult × List Action) → List Action
  | .inl t => t.actions
  | .inr r => r.2

theorem asked_turn (h : At p s step) (hc : step.type ≠ .condition) :
    asked (turn readFloat what agent p s) =
      (attemptStep what agent step s.loop.vars s.actions).2 := by
  rw [turn_execute h hc]
  cases executeStep readFloat p
    (fun _ => (attemptStep what agent step s.loop.vars s.actions).1) step s.loop with
  | inl l => rfl
  | inr r => rfl

/-- The step results after a turn. -/
def resultsAfter :
    Session ⊕ (Except JsonException PipelineRunResult × List Action) → List (Bytes × Bytes)
  | .inl t => t.loop.stepResults
  | .inr (.ok r, _) => r.stepResults
  | .inr (.error _, _) => []

theorem turn_retry (h : At p s step) (hc : step.type ≠ .condition) {text : Bytes}
    {actions : List Action}
    (ha : attemptStep what agent step s.loop.vars s.actions = (.threw text, actions))
    (hretry : wrap32 (s.loop.retries + 1) ≤ step.maxRetries) :
    turn readFloat what agent p s = .inl ⟨{ s.loop with
      retries := wrap32 (s.loop.retries + 1), attempt := s.loop.attempt + 1 }, actions⟩ := by
  rw [turn_execute h hc, ha]
  simp only [executeStep, if_pos hretry, Sum.map_inl]

theorem resultsAfter_turn (h : At p s step) (hc : step.type ≠ .condition) {text : Bytes}
    {actions : List Action}
    (ha : attemptStep what agent step s.loop.vars s.actions = (.threw text, actions))
    (hover : ¬ wrap32 (s.loop.retries + 1) ≤ step.maxRetries) :
    resultsAfter (turn readFloat what agent p s) =
      s.loop.stepResults ++ [(step.id, bytes "Error: " ++ text)] := by
  rw [turn_execute h hc, ha]
  simp only [executeStep, if_neg hover]
  cases step.skipOnFailure <;> rfl

/-- `execute_code` with an array of arguments fails with another text, when its retries are over. -/
theorem not_same_array (ht : step.type = .tool) (hargs : step.args = .arr [])
    (hcode : step.toolName = executeCode) (hm : step.maxRetries < 2 ^ 31 - 1)
    (hI : Retrying p s) (hs : At p s step) : ¬ SameFrom readFloat what agent p (reload p) s := by
  intro h
  have hc : step.type ≠ .condition := by
    rw [ht]
    decide
  have hnull : (reloadStep step).args = .null := by
    rw [reloadStep, hargs]
    rfl
  induction hk : (step.maxRetries - s.loop.retries).toNat using Nat.strong_induction_on
    generalizing s with
  | _ k ih =>
    have hp := @attemptStep_array what agent step ht hargs s.loop.vars s.actions
    have hq := @attemptStep_null what agent (reloadStep step) ht hnull s.loop.vars s.actions
    rw [if_pos hcode] at hp
    rw [if_pos (show (reloadStep step).toolName = executeCode from hcode)] at hq
    have hr : 0 ≤ s.loop.retries ∧ s.loop.retries < 2 ^ 31 - 1 := by
      rcases hI.cases hs with hzero | ⟨-, -, hle⟩
      · omega
      · have := hle hm
        omega
    have hnext := wrap32_succ hr.1 hr.2
    by_cases hretry : wrap32 (s.loop.retries + 1) ≤ step.maxRetries
    · have hturn := @turn_retry readFloat what agent p step s hs hc _ _ hp hretry
      refine ih _ ?_ (retrying_turn hI hturn) hs
        (same_after (m := 1) h (after_inl hturn 0)) rfl
      dsimp only
      omega
    · have hover : ¬ wrap32 (s.loop.retries + 1) ≤ (reloadStep step).maxRetries := by
        rw [show (reloadStep step).maxRetries = max 0 step.maxRetries from rfl]
        omega
      have hresults := congrArg resultsAfter (step_eq_of_same h)
      rw [resultsAfter_turn hs hc hp hretry,
        resultsAfter_turn (at_reload hs) hc hq hover] at hresults
      have htexts := List.append_cancel_left hresults
      have htext : bytes "Error: " ++ _ = bytes "Error: " ++ _ :=
        congrArg Prod.snd (List.cons.inj htexts).1
      exact absurd (List.append_cancel_left htext) (by decide)

/-- Where arguments are lost, the runs of the two pipelines are not the same from there. -/
theorem not_same (hI : Retrying p s) (hs : At p s step) (hl : LosesArgs step) :
    ¬ SameFrom readFloat what agent p (reload p) s := by
  obtain ⟨ht, hargs⟩ := hl
  have hc : step.type ≠ .condition := by
    rw [ht]
    decide
  have hnull : (reloadStep step).args = .null := by
    rw [reloadStep]
    rcases hargs with hargs | ⟨hargs, -⟩
    · rw [hargs]
      rfl
    · rw [hargs]
      rfl
  -- what the saved pipeline asks and what the loaded one asks
  have hasked : SameFrom readFloat what agent p (reload p) s →
      (attemptStep what agent step s.loop.vars s.actions).2 =
        (if step.toolName = executeCode then s.actions
          else s.actions ++ [.prompt (toolPrompt step.toolName (bytes "null"))]) := by
    intro h
    rw [← @asked_turn readFloat what agent p step s hs hc, step_eq_of_same h,
      asked_turn (at_reload hs) hc, @attemptStep_null what agent (reloadStep step) ht hnull]
    rw [show (reloadStep step).toolName = step.toolName from rfl]
    split_ifs
    · rfl
    · rfl
  rcases hargs with hargs | ⟨hargs, hcases⟩
  · intro h
    have hprefix := @attemptStep_object what agent step ht hargs s.loop.vars s.actions
    rw [hasked h] at hprefix
    by_cases hcode : step.toolName = executeCode
    · rw [if_pos hcode, if_pos hcode] at hprefix
      have hlength := hprefix.length_le
      rw [List.length_append] at hlength
      exact absurd hlength (by simp)
    · rw [if_neg hcode, if_neg hcode, List.prefix_append_right_inj] at hprefix
      have hlast := (List.cons_prefix_cons.mp hprefix).1
      have htext := List.append_cancel_left (Action.prompt.inj hlast)
      exact absurd htext (by decide)
  · by_cases hcode : step.toolName = executeCode
    · exact not_same_array ht hargs hcode (hcases.resolve_left (not_not_intro hcode)) hI hs
    · intro h
      have harray := hasked h
      rw [attemptStep_array ht hargs, if_neg hcode, if_neg hcode] at harray
      have hlast := List.append_cancel_left harray
      have htext := List.append_cancel_left (Action.prompt.inj (List.cons.inj hlast).1)
      exact absurd htext (by decide)

end Turns

section Persisted

variable {readFloat : Bytes → Option NumberText} {truncate : NumberText → ℤ}

/-- No arguments are lost in a run. -/
def KeepsArgs (readFloat : Bytes → Option NumberText) (what : Variables → Json → Bytes)
    (agent : Agent) (p : Pipeline) (s : Session) : Prop :=
  ∀ n t step, after (turn readFloat what agent p) n s = some t → At p t step → ¬ LosesArgs step

theorem same_iff {what : Variables → Json → Bytes} {agent : Agent} {p : Pipeline} {s : Session}
    (hI : Retrying p s) :
    SameFrom readFloat what agent p (reload p) s ↔ KeepsArgs readFloat what agent p s := by
  constructor
  · intro h n t step ht hat hl
    have hIt : Retrying p t :=
      after_invariant (I := Retrying p) (fun _ _ => retrying_turn) hI ht
    exact not_same hIt hat hl (same_after h ht)
  · intro h
    refine agree (I := fun u => Retrying p u ∧ KeepsArgs readFloat what agent p u) ?_ ?_ ⟨hI, h⟩
    · rintro u v ⟨hu, hkeeps⟩ hturn
      refine ⟨retrying_turn hu hturn, fun n t step ht => ?_⟩
      exact hkeeps (n + 1) t step ((after_inl hturn n).trans ht)
    · rintro u ⟨hu, hkeeps⟩
      exact turn_reload hu fun step => hkeeps 0 u step rfl

/-- A pipeline that was created is loaded from the file it was saved to, and the loaded one runs as
the saved one exactly if the run comes to no tool step with an empty object or array of arguments. -/
theorem persisted_runs_iff {millis : ℤ} {seq : ℕ} {definition : Json} {p : Pipeline}
    (hs : Storable readFloat definition)
    (h : createPipeline truncate (generatePipelineId millis seq) definition = .ok (some p)) :
    ∃ text q, savePipeline p = .ok text ∧ loadPipelineFile readFloat truncate text = .ok q ∧
      ∀ what agent inputVars, SameFrom readFloat what agent p q (begin inputVars) ↔
        KeepsArgs readFloat what agent p (begin inputVars) := by
  obtain ⟨text, hsave, hload⟩ := @load_save readFloat truncate p (writable_createPipeline hs h)
  refine ⟨text, reload p, hsave, hload, fun what agent inputVars => ?_⟩
  exact same_iff fun hne => absurd rfl hne

end Persisted

namespace Counterexample

def noFloat : Bytes → Option NumberText := fun _ => none
def toZero : NumberText → ℤ := fun _ => 0
def ready : Agent := fun _ => .returned (bytes "ok")

def definition (step : Json) : Json := .obj [(bytes "name", .str (bytes "a")),
  (bytes "steps", .arr [step])]

/-- A call of a tool that has no parameters. -/
def toolStep : Json := .obj [(bytes "args", .obj []), (bytes "tool_name", .str (bytes "t"))]

def promptStep : Json := .obj [(bytes "prompt", .str (bytes "hi")), (bytes "type",
  .str (bytes "prompt"))]

/-- The pipeline of one step. -/
def pipeline (step : PipelineStep) : Pipeline :=
  ⟨generatePipelineId 0 0, bytes "a", [], [step], bytes "manual"⟩

def toolOnly : Pipeline := pipeline
  { id := bytes "step_0", toolName := bytes "t", args := .obj [], outputVar := bytes "step_0" }

def promptOnly : Pipeline := pipeline
  { id := bytes "step_0", type := .prompt, prompt := bytes "hi", outputVar := bytes "step_0" }

theorem create_toolOnly : createPipeline toZero (generatePipelineId 0 0) (definition toolStep) =
    .ok (some toolOnly) := rfl

theorem create_promptOnly :
    createPipeline toZero (generatePipelineId 0 0) (definition promptStep) =
      .ok (some promptOnly) := rfl

theorem storable_definition {step : Json} (h : Storable noFloat step) :
    Storable noFloat (definition step) := by
  have hsorted : KeysSorted [(bytes "name", Json.str (bytes "a")), (bytes "steps", .arr [step])] :=
    List.pairwise_pair.mpr (show bytes "name" < bytes "steps" by decide)
  have hname : Utf8.valid (bytes "name") = true ∧ Utf8.valid (bytes "a") = true ∧
      Utf8.valid (bytes "steps") = true := by decide
  exact ⟨hsorted, hname.1, hname.2.1, hname.2.2, ⟨h, trivial⟩, trivial⟩

theorem empty_args_lost : ∃ p text q, Storable noFloat (definition toolStep) ∧
    createPipeline toZero (generatePipelineId 0 0) (definition toolStep) = .ok (some p) ∧
    savePipeline p = .ok text ∧ loadPipelineFile noFloat toZero text = .ok q ∧
    asked (turn noFloat (fun _ _ => []) ready p (begin .null)) =
      [.prompt (bytes "Use the t tool with these arguments: \x7b\x7d")] ∧
    asked (turn noFloat (fun _ _ => []) ready q (begin .null)) =
      [.prompt (bytes "Use the t tool with these arguments: null")] ∧
    ¬ SameFrom noFloat (fun _ _ => []) ready p q (begin .null) := by
  have hstep : Storable noFloat toolStep := by
    have hsorted : KeysSorted [(bytes "args", Json.obj []), (bytes "tool_name", .str (bytes "t"))] :=
      List.pairwise_pair.mpr (by decide)
    have hvalid : Utf8.valid (bytes "args") = true ∧ Utf8.valid (bytes "tool_name") = true ∧
        Utf8.valid (bytes "t") = true := by decide
    exact ⟨hsorted, hvalid.1, ⟨List.Pairwise.nil, trivial⟩, hvalid.2.1, hvalid.2.2, trivial⟩
  have hs := storable_definition hstep
  obtain ⟨text, hsave, hload⟩ := @load_save _ toZero toolOnly
    (writable_createPipeline hs create_toolOnly)
  refine ⟨toolOnly, text, reload toolOnly, hs, create_toolOnly, hsave, hload, rfl, rfl, ?_⟩
  exact not_same (fun hne => absurd rfl hne) rfl ⟨rfl, .inl rfl⟩

theorem prompt_runs : ∃ text q,
    savePipeline promptOnly = .ok text ∧ loadPipelineFile noFloat toZero text = .ok q ∧
    SameFrom noFloat (fun _ _ => []) ready promptOnly q (begin .null) := by
  have hstep : Storable noFloat promptStep := by
    have hsorted : KeysSorted [(bytes "prompt", Json.str (bytes "hi")),
        (bytes "type", .str (bytes "prompt"))] := List.pairwise_pair.mpr (by decide)
    have hvalid : Utf8.valid (bytes "prompt") = true ∧ Utf8.valid (bytes "hi") = true ∧
        Utf8.valid (bytes "type") = true := by decide
    exact ⟨hsorted, hvalid.1, hvalid.2.1, hvalid.2.2, hvalid.1, trivial⟩
  obtain ⟨text, q, hsave, hload, hiff⟩ :=
    persisted_runs_iff (storable_definition hstep) create_promptOnly
  refine ⟨text, q, hsave, hload, (hiff _ _ _).mpr fun n t step _ hat hl => ?_⟩
  obtain rfl := List.mem_singleton.mp (List.mem_of_getElem? hat)
  exact absurd hl.1 (by decide)

end Counterexample

end PipelinePersistence
