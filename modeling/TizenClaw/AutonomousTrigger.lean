import TizenClaw.EventDispatch
import TizenClaw.LlmTypes
import TizenClaw.JsonDump
import TizenClaw.TransitionSystem

/-! The trigger that turns events into prompts of the agent: its rules, its limits, and the sessions
that its prompts run in. -/
namespace AutonomousTrigger

open ByteString JsonValue JsonDump LlmTypes TransitionSystem
open EventDispatch (SystemEvent)

structure EventRule where
  name : Bytes
  eventType : Bytes
  condition : Json := .null
  cooldownMinutes : ℤ := 10
  action : Bytes
  directPrompt : Bytes := []

section Rules

/-- The numbers of the conditions, and the equality of values. -/
structure Values (D : Type) where
  toDouble : Json → Option D
  equal : Json → Json → Bool

variable {D : Type} [LinearOrder D] (v : Values D)

def items : Json → List (Bytes × Json)
  | .obj m => m
  | .arr l => l.mapIdx fun i j => (decimal i, j)
  | .null => []
  | j => [([], j)]

def evalOp (val : Json) (op : Bytes) (expected : Json) : Bool :=
  if op = bytes "$eq" ∧ v.equal val expected = false then false
  else match v.toDouble val, v.toDouble expected with
    | some a, some b =>
      if op = bytes "$lt" then ¬ a ≥ b
      else if op = bytes "$gt" then ¬ a ≤ b
      else if op = bytes "$lte" then ¬ a > b
      else if op = bytes "$gte" then ¬ a < b
      else true
    | _, _ => true

def evalCondition (condition data : Json) : Bool :=
  (items condition).all fun (key, ops) =>
    match data.member? key with
    | none => false
    | some val => match ops with
      | .obj m => m.all fun (op, expected) => evalOp v val op expected
      | _ => v.equal val ops

def matchRule (rule : EventRule) (event : SystemEvent) : Bool :=
  event.name = rule.eventType &&
    (rule.condition.empty || evalCondition v rule.condition event.data)

end Rules

section Limits

/-- When rules were triggered, and the evaluations in the current hour, in minutes. -/
structure Limits where
  lastTrigger : Bytes → Option ℤ
  hourStart : ℤ := 0
  evalCount : ℤ := 0

/-- The configuration of the trigger. -/
structure Config where
  rules : List EventRule
  evalSession : Bytes := bytes "autonomous"
  maxEvalsPerHour : ℤ := 10

def isCoolingDown (cfg : Config) (s : Limits) (now : ℤ) (ruleName : Bytes) : Bool :=
  match s.lastTrigger ruleName with
  | none => false
  | some last =>
    let rule := cfg.rules.find? fun rule => rule.name = ruleName
    now - last < (rule.map EventRule.cooldownMinutes).getD 10

def recordTrigger (s : Limits) (now : ℤ) (ruleName : Bytes) : Limits :=
  { s with lastTrigger := Function.update s.lastTrigger ruleName (some now) }

def checkRateLimit (cfg : Config) (s : Limits) (now : ℤ) : Bool × Limits :=
  let s := if now / 60 ≠ s.hourStart / 60 then { s with hourStart := now, evalCount := 0 } else s
  if s.evalCount ≥ cfg.maxEvalsPerHour then (false, s)
  else (true, { s with evalCount := s.evalCount + 1 })

end Limits

section Prompts

/-- What a thread of the trigger is started for. -/
inductive Job where
  | evaluate (rule : EventRule) (event : SystemEvent)
  | execute (prompt reason : Bytes)

variable {D : Type} [LinearOrder D] (v : Values D) (cfg : Config)

def directText (rule : EventRule) (event : SystemEvent) : Bytes :=
  if rule.directPrompt = [] then
    bytes "Event '" ++ event.name ++ bytes "' occurred. Please respond."
  else rule.directPrompt

def onRule (event : SystemEvent) (now : ℤ) (s : Limits × List Job) (rule : EventRule) :
    Limits × List Job :=
  if matchRule v rule event = false ∨ isCoolingDown cfg s.1 now rule.name = true then s
  else
    let limits := recordTrigger s.1 now rule.name
    if rule.action = bytes "direct" then
      (limits, s.2 ++ [.execute (directText rule event) (bytes "direct_rule:" ++ rule.name)])
    else if rule.action = bytes "evaluate" then
      let (allowed, limits) := checkRateLimit cfg limits now
      (limits, if allowed then s.2 ++ [.evaluate rule event] else s.2)
    else (limits, s.2)

def onEvent (event : SystemEvent) (now : ℤ) (s : Limits) : Limits × List Job :=
  cfg.rules.foldl (onRule v cfg event now) (s, [])

/-- The text of an evaluation. -/
def evalPrompt (rule : EventRule) (event : SystemEvent) (eventJson systemCtx : Bytes) : Bytes :=
  bytes "다음 시스템 이벤트가 발생했습니다.\n\n규칙: " ++ rule.name ++ bytes "\n이벤트: " ++
    event.name ++ bytes "\n데이터: " ++ eventJson ++ bytes "\n\n현재 시스템 상태:\n" ++ systemCtx ++
    bytes "\n\n이 이벤트에 대한 대응이 필요한지 판단하고, 필요하다면 사용자에게 알리거나 적절한 조치를 취해주세요. 불필요하다면 무시해주세요."

/-- The text that a job wants an answer to. The data of an event is dumped outside of the `try`. -/
def Job.text (systemCtx : Bytes) : Job → Except JsonException Bytes
  | .evaluate rule event => (dump event.data).map fun eventJson =>
      evalPrompt rule event eventJson systemCtx
  | .execute prompt _ => .ok prompt

/-- A call of `ProcessPrompt`. -/
structure Call where
  sessionId : Bytes
  prompt : Bytes
  deriving DecidableEq, Repr

/-- `EvaluateWithLlm` and `ExecuteAction`: the arguments as they stand. -/
def callAgent (text : Bytes) : Call := ⟨text, cfg.evalSession⟩

end Prompts

section Runs

abbrev Sessions := Bytes → Option (List LlmMessage)

/-- `ProcessPrompt` on an agent that is initialized: the prompt is added to the session, and what
follows is in that session. -/
def processPrompt (sessions : Sessions) (c : Call) (follow : List LlmMessage → List LlmMessage) :
    Sessions :=
  Function.update sessions c.sessionId
    (some (follow ((sessions c.sessionId).getD [] ++ [userMessage c.prompt])))

/-- The calls are kept with the texts of their jobs. -/
structure State where
  limits : Limits
  jobs : List Job
  sessions : Sessions
  calls : List (Call × Bytes)

/-- The threads of the jobs run in any order. -/
inductive Event where
  | publish (event : SystemEvent) (now : ℤ)
  | run (i : ℕ) (systemCtx : Bytes) (follow : List LlmMessage → List LlmMessage)

variable {D : Type} [LinearOrder D] (v : Values D) (cfg : Config)

/-- A job whose event data is not UTF-8 ends the program. -/
def step (s : State) : Event → Option State
  | .publish event now =>
    let r := onEvent v cfg event now s.limits
    some { s with limits := r.1, jobs := s.jobs ++ r.2 }
  | .run i systemCtx follow => (s.jobs[i]?).bind fun job => match job.text systemCtx with
    | .error _ => none
    | .ok text => some
        { s with
          jobs := s.jobs.eraseIdx i
          sessions := processPrompt s.sessions (callAgent cfg text) follow
          calls := s.calls ++ [(callAgent cfg text, text)] }

/-- The trigger over an agent with these sessions. -/
def triggering (sessions : Sessions) : System State Event where
  Init s := s.sessions = sessions ∧ s.jobs = [] ∧ s.calls = []
  Step s e t := step v cfg s e = some t

/-- Every prompt is the text of its job and runs in the session of the trigger; the other sessions
are as they were. -/
structure Isolated (sessions : Sessions) (s : State) : Prop where
  calls : ∀ c ∈ s.calls, c.1 = ⟨cfg.evalSession, c.2⟩
  others : ∀ k, k ≠ cfg.evalSession → s.sessions k = sessions k

/-- The text of a job that runs is the name of the session of the trigger. -/
def Named (s : State) : Event → Prop
  | .publish _ _ => True
  | .run i systemCtx _ => ∀ job text, s.jobs[i]? = some job → job.text systemCtx = .ok text →
      text = cfg.evalSession

variable {v cfg} {sessions : Sessions} {s t : State} {e : Event}

theorem isolated_step (hI : Isolated cfg sessions s) (h : step v cfg s e = some t) :
    Isolated cfg sessions t ↔ Named cfg s e := by
  cases e with
  | publish event now =>
    obtain rfl := Option.some.inj h
    exact iff_of_true ⟨hI.calls, hI.others⟩ trivial
  | run i systemCtx follow =>
    obtain ⟨job, hjob, h⟩ := Option.bind_eq_some_iff.mp h
    cases htext : job.text systemCtx with
    | error e =>
      rw [htext] at h
      cases h
    | ok text =>
      rw [htext] at h
      obtain rfl := Option.some.inj h
      have hnamed : Named cfg s (.run i systemCtx follow) ↔ text = cfg.evalSession := by
        refine ⟨fun hn => hn job text hjob htext, fun hn job' text' hjob' htext' => ?_⟩
        obtain rfl := Option.some.inj (hjob.symm.trans hjob')
        obtain rfl := Except.ok.inj (htext.symm.trans htext')
        exact hn
      rw [hnamed]
      constructor
      · intro hI'
        have hcall := hI'.calls (callAgent cfg text, text) (by simp)
        exact congrArg Call.sessionId hcall
      · rintro rfl
        refine ⟨fun c hc => ?_, fun k hk => ?_⟩
        · rcases List.mem_append.mp hc with hc | hc
          · exact hI.calls c hc
          · obtain rfl := List.mem_singleton.mp hc
            rfl
        · exact (Function.update_of_ne hk ..).trans (hI.others k hk)

theorem isolated_init (hs : s.sessions = sessions) (hc : s.calls = []) :
    Isolated cfg sessions s where
  calls c hmem := by
    rw [hc] at hmem
    cases hmem
  others k _ := by rw [hs]

/-- The prompts of the trigger are kept to its own session exactly if their texts are nothing but
the name of that session. -/
theorem trigger_isolated_iff {D : Type} [LinearOrder D] (v : Values D) (cfg : Config)
    (sessions : Sessions) {tr : List (State × Event)} {s : State}
    (h : Run (triggering v cfg sessions) tr s) :
    ((∀ x ∈ tr, Isolated cfg sessions x.1) ∧ Isolated cfg sessions s) ↔
      ∀ x ∈ tr, Named cfg x.1 x.2 :=
  h.invariant_iff
    (fun s (hs : s.sessions = sessions ∧ s.jobs = [] ∧ s.calls = []) => isolated_init hs.1 hs.2.2)
    fun _ _ _ hI hstep => isolated_step hI hstep

end Runs

namespace Counterexample

def noNumbers : Values ℤ := ⟨fun _ => none, fun _ _ => false⟩

def rule (directPrompt : Bytes) : EventRule where
  name := bytes "low"
  eventType := bytes "battery.low"
  action := bytes "direct"
  directPrompt := directPrompt

def config (directPrompt : Bytes) : Config where
  rules := [rule directPrompt]

def event : SystemEvent where
  type := .kBatteryChanged
  source := bytes "battery"
  name := bytes "battery.low"
  data := .obj []
  timestamp := 0
  pluginId := bytes "builtin"

def start : State := ⟨⟨fun _ => none, 0, 0⟩, [], fun _ => none, []⟩

/-- The prompt of the rule chooses the session, and the session name is what the agent is asked. -/
theorem prompt_selects_session : ∃ tr s,
    Run (triggering noNumbers (config (bytes "default")) fun _ => none) tr s ∧
    decide (s.sessions (bytes "default") = some [userMessage (bytes "autonomous")]) = true :=
  Run.of_execute (M := triggering noNumbers (config (bytes "default")) fun _ => none) (s := start)
    (fun _ _ _ h => h) ⟨rfl, rfl, rfl⟩ [.publish event 0, .run 0 [] id] _ (by decide)

def runsNamed (s : State) : Event → Bool
  | .publish _ _ => true
  | .run i _ _ => match s.jobs[i]? with
    | some (.execute prompt _) => prompt = bytes "autonomous"
    | _ => false

/-- A rule whose prompt is the name of the session, so that the order does not matter. -/
theorem named_prompt_isolated : ∃ tr s,
    Run (triggering noNumbers (config (bytes "autonomous")) fun _ => none) tr s ∧
    ((∀ x ∈ tr, Isolated (config (bytes "autonomous")) (fun _ => none) x.1) ∧
      Isolated (config (bytes "autonomous")) (fun _ => none) s) ∧ s.calls.length = 1 := by
  obtain ⟨tr, s, h, hp⟩ := Run.of_execute
    (M := triggering noNumbers (config (bytes "autonomous")) fun _ => none) (s := start)
    (fun _ _ _ h => h) ⟨rfl, rfl, rfl⟩ [.publish event 0, .run 0 [] id]
    (fun tr s => tr.all (fun x => runsNamed x.1 x.2) && s.calls.length = 1) (by decide)
  rw [Bool.and_eq_true, List.all_eq_true, decide_eq_true_eq] at hp
  refine ⟨tr, s, h, (trigger_isolated_iff noNumbers (config (bytes "autonomous")) (fun _ => none)
    h).mpr fun x hx => ?_, hp.2⟩
  have hnamed := hp.1 x hx
  obtain ⟨s', e⟩ := x
  cases e with
  | publish event now => trivial
  | run i systemCtx follow =>
    intro job text hjob htext
    rw [runsNamed, hjob] at hnamed
    cases job with
    | evaluate rule event => cases hnamed
    | execute prompt reason =>
      obtain rfl := Except.ok.inj htext
      exact of_decide_eq_true hnamed

end Counterexample

end AutonomousTrigger
