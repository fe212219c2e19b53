import TizenClaw.ToolExchange
import TizenClaw.TransitionSystem

/-! The agent as a machine. Any number of prompts run at once; each asks the model, starts one
task per tool call and collects the results. A task takes its checks one by one, each under
the lock of one component, so other tasks can run between any two of them. -/
namespace AgentMachine

open ByteString JsonValue LlmTypes ToolPolicy ToolRouting SafetyChecks UserProfileStore
  ToolDispatch SessionMarkdown ToolExchange TransitionSystem

structure AgentRole where
  name : Bytes
  systemPrompt : Bytes
  allowedTools : List Bytes
  maxIterations : ℤ := 10

/-- How far a task is. The role is the one the safety guard was asked with. -/
inductive Phase where
  | created
  | policyPassed
  | userFound (userId : Bytes)
  | validated (role : UserRole)
  | admitted (role : UserRole)
  | running (role : UserRole) (resolved : Bytes)
  | returned (result : Except ToolException ToolExecResult)

/-- `executed` is the tool the task has started, if it got that far. -/
structure ToolTask where
  prompt : ℕ
  session : Bytes
  call : LlmToolCall
  phase : Phase := .created
  executed : Option Bytes := none

inductive PromptPhase where
  | asking
  | acting (tasks : List ℕ)
  | returned

/-- `role` is the role the session was delegated to when the prompt came in; `rounds` counts
the iterations entered. -/
structure Prompt where
  session : Bytes
  role : Option AgentRole
  iterations : ℕ := 0
  rounds : ℕ := 0
  phase : PromptPhase := .asking

/-- What the tasks share. -/
structure Shared where
  callHistory : CallHistory
  rateHistory : RateHistory
  sessionUser : SessionUserMap
  router : ToolRouter

structure State where
  shared : Shared
  idleHistory : IdleHistory
  delegated : Bytes → Option AgentRole
  prompts : List Prompt := []
  tasks : List ToolTask := []

/-- `confirm` is the answer of a user to a call that needs confirmation. -/
inductive TaskEvent where
  | checkPolicy
  | findUser
  | validate
  | checkRate (now : ℤ)
  | confirm
  | dispatch
  | finish (outcome : Except ToolException Bytes)

/-- `chat` without calls is a final answer or a failure. -/
inductive Event where
  | processPrompt (session : Bytes)
  | delegateToRole (session : Bytes) (role : AgentRole)
  | chat (prompt : ℕ) (calls : List LlmToolCall)
  | giveUp (prompt : ℕ)
  | task (i : ℕ) (e : TaskEvent)
  | collect (prompt : ℕ) (canvas : Option Canvas) (stamp : Timestamp) (saved : List LlmMessage)
  | clearSession (session : Bytes)
  | registerOverlap (lower higher : Bytes)

section Step

variable (cfg : Config)

def refuse (t : ToolTask) (message : Bytes) : ToolTask :=
  { t with phase := .returned (.ok ⟨t.call.id, t.call.name, errorOutput message⟩) }

/-- The end of a tool. Only `switch_user` changes what the checks read. -/
def finishTool (sh : Shared) (t : ToolTask) (resolved : Bytes)
    (outcome : Except ToolException Bytes) : Shared × ToolTask :=
  let result (outcome : Except ToolException Bytes) : Phase := .returned (outcome.map fun output =>
    ⟨t.call.id, resolved, processOutput t.call.name resolved output⟩)
  if resolved = bytes "switch_user" then
    match switchUser t.call.args with
    | .error e => (sh, { t with phase := result (.error (.json e)) })
    | .ok (output, none) => (sh, { t with phase := result (.ok output) })
    | .ok (output, some user) =>
      ({ sh with sessionUser := bindSession sh.sessionUser t.session user },
        { t with phase := result (.ok output) })
  else (sh, { t with phase := result outcome })

/-- One locked section of a task. No branch asks for a confirmation. -/
def taskStep (sh : Shared) (t : ToolTask) : TaskEvent → Option (Shared × ToolTask)
  | .checkPolicy => match t.phase with
    | .created =>
      let check := checkPolicy cfg.policy cfg.stdHash sh.callHistory t.session t.call.name
        t.call.args
      some ({ sh with callHistory := check.2 },
        if check.1 = [] then { t with phase := .policyPassed } else refuse t check.1)
    | _ => none
  | .findUser => match t.phase with
    | .policyPassed =>
      some (sh, { t with phase := .userFound (getUserIdForSession sh.sessionUser t.session) })
    | _ => none
  | .validate => match t.phase with
    | .userFound userId =>
      let role := (getProfile cfg.profiles userId).role
      let safety := validate cfg.num cfg.guard t.call.name t.call.args role
      some (sh, if safety.allowed then { t with phase := .validated role }
        else refuse t safety.reason)
    | _ => none
  | .checkRate now => match t.phase with
    | .validated role =>
      let check := checkActionRateLimit cfg.guard sh.rateHistory now t.call.name
      some ({ sh with rateHistory := check.2 },
        if check.1 then refuse t (rateText t.call.name) else { t with phase := .admitted role })
    | _ => none
  | .confirm => none
  | .dispatch => match t.phase with
    | .admitted role =>
      let resolved := sh.router.resolve t.call.name
      some (sh, { t with phase := .running role resolved, executed := some resolved })
    | _ => none
  | .finish outcome => match t.phase with
    | .running _ resolved => some (finishTool sh t resolved outcome)
    | _ => none

def startPrompt (s : State) (session : Bytes) : State :=
  { s with
    idleHistory := resetSession s.idleHistory session []
    prompts := s.prompts ++ [{ session := session, role := s.delegated session }] }

def newTasks (p : ℕ) (session : Bytes) (calls : List LlmToolCall) : List ToolTask :=
  calls.map fun tc => { prompt := p, session := session, call := tc }

def returnedResult (t : ToolTask) : Option (Except ToolException ToolExecResult) :=
  match t.phase with
  | .returned result => some result
  | _ => none

/-- The results of a round once all of its tasks have returned. -/
def roundResults (s : State) (ids : List ℕ) :
    Option (List (Except ToolException ToolExecResult)) :=
  ids.mapM fun i => s.tasks[i]?.bind returnedResult

def afterRound (pr : Prompt) : RoundEnd → Prompt
  | .again => { pr with phase := .asking, iterations := pr.iterations + 1 }
  | .idle | .threw _ => { pr with phase := .returned }

def step (readFloat : Bytes → Option NumberText) (s : State) : Event → Option State
  | .processPrompt session => some (startPrompt s session)
  | .delegateToRole session role =>
    some (startPrompt
      { s with delegated := Function.update s.delegated session (some role) } session)
  | .chat p calls => (s.prompts[p]?).bind fun pr => match pr.phase with
    | .asking =>
      if (pr.iterations : ℤ) < cfg.policy.maxIterations then
        let pr := { pr with rounds := pr.rounds + 1 }
        if calls = [] then some { s with prompts := s.prompts.set p { pr with phase := .returned } }
        else
          some { s with
            prompts := s.prompts.set p
              { pr with phase := .acting (List.range' s.tasks.length calls.length) }
            tasks := s.tasks ++ newTasks p pr.session calls }
      else none
    | _ => none
  | .giveUp p => (s.prompts[p]?).bind fun pr => match pr.phase with
    | .asking =>
      if cfg.policy.maxIterations ≤ pr.iterations then
        some { s with prompts := s.prompts.set p { pr with phase := .returned } }
      else none
    | _ => none
  | .task i e => (s.tasks[i]?).bind fun t => (taskStep cfg s.shared t e).map fun x =>
    { s with shared := x.1, tasks := s.tasks.set i x.2 }
  | .collect p canvas stamp saved => (s.prompts[p]?).bind fun pr => match pr.phase with
    | .acting ids => (roundResults s ids).map fun results =>
      let round := toolRound readFloat canvas stamp pr.session (s.idleHistory pr.session) saved
        results
      { s with
        idleHistory := Function.update s.idleHistory pr.session round.idleHistory
        prompts := s.prompts.set p (afterRound pr round.ending) }
    | _ => none
  | .clearSession session =>
    some { s with
      shared := { s.shared with
        callHistory := resetSession s.shared.callHistory session fun _ => 0 }
      idleHistory := resetSession s.idleHistory session [] }
  | .registerOverlap lower higher =>
    some { s with
      shared := { s.shared with router := s.shared.router.registerOverlap lower higher } }

end Step

/-- Nothing runs yet; bindings, router tables and counters are arbitrary. -/
def Quiet (s : State) : Prop := s.prompts = [] ∧ s.tasks = []

/-- The machine started in one state. -/
def agent (cfg : Config) (readFloat : Bytes → Option NumberText) (start : State) :
    System State Event where
  Init s := s = start ∧ Quiet start
  Step s e t := step cfg readFloat s e = some t

variable {cfg : Config} {readFloat : Bytes → Option NumberText} {start : State}

/-- Evaluating the step function finds runs. -/
theorem exists_run (cfg : Config) (readFloat : Bytes → Option NumberText) (start : State)
    (hq : Quiet start) (es : List Event) (p : List (State × Event) × State → Bool)
    (h : (execute (step cfg readFloat) start es).any p = true) :
    ∃ tr s, Run (agent cfg readFloat start) tr s ∧ p (tr, s) = true := by
  obtain ⟨⟨tr, s⟩, he, hp⟩ := (Option.any_eq_true _ _).mp h
  refine ⟨tr, s, ?_, hp⟩
  simpa using Run.execute (M := agent cfg readFloat start) (fun _ _ _ h => h)
    (Run.init ⟨rfl, hq⟩) he

/-- A step moves one task by one of its sections, or adds fresh tasks at most and leaves the
binding of the sessions alone. -/
theorem step_tasks {s t : State} {e : Event} (h : step cfg readFloat s e = some t) :
    (∃ i te task x, e = .task i te ∧ s.tasks[i]? = some task ∧
      taskStep cfg s.shared task te = some x ∧ t.tasks = s.tasks.set i x.2 ∧ t.shared = x.1) ∨
    t.shared.sessionUser = s.shared.sessionUser ∧
      ∃ p session calls, t.tasks = s.tasks ++ newTasks p session calls := by
  have unchanged : ∀ t : State, t.shared.sessionUser = s.shared.sessionUser →
      t.tasks = s.tasks → t.shared.sessionUser = s.shared.sessionUser ∧
        ∃ p session calls, t.tasks = s.tasks ++ newTasks p session calls :=
    fun t hu ht => ⟨hu, 0, [], [], by simpa [newTasks] using ht⟩
  cases e with
  | task i te =>
    obtain ⟨task, ht, h⟩ := Option.bind_eq_some_iff.mp h
    obtain ⟨x, hx, rfl⟩ := Option.map_eq_some_iff.mp h
    exact .inl ⟨i, te, task, x, rfl, ht, hx, rfl, rfl⟩
  | processPrompt session =>
    obtain rfl := Option.some.inj h
    exact .inr (unchanged _ rfl rfl)
  | delegateToRole session role =>
    obtain rfl := Option.some.inj h
    exact .inr (unchanged _ rfl rfl)
  | clearSession session =>
    obtain rfl := Option.some.inj h
    exact .inr (unchanged _ rfl rfl)
  | registerOverlap lower higher =>
    obtain rfl := Option.some.inj h
    exact .inr (unchanged _ rfl rfl)
  | chat p calls =>
    obtain ⟨pr, -, h⟩ := Option.bind_eq_some_iff.mp h
    split at h
    · split_ifs at h
      · obtain rfl := Option.some.inj h
        exact .inr (unchanged _ rfl rfl)
      · obtain rfl := Option.some.inj h
        exact .inr ⟨rfl, p, pr.session, calls, rfl⟩
    · simp at h
  | giveUp p =>
    obtain ⟨pr, -, h⟩ := Option.bind_eq_some_iff.mp h
    split at h
    · split_ifs at h
      obtain rfl := Option.some.inj h
      exact .inr (unchanged _ rfl rfl)
    · simp at h
  | collect p canvas stamp saved =>
    obtain ⟨pr, -, h⟩ := Option.bind_eq_some_iff.mp h
    split at h
    · obtain ⟨results, -, rfl⟩ := Option.map_eq_some_iff.mp h
      exact .inr (unchanged _ rfl rfl)
    · simp at h

/-- What holds of a fresh task and is kept by every section holds of all tasks of a run. -/
theorem tasks_invariant {P : ToolTask → Prop}
    (hnew : ∀ p session tc, P { prompt := p, session := session, call := tc })
    (hstep : ∀ sh task e x, P task → taskStep cfg sh task e = some x → P x.2)
    {tr s} (h : Run (agent cfg readFloat start) tr s) : ∀ t ∈ s.tasks, P t := by
  refine h.invariant (I := fun s => ∀ t ∈ s.tasks, P t) ?_ ?_
  · rintro s ⟨rfl, -, ht⟩
    simp [ht]
  · intro s e t hI hs
    rcases step_tasks hs with ⟨i, te, task, x, -, ht, hx, he, -⟩ | ⟨-, p, session, calls, he⟩
    · rw [he]
      intro u hu
      rcases List.mem_or_eq_of_mem_set hu with hu | rfl
      · exact hI u hu
      · exact hstep s.shared task te x (hI task (List.mem_of_getElem? ht)) hx
    · rw [he]
      intro task htask
      rcases List.mem_append.mp htask with htask | htask
      · exact hI task htask
      · obtain ⟨tc, -, rfl⟩ := List.mem_map.mp htask
        exact hnew p session tc

end AgentMachine
