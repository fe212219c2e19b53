import TizenClaw.GateDomination

/-! Sessions the supervisor delegates to a role. The role's tool list and iteration bound are
recorded with the session; the loop reads neither. -/
namespace RoleDelegation

open ByteString JsonValue LlmTypes ToolRouting ToolDispatch ToolExchange AgentMachine
  TransitionSystem

variable {cfg : Config} {readFloat : Bytes → Option NumberText} {start : State}

/-- The role that is to confine a prompt: one with a tool list. -/
def restricting (pr : Prompt) : Option AgentRole :=
  pr.role.filter fun role => role.allowedTools ≠ []

def roleOf (prompts : List Prompt) (p : ℕ) : Option AgentRole := (prompts[p]?).bind restricting

def ToolsConfined (prompts : List Prompt) (tasks : List ToolTask) : Prop :=
  ∀ t ∈ tasks, ∀ name ∈ t.executed, ∀ role ∈ roleOf prompts t.prompt, name ∈ role.allowedTools

def RoundsConfined (prompts : List Prompt) : Prop :=
  ∀ (p : ℕ) (pr : Prompt), prompts[p]? = some pr → ∀ role ∈ restricting pr,
    pr.rounds ≤ role.maxIterations.toNat

/-- Delegated prompts have executed tools of their role's list only, and have gone through no
more iterations than it allows. -/
structure Confined (s : State) : Prop where
  tools : ToolsConfined s.prompts s.tasks
  rounds : RoundsConfined s.prompts

/-- The steps that keep to the role: a call that starts a tool goes to a tool of the list, and
the model is asked again only while the counter of the loop is below the role's bound. -/
def Respects (s : State) : Event → Prop
  | .task i .dispatch => ∀ t, s.tasks[i]? = some t → ∀ role ∈ roleOf s.prompts t.prompt,
      s.shared.router.resolve t.call.name ∈ role.allowedTools
  | .chat p _ => ∀ pr, s.prompts[p]? = some pr → ∀ role ∈ restricting pr,
      (pr.iterations : ℤ) < role.maxIterations
  | _ => True

/-- How counters and records of a task go together. -/
structure Recorded (s : State) : Prop where
  prompt : ∀ t ∈ s.tasks, t.prompt < s.prompts.length
  rounds : ∀ (p : ℕ) (pr : Prompt), s.prompts[p]? = some pr → pr.phase = .asking →
    pr.rounds = pr.iterations
  acting : ∀ (p : ℕ) (pr : Prompt) (ids : List ℕ), s.prompts[p]? = some pr →
    pr.phase = .acting ids → pr.rounds = pr.iterations + 1

/-- A task that has not started a tool has recorded none. -/
def Unstarted (t : ToolTask) : Prop :=
  match t.phase with
  | .running _ _ | .returned _ => True
  | _ => t.executed = none

theorem roleOf_append {prompts more : List Prompt} {p : ℕ} (h : p < prompts.length) :
    roleOf (prompts ++ more) p = roleOf prompts p := by
  simp [roleOf, List.getElem?_append_left h]

theorem roleOf_set {prompts : List Prompt} {p : ℕ} {pr pr' : Prompt}
    (hp : prompts[p]? = some pr) (hr : pr'.role = pr.role) (q : ℕ) :
    roleOf (prompts.set p pr') q = roleOf prompts q := by
  unfold roleOf
  rw [List.getElem?_set]
  split_ifs with hq hl
  · subst hq
    simp [hp, restricting, hr]
  · subst hq
    simp [List.getElem?_eq_none (not_lt.mp hl)]
  · rfl

theorem toolsConfined_congr {prompts prompts' : List Prompt} {tasks : List ToolTask}
    (h : ∀ t ∈ tasks, roleOf prompts' t.prompt = roleOf prompts t.prompt) :
    ToolsConfined prompts' tasks ↔ ToolsConfined prompts tasks :=
  forall₂_congr fun t ht => by rw [h t ht]

theorem toolsConfined_append {prompts : List Prompt} {tasks : List ToolTask} {p : ℕ}
    {session : Bytes} {calls : List LlmToolCall} :
    ToolsConfined prompts (tasks ++ newTasks p session calls) ↔ ToolsConfined prompts tasks := by
  constructor
  · exact fun h t ht => h t (by simp [ht])
  · intro h t ht
    rcases List.mem_append.mp ht with ht | ht
    · exact h t ht
    · obtain ⟨tc, -, rfl⟩ := List.mem_map.mp ht
      simp

theorem toolsConfined_set {prompts : List Prompt} {tasks : List ToolTask} {i : ℕ}
    {t t' : ToolTask} (ht : tasks[i]? = some t) (hp : t'.prompt = t.prompt)
    (he : ∀ name ∈ t.executed, name ∈ t'.executed) :
    ToolsConfined prompts (tasks.set i t') ↔ ToolsConfined prompts tasks ∧
      ∀ name ∈ t'.executed, ∀ role ∈ roleOf prompts t.prompt, name ∈ role.allowedTools := by
  obtain ⟨hi, rfl⟩ := List.getElem?_eq_some_iff.mp ht
  have hself : t' ∈ tasks.set i t' := List.mem_set hi t'
  constructor
  · intro h
    have hnew : ∀ name ∈ t'.executed, ∀ role ∈ roleOf prompts tasks[i].prompt,
        name ∈ role.allowedTools := hp ▸ h t' hself
    refine ⟨fun u hu => ?_, hnew⟩
    obtain ⟨j, hj, rfl⟩ := List.getElem_of_mem hu
    by_cases hji : i = j
    · subst hji
      exact fun name hn => hnew name (he name hn)
    · refine h _ (List.mem_of_getElem? (i := j) ?_)
      rw [List.getElem?_set_ne hji, List.getElem?_eq_getElem hj]
  · rintro ⟨h, hnew⟩ u hu
    rcases List.mem_or_eq_of_mem_set hu with hu | rfl
    · exact h u hu
    · rw [hp]
      exact hnew

theorem roundsConfined_append {prompts : List Prompt} {session : Bytes} {role : Option AgentRole} :
    RoundsConfined (prompts ++ [{ session := session, role := role }]) ↔
      RoundsConfined prompts := by
  constructor
  · intro h p pr hp
    exact h p pr (by rw [List.getElem?_append_left (List.getElem?_eq_some_iff.mp hp).1, hp])
  · intro h p pr hp
    rcases List.mem_append.mp (List.mem_of_getElem? hp) with hm | hm
    · obtain ⟨q, hq⟩ := List.mem_iff_getElem?.mp hm
      exact h q pr hq
    · obtain rfl := List.mem_singleton.mp hm
      exact fun _ _ => Nat.zero_le _

theorem roundsConfined_set {prompts : List Prompt} {p : ℕ} {pr pr' : Prompt}
    (hp : prompts[p]? = some pr) (hr : pr'.role = pr.role) (hle : pr.rounds ≤ pr'.rounds) :
    RoundsConfined (prompts.set p pr') ↔ RoundsConfined prompts ∧
      ∀ role ∈ restricting pr, pr'.rounds ≤ role.maxIterations.toNat := by
  have hlt := (List.getElem?_eq_some_iff.mp hp).1
  have hres : restricting pr' = restricting pr := by simp [restricting, hr]
  constructor
  · intro h
    have hnew := h p pr' (List.getElem?_set_self hlt)
    rw [hres] at hnew
    refine ⟨fun q qr hq => ?_, hnew⟩
    by_cases hpq : p = q
    · subst hpq
      obtain rfl := Option.some.inj (hp.symm.trans hq)
      exact fun role hrole => hle.trans (hnew role hrole)
    · exact h q qr (by rw [List.getElem?_set_ne hpq, hq])
  · rintro ⟨h, hnew⟩ q qr hq
    by_cases hpq : p = q
    · subst hpq
      rw [List.getElem?_set_self hlt] at hq
      obtain rfl := Option.some.inj hq
      rw [hres]
      exact hnew
    · rw [List.getElem?_set_ne hpq] at hq
      exact h q qr hq

theorem roundsConfined_set_same {prompts : List Prompt} {p : ℕ} {pr pr' : Prompt}
    (hp : prompts[p]? = some pr) (hr : pr'.role = pr.role) (he : pr'.rounds = pr.rounds) :
    RoundsConfined (prompts.set p pr') ↔ RoundsConfined prompts := by
  rw [roundsConfined_set hp hr he.ge, and_iff_left_iff_imp]
  intro h
  rw [he]
  exact h p pr hp

theorem finishTool_record {sh : Shared} {t : ToolTask} {resolved : Bytes}
    {outcome : Except ToolException Bytes} :
    (finishTool sh t resolved outcome).2.prompt = t.prompt ∧
      (finishTool sh t resolved outcome).2.executed = t.executed ∧
      Unstarted (finishTool sh t resolved outcome).2 := by
  unfold finishTool
  split
  · split <;> exact ⟨rfl, rfl, trivial⟩
  · exact ⟨rfl, rfl, trivial⟩

/-- The start of a tool records it; no other section touches the record. -/
theorem taskStep_record {sh : Shared} {t : ToolTask} {e : TaskEvent} {x : Shared × ToolTask}
    (h : taskStep cfg sh t e = some x) : x.2.prompt = t.prompt ∧
      (e ≠ .dispatch ∧ x.2.executed = t.executed ∨ ∃ role, e = .dispatch ∧
        t.phase = .admitted role ∧ x.2.executed = some (sh.router.resolve t.call.name)) := by
  cases e with
  | confirm => simp [taskStep] at h
  | dispatch =>
    simp only [taskStep] at h
    split at h
    · rename_i role hp
      obtain rfl := Option.some.inj h
      exact ⟨rfl, .inr ⟨role, rfl, hp, rfl⟩⟩
    · simp at h
  | finish outcome =>
    simp only [taskStep] at h
    split at h
    · obtain rfl := Option.some.inj h
      exact ⟨finishTool_record.1, .inl ⟨by simp, finishTool_record.2.1⟩⟩
    · simp at h
  | findUser =>
    simp only [taskStep] at h
    split at h
    · obtain rfl := Option.some.inj h
      exact ⟨rfl, .inl ⟨by simp, rfl⟩⟩
    · simp at h
  | _ =>
    simp only [taskStep] at h
    split at h
    · obtain rfl := Option.some.inj h
      dsimp only
      split_ifs <;> exact ⟨rfl, .inl ⟨by simp, rfl⟩⟩
    · simp at h

theorem taskStep_unstarted {sh : Shared} {t : ToolTask} {e : TaskEvent} {x : Shared × ToolTask}
    (ht : Unstarted t) (h : taskStep cfg sh t e = some x) : Unstarted x.2 := by
  cases e with
  | confirm => simp [taskStep] at h
  | dispatch =>
    simp only [taskStep] at h
    split at h
    · obtain rfl := Option.some.inj h
      trivial
    · simp at h
  | finish outcome =>
    simp only [taskStep] at h
    split at h
    · obtain rfl := Option.some.inj h
      exact finishTool_record.2.2
    · simp at h
  | findUser =>
    simp only [taskStep] at h
    split at h
    · rename_i hp
      obtain rfl := Option.some.inj h
      simpa only [Unstarted, hp] using ht
    · simp at h
  | _ =>
    simp only [taskStep] at h
    split at h
    · rename_i hp
      obtain rfl := Option.some.inj h
      simp only [Unstarted, hp] at ht
      dsimp only
      split_ifs
      all_goals first | exact ht | trivial
    · simp at h

theorem tasks_unstarted {tr s} (h : Run (agent cfg readFloat start) tr s) :
    ∀ t ∈ s.tasks, Unstarted t :=
  tasks_invariant (fun _ _ _ => rfl) (fun _ _ _ _ ht hx => taskStep_unstarted ht hx) h

theorem recorded_set {s : State} {tasks : List ToolTask} {p : ℕ} {pr pr' : Prompt}
    (hI : Recorded s) (hp : s.prompts[p]? = some pr)
    (ht : ∀ t ∈ tasks, t.prompt < s.prompts.length)
    (ha : pr'.phase = .asking → pr'.rounds = pr'.iterations)
    (hb : ∀ ids, pr'.phase = .acting ids → pr'.rounds = pr'.iterations + 1)
    {t : State} (hprompts : t.prompts = s.prompts.set p pr') (htasks : t.tasks = tasks) :
    Recorded t := by
  have hlt := (List.getElem?_eq_some_iff.mp hp).1
  refine ⟨?_, ?_, ?_⟩
  · rw [hprompts, htasks, List.length_set]
    exact ht
  · intro q qr hq
    rw [hprompts, List.getElem?_set] at hq
    split_ifs at hq with hpq
    · obtain rfl := Option.some.inj hq
      exact ha
    · exact hI.rounds q qr hq
  · intro q qr ids hq
    rw [hprompts, List.getElem?_set] at hq
    split_ifs at hq with hpq
    · obtain rfl := Option.some.inj hq
      exact hb ids
    · exact hI.acting q qr ids hq

theorem recorded_start {s : State} (hI : Recorded s) (session : Bytes) :
    Recorded (startPrompt s session) := by
  have hnew : ∀ (q : ℕ) (qr : Prompt), (startPrompt s session).prompts[q]? = some qr →
      s.prompts[q]? = some qr ∨ qr = { session := session, role := s.delegated session } := by
    intro q qr hq
    rcases lt_or_ge q s.prompts.length with hl | hl
    · exact .inl (by rwa [startPrompt, List.getElem?_append_left hl] at hq)
    · rw [startPrompt, List.getElem?_append_right hl] at hq
      exact .inr (List.mem_singleton.mp (List.mem_of_getElem? hq))
  refine ⟨fun t ht => ?_, fun q qr hq hph => ?_, fun q qr ids hq hph => ?_⟩
  · have := hI.prompt t ht
    simp only [startPrompt, List.length_append, List.length_singleton]
    omega
  · rcases hnew q qr hq with hq | rfl
    · exact hI.rounds q qr hq hph
    · rfl
  · rcases hnew q qr hq with hq | rfl
    · exact hI.acting q qr ids hq hph
    · simp at hph

theorem confined_start {s : State} (hI : Recorded s) (session : Bytes) :
    Confined (startPrompt s session) ↔ Confined s := by
  have ht : ToolsConfined (startPrompt s session).prompts s.tasks ↔
      ToolsConfined s.prompts s.tasks :=
    toolsConfined_congr fun t ht => roleOf_append (hI.prompt t ht)
  have hr : RoundsConfined (startPrompt s session).prompts ↔ RoundsConfined s.prompts :=
    roundsConfined_append
  exact ⟨fun h => ⟨ht.mp h.tools, hr.mp h.rounds⟩, fun h => ⟨ht.mpr h.tools, hr.mpr h.rounds⟩⟩

/-- Changing a prompt but not its role and its rounds changes nothing for the role. -/
theorem confined_set {s t : State} {e : Event} {p : ℕ} {pr pr' : Prompt}
    (hp : s.prompts[p]? = some pr) (hr : pr'.role = pr.role) (he : pr'.rounds = pr.rounds)
    (hprompts : t.prompts = s.prompts.set p pr') (htasks : t.tasks = s.tasks)
    (hresp : Respects s e) : Confined t ↔ Confined s ∧ Respects s e := by
  have hto : ToolsConfined t.prompts t.tasks ↔ ToolsConfined s.prompts s.tasks := by
    rw [hprompts, htasks]
    exact toolsConfined_congr fun u _ => roleOf_set hp hr u.prompt
  have hro : RoundsConfined t.prompts ↔ RoundsConfined s.prompts := by
    rw [hprompts]
    exact roundsConfined_set_same hp hr he
  exact ⟨fun h => ⟨⟨hto.mp h.tools, hro.mp h.rounds⟩, hresp⟩,
    fun h => ⟨hto.mpr h.1.tools, hro.mpr h.1.rounds⟩⟩

/-- A section of a task keeps the state confined exactly when it starts no tool outside the list. -/
theorem confined_task {s t : State} {i : ℕ} {te : TaskEvent} (hu : ∀ u ∈ s.tasks, Unstarted u)
    (h : step cfg readFloat s (.task i te) = some t) :
    (Recorded s → Recorded t) ∧ (Confined t ↔ Confined s ∧ Respects s (.task i te)) := by
  obtain ⟨task, ht, h⟩ := Option.bind_eq_some_iff.mp h
  obtain ⟨x, hx, rfl⟩ := Option.map_eq_some_iff.mp h
  obtain ⟨hp, hrec⟩ := taskStep_record hx
  have hmem := List.mem_of_getElem? ht
  refine ⟨fun hI => ⟨?_, hI.rounds, hI.acting⟩, ?_⟩
  · intro u hu
    rcases List.mem_or_eq_of_mem_set hu with hu | rfl
    · exact hI.prompt u hu
    · rw [hp]
      exact hI.prompt task hmem
  · have hsplit : ToolsConfined s.prompts (s.tasks.set i x.2) ↔
        ToolsConfined s.prompts s.tasks ∧ Respects s (.task i te) := by
      rcases hrec with ⟨hne, he⟩ | ⟨role, rfl, hph, he⟩
      · rw [toolsConfined_set ht hp (by simp [he])]
        have hresp : Respects s (.task i te) := by
          cases te <;> first | exact absurd rfl hne | trivial
        refine ⟨fun h => ⟨h.1, hresp⟩, fun h => ⟨h.1, ?_⟩⟩
        rw [he]
        exact h.1 task hmem
      · have hnone : task.executed = none := by
          have := hu task hmem
          simpa only [Unstarted, hph] using this
        rw [toolsConfined_set ht hp (by simp [hnone])]
        simp [Respects, he, ht]
    exact ⟨fun h => ⟨⟨(hsplit.mp h.tools).1, h.rounds⟩, (hsplit.mp h.tools).2⟩,
      fun h => ⟨hsplit.mpr ⟨h.1.tools, h.2⟩, h.1.rounds⟩⟩

/-- An answer of the model enters one more iteration, and starts tasks without a record. -/
theorem confined_chat {s t : State} {p : ℕ} {calls : List LlmToolCall} (hI : Recorded s)
    (h : step cfg readFloat s (.chat p calls) = some t) :
    Recorded t ∧ (Confined t ↔ Confined s ∧ Respects s (.chat p calls)) := by
  obtain ⟨pr, hp, h⟩ := Option.bind_eq_some_iff.mp h
  split at h
  swap
  · simp at h
  rename_i hph
  have hiter := hI.rounds p pr hp hph
  have hbound : (∀ role ∈ restricting pr, pr.rounds + 1 ≤ role.maxIterations.toNat) ↔
      Respects s (.chat p calls) := by
    simp only [Respects, hp, Option.some.injEq, forall_eq']
    refine forall₂_congr fun role _ => ?_
    omega
  have hlt := (List.getElem?_eq_some_iff.mp hp).1
  have finish : ∀ pr' : Prompt, pr'.role = pr.role → pr'.rounds = pr.rounds + 1 →
      t.prompts = s.prompts.set p pr' →
      (t.tasks = s.tasks ∨ t.tasks = s.tasks ++ newTasks p pr.session calls) →
      (Confined t ↔ Confined s ∧ Respects s (.chat p calls)) := by
    intro pr' hr he hprompts htasks
    have hto : ToolsConfined t.prompts t.tasks ↔ ToolsConfined s.prompts s.tasks := by
      rw [hprompts, toolsConfined_congr fun u _ => roleOf_set hp hr u.prompt]
      rcases htasks with htasks | htasks
      · rw [htasks]
      · rw [htasks]
        exact toolsConfined_append
    have hro : RoundsConfined t.prompts ↔
        RoundsConfined s.prompts ∧ Respects s (.chat p calls) := by
      rw [hprompts, roundsConfined_set hp hr (by omega), he, hbound]
    exact ⟨fun h => ⟨⟨hto.mp h.tools, (hro.mp h.rounds).1⟩, (hro.mp h.rounds).2⟩,
      fun h => ⟨hto.mpr h.1.tools, hro.mpr ⟨h.1.rounds, h.2⟩⟩⟩
  split_ifs at h with hmax hcalls
  · obtain rfl := Option.some.inj h
    refine ⟨recorded_set hI hp hI.prompt ?_ ?_ rfl rfl,
      finish { pr with rounds := pr.rounds + 1, phase := .returned } rfl rfl rfl (.inl rfl)⟩
    · simp
    · simp
  · obtain rfl := Option.some.inj h
    refine ⟨recorded_set hI hp ?_ ?_ ?_ rfl rfl, finish { pr with
      rounds := pr.rounds + 1
      phase := .acting (List.range' s.tasks.length calls.length) } rfl rfl rfl (.inr rfl)⟩
    · intro u hu
      rcases List.mem_append.mp hu with hu | hu
      · exact hI.prompt u hu
      · obtain ⟨tc, -, rfl⟩ := List.mem_map.mp hu
        exact hlt
    · simp
    · intro ids _
      simp only
      omega

theorem confined_step {s t : State} {e : Event} (hI : Recorded s) (hu : ∀ u ∈ s.tasks, Unstarted u)
    (h : step cfg readFloat s e = some t) :
    Recorded t ∧ (Confined t ↔ Confined s ∧ Respects s e) := by
  cases e with
  | task i te => exact (confined_task hu h).imp_left fun hr => hr hI
  | chat p calls => exact confined_chat hI h
  | processPrompt session =>
    obtain rfl := Option.some.inj h
    exact ⟨recorded_start hI session, by simpa [Respects] using confined_start hI session⟩
  | delegateToRole session role =>
    obtain rfl := Option.some.inj h
    have hI' : Recorded { s with delegated := Function.update s.delegated session (some role) } :=
      ⟨hI.prompt, hI.rounds, hI.acting⟩
    refine ⟨recorded_start hI' session, ?_⟩
    rw [confined_start hI' session]
    exact ⟨fun h => ⟨⟨h.tools, h.rounds⟩, trivial⟩, fun h => ⟨h.1.tools, h.1.rounds⟩⟩
  | giveUp p =>
    obtain ⟨pr, hp, h⟩ := Option.bind_eq_some_iff.mp h
    split at h
    · split_ifs at h
      obtain rfl := Option.some.inj h
      have hrole : { pr with phase := .returned }.role = pr.role := rfl
      exact ⟨recorded_set hI hp hI.prompt (by simp) (by simp) rfl rfl,
        confined_set hp hrole rfl rfl rfl trivial⟩
    · simp at h
  | collect p canvas stamp saved =>
    obtain ⟨pr, hp, h⟩ := Option.bind_eq_some_iff.mp h
    split at h
    · rename_i ids hph
      obtain ⟨results, -, rfl⟩ := Option.map_eq_some_iff.mp h
      dsimp only
      generalize (toolRound readFloat canvas stamp pr.session (s.idleHistory pr.session) saved
        results).ending = ending
      have hacting := hI.acting p pr ids hp hph
      have hrole : (afterRound pr ending).role = pr.role := by cases ending <;> rfl
      have hrounds : (afterRound pr ending).rounds = pr.rounds := by cases ending <;> rfl
      refine ⟨recorded_set hI hp hI.prompt ?_ ?_ rfl rfl,
        confined_set hp hrole hrounds rfl rfl trivial⟩
      · cases ending <;> simp [afterRound, hacting]
      · cases ending <;> simp [afterRound]
    · simp at h
  | clearSession session =>
    obtain rfl := Option.some.inj h
    exact ⟨⟨hI.prompt, hI.rounds, hI.acting⟩,
      ⟨fun h => ⟨⟨h.tools, h.rounds⟩, trivial⟩, fun h => ⟨h.1.tools, h.1.rounds⟩⟩⟩
  | registerOverlap lower higher =>
    obtain rfl := Option.some.inj h
    exact ⟨⟨hI.prompt, hI.rounds, hI.acting⟩,
      ⟨fun h => ⟨⟨h.tools, h.rounds⟩, trivial⟩, fun h => ⟨h.1.tools, h.1.rounds⟩⟩⟩

theorem quiet_recorded {s : State} (h : Quiet s) : Recorded s ∧ Confined s := by
  obtain ⟨hp, ht⟩ := h
  exact ⟨⟨by simp [ht], by simp [hp], by simp [hp]⟩,
    ⟨by simp [ToolsConfined, ht], by simp [RoundsConfined, hp]⟩⟩

/-- A run keeps its delegated sessions confined exactly when all of its steps respect the roles. -/
theorem delegation_confined_iff {tr s} (h : Run (agent cfg readFloat start) tr s) :
    Confined s ↔ ∀ x ∈ tr, Respects x.1 x.2 := by
  suffices H : Recorded s ∧ (Confined s ↔ ∀ x ∈ tr, Respects x.1 x.2) from H.2
  induction h with
  | @init s hi =>
    obtain ⟨rfl, hq⟩ := hi
    have hs := quiet_recorded hq
    exact ⟨hs.1, by simpa using hs.2⟩
  | @step tr s e t hr hs ih =>
    obtain ⟨hrec, hiff⟩ := confined_step ih.1 (tasks_unstarted hr) hs
    refine ⟨hrec, ?_⟩
    rw [hiff, ih.2]
    simp [or_imp, forall_and]

namespace Counterexample

open GateDomination.Counterexample

def role (tool : String) (maxIterations : ℤ) : AgentRole where
  name := bytes "researcher"
  systemPrompt := bytes "You search."
  allowedTools := [bytes tool]
  maxIterations := maxIterations

def stamp : SessionMarkdown.Timestamp := ⟨bytes "2026-01-01T00:00:02+0000", by decide⟩

/-- The model asks for the command line once and then answers. -/
def delegation (role : AgentRole) : List Event :=
  [.delegateToRole session role, .chat 0 [⟨bytes "call_1", bytes "execute_cli", .obj []⟩]] ++
  sections 0 ++ [.task 0 (.finish (.ok (bytes "done"))), .collect 0 none stamp [], .chat 0 []]

theorem role_exceeds_list_and_budget :
    ∃ tr s, Run (agent config noFloat plain) tr s ∧ ¬ ToolsConfined s.prompts s.tasks ∧
      ¬ RoundsConfined s.prompts := by
  obtain ⟨tr, s, hr, hp⟩ := exists_run config noFloat plain ⟨rfl, rfl⟩
    (delegation (role "search_knowledge" 1)) (fun r =>
      (r.2.tasks.any fun t => t.executed.any fun name => (roleOf r.2.prompts t.prompt).any
        fun role => name ∉ role.allowedTools) &&
      r.2.prompts.any fun pr => (restricting pr).any fun role =>
        role.maxIterations.toNat < pr.rounds) (by decide +kernel)
  simp only [Bool.and_eq_true, List.any_eq_true, Option.any_eq_true, decide_eq_true_eq] at hp
  obtain ⟨⟨t, ht, name, hn, r, hrole, hout⟩, pr, hpr, r', hrole', hover⟩ := hp
  refine ⟨tr, s, hr, fun h => hout (h t ht name hn r hrole), fun h => ?_⟩
  obtain ⟨p, hp⟩ := List.mem_iff_getElem?.mp hpr
  exact absurd (h p pr hp r' hrole') (not_le.mpr hover)

def respectsB (s : State) : Event → Bool
  | .task i .dispatch => (s.tasks[i]?).all fun t => (roleOf s.prompts t.prompt).all fun role =>
      s.shared.router.resolve t.call.name ∈ role.allowedTools
  | .chat p _ => (s.prompts[p]?).all fun pr => (restricting pr).all fun role =>
      (pr.iterations : ℤ) < role.maxIterations
  | _ => true

theorem respects_of_respectsB {s : State} {e : Event} (h : respectsB s e = true) :
    Respects s e := by
  unfold respectsB at h
  split at h
  · simpa [Respects, Option.all_eq_true] using h
  · simpa [Respects, Option.all_eq_true] using h
  · rename_i hd hc
    cases e with
    | task i te => cases te <;> first | exact absurd rfl (hd i) | trivial
    | chat p calls => exact absurd rfl (hc p calls)
    | _ => trivial

theorem listed_tool_confined :
    ∃ tr s, Run (agent config noFloat plain) tr s ∧ (∃ t ∈ s.tasks, t.executed.isSome) ∧
      Confined s := by
  obtain ⟨tr, s, hr, hp⟩ := exists_run config noFloat plain ⟨rfl, rfl⟩
    (delegation (role "execute_cli" 10)) (fun r =>
      (r.2.tasks.any fun t => t.executed.isSome) && r.1.all fun x => respectsB x.1 x.2)
    (by decide +kernel)
  simp only [Bool.and_eq_true, List.any_eq_true, List.all_eq_true] at hp
  exact ⟨tr, s, hr, hp.1, (delegation_confined_iff hr).mpr fun x hx =>
    respects_of_respectsB (hp.2 x hx)⟩

end Counterexample

end RoleDelegation
