import TizenClaw.AgentFactory
import TizenClaw.TransitionSystem

/-! The roles that a restart loads, after any number of spawned and removed agents, against the roles
that should be there: those of the file at first, and those spawned to persist and not removed. -/
namespace RolePersistence

open ByteString JsonValue JsonDump JsonParse JsonRoundTrip JsonStorable OrderedMap AgentMachine
  AgentFactory TransitionSystem
open PipelineExecutor (getInt)

section Model

/-- `expected` is kept for the statements only. -/
structure State where
  factory : Factory
  expected : Roles

inductive Event where
  | spawn (args : Json) (now : ℤ)
  | remove (name : Bytes)
  | restart

variable (readFloat : Bytes → Option NumberText) (truncate : NumberText → ℤ)

def State.ofFile (file : Option Bytes) : State where
  factory := start readFloat truncate file
  expected := (start readFloat truncate file).roles

/-- The roles that should be loaded from now on. -/
def expect (s : State) : Event → Roles
  | .spawn args _ => match accept truncate s.factory args with
    | .ok (.ok r) => if r.persistent then s.expected.insert r.role.name r.role else s.expected
    | _ => s.expected
  | .remove name =>
    if s.factory.dynamic.contains name then s.expected.erase name else s.expected
  | .restart => s.expected

def act (f : Factory) : Event → Factory
  | .spawn args now => (spawnAgent readFloat truncate f args now).1
  | .remove name => (removeAgent f name).1
  | .restart => start readFloat truncate f.file

def step (s : State) (e : Event) : State where
  factory := act readFloat truncate s.factory e
  expected := expect truncate s e

def daemon : System State Event where
  Init s := ∃ file, s = State.ofFile readFloat truncate file
  Step s e t := step readFloat truncate s e = t

/-- The roles loaded by a restart are those that should be there. -/
def Kept (s : State) : Prop :=
  ∀ name, (start readFloat truncate s.factory.file).roles.get name = s.expected.get name

/-- The list of `agents` that an agent is added to; a missing one is empty. -/
def agentsOf (config : Json) : Option (List Json) :=
  match config.member? (bytes "agents") with
  | none | some .null => some []
  | some (.arr l) => some l
  | some _ => none

def HasRoles (config : Json) : Prop := ∃ l, config.member? (bytes "roles") = some (.arr l)

/-- An agent that is added to the file will be loaded: the file is an object, or null, without a list
of `roles`, and with `agents`, if any, that are loaded to the end. -/
def Extensible (config : Json) : Prop :=
  (config = .null ∨ ∃ m, config = .obj m) ∧ ¬ HasRoles config ∧
    ∃ l, agentsOf config = some l ∧ (loadEntries truncate .empty l).2 = true

def Extends (file : Option Bytes) : Prop :=
  ∃ content ∈ file, ∃ config, readStream readFloat content = .ok config ∧
    Extensible truncate config

/-- A role that is to persist has the ten iterations that are not written, and goes to a file it will
be loaded from; no role that should persist is removed. -/
def Permitted (s : State) : Event → Prop
  | .spawn args _ => ∀ r, accept truncate s.factory args = .ok (.ok r) → r.persistent = true →
    r.role.maxIterations = 10 ∧ (roleJson r.role).utf8 = true ∧
      Extends readFloat truncate s.factory.file
  | .remove name => s.factory.dynamic.contains name = true → s.expected.get name = none
  | .restart => True

end Model

variable {readFloat : Bytes → Option NumberText} {truncate : NumberText → ℤ}

section Written

theorem roleMembers_nodup (role : AgentRole) : ((roleMembers role).map Prod.fst).Nodup := by
  have hkeys : [bytes "name", bytes "type", bytes "description", bytes "system_prompt",
    bytes "tools", bytes "auto_start"].Nodup := by decide
  exact hkeys

theorem roleJson_member (role : AgentRole) (key : Bytes) :
    (roleJson role).member? key = (roleMembers role).lookup key :=
  member_object (roleMembers_nodup role) key

theorem mapM_getString (l : List Bytes) : (l.map Json.str).mapM Json.getString = .ok l := by
  induction l with
  | nil => rfl
  | cons s l ih =>
    rw [List.map_cons, List.mapM_cons, ih]
    rfl

/-- A written role is read back, with the iterations that are the default. -/
theorem readRole_roleJson (role : AgentRole) :
    readRole truncate (roleJson role) = .ok { role with maxIterations := 10 } := by
  have hname : (roleJson role).member? (bytes "name") = some (.str role.name) := by
    rw [roleJson_member]
    rfl
  have hprompt : (roleJson role).member? (bytes "system_prompt") =
      some (.str role.systemPrompt) := by
    rw [roleJson_member]
    rfl
  have htools : (roleJson role).member? (bytes "tools") =
      some (.arr (role.allowedTools.map .str)) := by
    rw [roleJson_member]
    rfl
  have hallowed : (roleJson role).member? (bytes "allowed_tools") = none := by
    rw [roleJson_member]
    rfl
  have hmax : (roleJson role).value (getInt truncate) (bytes "max_iterations") 10 = .ok 10 := by
    have hmissing : (roleJson role).member? (bytes "max_iterations") = none := by
      rw [roleJson_member]
      rfl
    rw [roleJson, Json.object, Json.member?] at hmissing
    rw [roleJson, Json.object, Json.value, hmissing]
  have hread : readTools (roleJson role) = .ok role.allowedTools := by
    rw [readTools]
    simp only [Json.contains, hallowed, htools, Option.isSome_none, Option.isSome_some, and_self,
      if_pos, mapM_getString]
  rw [readRole, valueString_of_member hname, valueString_of_member hprompt, hmax, hread]
  rfl

theorem loadEntries_append (roles : Roles) (l l' : List Json) :
    loadEntries truncate roles (l ++ l') =
      if (loadEntries truncate roles l).2 = true then
        loadEntries truncate (loadEntries truncate roles l).1 l'
      else loadEntries truncate roles l := by
  induction l generalizing roles with
  | nil => rfl
  | cons j l ih =>
    rw [List.cons_append, loadEntries, loadEntries]
    cases readRole truncate j with
    | error e => rfl
    | ok role => exact ih (enter roles role)

end Written

section Added

variable {role : AgentRole} {config config' : Json}

def loaded (truncate : NumberText → ℤ) (config : Json) : Roles :=
  match rolesArray config with
  | none => .empty
  | some l => (loadEntries truncate .empty l).1

theorem loaded_roles {l : List Json} (h : config.member? (bytes "roles") = some (.arr l)) :
    loaded truncate config = (loadEntries truncate .empty l).1 := by
  rw [loaded, rolesArray, h]

theorem loaded_agents (h : ¬ HasRoles config) {l : List Json} (hl : agentsOf config = some l) :
    loaded truncate config = (loadEntries truncate .empty l).1 := by
  have hroles : ∀ l, config.member? (bytes "roles") ≠ some (.arr l) := fun l he => h ⟨l, he⟩
  have harray : ∀ l, config.member? (bytes "agents") = some (.arr l) →
      rolesArray config = some l := by
    intro l he
    rw [rolesArray]
    split
    next he' => exact absurd he' (hroles _)
    next he' _ =>
      rw [he] at he'
      exact congrArg some (Json.arr.inj (Option.some.inj he')).symm
    next hno => exact (hno l he).elim
  have hnone : (∀ l, config.member? (bytes "agents") ≠ some (.arr l)) →
      rolesArray config = none := by
    intro he
    rw [rolesArray]
    split
    next he' => exact absurd he' (hroles _)
    next he' _ => exact absurd he' (he _)
    next => rfl
  unfold agentsOf at hl
  split at hl
  next he =>
    obtain rfl := Option.some.inj hl
    rw [loaded, hnone fun l hm => by rw [he] at hm; cases hm]
    rfl
  next he =>
    obtain rfl := Option.some.inj hl
    rw [loaded, hnone fun l hm => by rw [he] at hm; cases hm]
    rfl
  next he =>
    obtain rfl := Option.some.inj hl
    rw [loaded, harray _ he]
  next => cases hl

theorem pushBack_agents (config v : Json) :
    (∃ l, agentsOf config = some l ∧
      pushBack v ((config.member? (bytes "agents")).getD (.arr [])) = .ok (.arr (l ++ [v]))) ∨
    (∃ e, agentsOf config = none ∧
      pushBack v ((config.member? (bytes "agents")).getD (.arr [])) = .error e) := by
  unfold agentsOf
  cases h : config.member? (bytes "agents") with
  | none => exact .inl ⟨[], rfl, rfl⟩
  | some agents =>
    cases agents with
    | null => exact .inl ⟨[], rfl, rfl⟩
    | arr l => exact .inl ⟨l, rfl, rfl⟩
    | _ => exact .inr ⟨_, rfl, rfl⟩

/-- What an agent has been added to, and the members then. -/
theorem addAgent_ok (h : addAgent role config = .ok config') :
    (config = .null ∨ ∃ m, config = .obj m) ∧ ∃ m l, agentsOf config = some l ∧
      (∀ k, config.member? k = m.lookup k) ∧
      (∀ readFloat, Storable readFloat config → Storable readFloat (.obj m)) ∧
      config' = .obj (insertMember (bytes "agents") (.arr (l ++ [roleJson role])) m) := by
  rcases pushBack_agents config (roleJson role) with ⟨l, hl, hpush⟩ | ⟨e, -, hpush⟩
  · rw [addAgent, hpush] at h
    rcases assign_cases (bytes "agents") (.arr (l ++ [roleJson role]))
      config with ⟨m, hset, hm, hs⟩ | ⟨⟨e, he⟩, -⟩
    · obtain rfl := Except.ok.inj (hset.symm.trans h)
      refine ⟨?_, m, l, hl, hm, hs, rfl⟩
      cases config with
      | null => exact .inl rfl
      | obj m => exact .inr ⟨m, rfl⟩
      | _ => cases hset
    · cases he.symm.trans h
  · rw [addAgent, hpush] at h
    cases h

theorem addAgent_of_extensible (role : AgentRole) (h : Extensible truncate config) :
    ∃ config', addAgent role config = .ok config' := by
  obtain ⟨hobject, -, l, hl, -⟩ := h
  rcases pushBack_agents config (roleJson role) with ⟨l', -, hpush⟩ | ⟨e, hnone, -⟩
  · rw [addAgent, hpush]
    rcases hobject with rfl | ⟨m, rfl⟩
    · exact ⟨_, rfl⟩
    · exact ⟨_, rfl⟩
  · rw [hnone] at hl
    cases hl

variable (truncate) in
/-- A role is loaded from the file it was added to, behind all others, or it changes nothing. -/
theorem loaded_addAgent (h : addAgent role config = .ok config') :
    (Extensible truncate config ∧ loaded truncate config' =
      enter (loaded truncate config) { role with maxIterations := 10 }) ∨
    (¬ Extensible truncate config ∧ loaded truncate config' = loaded truncate config) := by
  obtain ⟨hobject, m, l, hl, hm, -, rfl⟩ := addAgent_ok h
  have hne : bytes "roles" ≠ bytes "agents" := by decide
  have hroles : Json.member? (bytes "roles")
      (.obj (insertMember (bytes "agents") (.arr (l ++ [roleJson role])) m)) =
        config.member? (bytes "roles") := by
    rw [hm, Json.member?, lookup_insertMember, if_neg hne]
  by_cases hr : HasRoles config
  · obtain ⟨lr, hlr⟩ := hr
    right
    refine ⟨fun hx => hx.2.1 ⟨lr, hlr⟩, ?_⟩
    rw [loaded_roles (hroles.trans hlr), loaded_roles hlr]
  · have hagents : agentsOf (.obj (insertMember (bytes "agents") (.arr (l ++ [roleJson role])) m)) =
        some (l ++ [roleJson role]) := by
      rw [agentsOf, Json.member?, lookup_insertMember, if_pos rfl]
    have hr' : ¬ HasRoles (.obj (insertMember (bytes "agents") (.arr (l ++ [roleJson role])) m)) := by
      rintro ⟨lr, hlr⟩
      exact hr ⟨lr, hroles.symm.trans hlr⟩
    rw [loaded_agents hr' hagents, loaded_agents hr hl, loadEntries_append]
    by_cases hend : (loadEntries truncate .empty l).2 = true
    · left
      refine ⟨⟨hobject, hr, l, hl, hend⟩, ?_⟩
      rw [if_pos hend, loadEntries, readRole_roleJson]
      rfl
    · right
      rw [if_neg hend]
      refine ⟨?_, rfl⟩
      rintro ⟨-, -, l', hl', hend'⟩
      obtain rfl := Option.some.inj (hl.symm.trans hl')
      exact hend hend'

theorem storable_roleJson (h : (roleJson role).utf8 = true) :
    Storable readFloat (roleJson role) := by
  rw [roleJson, utf8_object _ rfl (roleMembers_nodup role)] at h
  simp only [roleMembers, utf8Members, Json.utf8, Bool.and_eq_true, utf8List_iff] at h
  have htools : ∀ j ∈ role.allowedTools.map Json.str, Storable readFloat j := by
    intro j hj
    have hu := h.2.2.2.2.1.2 j hj
    obtain ⟨t, -, rfl⟩ := List.mem_map.mp hj
    exact hu
  apply storable_object
  simp only [roleMembers, StorableMembers, Storable, storableList_iff]
  tauto

/-- What a file of storable values becomes can be written exactly if the role can. -/
theorem addAgent_storable (hs : Storable readFloat config)
    (h : addAgent role config = .ok config') :
    ((roleJson role).utf8 = true → Storable readFloat config') ∧
      (config'.utf8 = true → (roleJson role).utf8 = true) := by
  obtain ⟨-, m, l, hl, hm, hstore, rfl⟩ := addAgent_ok h
  have hlist : ∀ j ∈ l, Storable readFloat j := by
    unfold agentsOf at hl
    split at hl
    next =>
      obtain rfl := Option.some.inj hl
      exact List.forall_mem_nil _
    next =>
      obtain rfl := Option.some.inj hl
      exact List.forall_mem_nil _
    next he =>
      obtain rfl := Option.some.inj hl
      exact storableList_iff.mp (Storable.member hs he)
    next => cases hl
  constructor
  · intro hrole
    apply storable_insert (by decide) _ (hstore readFloat hs)
    apply storableList_iff.mpr
    intro j hj
    rcases List.mem_append.mp hj with hj | hj
    · exact hlist j hj
    · obtain rfl := List.mem_singleton.mp hj
      exact storable_roleJson hrole
  · intro hu
    have hmember : (insertMember (bytes "agents") (.arr (l ++ [roleJson role])) m).lookup
        (bytes "agents") = some (.arr (l ++ [roleJson role])) := by
      rw [lookup_insertMember, if_pos rfl]
    have hagents := utf8_of_mem hu _ (mem_of_lookup hmember)
    exact (utf8List_iff _).mp hagents _ (List.mem_append_right l List.mem_cons_self)

end Added

section Persisted

variable {role : AgentRole} {file : Option Bytes}

/-- The roles that a file has for a restart. -/
def fileRoles (readFloat : Bytes → Option NumberText) (truncate : NumberText → ℤ)
    (file : Option Bytes) : Roles := (loadRoles readFloat truncate .empty file).1

theorem fileRoles_ok {content : Bytes} {config : Json}
    (h : readStream readFloat content = .ok config) :
    fileRoles readFloat truncate (some content) = loaded truncate config := by
  rw [fileRoles, loadRoles, loaded]
  simp only [h]
  cases rolesArray config <;> rfl

theorem fileRoles_error {content : Bytes} {e : JsonException}
    (h : readStream readFloat content = .error e) :
    fileRoles readFloat truncate (some content) = .empty := by
  rw [fileRoles, loadRoles]
  simp only [h]

/-- The file with a further agent is read back as it was written. -/
theorem readStream_added (hf : ReadsBack readFloat) {content : Bytes} {config config' : Json}
    (hread : readStream readFloat content = .ok config) (hadd : addAgent role config = .ok config')
    (hrole : (roleJson role).utf8 = true) : ∃ text, dumpIndent 2 config' = .ok text ∧
      readStream readFloat text = .ok config' := by
  have hs := (addAgent_storable (storable_readStream hf hread) hadd).1 hrole
  obtain ⟨-, m, l, -, -, -, rfl⟩ := addAgent_ok hadd
  refine ⟨_, dumpWith_utf8 (indented 2) hs.utf8, ?_⟩
  have hback := readStream_render (whiteLayout_indented 2) hs white_nil
  rwa [List.append_nil] at hback

/-- A role that is written to a file that can be extended is loaded, and no other is lost. -/
theorem fileRoles_persisted (hf : ReadsBack readFloat) (hrole : (roleJson role).utf8 = true)
    (h : Extends readFloat truncate file) :
    fileRoles readFloat truncate (persistRole readFloat role file).1 =
      enter (fileRoles readFloat truncate file) { role with maxIterations := 10 } := by
  obtain ⟨content, hfile, config, hread, hx⟩ := h
  obtain rfl : file = some content := hfile
  obtain ⟨config', hadd⟩ := addAgent_of_extensible role hx
  obtain ⟨text, hdump, hback⟩ := readStream_added hf hread hadd hrole
  have hnew : (persistRole readFloat role (some content)).1 = some text := by
    simp only [persistRole, hread, hadd, hdump]
  rw [hnew, fileRoles_ok hback, fileRoles_ok hread]
  rcases loaded_addAgent truncate hadd with ⟨-, hl⟩ | ⟨hno, -⟩
  · exact hl
  · exact absurd hx hno

/-- In any other case the file has the roles it had, or it is lost. -/
theorem fileRoles_not_persisted (hf : ReadsBack readFloat)
    (h : ¬ ((roleJson role).utf8 = true ∧ Extends readFloat truncate file)) :
    fileRoles readFloat truncate (persistRole readFloat role file).1 =
        fileRoles readFloat truncate file ∨
      fileRoles readFloat truncate (persistRole readFloat role file).1 = .empty := by
  cases file with
  | none => exact .inl rfl
  | some content =>
    cases hread : readStream readFloat content with
    | error e =>
      left
      simp only [persistRole, hread]
    | ok config =>
      cases hadd : addAgent role config with
      | error e =>
        left
        simp only [persistRole, hread, hadd]
      | ok config' =>
        by_cases hrole : (roleJson role).utf8 = true
        · obtain ⟨text, hdump, hback⟩ := readStream_added hf hread hadd hrole
          left
          have hnew : (persistRole readFloat role (some content)).1 = some text := by
            simp only [persistRole, hread, hadd, hdump]
          rw [hnew, fileRoles_ok hback, fileRoles_ok hread]
          rcases loaded_addAgent truncate hadd with ⟨hx, -⟩ | ⟨-, hl⟩
          · exact absurd ⟨hrole, content, rfl, config, hread, hx⟩ h
          · exact hl
        · right
          have hu : ¬ config'.utf8 = true := fun hu =>
            hrole ((addAgent_storable (storable_readStream hf hread) hadd).2 hu)
          have hnew : (persistRole readFloat role (some content)).1 = some [] := by
            simp only [persistRole, hread, hadd, dumpIndent, dumpWith, if_neg hu]
          rw [hnew]
          exact fileRoles_error rfl

end Persisted

section Runs

variable {s : State} {args : Json} {r : SpawnRequest}

theorem step_spawned (h : accept truncate s.factory args = .ok (.ok r)) (now : ℤ) :
    step readFloat truncate s (.spawn args now) =
      ⟨⟨s.factory.roles.insert r.role.name r.role, s.factory.dynamic.insert r.role.name r.role,
        if r.persistent then (persistRole readFloat r.role s.factory.file).1
        else s.factory.file⟩,
      if r.persistent then s.expected.insert r.role.name r.role else s.expected⟩ := by
  simp only [step, act, expect, spawnAgent, h]
  cases r.persistent <;> rfl

theorem step_refused (h : ∀ r, accept truncate s.factory args ≠ .ok (.ok r)) (now : ℤ) :
    step readFloat truncate s (.spawn args now) = s := by
  have hact : act readFloat truncate s.factory (.spawn args now) = s.factory := by
    rw [act, spawnAgent]
    split
    next => rfl
    next => rfl
    next r hr => exact absurd hr (h r)
  have hexpect : expect truncate s (.spawn args now) = s.expected := by
    rw [expect]
    split
    next r hr => exact absurd hr (h r)
    next => rfl
  rw [step, hact, hexpect]

/-- All roles but the spawned ones are those that should be there. -/
def Agree (s : State) : Prop := ∀ name, s.factory.dynamic.get name = none →
  s.factory.roles.get name = s.expected.get name

theorem agree_step (hk : Kept readFloat truncate s) (ha : Agree s) (e : Event) :
    Agree (step readFloat truncate s e) := by
  cases e with
  | spawn args now =>
    by_cases h : ∃ r, accept truncate s.factory args = .ok (.ok r)
    · obtain ⟨r, hr⟩ := h
      rw [step_spawned hr]
      intro name hname
      by_cases heq : name = r.role.name
      · rw [heq, Map.get_insert_self] at hname
        cases hname
      · dsimp only at hname ⊢
        rw [Map.get_insert_other heq] at hname
        rw [Map.get_insert_other heq, ha name hname]
        cases r.persistent with
        | true => exact (Map.get_insert_other heq _ _).symm
        | false => rfl
    · rw [step_refused (not_exists.mp h)]
      exact ha
  | remove name =>
    by_cases h : s.factory.dynamic.contains name = true
    · intro other hother
      simp only [step, act, expect, removeAgent, if_pos h] at hother ⊢
      by_cases heq : other = name
      · rw [heq, Map.get_erase_self, Map.get_erase_self]
      · rw [Map.get_erase_other heq] at hother
        rw [Map.get_erase_other heq, Map.get_erase_other heq, ha other hother]
    · intro other hother
      simp only [step, act, expect, removeAgent, if_neg h] at hother ⊢
      exact ha other hother
  | restart => exact fun name _ => hk name

/-- A role that was spawned to persist is the one that is loaded, or it is not loaded. -/
theorem kept_spawned (hf : ReadsBack readFloat) (hk : Kept readFloat truncate s) (ha : Agree s)
    (h : accept truncate s.factory args = .ok (.ok r)) (hp : r.persistent = true) (now : ℤ) :
    Kept readFloat truncate (step readFloat truncate s (.spawn args now)) ↔
      r.role.maxIterations = 10 ∧ (roleJson r.role).utf8 = true ∧
        Extends readFloat truncate s.factory.file := by
  have hnew := admitted h
  have hnone : s.expected.get r.role.name = none := by
    rw [← ha _ hnew.dynamic]
    exact hnew.roles
  have hkept : Kept readFloat truncate (step readFloat truncate s (.spawn args now)) ↔ ∀ name,
      (fileRoles readFloat truncate (persistRole readFloat r.role s.factory.file).1).get name =
        (s.expected.insert r.role.name r.role).get name := by
    rw [Kept, step_spawned h, if_pos hp, if_pos hp]
    exact Iff.rfl
  rw [hkept]
  by_cases hw : (roleJson r.role).utf8 = true ∧ Extends readFloat truncate s.factory.file
  · rw [fileRoles_persisted hf hw.1 hw.2, enter, if_neg (not_or.mpr ⟨hnew.name, hnew.systemPrompt⟩)]
    constructor
    · intro hall
      have hself := hall r.role.name
      rw [Map.get_insert_self, Map.get_insert_self] at hself
      have hmax := congrArg AgentRole.maxIterations (Option.some.inj hself)
      exact ⟨hmax.symm, hw⟩
    · rintro ⟨hmax, -⟩ name
      rw [← hmax]
      by_cases heq : name = r.role.name
      · rw [heq, Map.get_insert_self, Map.get_insert_self]
      · rw [Map.get_insert_other heq, Map.get_insert_other heq]
        exact hk name
  · constructor
    · intro hall
      have hself := hall r.role.name
      rw [Map.get_insert_self] at hself
      have hold : (fileRoles readFloat truncate s.factory.file).get r.role.name = none :=
        (hk r.role.name).trans hnone
      rcases fileRoles_not_persisted hf hw with hsame | hlost
      · rw [hsame, hold] at hself
        cases hself
      · rw [hlost, Map.get_empty] at hself
        cases hself
    · exact fun hall => absurd hall.2 hw

theorem kept_step (hf : ReadsBack readFloat) (hk : Kept readFloat truncate s) (ha : Agree s)
    (e : Event) : Kept readFloat truncate (step readFloat truncate s e) ↔
      Permitted readFloat truncate s e := by
  cases e with
  | spawn args now =>
    by_cases h : ∃ r, accept truncate s.factory args = .ok (.ok r)
    · obtain ⟨r, hr⟩ := h
      have hpermitted : Permitted readFloat truncate s (.spawn args now) ↔
          (r.persistent = true → r.role.maxIterations = 10 ∧ (roleJson r.role).utf8 = true ∧
            Extends readFloat truncate s.factory.file) := by
        constructor
        · exact fun hall => hall r hr
        · intro hone r' hr'
          obtain rfl := Except.ok.inj (Except.ok.inj (hr.symm.trans hr'))
          exact hone
      rw [hpermitted]
      by_cases hp : r.persistent = true
      · rw [kept_spawned hf hk ha hr hp]
        exact ⟨fun hw _ => hw, fun hw => hw hp⟩
      · apply iff_of_true _ fun hp' => absurd hp' hp
        rw [Kept, step_spawned hr, if_neg hp, if_neg hp]
        exact hk
    · rw [step_refused (not_exists.mp h)]
      exact iff_of_true hk fun r hr => absurd ⟨r, hr⟩ h
  | remove name =>
    by_cases h : s.factory.dynamic.contains name = true
    · simp only [Kept, step, act, expect, removeAgent, if_pos h]
      constructor
      · intro hall _
        have hself := hall name
        rw [Map.get_erase_self, hk name] at hself
        exact hself
      · intro hnone other
        by_cases heq : other = name
        · rw [heq, Map.get_erase_self, hk name]
          exact hnone h
        · rw [Map.get_erase_other heq]
          exact hk other
    · simp only [Kept, step, act, expect, removeAgent, if_neg h]
      exact iff_of_true hk fun hc => absurd hc h
  | restart => exact iff_of_true hk trivial

/-- In a run, a restart at any time loads the roles that should be there exactly if each step is
one that the file can keep up with. -/
theorem kept_iff (hf : ReadsBack readFloat) {tr : List (State × Event)}
    (h : Run (daemon readFloat truncate) tr s) :
    ((∀ x ∈ tr, Kept readFloat truncate x.1) ∧ Kept readFloat truncate s) ↔
      ∀ x ∈ tr, Permitted readFloat truncate x.1 x.2 := by
  apply (h.relative_invariant_iff (J := Agree) _ _ _).1
  · rintro s ⟨file, rfl⟩
    exact ⟨fun _ => rfl, fun _ _ => rfl⟩
  · rintro s e t hk ha rfl
    exact agree_step hk ha e
  · rintro s e t hk ha rfl
    exact kept_step hf hk ha e

end Runs

namespace Counterexample

def noFloats : Bytes → Option NumberText := fun _ => none

theorem noFloats_readsBack : ReadsBack noFloats := by
  intro t x h
  cases h

def file : Bytes := bytes "\x7b\"agents\": []\x7d"

def args (more : List (Bytes × Json)) : Json := .object ([(bytes "name", .str (bytes "net_agent")),
  (bytes "system_prompt", .str (bytes "Watch the network.")), (bytes "persistent", .bool true)] ++ more)

def first : State := State.ofFile noFloats (fun _ => 0) (some file)

def spawned (args : Json) : State := step noFloats (fun _ => 0) first (.spawn args 1)

theorem run_spawned (args : Json) :
    Run (daemon noFloats fun _ => 0) [(first, .spawn args 1)] (spawned args) := by
  have hinit : (daemon noFloats fun _ => 0).Init first := ⟨some file, rfl⟩
  exact (Run.init hinit).step rfl

/-- An agent with 25 iterations, written to the file of an installation without agents. -/
theorem iterations_lost : ∃ tr s, Run (daemon noFloats fun _ => 0) tr s ∧
    ¬ ((∀ x ∈ tr, Kept noFloats (fun _ => 0) x.1) ∧ Kept noFloats (fun _ => 0) s) := by
  refine ⟨_, _, run_spawned (args [(bytes "max_iterations", .int 25)]), ?_⟩
  rintro ⟨-, h⟩
  exact absurd (h (bytes "net_agent")) (by decide +kernel)

theorem accept_args : accept (fun _ => 0) first.factory (args []) =
    .ok (.ok ⟨⟨bytes "net_agent", bytes "Watch the network.", [], 10⟩, true⟩) := by
  decide +kernel

/-- The same agent with the iterations that are the default, and a restart. -/
theorem agent_kept : ∃ tr s, Run (daemon noFloats fun _ => 0) tr s ∧ tr.length = 2 ∧
    Kept noFloats (fun _ => 0) s ∧ s.expected.contains (bytes "net_agent") = true := by
  have hrun : Run (daemon noFloats fun _ => 0) ([(first, .spawn (args []) 1)] ++
      [(spawned (args []), .restart)]) (step noFloats (fun _ => 0) (spawned (args [])) .restart) :=
    (run_spawned (args [])).step rfl
  refine ⟨_, _, hrun, rfl, ((kept_iff noFloats_readsBack hrun).mpr ?_).2, by decide +kernel⟩
  intro x hx
  rcases List.mem_append.mp hx with hx | hx
  · obtain rfl := List.mem_singleton.mp hx
    intro r hr _
    obtain rfl := Except.ok.inj (Except.ok.inj (accept_args.symm.trans hr))
    refine ⟨rfl, by decide +kernel, file, rfl, .obj [(bytes "agents", .arr [])], by decide +kernel,
      .inr ⟨_, rfl⟩, ?_, [], by decide, rfl⟩
    rintro ⟨l, hl⟩
    have hroles : Json.member? (bytes "roles") (.obj [(bytes "agents", .arr [])]) = none := by decide
    rw [hroles] at hl
    cases hl
  · obtain rfl := List.mem_singleton.mp hx
    trivial

end Counterexample

end RolePersistence
