import TizenClaw.JsonStorable
import TizenClaw.PipelineExecutor
import TizenClaw.SessionCreation

/-! Agents that are spawned while the daemon runs: the checks a request has to pass, the roles kept
in memory, and the file that some of them are written to and all are loaded from. -/
namespace AgentFactory

open ByteString JsonValue JsonDump JsonParse JsonRoundTrip JsonStorable OrderedMap AgentMachine
open PipelineExecutor (getInt getBool wrap32)
open SessionCreation (sessionId)

deriving instance DecidableEq for AgentRole

abbrev Roles := Map Bytes AgentRole

section Requests

def kMaxDynamicAgents : ℕ := 5
def kMaxPromptLength : ℕ := 4096
def kMinNameLength : ℕ := 3
def kMaxNameLength : ℕ := 30

/-- Lowercase letters and underscores. -/
def validateName (name : Bytes) : Bool :=
  kMinNameLength ≤ name.length ∧ name.length ≤ kMaxNameLength ∧
    ∀ b ∈ name, (0x61 ≤ b ∧ b ≤ 0x7A) ∨ b = 0x5F

structure SpawnRequest where
  role : AgentRole
  persistent : Bool
  deriving DecidableEq

/-- Tools that are no texts are left out. -/
def allowedTools (args : Json) : List Bytes :=
  match args.member? (bytes "allowed_tools") with
  | some (.arr l) => l.filterMap fun t => match t with
    | .str s => some s
    | _ => none
  | _ => []

variable (truncate : NumberText → ℤ)

/-- The arguments of `spawn_agent`, or why they are not accepted. -/
def readSpawn (args : Json) : Except JsonException (Except Bytes SpawnRequest) :=
  (args.valueString (bytes "name") []).bind fun name =>
  (args.valueString (bytes "system_prompt") []).bind fun systemPrompt =>
  (args.value (getInt truncate) (bytes "max_iterations") 10).bind fun maxIterations =>
  (args.value getBool (bytes "persistent") false).map fun persistent =>
    if validateName name = false then
      .error (bytes "Invalid agent name. Must be 3-30 lowercase letters/underscores " ++
        bytes "(e.g. 'network_analyst')")
    else if systemPrompt = [] then .error (bytes "system_prompt is required")
    else if kMaxPromptLength < systemPrompt.length then
      .error (bytes "system_prompt exceeds max length (" ++ decimal kMaxPromptLength ++
        bytes " chars)")
    else .ok ⟨⟨name, systemPrompt, allowedTools args, maxIterations⟩, persistent⟩

def limitText : Bytes := bytes "Maximum dynamic agents reached (" ++ decimal kMaxDynamicAgents ++
  bytes "). Remove an existing one first."

/-- The limit, and the names that are taken by spawned agents. -/
def checkDynamic (dynamic : Roles) (name : Bytes) : Except Bytes Unit :=
  if kMaxDynamicAgents ≤ dynamic.entries.length then .error limitText
  else if dynamic.contains name then
    .error (bytes "Dynamic agent '" ++ name ++ bytes "' already exists")
  else .ok ()

/-- The names that are taken in the supervisor. -/
def checkStatic (roles : Roles) (name : Bytes) : Except Bytes Unit :=
  if (roles.get name).isSome then
    .error (bytes "Agent role '" ++ name ++ bytes "' already exists in config")
  else .ok ()

def errorReply (text : Bytes) : Json := .object [(bytes "error", .str text)]

/-- The session that the answer names is not created; its number is of the clock's own ticks. -/
def spawnedReply (r : SpawnRequest) (now : ℤ) : Json := .object [(bytes "status", .str (bytes "ok")),
  (bytes "agent_name", .str r.role.name),
  (bytes "session_id", .str (sessionId r.role.name now)),
  (bytes "persistent", .bool r.persistent),
  (bytes "max_iterations", .int r.role.maxIterations),
  (bytes "message", .str (bytes "Agent '" ++ r.role.name ++
    bytes "' created. Use run_supervisor with goal to delegate tasks to this agent."))]

end Requests

section RoleFile

/-- A role as it is written. -/
def roleMembers (role : AgentRole) : List (Bytes × Json) := [(bytes "name", .str role.name),
  (bytes "type", .str (bytes "worker")),
  (bytes "description", .str (bytes "Dynamically created agent")),
  (bytes "system_prompt", .str role.systemPrompt),
  (bytes "tools", .arr (role.allowedTools.map .str)),
  (bytes "auto_start", .bool false)]

def roleJson (role : AgentRole) : Json := .object (roleMembers role)

/-- `j.push_back(v)` -/
def pushBack (v : Json) : Json → Except JsonException Json
  | .null => .ok (.arr [v])
  | .arr l => .ok (.arr (l ++ [v]))
  | _ => .error (.typeError 308)

def addAgent (role : AgentRole) (config : Json) : Except JsonException Json :=
  (pushBack (roleJson role) ((config.member? (bytes "agents")).getD (.arr []))).bind fun agents =>
    Json.assign (bytes "agents") agents config

variable (readFloat : Bytes → Option NumberText) (truncate : NumberText → ℤ)

/-- The file is opened for writing before its text is made. -/
def persistRole (role : AgentRole) (file : Option Bytes) :
    Option Bytes × Except JsonException Bool :=
  match file with
  | none => (none, .ok false)
  | some content => match readStream readFloat content with
    | .error _ => (some content, .ok false)
    | .ok config => match addAgent role config with
      | .error e => (some content, .error e)
      | .ok config => match dumpIndent 2 config with
        | .error e => (some [], .error e)
        | .ok text => (some text, .ok true)

/-- The tools are under one of two keys. -/
def readTools (j : Json) : Except JsonException (List Bytes) :=
  let key := if j.contains (bytes "allowed_tools") = false ∧ j.contains (bytes "tools") then
    bytes "tools" else bytes "allowed_tools"
  match j.member? key with
  | some (.arr l) => l.mapM Json.getString
  | _ => .ok []

def readRole (j : Json) : Except JsonException AgentRole :=
  (j.valueString (bytes "name") []).bind fun name =>
  (j.valueString (bytes "system_prompt") []).bind fun systemPrompt =>
  (j.value (getInt truncate) (bytes "max_iterations") 10).bind fun maxIterations =>
  (readTools j).map fun tools => ⟨name, systemPrompt, tools, maxIterations⟩

/-- A role without a name or a prompt is skipped. -/
def enter (roles : Roles) (role : AgentRole) : Roles :=
  if role.name = [] ∨ role.systemPrompt = [] then roles else roles.insert role.name role

/-- The roles up to the first entry that throws, and whether there was none. -/
def loadEntries (roles : Roles) : List Json → Roles × Bool
  | [] => (roles, true)
  | j :: l => match readRole truncate j with
    | .error _ => (roles, false)
    | .ok role => loadEntries (enter roles role) l

/-- `roles` or else `agents`, whichever is a list. -/
def rolesArray (config : Json) : Option (List Json) :=
  match config.member? (bytes "roles"), config.member? (bytes "agents") with
  | some (.arr l), _ => some l
  | _, some (.arr l) => some l
  | _, _ => none

/-- `LoadRoles`: the roles afterwards and what it returns. -/
def loadRoles (roles : Roles) (file : Option Bytes) : Roles × Bool :=
  match file with
  | none => (roles, false)
  | some content => match readStream readFloat content with
    | .error _ => (roles, false)
    | .ok config => match rolesArray config with
      | none => (.empty, false)
      | some l =>
        let loaded := loadEntries truncate .empty l
        (loaded.1, loaded.2 && !loaded.1.entries.isEmpty)

end RoleFile

section Factory

/-- The roles of the supervisor, those of them that were spawned, and the file. -/
structure Factory where
  roles : Roles
  dynamic : Roles
  file : Option Bytes

variable (readFloat : Bytes → Option NumberText) (truncate : NumberText → ℤ)

/-- What a call of `spawn_agent` spawns, or the text it is refused with. -/
def accept (f : Factory) (args : Json) : Except JsonException (Except Bytes SpawnRequest) :=
  (readSpawn truncate args).map fun request =>
    request.bind fun r =>
    (checkDynamic f.dynamic r.role.name).bind fun _ =>
    (checkStatic f.roles r.role.name).map fun _ => r

def spawnAgent (f : Factory) (args : Json) (now : ℤ) : Factory × Except JsonException Json :=
  match accept truncate f args with
  | .error e => (f, .error e)
  | .ok (.error text) => (f, .ok (errorReply text))
  | .ok (.ok r) =>
    let persisted := if r.persistent then persistRole readFloat r.role f.file
      else (f.file, .ok false)
    ({ roles := f.roles.insert r.role.name r.role
       dynamic := f.dynamic.insert r.role.name r.role
       file := persisted.1 }, persisted.2.map fun _ => spawnedReply r now)

def removeAgent (f : Factory) (name : Bytes) : Factory × Json :=
  if f.dynamic.contains name then
    ({ f with roles := f.roles.erase name, dynamic := f.dynamic.erase name },
      .object [(bytes "status", .str (bytes "ok")), (bytes "removed", .str name)])
  else (f, errorReply (bytes "Dynamic agent '" ++ name ++ bytes "' not found"))

/-- The daemon starts with the roles of the file. -/
def start (file : Option Bytes) : Factory where
  roles := (loadRoles readFloat truncate .empty file).1
  dynamic := .empty
  file := file

variable {truncate}

/-- What a request that is admitted is known to meet. -/
structure Admitted (f : Factory) (r : SpawnRequest) : Prop where
  name : r.role.name ≠ []
  systemPrompt : r.role.systemPrompt ≠ []
  limit : f.dynamic.entries.length < kMaxDynamicAgents
  dynamic : f.dynamic.get r.role.name = none
  roles : f.roles.get r.role.name = none

theorem readSpawn_admissible {args : Json} {r : SpawnRequest}
    (h : readSpawn truncate args = .ok (.ok r)) :
    r.role.name ≠ [] ∧ r.role.systemPrompt ≠ [] := by
  obtain ⟨name, -, h⟩ := bind_eq_ok.mp h
  obtain ⟨systemPrompt, -, h⟩ := bind_eq_ok.mp h
  obtain ⟨maxIterations, -, h⟩ := bind_eq_ok.mp h
  obtain ⟨persistent, -, h⟩ := map_eq_ok.mp h
  split_ifs at h with hname hprompt hlong
  · obtain rfl := Except.ok.inj h
    refine ⟨?_, hprompt⟩
    rintro rfl
    exact hname (by decide)

theorem admitted {f : Factory} {args : Json} {r : SpawnRequest}
    (h : accept truncate f args = .ok (.ok r)) : Admitted f r := by
  obtain ⟨request, hread, h⟩ := map_eq_ok.mp h
  obtain ⟨r', rfl, hchecks⟩ := bind_eq_ok.mp h
  obtain ⟨u, hdynamic, hcheck⟩ := bind_eq_ok.mp hchecks
  obtain ⟨v, hstatic, rfl⟩ := map_eq_ok.mp hcheck
  obtain ⟨hname, hprompt⟩ := readSpawn_admissible hread
  rw [checkDynamic] at hdynamic
  rw [checkStatic] at hstatic
  split_ifs at hdynamic hstatic with hlimit hd hs
  exact {
    name := hname
    systemPrompt := hprompt
    limit := Nat.lt_of_not_le hlimit
    dynamic := by simpa [Map.contains] using hd
    roles := by simpa using hs }

end Factory

end AgentFactory
