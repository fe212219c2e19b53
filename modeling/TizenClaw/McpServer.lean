import TizenClaw.JsonValue

/-! Skills on disk, the loader that maps their names to directories for the agent, and the MCP
server with a tool list of its own. -/
namespace McpServer

open ByteString JsonValue

/-- A directory and what `SkillManifest::Load` makes of it; an empty object for nothing. -/
structure SkillDir where
  dirname : Bytes
  manifest : Json

structure Disk where
  skills : List SkillDir := []
  customSkills : List SkillDir := []

def Disk.all (disk : Disk) : List SkillDir := disk.skills ++ disk.customSkills

/-- `verified` is there and false. -/
def disabled (manifest : Json) : Bool := manifest.member? (bytes "verified") = some (.bool false)

section Loader

def getBool : Json → Except JsonException Bool
  | .bool b => .ok b
  | _ => .error (.typeError 302)

/-- Whether `get<int>()` returns; it takes truth values as well. -/
def getNumber : Json → Except JsonException Unit
  | .int _ | .float _ | .bool _ => .ok ()
  | _ => .error (.typeError 302)

/-- Reads a member, if it is there, as a string. -/
def stringMember (j : Json) (key : Bytes) : Except JsonException Unit :=
  match j.member? key with
  | none => .ok ()
  | some v => v.getString.map fun _ => ()

def getStrings : List Json → Except JsonException Unit
  | [] => .ok ()
  | j :: l => j.getString.bind fun _ => getStrings l

/-- What `ParseContract` throws. -/
def readContract : Json → Except JsonException Unit
  | .obj m =>
    (stringMember (.obj m) (bytes "side_effect")).bind fun _ =>
    (Json.value getNumber (.obj m) (bytes "max_retries") ()).bind fun _ =>
    (Json.value getNumber (.obj m) (bytes "retry_delay_ms") ()).bind fun _ =>
    (Json.value getBool (.obj m) (bytes "idempotent") false).bind fun _ =>
    (Json.value getNumber (.obj m) (bytes "estimated_duration_ms") ()).bind fun _ =>
    (Json.valueString (.obj m) (bytes "execution_env") (bytes "container")).bind fun _ =>
    match m.lookup (bytes "required_permissions") with
    | some (.arr l) => getStrings l
    | _ => .ok ()
  | _ => .ok ()

def readCategory (manifest : Json) : Except JsonException Unit :=
  if manifest.contains (bytes "category") then stringMember manifest (bytes "category")
  else match manifest.member? (bytes "metadata") with
    | some metadata => stringMember metadata (bytes "category")
    | none => .ok ()

/-- The name a directory is declared under, once every field the loader reads has been read. -/
def declaredName (d : SkillDir) : Except JsonException Bytes :=
  (d.manifest.valueString (bytes "name") d.dirname).bind fun name =>
  (d.manifest.valueString (bytes "description") []).bind fun _ =>
  (stringMember d.manifest (bytes "risk_level")).bind fun _ =>
  (readCategory d.manifest).bind fun _ =>
  (match d.manifest.member? (bytes "contract") with
    | some contract => readContract contract
    | none => .ok ()).bind fun _ =>
  (d.manifest.valueString (bytes "runtime") (bytes "python")).map fun _ => name

/-- The entry of `skill_dirs_` that `LoadSkillDeclarations` makes of a directory. -/
def declare (d : SkillDir) : Option (Bytes × Bytes) :=
  if d.dirname.head? = some 0x2E ∨ d.manifest.empty then none
  else if disabled d.manifest then none
  else if d.manifest.contains (bytes "parameters") then
    match declaredName d with
    | .ok name => some (name, d.dirname)
    | .error _ => none
  else none

/-- `skill_dirs_`; the latest entry is found first. -/
def loadSkillDirs (disk : Disk) : List (Bytes × Bytes) := (disk.all.filterMap declare).reverse

/-- The directory `ExecuteSkill` runs. -/
def skillDirectory (skillDirs : List (Bytes × Bytes)) (name : Bytes) : Bytes :=
  (skillDirs.lookup name).getD name

/-- The agent declares no disabled skill. -/
theorem loadSkillDirs_enabled {disk : Disk} {entry : Bytes × Bytes}
    (h : entry ∈ loadSkillDirs disk) :
    ∃ d ∈ disk.all, d.dirname = entry.2 ∧ disabled d.manifest = false := by
  obtain ⟨d, hd, h⟩ := List.mem_filterMap.mp (List.mem_reverse.mp h)
  refine ⟨d, hd, ?_⟩
  unfold declare at h
  split_ifs at h with h₁ h₂ h₃
  split at h
  · obtain rfl := Option.some.inj h
    exact ⟨rfl, by simpa using h₂⟩
  · cases h

end Loader

structure ToolInfo where
  name : Bytes
  description : Bytes
  inputSchema : Json
  isSkill : Bool

/-- What `DiscoverTools` makes of a directory. Whether the skill is enabled is not read. -/
def discover (d : SkillDir) : Option ToolInfo :=
  if d.dirname.head? = some 0x2E ∨ d.dirname = bytes "mcp_server" ∨ d.manifest.empty then none
  else match d.manifest.member? (bytes "parameters") with
    | none => none
    | some parameters =>
      match d.manifest.valueString (bytes "name") d.dirname,
        d.manifest.valueString (bytes "description") [] with
      | .ok name, .ok description => some ⟨name, description, parameters, true⟩
      | _, _ => none

def askName : Bytes := bytes "ask_tizenclaw"

def askTool : ToolInfo where
  name := askName
  description := bytes "Send a natural language prompt to the TizenClaw AI Agent. The agent will plan and execute actions using available tools to fulfill the request."
  inputSchema := .object [(bytes "type", .str (bytes "object")),
    (bytes "properties", .object [(bytes "prompt", .object [
      (bytes "type", .str (bytes "string")),
      (bytes "description", .str (bytes "The user's request in natural language"))])]),
    (bytes "required", .arr [.str (bytes "prompt")])]
  isSkill := false

/-- The tool list, made when the server is constructed. -/
def discoverTools (disk : Disk) : List ToolInfo := disk.skills.filterMap discover ++ [askTool]

/-- What a `tools/call` leads to. -/
inductive ToolsCall where
  | refused (text : Bytes)
  | ask (prompt : Bytes)
  | skill (name : Bytes) (args : Json)
  deriving DecidableEq

def handleToolsCall (tools : List ToolInfo) (params : Json) : Except JsonException ToolsCall :=
  (params.valueString (bytes "name") []).bind fun name =>
  (params.value .ok (bytes "arguments") (.obj [])).bind fun arguments =>
  match tools.find? fun t => t.name = name with
  | none => .ok (.refused (bytes "Tool not found: " ++ name))
  | some found =>
    if found.isSkill then .ok (.skill name arguments)
    else (arguments.valueString (bytes "prompt") []).map fun prompt =>
      if prompt = [] then .refused (bytes "Missing 'prompt' argument") else .ask prompt

/-- `ProcessRequest`, for what it leads to; every other method only answers. -/
def processRequest (tools : List ToolInfo) (request : Json) :
    Except JsonException (Option ToolsCall) :=
  (request.valueString (bytes "method") []).bind fun method =>
  (request.value .ok (bytes "params") (.obj [])).bind fun params =>
  if method = bytes "tools/call" then (handleToolsCall tools params).map some else .ok none

/-- The name a directory is offered under to the clients. -/
def Offered (disk : Disk) (name : Bytes) : Prop :=
  ∃ d ∈ disk.skills, ∃ t, discover d = some t ∧ t.name = name

theorem discover_isSkill {d : SkillDir} {t : ToolInfo} (h : discover d = some t) :
    t.isSkill = true := by
  unfold discover at h
  split_ifs at h
  split at h
  · cases h
  · split at h
    · obtain rfl := Option.some.inj h
      rfl
    · cases h

/-- Skills stand before the synthetic tool, so the first tool of an offered name is a skill. -/
theorem find_discoverTools (disk : Disk) (name : Bytes) :
    (Offered disk name ∧ ∃ t, (discoverTools disk).find? (fun t => t.name = name) = some t ∧
      t.isSkill = true) ∨
    ¬ Offered disk name ∧ (discoverTools disk).find? (fun t => t.name = name) =
      if name = askName then some askTool else none := by
  rw [discoverTools, List.find?_append]
  cases hf : (disk.skills.filterMap discover).find? fun t => t.name = name with
  | some t =>
    left
    obtain ⟨d, hd, ht⟩ := List.mem_filterMap.mp (List.mem_of_find?_eq_some hf)
    have hname : t.name = name := by simpa using List.find?_some hf
    exact ⟨⟨d, hd, t, ht, hname⟩, t, rfl, discover_isSkill ht⟩
  | none =>
    right
    constructor
    · rintro ⟨d, hd, t, ht, hname⟩
      have := List.find?_eq_none.mp hf t (List.mem_filterMap.mpr ⟨d, hd, ht⟩)
      simp [hname] at this
    · by_cases hn : name = askName
      · simp [hn, askTool]
      · simp [hn, askTool, Ne.symm hn]

/-- The requests that run a skill name an offered one. -/
theorem handleToolsCall_skill_iff {disk : Disk} {params args : Json} {name : Bytes} :
    handleToolsCall (discoverTools disk) params = .ok (.skill name args) ↔
      params.valueString (bytes "name") [] = .ok name ∧
      params.value .ok (bytes "arguments") (.obj []) = .ok args ∧ Offered disk name := by
  simp only [handleToolsCall, bind_eq_ok]
  constructor
  · rintro ⟨name', hn, args', ha, h⟩
    rcases find_discoverTools disk name' with ⟨ho, t, ht, hs⟩ | ⟨-, hf⟩
    · simp only [ht, hs, ↓reduceIte, Except.ok.injEq, ToolsCall.skill.injEq] at h
      obtain ⟨rfl, rfl⟩ := h
      exact ⟨hn, ha, ho⟩
    · rw [hf] at h
      split_ifs at h with hask
      · obtain ⟨prompt, -, hp⟩ := map_eq_ok.mp h
        split_ifs at hp
      · cases h
  · rintro ⟨hn, ha, ho⟩
    refine ⟨name, hn, args, ha, ?_⟩
    rcases find_discoverTools disk name with ⟨-, t, ht, hs⟩ | ⟨hno, -⟩
    · simp only [ht, hs, ↓reduceIte]
    · exact absurd ho hno

/-- A prompt is passed on when the synthetic tool is called and no skill has taken its name. -/
theorem handleToolsCall_ask_iff {disk : Disk} {params : Json} {prompt : Bytes} :
    handleToolsCall (discoverTools disk) params = .ok (.ask prompt) ↔
      params.valueString (bytes "name") [] = .ok askName ∧ ¬ Offered disk askName ∧
      ∃ args, params.value .ok (bytes "arguments") (.obj []) = .ok args ∧
        args.valueString (bytes "prompt") [] = .ok prompt ∧ prompt ≠ [] := by
  simp only [handleToolsCall, bind_eq_ok]
  constructor
  · rintro ⟨name, hn, args, ha, h⟩
    rcases find_discoverTools disk name with ⟨-, t, ht, hs⟩ | ⟨ho, hf⟩
    · simp [ht, hs] at h
    · rw [hf] at h
      split_ifs at h with hask
      · subst hask
        obtain ⟨prompt', hp, he⟩ := map_eq_ok.mp h
        split_ifs at he with hne
        obtain rfl := ToolsCall.ask.inj he
        exact ⟨hn, ho, args, ha, hp, hne⟩
      · cases h
  · rintro ⟨hn, ho, args, ha, hp, hne⟩
    refine ⟨askName, hn, args, ha, ?_⟩
    rcases find_discoverTools disk askName with ⟨ho', -⟩ | ⟨-, hf⟩
    · exact absurd ho' ho
    · rw [hf, if_pos rfl]
      simp [askTool, hp, hne, Except.map]

end McpServer
