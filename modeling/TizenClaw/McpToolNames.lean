import TizenClaw.CapabilityRegistry
import TizenClaw.SkillDisabling
import TizenClaw.ToolDispatch
import TizenClaw.TransitionSystem

/-! The MCP client manager: the names under which it offers the tools of its servers, and the server
that a name leads to. -/
namespace McpToolNames

open ByteString JsonValue OrderedMap TransitionSystem
open SkillDisabling (LlmToolDecl)
open ToolDispatch (isMcpTool errorOutput)

section Names

structure Tool where
  name : Bytes
  description : Bytes := []
  inputSchema : Json := .null
  deriving DecidableEq

def delimiter : Bytes := bytes "__"

def toolName (server tool : Bytes) : Bytes := bytes "mcp__" ++ server ++ delimiter ++ tool

def declaration (server : Bytes) (t : Tool) : LlmToolDecl where
  name := toolName server t.name
  description := bytes "[MCP: " ++ server ++ bytes "] " ++ t.description
  parameters := t.inputSchema

/-- Server and tool, split at the first delimiter behind the prefix. -/
def parseToolName (fullToolName : Bytes) : Option (Bytes × Bytes) :=
  if isMcpTool fullToolName then
    (find delimiter (fullToolName.drop 5)).map fun secondDelim =>
      ((fullToolName.drop 5).take secondDelim, (fullToolName.drop 5).drop (secondDelim + 2))
  else none

end Names

section Model

variable {κ : Type}

structure ServerConfig where
  isHttp : Bool
  cachedTools : List LlmToolDecl := []
  loaded : Bool := false

/-- The clients are connections to servers. -/
structure Manager (κ : Type) where
  configs : Map Bytes ServerConfig
  clients : Map Bytes κ
  httpClients : Map Bytes κ

def Manager.initial : Manager κ := ⟨.empty, .empty, .empty⟩

def Manager.clientsOf (m : Manager κ) (isHttp : Bool) : Map Bytes κ :=
  if isHttp then m.httpClients else m.clients

def stringMember (key : Bytes) (j : Json) : Option Bytes :=
  match j.member? key with
  | some (.str s) => some s
  | _ => none

/-- The transport of an entry, or none where its address is missing. An argument that is no string
throws. -/
def transport (srvConfig : Json) : Except JsonException (Option Bool) :=
  if stringMember (bytes "type") srvConfig = some (bytes "http") then
    .ok ((stringMember (bytes "url") srvConfig).map fun _ => true)
  else
    match stringMember (bytes "command") srvConfig, srvConfig.member? (bytes "args") with
    | none, _ => .ok none
    | some _, some (.arr args) => (args.mapM Json.getString).map fun _ => some false
    | some _, _ => .ok (some false)

variable (tools : κ → List Tool)

/-- The configuration of a server after the attempt to connect to it. -/
def enter (m : Manager κ) (server : Bytes) (isHttp : Bool) : Option κ → Manager κ
  | none => { m with configs := m.configs.insert server { isHttp := isHttp } }
  | some client =>
    let configs := m.configs.insert server
      { isHttp := isHttp, cachedTools := (tools client).map (declaration server), loaded := true }
    if isHttp then { m with configs := configs, httpClients := m.httpClients.insert server client }
    else { m with configs := configs, clients := m.clients.insert server client }

/-- The loop over the entries. `connect` is what comes of each attempt. -/
def loadServers (connect : Bytes → Option κ) (m : Manager κ) : List (Bytes × Json) → Manager κ
  | [] => m
  | (server, srvConfig) :: entries =>
    match transport srvConfig with
    | .error _ => m
    | .ok none => loadServers connect m entries
    | .ok (some isHttp) =>
      loadServers connect (enter tools m server isHttp (connect server)) entries

/-- The manager after `LoadConfigAndConnect`, for a file that is there and holds JSON. -/
def loadConfigAndConnect (connect : Bytes → Option κ) (m : Manager κ) (config : Json) :
    Manager κ :=
  match config.member? (bytes "mcpServers") with
  | some (.obj entries) => loadServers tools connect m entries
  | _ => m

def getToolDeclarations (m : Manager κ) : List LlmToolDecl :=
  m.configs.entries.flatMap fun e => if e.2.loaded then e.2.cachedTools else []

def asleep (server : Bytes) : Bytes :=
  errorOutput (bytes "MCP Server " ++ server ++ bytes " failed to wake up from idle")

/-- The client that a call under a name is made on, with the tool that is asked for, or the error
text. `awake` says which processes are connected, or are again after an attempt. -/
def executeTool (awake : κ → Bool) (m : Manager κ) (fullToolName : Bytes) :
    Except Bytes (κ × Bytes) :=
  match parseToolName fullToolName with
  | none => .error (errorOutput (bytes "Invalid formatting for MCP tool name"))
  | some (server, tool) =>
    let notConfigured := errorOutput (bytes "MCP Server " ++ server ++ bytes " is not configured")
    match m.configs.get server with
    | none => .error notConfigured
    | some cfg =>
      if cfg.loaded = false then .error notConfigured
      else if cfg.isHttp then
        match m.httpClients.get server with
        | none =>
          .error (errorOutput (bytes "MCP HTTP server " ++ server ++ bytes " client missing"))
        | some client => .ok (client, tool)
      else
        match m.clients.get server with
        | none => .error notConfigured
        | some client => if awake client then .ok (client, tool) else .error (asleep server)

/-- Every load of a configuration makes its own connections. -/
def manager : System (Manager κ) ((Bytes → Option κ) × Json) where
  Init m := m = .initial
  Step m e m' := m' = loadConfigAndConnect tools e.1 m e.2

end Model

section Specification

variable {κ : Type} (tools : κ → List Tool) (m : Manager κ)

/-- A tool that the model is offered, as one of a server. -/
def Offered (server : Bytes) (t : Tool) : Prop :=
  ∃ cfg, m.configs.get server = some cfg ∧ cfg.loaded = true ∧
    declaration server t ∈ cfg.cachedTools

/-- The connection that a server is reached by. -/
def Connected (server : Bytes) (client : κ) : Prop :=
  ∃ cfg, m.configs.get server = some cfg ∧ (m.clientsOf cfg.isHttp).get server = some client

/-- A call under a name is made on a client, unless its process is gone. -/
def Reaches (client : κ) (server tool : Bytes) : Prop :=
  ∀ awake : κ → Bool, executeTool awake m (toolName server tool) = .ok (client, tool) ∨
    awake client = false ∧ executeTool awake m (toolName server tool) = .error (asleep server)

/-- No two tools have one name, a name gives back its server and tool, and a call under it is made
on the connection to that server, which declared the tool. -/
structure ToolNaming : Prop where
  distinct : ∀ server t server' t', Offered m server t → Offered m server' t' →
    toolName server t.name = toolName server' t'.name → server = server' ∧ t.name = t'.name
  parsed : ∀ server t, Offered m server t →
    parseToolName (toolName server t.name) = some (server, t.name)
  routed : ∀ server t, Offered m server t → ∃ client, Connected m server client ∧
    t ∈ tools client ∧ Reaches m client server t.name

/-- No delimiter begins in the name of the server, not even with its last byte. -/
def Separable (server : Bytes) : Prop := find delimiter (server ++ bytes "_") = none

instance (server : Bytes) : Decidable (Separable server) :=
  inferInstanceAs (Decidable (_ = _))

end Specification

section Parsing

variable {server tool : Bytes}

theorem isMcpTool_toolName (server tool : Bytes) : isMcpTool (toolName server tool) = true := by
  rw [isMcpTool, List.isPrefixOf_iff_prefix, toolName, List.append_assoc, List.append_assoc]
  exact List.prefix_append _ _

theorem drop_toolName (server tool : Bytes) :
    (toolName server tool).drop 5 = server ++ delimiter ++ tool := by
  rw [toolName, List.append_assoc, List.append_assoc, List.append_assoc]
  exact List.drop_left' (by decide)

/-- Two bytes are a prefix of a text independently of what follows the second. -/
theorem delimiter_prefix_iff (c : UInt8) (server tool : Bytes) :
    delimiter <+: c :: (server ++ delimiter ++ tool) ↔
      delimiter <+: c :: (server ++ bytes "_") := by
  have hdelimiter : delimiter = [0x5F, 0x5F] := by decide
  have hunderscore : bytes "_" = [0x5F] := by decide
  rw [hdelimiter, hunderscore]
  cases server with
  | nil => simp
  | cons d server => simp

/-- The first delimiter is the one between the names just for a server that is separable. -/
theorem find_delimiter_iff (server tool : Bytes) :
    find delimiter (server ++ delimiter ++ tool) = some server.length ↔ Separable server := by
  unfold Separable
  induction server with
  | nil =>
    refine iff_of_true ?_ (by decide)
    exact ByteLines.find_self (by decide) tool
  | cons c server ih =>
    rw [List.cons_append, List.cons_append, List.cons_append, find, find]
    simp only [List.isPrefixOf_iff_prefix, delimiter_prefix_iff]
    by_cases hp : delimiter <+: c :: (server ++ bytes "_")
    · rw [if_pos hp, if_pos hp, List.length_cons]
      simp
    · rw [if_neg hp, if_neg hp, List.length_cons]
      simpa using ih

theorem parseToolName_iff :
    parseToolName (toolName server tool) = some (server, tool) ↔ Separable server := by
  rw [parseToolName, if_pos (isMcpTool_toolName server tool), drop_toolName,
    ← find_delimiter_iff server tool]
  constructor
  · intro h
    obtain ⟨n, hn, hsplit⟩ := Option.map_eq_some_iff.mp h
    have hserver := congrArg Prod.fst hsplit
    have htool := congrArg Prod.snd hsplit
    dsimp only at hserver htool
    have hlen := congrArg List.length hserver
    have hle := ByteLines.find_length_le hn
    simp only [List.length_take, List.length_append] at hlen hle
    rw [hn]
    congr 1
    omega
  · intro h
    have hlen : delimiter.length = 2 := by decide
    rw [h, Option.map_some, List.append_assoc, List.take_left, ← List.drop_drop, List.drop_left,
      List.drop_left' hlen]

end Parsing

section Loading

variable {κ : Type} {tools : κ → List Tool} {m : Manager κ} {server : Bytes}

theorem declaration_injective (server : Bytes) : Function.Injective (declaration server) := by
  intro t t' h
  obtain ⟨hname, hdescription, hparameters⟩ := LlmToolDecl.mk.inj h
  cases t
  cases t'
  simp only [toolName, List.append_cancel_left_eq] at hname hdescription
  rw [Tool.mk.injEq]
  exact ⟨hname, hdescription, hparameters⟩

/-- A server whose tools are offered is connected, and these are the tools that it declared. -/
def Declared (tools : κ → List Tool) (m : Manager κ) : Prop :=
  ∀ server cfg, m.configs.get server = some cfg → cfg.loaded = true →
    ∃ client, (m.clientsOf cfg.isHttp).get server = some client ∧
      cfg.cachedTools = (tools client).map (declaration server)

theorem enter_configs_other {server' : Bytes} (hne : server' ≠ server) (isHttp : Bool)
    (client : Option κ) :
    (enter tools m server isHttp client).configs.get server' = m.configs.get server' := by
  cases client with
  | none => exact Map.get_insert_other hne _ _
  | some client =>
    rw [enter]
    split_ifs
    · exact Map.get_insert_other hne _ _
    · exact Map.get_insert_other hne _ _

theorem enter_clients_other {server' : Bytes} (hne : server' ≠ server) (isHttp : Bool)
    (client : Option κ) (http : Bool) :
    ((enter tools m server isHttp client).clientsOf http).get server' =
      (m.clientsOf http).get server' := by
  cases client with
  | none => rfl
  | some client =>
    cases isHttp <;> cases http
    · exact Map.get_insert_other hne _ _
    · rfl
    · rfl
    · exact Map.get_insert_other hne _ _

theorem Declared.enter (h : Declared tools m) (server : Bytes) (isHttp : Bool)
    (client : Option κ) : Declared tools (enter tools m server isHttp client) := by
  intro server' cfg hget hloaded
  by_cases hs : server' = server
  · subst hs
    cases client with
    | none =>
      rw [McpToolNames.enter, Map.get_insert_self] at hget
      obtain rfl := Option.some.inj hget
      cases hloaded
    | some client =>
      refine ⟨client, ?_⟩
      cases isHttp with
      | true =>
        have hcfg := (Map.get_insert_self _ _ m.configs).symm.trans hget
        obtain rfl := Option.some.inj hcfg
        exact ⟨Map.get_insert_self _ _ m.httpClients, rfl⟩
      | false =>
        have hcfg := (Map.get_insert_self _ _ m.configs).symm.trans hget
        obtain rfl := Option.some.inj hcfg
        exact ⟨Map.get_insert_self _ _ m.clients, rfl⟩
  · rw [enter_configs_other hs] at hget
    rw [enter_clients_other hs]
    exact h server' cfg hget hloaded

theorem Declared.loadServers (h : Declared tools m) (connect : Bytes → Option κ)
    (entries : List (Bytes × Json)) : Declared tools (loadServers tools connect m entries) := by
  induction entries generalizing m with
  | nil => exact h
  | cons e entries ih =>
    obtain ⟨server, srvConfig⟩ := e
    rw [McpToolNames.loadServers]
    match transport srvConfig with
    | .error _ => exact h
    | .ok none => exact ih h
    | .ok (some isHttp) => exact ih (h.enter server isHttp (connect server))

theorem declared_of_reachable (h : Reachable (manager tools) m) : Declared tools m := by
  obtain ⟨tr, h⟩ := h
  refine h.invariant ?_ ?_
  · rintro m rfl server cfg hget
    cases hget
  · rintro m e m' hm rfl
    unfold loadConfigAndConnect
    split
    · exact hm.loadServers _ _
    · exact hm

/-- The tools of the list are those that are offered. -/
theorem mem_getToolDeclarations (h : Declared tools m) {decl : LlmToolDecl} :
    decl ∈ getToolDeclarations m ↔
      ∃ server t, Offered m server t ∧ decl = declaration server t := by
  rw [getToolDeclarations, List.mem_flatMap]
  constructor
  · rintro ⟨⟨server, cfg⟩, he, hmem⟩
    split_ifs at hmem with hloaded
    · have hget := Map.mem_iff_get.mp he
      obtain ⟨client, -, htools⟩ := h server cfg hget hloaded
      dsimp only at hmem
      obtain ⟨t, -, rfl⟩ := List.mem_map.mp (htools ▸ hmem)
      exact ⟨server, t, ⟨cfg, hget, hloaded, hmem⟩, rfl⟩
    · cases hmem
  · rintro ⟨server, t, ⟨cfg, hget, hloaded, hmem⟩, rfl⟩
    refine ⟨(server, cfg), Map.mem_iff_get.mpr hget, ?_⟩
    rw [if_pos hloaded]
    exact hmem

/-- A tool that is offered was declared by the server that it is offered for. -/
theorem Offered.declared {t : Tool} (h : Declared tools m) (ho : Offered m server t) :
    ∃ client, Connected m server client ∧ t ∈ tools client := by
  obtain ⟨cfg, hget, hloaded, hmem⟩ := ho
  obtain ⟨client, hclient, htools⟩ := h server cfg hget hloaded
  rw [htools, List.mem_map_of_injective (declaration_injective server)] at hmem
  exact ⟨client, ⟨cfg, hget, hclient⟩, hmem⟩

/-- A name that is split at the right place leads to the server that is meant. -/
theorem reaches_of_separable {t : Tool} {client : κ} (hs : Separable server)
    (ho : Offered m server t) (hc : Connected m server client) :
    Reaches m client server t.name := by
  obtain ⟨cfg, hget, hloaded, -⟩ := ho
  obtain ⟨cfg', hget', hclient⟩ := hc
  obtain rfl := Option.some.inj (hget.symm.trans hget')
  have hnot : ¬ cfg.loaded = false := by
    rw [hloaded]
    decide
  intro awake
  rw [executeTool, parseToolName_iff.mpr hs]
  dsimp only
  rw [hget]
  dsimp only
  rw [if_neg hnot]
  cases hhttp : cfg.isHttp with
  | true =>
    rw [hhttp] at hclient
    have hget : m.httpClients.get server = some client := hclient
    rw [if_pos rfl, hget]
    exact .inl rfl
  | false =>
    rw [hhttp] at hclient
    have hget : m.clients.get server = some client := hclient
    rw [if_neg Bool.false_ne_true, hget]
    cases hawake : awake client with
    | true => exact .inl (by dsimp only; rw [hawake, if_pos rfl])
    | false => exact .inr ⟨rfl, by dsimp only; rw [hawake, if_neg Bool.false_ne_true]⟩

/-- The names of the tools are told apart, and lead to their servers, exactly while no server that
offers a tool has a delimiter in its name or an underscore at its end. -/
theorem tool_naming_iff (h : Reachable (manager tools) m) :
    ToolNaming tools m ↔ ∀ server t, Offered m server t → Separable server := by
  have hdeclared := declared_of_reachable h
  constructor
  · intro hnaming server t ho
    exact parseToolName_iff.mp (hnaming.parsed server t ho)
  · intro hsep
    refine ⟨?_, ?_, ?_⟩
    · intro server t server' t' ho ho' hname
      have hparse : parseToolName (toolName server t.name) = some (server, t.name) :=
        parseToolName_iff.mpr (hsep server t ho)
      have hparse' : parseToolName (toolName server' t'.name) = some (server', t'.name) :=
        parseToolName_iff.mpr (hsep server' t' ho')
      rw [hname, hparse'] at hparse
      obtain ⟨hserver, htool⟩ := Prod.mk.inj (Option.some.inj hparse)
      exact ⟨hserver.symm, htool.symm⟩
    · intro server t ho
      exact parseToolName_iff.mpr (hsep server t ho)
    · intro server t ho
      obtain ⟨client, hconnected, hmem⟩ := ho.declared hdeclared
      exact ⟨client, hconnected, hmem, reaches_of_separable (hsep server t ho) ho hconnected⟩

end Loading

namespace Counterexample

def web (server : Bytes) : Json :=
  .obj [(bytes "mcpServers", .obj [(server, .obj [(bytes "type", .str (bytes "http")),
    (bytes "url", .str (bytes "http://localhost"))])])]

def search : Tool := { name := bytes "search" }

/-- A connection is given by the tools that it declares. -/
def loaded (server : Bytes) : Manager (List Tool) :=
  loadConfigAndConnect id (fun _ => some [search]) .initial (web server)

theorem reachable_loaded (server : Bytes) : Reachable (manager id) (loaded server) :=
  ⟨_, (Run.init rfl).step (e := (fun _ => some [search], web server)) rfl⟩

theorem offered_loaded (server : Bytes) : Offered (loaded server) server search := by
  have hget : (loaded server).configs.get server =
      some ⟨true, [declaration server search], true⟩ := Map.get_insert_self _ _ _
  exact ⟨_, hget, rfl, List.mem_cons_self⟩

/-- A server with a plain name is found again. -/
theorem plain_server_routed : ToolNaming id (loaded (bytes "docs")) := by
  refine (tool_naming_iff (reachable_loaded (bytes "docs"))).mpr ?_
  rintro server t ⟨cfg, hget, -, -⟩
  by_cases hs : server = bytes "docs"
  · rw [hs]
    decide
  · have hother : (loaded (bytes "docs")).configs.get server = none :=
      Map.get_insert_other hs _ _
    rw [hother] at hget
    cases hget

/-- The name of a server may hold the delimiter. -/
theorem delimiter_in_server :
    Reachable (manager id) (loaded (bytes "my__docs")) ∧
      ¬ ToolNaming id (loaded (bytes "my__docs")) ∧
      parseToolName (toolName (bytes "my__docs") (bytes "search")) =
        some (bytes "my", bytes "docs__search") := by
  refine ⟨reachable_loaded _, fun h => ?_, by decide⟩
  have hsep := parseToolName_iff.mp (h.parsed _ _ (offered_loaded (bytes "my__docs")))
  exact absurd hsep (by decide)

end Counterexample

end McpToolNames
