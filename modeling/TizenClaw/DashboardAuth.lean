import TizenClaw.JsonStorable
import TizenClaw.TransitionSystem
import TizenClaw.WebApps

/-! The administrator's side of the dashboard: login and its tokens, the password, and the
configuration files, of which a fixed list can be read and written. -/
namespace DashboardAuth

open ByteString JsonValue JsonDump JsonParse JsonStorable TransitionSystem WebFiles WebApps

abbrev HexText := { t : Bytes // ∀ b ∈ t, b ∈ bytes "0123456789abcdef" }

/-- The files of the configuration directory by their names. -/
abbrev ConfigDir := Bytes → Option Bytes

structure Dashboard where
  adminPasswordHash : Bytes
  activeTokens : List Bytes := []
  configDir : ConfigDir

def allowedConfigs : List Bytes :=
  [bytes "llm_config.json", bytes "telegram_config.json", bytes "slack_config.json",
    bytes "discord_config.json", bytes "webhook_config.json", bytes "tool_policy.json",
    bytes "agent_roles.json", bytes "tunnel_config.json", bytes "web_search_config.json"]

def adminPwFile : Bytes := bytes "admin_password.json"

def unauthorized : Response := jsonLiteral 401 "\x7b\"error\":\"Unauthorized\"\x7d" 24

def notAllowed : Response := jsonLiteral 403 "\x7b\"error\":\"Not allowed\"\x7d" 23

/-- What the hash of the password and the numbers in texts are is left open. -/
structure Host where
  hashPassword : Bytes → HexText
  readFloat : Bytes → Option NumberText
  dumpError : Json → Bytes

variable (h : Host)

section Password

/-- Anything but an object with a text leaves the default password. -/
def loadAdminPassword (dir : ConfigDir) : Bytes :=
  let default := (h.hashPassword (bytes "admin")).1
  match dir adminPwFile with
  | none => default
  | some content => match (readStream h.readFloat content).bind fun j =>
      j.valueString (bytes "password_hash") default with
    | .ok hash => hash
    | .error _ => default

def saveAdminPassword (dir : ConfigDir) (hash : Bytes) : ConfigDir :=
  match dumpIndent 2 (.object [(bytes "password_hash", .str hash)]) with
  | .ok text => Function.update dir adminPwFile (some text)
  | .error _ => dir

def start (dir : ConfigDir) : Dashboard :=
  { adminPasswordHash := loadAdminPassword h dir, configDir := dir }

end Password

section Tokens

variable (s : Dashboard)

def bearer : Bytes := bytes "Bearer "

def validateToken (auth : Option Bytes) : Bool :=
  match auth with
  | none => false
  | some hdr => hdr.take 7 = bearer ∧ hdr.drop 7 ∈ s.activeTokens

/-- A body that is no object with a text is the password itself. -/
def loginPassword (payload : Bytes) : Bytes :=
  match (parse h.readFloat payload).bind fun j => j.valueString (bytes "password") [] with
  | .ok password => password
  | .error _ => payload

def statusError (status : ℕ) (error : Bytes) : Except Bytes Response :=
  (answerJson h.dumpError (.object [(bytes "status", .str (bytes "error")),
    (bytes "error", .str error)])).map fun r => { r with status }

def apiAuthLogin (method : Method) (payload : Bytes) (token : HexText) :
    Dashboard × Except Bytes Response :=
  if method ≠ .post then (s, .ok { status := 405 })
  else if (h.hashPassword (loginPassword h payload)).1 = s.adminPasswordHash then
    ({ s with activeTokens := s.activeTokens ++ [token.1] },
      answerJson h.dumpError (.object [(bytes "status", .str (bytes "ok")),
        (bytes "token", .str token.1)]))
  else (s, statusError h 401 (bytes "Invalid password"))

def readChange (payload : Bytes) : Except JsonException (Bytes × Bytes) := do
  let j ← parse h.readFloat payload
  let cur ← j.valueString (bytes "current_password") []
  let nw ← j.valueString (bytes "new_password") []
  pure (cur, nw)

/-- The new password counts whether its file can be written or not. -/
def apiAuthChangePassword (method : Method) (auth : Option Bytes) (payload : Bytes)
    (saved : Bool) : Dashboard × Except Bytes Response :=
  if method ≠ .post then (s, .ok { status := 405 })
  else if validateToken s auth = false then (s, .ok unauthorized)
  else match readChange h payload with
    | .error _ => (s, .ok { status := 400 })
    | .ok (cur, nw) =>
      if (h.hashPassword cur).1 ≠ s.adminPasswordHash then
        (s, statusError h 403 (bytes "Current password incorrect"))
      else if nw = [] then (s, statusError h 400 (bytes "New password empty"))
      else
        let hash := (h.hashPassword nw).1
        ({ s with
            adminPasswordHash := hash
            configDir := if saved then saveAdminPassword s.configDir hash else s.configDir },
          answerJson h.dumpError (.object [(bytes "status", .str (bytes "ok"))]))

end Tokens

section Config

variable (s : Dashboard)

def apiConfigList (auth : Option Bytes) : Except Bytes Response :=
  if validateToken s auth = false then .ok unauthorized
  else answerJson h.dumpError (.object [(bytes "status", .str (bytes "ok")),
    (bytes "configs", .arr (allowedConfigs.map fun name => .object
      [(bytes "name", .str name), (bytes "exists", .bool (s.configDir name).isSome)]))])

def sampleName (name : Bytes) : Bytes := name ++ bytes ".sample"

def backupName (name : Bytes) : Bytes := name ++ bytes ".bak"

def apiConfigGet (auth : Option Bytes) (name : Bytes) : Except Bytes Response :=
  if validateToken s auth = false then .ok unauthorized
  else if name ∉ allowedConfigs then .ok notAllowed
  else match s.configDir name with
    | some content => answerJson h.dumpError (.object [(bytes "status", .str (bytes "ok")),
        (bytes "name", .str name), (bytes "content", .str content)])
    | none => answerJson h.dumpError (.object [(bytes "status", .str (bytes "not_found")),
        (bytes "name", .str name), (bytes "error", .str (bytes "Config not found")),
        (bytes "sample", .str ((s.configDir (sampleName name)).getD []))])

def readContent (payload : Bytes) : Except JsonException Bytes :=
  (parse h.readFloat payload).bind fun j => j.valueString (bytes "content") []

/-- The old file is copied, and then the new one is written, if it can be opened. -/
def backedUp (dir : ConfigDir) (name : Bytes) : ConfigDir :=
  match dir name with
  | some old => Function.update dir (backupName name) (some old)
  | none => dir

def apiConfigSet (auth : Option Bytes) (name payload : Bytes) (opens : Bool) :
    Dashboard × Except Bytes Response :=
  if validateToken s auth = false then (s, .ok unauthorized)
  else if name ∉ allowedConfigs then (s, .ok notAllowed)
  else match readContent h payload with
    | .error _ => (s, .ok { status := 400 })
    | .ok content =>
      let dir := backedUp s.configDir name
      if opens then
        ({ s with configDir := Function.update dir name (some content) },
          answerJson h.dumpError (.object [(bytes "status", .str (bytes "ok")),
            (bytes "name", .str name)]))
      else ({ s with configDir := dir }, statusError h 500 (bytes "Failed to write config"))

end Config

section Requests

/-- What the server gets to do. A request carries what the random device and the disk add to it. -/
inductive Request where
  | login (method : Method) (payload : Bytes) (token : HexText)
  | changePassword (method : Method) (auth : Option Bytes) (payload : Bytes) (saved : Bool)
  | configList (auth : Option Bytes)
  | configGet (auth : Option Bytes) (name : Bytes)
  | configSet (auth : Option Bytes) (name payload : Bytes) (opens : Bool)
  | restart

def perform (s : Dashboard) : Request → Dashboard × Except Bytes Response
  | .login method payload token => apiAuthLogin h s method payload token
  | .changePassword method auth payload saved => apiAuthChangePassword h s method auth payload saved
  | .configList auth => (s, apiConfigList h s auth)
  | .configGet auth name => (s, apiConfigGet h s auth name)
  | .configSet auth name payload opens => apiConfigSet h s auth name payload opens
  | .restart => (start h s.configDir, .ok { status := 200 })

def dashboard (dir : ConfigDir) : System Dashboard Request where
  Init s := s = start h dir
  Step s r t := t = (perform h s r).1

end Requests

end DashboardAuth
