import TizenClaw.FileSystem
import TizenClaw.JsonDump

/-! The dashboard's requests: where each is routed, and the files that the server answers with. -/
namespace WebFiles

open ByteString ByteLines JsonValue JsonDump PathResolution PosixPath FileSystem

def appDataDir : Bytes := bytes "/opt/usr/share/tizenclaw"

structure Site where
  tree : FileTree
  cwd : Place
  webRoot : Bytes := appDataDir ++ bytes "/web"

structure Response where
  status : ℕ
  contentType : Bytes := []
  body : Bytes := []
  noCache : Bool := false
  deriving DecidableEq, Repr

/-- A literal and the length that is passed with it, which may be one off. -/
def literal (s : String) (n : ℕ) : Bytes := (bytes s ++ [0]).take n

def jsonLiteral (status : ℕ) (s : String) (n : ℕ) : Response :=
  { status, contentType := bytes "application/json", body := literal s n }

def jsonBody (body : Bytes) : Response :=
  { status := 200, contentType := bytes "application/json", body }

section Routing

inductive Method where
  | get
  | post
  | delete
  | options
  | other
  deriving DecidableEq, Repr

inductive Endpoint where
  | preflight
  | agentCard
  | status
  | metrics
  | sessionDates
  | sessions
  | sessionDetail (id : Bytes)
  | taskDates
  | tasks
  | taskDetail (file : Bytes)
  | logDates
  | logs (date : Bytes)
  | chat
  | authLogin
  | authChangePassword
  | configList
  | configSet (name : Bytes)
  | configGet (name : Bytes)
  | swarm
  | a2a
  | otaCheck
  | otaUpdate
  | otaRollback
  | appsList
  | appDelete (appId : Bytes)
  | appDetail (appId : Bytes)
  | bridgeTool
  | bridgeTools
  | bridgeData
  | bridgeChat
  | bridgeEvents
  | notFound
  | appFile (path : Bytes)
  | staticFile (path : Bytes)
  deriving DecidableEq, Repr

/-- `HandleApi`; the date is that of the query, if there is one. -/
def handleApi (method : Method) (path date : Bytes) : Endpoint :=
  if path = bytes "/api/status" then .status
  else if path = bytes "/api/metrics" then .metrics
  else if path = bytes "/api/sessions/dates" then .sessionDates
  else if path = bytes "/api/sessions" then .sessions
  else if path.take 14 = bytes "/api/sessions/" then .sessionDetail (path.drop 14)
  else if path = bytes "/api/tasks/dates" then .taskDates
  else if path = bytes "/api/tasks" then .tasks
  else if path.take 11 = bytes "/api/tasks/" then .taskDetail (path.drop 11)
  else if path = bytes "/api/logs/dates" then .logDates
  else if path = bytes "/api/logs" then .logs date
  else if path = bytes "/api/chat" then .chat
  else if path = bytes "/api/auth/login" then .authLogin
  else if path = bytes "/api/auth/change_password" then .authChangePassword
  else if path = bytes "/api/config/list" then .configList
  else if path.take 12 = bytes "/api/config/" then
    if method = .post then .configSet (path.drop 12) else .configGet (path.drop 12)
  else if path = bytes "/api/swarm" then .swarm
  else if path = bytes "/api/a2a" then .a2a
  else if path = bytes "/api/ota/check" then .otaCheck
  else if path = bytes "/api/ota/update" then .otaUpdate
  else if path = bytes "/api/ota/rollback" then .otaRollback
  else if path = bytes "/api/apps" then .appsList
  else if path.take 10 = bytes "/api/apps/" then
    if method = .delete then .appDelete (path.drop 10) else .appDetail (path.drop 10)
  else if path = bytes "/api/bridge/tool" then .bridgeTool
  else if path = bytes "/api/bridge/tools" then .bridgeTools
  else if path = bytes "/api/bridge/data" then .bridgeData
  else if path = bytes "/api/bridge/chat" then .bridgeChat
  else if path = bytes "/api/bridge/events" then .bridgeEvents
  else .notFound

/-- The branch of `HandleRequest` that a request takes. -/
def route (method : Method) (path date : Bytes) : Endpoint :=
  if method = .options then .preflight
  else if path = bytes "/.well-known/agent.json" then .agentCard
  else if path.take 5 = bytes "/api/" then handleApi method path date
  else if path.take 6 = bytes "/apps/" then .appFile path
  else .staticFile path

end Routing

section Handlers

/-- A handler that opens one file: what it checks first, and what it makes of the stream. -/
structure FileHandler where
  file : Except Response Bytes
  reply : Opened → Except Bytes Response

def FileHandler.run (h : FileHandler) (s : Site) : Except Bytes Response :=
  match h.file with
  | .error refusal => .ok refusal
  | .ok path => h.reply (openRead s.tree s.cwd path)

def hasParent (s : Bytes) : Bool := (find (bytes "..") s).isSome

def forbidden : Response := { status := 403 }

def notFoundPage : Response :=
  { status := 404, contentType := bytes "text/html", body := literal "<h1>404 Not Found</h1>" 22 }

/-- From the last dot on. -/
def extension (path : Bytes) : Option Bytes :=
  if 0x2E ∈ path then some (0x2E :: path.rtakeWhile (· ≠ 0x2E)) else none

def mimeTypes : List (Bytes × Bytes) :=
  [(bytes ".css", bytes "text/css"), (bytes ".js", bytes "application/javascript"),
    (bytes ".json", bytes "application/json"), (bytes ".png", bytes "image/png"),
    (bytes ".svg", bytes "image/svg+xml"), (bytes ".jpg", bytes "image/jpeg"),
    (bytes ".jpeg", bytes "image/jpeg")]

def appMimeTypes : List (Bytes × Bytes) :=
  mimeTypes ++
    [(bytes ".gif", bytes "image/gif"), (bytes ".webp", bytes "image/webp"),
      (bytes ".ico", bytes "image/x-icon"), (bytes ".woff", bytes "font/woff2"),
      (bytes ".woff2", bytes "font/woff2")]

/-- What `substr` throws when it is given `npos`. -/
def outOfRange (size : ℕ) : Bytes :=
  bytes "basic_string::substr: __pos (which is 18446744073709551615) > this->size() (which is " ++
    decimal size ++ bytes ")"

/-- A path of four bytes or more is taken to have a dot. -/
def staticType (path : Bytes) : Except Bytes Bytes :=
  if path.length < 4 then .ok (bytes "text/html")
  else match extension path with
    | none => .error (outOfRange path.length)
    | some ext => .ok ((mimeTypes.lookup ext).getD (bytes "text/html"))

def serveStaticFile (webRoot path : Bytes) : FileHandler where
  file :=
    if path = bytes "/" ∨ path = [] then .ok (webRoot ++ bytes "/index.html")
    else if hasParent path then .error forbidden
    else .ok (webRoot ++ path)
  reply
    | .closed => .ok notFoundPage
    | .directory => .error readFailure
    | .file content => (staticType path).map fun contentType =>
      { status := 200, contentType, body := content, noCache := true }

def appsDir : Bytes := appDataDir ++ bytes "/web/apps"

def appFilePath (rel : Bytes) : Bytes :=
  appsDir ++ slash :: (if rel = [] ∨ rel.getLast? = some slash then rel ++ bytes "index.html" else rel)

def serveAppFile (path : Bytes) : FileHandler where
  file :=
    if hasParent (path.drop 6) then .error forbidden else .ok (appFilePath (path.drop 6))
  reply
    | .closed => .ok notFoundPage
    | .directory => .error readFailure
    | .file content => .ok
      { status := 200
        contentType := ((extension (appFilePath (path.drop 6))).bind fun ext => appMimeTypes.lookup ext).getD
          (bytes "text/html")
        body := content }

/-- The sibling handlers refuse a name that is empty, has a slash or two dots in a row. -/
def badName (name : Bytes) : Bool := name = [] ∨ hasParent name ∨ slash ∈ name

def sessionsDir : Bytes := appDataDir ++ bytes "/sessions"

def apiSessionDetail (id : Bytes) : FileHandler where
  file :=
    if badName id then .error (jsonLiteral 400 "\x7b\"error\":\"Invalid id\"\x7d" 21)
    else .ok (sessionsDir ++ slash :: (id ++ bytes ".md"))
  reply
    | .closed => .ok (jsonLiteral 404 "\x7b\"error\":\"Session not found\"\x7d" 29)
    | .directory => .error readFailure
    | .file content =>
      .ok (jsonBody (dumpReplace (.object [(bytes "id", .str id), (bytes "content", .str content)])))

def tasksDir : Bytes := appDataDir ++ bytes "/tasks"

/-- The extension is put on where it is missing. -/
def taskName (file : Bytes) : Bytes :=
  if file.length ≤ 3 ∨ file.drop (file.length - 3) ≠ bytes ".md" then file ++ bytes ".md" else file

def apiTaskDetail (file : Bytes) : FileHandler where
  file :=
    if badName file then .error (jsonLiteral 400 "\x7b\"error\":\"Invalid file\"\x7d" 23)
    else .ok (tasksDir ++ slash :: taskName file)
  reply
    | .closed => .ok (jsonLiteral 404 "\x7b\"error\":\"Task not found\"\x7d" 26)
    | .directory => .error readFailure
    | .file content => .ok (jsonBody (dumpReplace
      (.object [(bytes "file", .str (taskName file)), (bytes "content", .str content)])))

def auditDir : Bytes := appDataDir ++ bytes "/audit"

def dash : UInt8 := 0x2D

def DateShaped (date : Bytes) : Prop :=
  date.length = 10 ∧ date[4]? = some dash ∧ date[7]? = some dash

instance (date : Bytes) : Decidable (DateShaped date) := inferInstanceAs (Decidable (_ ∧ _))

def logPath (date : Bytes) : Bytes := auditDir ++ slash :: (date ++ bytes ".md")

/-- Nothing but the length and the dashes of the date is checked. -/
def apiLogs (today dateParam : Bytes) : FileHandler :=
  let date := if dateParam = [] then today else dateParam
  { file :=
      if DateShaped date then .ok (logPath date)
      else .error { jsonBody (bytes "\x7b\"error\":\"Invalid date format\"\x7d") with status := 400 }
    reply := fun
      | .closed => .ok (jsonBody (dumpReplace (.arr [])))
      | .directory => .error readFailure
      | .file content => .ok (jsonBody (dumpReplace
        (.arr [.object [(bytes "date", .str date), (bytes "content", .str content)]]))) }

def fileHandler (webRoot today : Bytes) : Endpoint → Option FileHandler
  | .staticFile path => some (serveStaticFile webRoot path)
  | .appFile path => some (serveAppFile path)
  | .sessionDetail id => some (apiSessionDetail id)
  | .taskDetail file => some (apiTaskDetail file)
  | .logs date => some (apiLogs today date)
  | _ => none

/-- What an exception out of a handler is answered with. -/
def caught (what : Bytes) : Response :=
  { jsonBody (bytes "\x7b\"error\":\"" ++ what ++ bytes "\"\x7d") with status := 500 }

def handled : Except Bytes Response → Response
  | .ok r => r
  | .error what => caught what

/-- The answer to a request that is served from a file. -/
def handleRequest (s : Site) (today : Bytes) (method : Method) (path date : Bytes) :
    Option Response :=
  (fileHandler s.webRoot today (route method path date)).map fun h => handled (h.run s)

end Handlers

end WebFiles
