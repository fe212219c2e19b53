import TizenClaw.JsonParse
import TizenClaw.WebFiles

/-! The web apps' directories behind the dashboard: the data that apps keep there by key, and the
removal of an app. -/
namespace WebApps

open ByteString JsonValue JsonDump JsonParse PathResolution PosixPath FileSystem WebFiles

def answer (status : ℕ) (body : Bytes) : Response := { jsonBody body with status }

section Data

def dataDir (appId : Bytes) : Bytes := appsDir ++ slash :: (appId ++ bytes "/data")

def dataPath (appId key : Bytes) : Bytes :=
  dataDir appId ++ slash :: (key ++ bytes ".json")

/-- An app's id may have slashes here, a key may not. -/
def badParameters (appId key : Bytes) : Bool := hasParent appId ∨ hasParent key ∨ slash ∈ key

def checkParameters (appId key : Bytes) : Option Response :=
  if appId = [] ∨ key = [] then
    some (answer 400 (bytes "\x7b\"error\":\"app_id and key are required\"\x7d"))
  else if badParameters appId key then
    some (answer 400 (bytes "\x7b\"error\":\"Invalid parameters\"\x7d"))
  else none

variable (readFloat : Bytes → Option NumberText) (dumpError : Json → Bytes)

/-- A strict dump as the answer; what it throws leaves the handler. -/
def answerJson (j : Json) : Except Bytes Response :=
  match dump j with
  | .ok body => .ok (jsonBody body)
  | .error _ => .error (dumpError j)

def getData (t : FileTree) (cwd : Place) (appId key : Bytes) : Except Bytes Response :=
  match checkParameters appId key with
  | some refusal => .ok refusal
  | none => match openRead t cwd (dataPath appId key) with
    | .closed => .ok (jsonBody (bytes "\x7b\"key\":\"" ++ key ++ bytes "\",\"value\":null\x7d"))
    | .directory => .error readFailure
    | .file content => answerJson dumpError (.object [(bytes "key", .str key), (bytes "value",
        match parse readFloat content with
        | .ok v => v
        | .error _ => .str content)])

structure DataWrite where
  appId : Bytes
  key : Bytes
  val : Json
  deriving DecidableEq, Repr

def readWrite (payload : Bytes) : Except JsonException DataWrite := do
  let j ← parse readFloat payload
  let appId ← j.valueString (bytes "app_id") []
  let key ← j.valueString (bytes "key") []
  pure ⟨appId, key, (j.member? (bytes "value")).getD .null⟩

/-- The file is opened, and emptied, before the value is dumped. -/
def writeData (t : FileTree) (cwd : Place) (w : DataWrite) : FileTree × Except Bytes Response :=
  let t₁ := createDirectories t cwd (dataDir w.appId)
  let content := (dump w.val).toOption.getD []
  match writeFile t₁ cwd (dataPath w.appId w.key) content with
  | none => (t₁, .ok (answer 500 (bytes "\x7b\"error\":\"Failed to write data\"\x7d")))
  | some t₂ => (t₂, match dump w.val with
    | .error _ => .error (dumpError w.val)
    | .ok _ =>
      answerJson dumpError (.object [(bytes "status", .str (bytes "ok")), (bytes "key", .str w.key)]))

def postData (t : FileTree) (cwd : Place) (payload : Bytes) : FileTree × Except Bytes Response :=
  if payload = [] then (t, .ok (answer 400 (bytes "\x7b\"error\":\"Empty body\"\x7d")))
  else match readWrite readFloat payload with
    | .error _ => (t, .ok (answer 400 (bytes "\x7b\"error\":\"Invalid JSON\"\x7d")))
    | .ok w => match checkParameters w.appId w.key with
      | some refusal => (t, .ok refusal)
      | none => writeData dumpError t cwd w

end Data

section Answers

variable {dumpError : Json → Bytes}

theorem handled_answerJson (j : Json) :
    (handled (answerJson dumpError j)).status = 200 ∨
      (handled (answerJson dumpError j)).status = 500 := by
  unfold answerJson
  split
  · exact Or.inl rfl
  · exact Or.inr rfl

end Answers

section Removal

/-- A directory is removed with what is in it, and the removal is reported as text. -/
def apiAppDelete (dumpError : Json → Bytes) (t : FileTree) (cwd : Place) (appId : Bytes) :
    FileTree × Except Bytes Response :=
  if badName appId then (t, .ok (jsonLiteral 400 "\x7b\"error\":\"Invalid app_id\"\x7d" 25))
  else if isDirectory t cwd (appsDir ++ slash :: appId) = false then
    (t, .ok (jsonLiteral 404 "\x7b\"error\":\"App not found\"\x7d" 24))
  else match removeAll t cwd (appsDir ++ slash :: appId) with
    | (t', false) =>
      (t', .ok (answer 500 (bytes "\x7b\"error\":\"Delete failed: Invalid argument\"\x7d")))
    | (t', true) => (t', answerJson dumpError
        (.object [(bytes "status", .str (bytes "deleted")), (bytes "app_id", .str appId)]))

end Removal

section Requests

/-- What comes as a C string, as paths and queries do. -/
abbrev CText := { s : Bytes // 0 ∉ s }

/-- The requests to the directories of the apps. -/
inductive AppRequest where
  | getData (appId key : CText)
  | postData (payload : Bytes)
  | delete (appId : CText)

variable (readFloat : Bytes → Option NumberText) (dumpError : Json → Bytes) (cwd : Place)

def served (x : FileTree × Except Bytes Response) : FileTree × Response := (x.1, handled x.2)

def serve (t : FileTree) : AppRequest → FileTree × Response
  | .getData appId key => (t, handled (getData readFloat dumpError t cwd appId.1 key.1))
  | .postData payload => served (postData readFloat dumpError t cwd payload)
  | .delete appId => served (apiAppDelete dumpError t cwd appId.1)

def serveAll (t : FileTree) : List AppRequest → FileTree × List Response
  | [] => (t, [])
  | r :: rs =>
    let x := serve readFloat dumpError cwd t r
    let y := serveAll x.1 rs
    (y.1, x.2 :: y.2)

end Requests

end WebApps
