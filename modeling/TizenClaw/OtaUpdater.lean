import TizenClaw.JsonStorable
import TizenClaw.OrderedMap
import TizenClaw.TaskSchedule

/-! Updates of skills over the air: a skill is backed up, downloaded and put in the place of the
installed one, and can be rolled back to its backup. Every call of the file system may fail. -/
namespace OtaUpdater

open ByteString JsonValue JsonDump JsonParse JsonStorable OrderedMap TaskSchedule

section FileSystem

inductive Node where
  | file (content : Bytes)
  | dir (entries : List (Bytes × Node))

def Node.entries : Node → List (Bytes × Node)
  | .file _ => []
  | .dir entries => entries

def setEntry (name : Bytes) (node : Node) : List (Bytes × Node) → List (Bytes × Node)
  | [] => [(name, node)]
  | e :: entries => if e.1 = name then (name, node) :: entries else e :: setEntry name node entries

mutual

/-- What is at a path after a copy to it. -/
def overlay (dest : Option Node) : Node → Node
  | .file content => .file content
  | .dir entries => .dir (overlayEntries ((dest.map Node.entries).getD []) entries)

def overlayEntries (old : List (Bytes × Node)) : List (Bytes × Node) → List (Bytes × Node)
  | [] => old
  | (name, node) :: entries =>
    setEntry name (overlay (old.lookup name) node) (overlayEntries old entries)

end

def backupName : Bytes := bytes ".backup"

/-- The name of the directory of a skill. -/
structure SkillName where
  text : Bytes
  component : text ≠ [] ∧ text ≠ bytes "." ∧ text ≠ bytes ".." ∧ (0x2F : UInt8) ∉ text
  notBackup : text ≠ backupName

/-- The entries of `skills_dir_`, the backups among them, and the downloads under `/tmp`. -/
structure Disk where
  skills : Map Bytes Node := .empty
  tmp : Map Bytes Bytes := .empty

def Disk.skill (disk : Disk) (name : SkillName) : Option Node := disk.skills.get name.text

def Disk.setSkill (disk : Disk) (name : SkillName) : Option Node → Disk
  | some node => { disk with skills := disk.skills.insert name.text node }
  | none => { disk with skills := disk.skills.erase name.text }

def Disk.backups (disk : Disk) : List (Bytes × Node) :=
  ((disk.skills.get backupName).map Node.entries).getD []

def Disk.setBackups (disk : Disk) (entries : List (Bytes × Node)) : Disk :=
  { disk with skills := disk.skills.insert backupName (.dir entries) }

/-- How the network, the clock and the calls of the file system turn out during an operation. -/
structure World where
  /-- The manifest, if it is fetched. -/
  manifest : Option Bytes
  createBackupDir : Bool
  now : ℤ
  /-- The copy to the backup fails and leaves something there, or nothing. -/
  backupFails : Option (Option Node)
  download : Option Bytes
  tmpOpens : Bool
  /-- What of the download reaches the file. -/
  written : Bytes → Bytes
  tmpReads : Bool
  /-- What `remove_all` leaves behind of a directory, if it fails. -/
  unremoved : Option Node
  createSkillDir : Bool
  /-- The message of the error, if the move fails. -/
  renameFails : Option Bytes
  lastWrite : Bytes → Option ℤ
  /-- The message of the error, if the copy of the backup fails, and what the copy makes of what it
  finds there. -/
  restoreFails : Option (Bytes × (Option Node → Option Node))

end FileSystem

section Versions

variable (readFloat : Bytes → Option NumberText)

/-- `ReadSkillVersion` -/
def readSkillVersion (skillDir : Option Node) : Bytes :=
  match skillDir.bind fun node => node.entries.lookup (bytes "manifest.json") with
  | some (.file content) =>
    match readStream readFloat content with
    | .ok j =>
      match j.member? (bytes "version") with
      | some (.str version) => version
      | _ => bytes "0.0.0"
    | .error _ => bytes "0.0.0"
  | _ => bytes "0.0.0"

def parseVersion (v : Bytes) : List ℤ :=
  let parts := (pieces 0x2E v).map fun token => (stoi token).getD 0
  parts ++ List.replicate (3 - parts.length) 0

def newerParts : List ℤ → List ℤ → Bool
  | l :: lv, r :: rv => if l < r then true else if r < l then false else newerParts lv rv
  | _, _ => false

/-- `IsNewerVersion` looks at three parts. -/
def isNewerVersion (installed remote : Bytes) : Bool :=
  newerParts ((parseVersion installed).take 3) ((parseVersion remote).take 3)

structure SkillUpdateInfo where
  name : Bytes
  remoteVersion : Bytes
  localVersion : Bytes
  downloadUrl : Bytes
  sha256 : Bytes
  updateAvailable : Bool
  deriving DecidableEq

def readInfo (disk : Disk) (skill : Json) : Except JsonException SkillUpdateInfo :=
  (skill.valueString (bytes "name") []).bind fun name =>
  (skill.valueString (bytes "version") (bytes "0.0.0")).bind fun version =>
  (skill.valueString (bytes "url") []).bind fun url =>
  (skill.valueString (bytes "sha256") []).map fun sha256 =>
    let installed := readSkillVersion readFloat (disk.skills.get name)
    ⟨name, version, installed, url, sha256, isNewerVersion installed version⟩

/-- An exception ends the loop; what was read before it is kept. -/
def readSkills (disk : Disk) : List Json → List SkillUpdateInfo
  | [] => []
  | skill :: skills =>
    match readInfo readFloat disk skill with
    | .error _ => []
    | .ok info => if info.name = [] then readSkills disk skills else info :: readSkills disk skills

/-- `ParseManifest` -/
def parseManifest (disk : Disk) (manifest : Bytes) : List SkillUpdateInfo :=
  match parse readFloat manifest with
  | .ok j =>
    match j.member? (bytes "skills") with
    | some (.arr skills) => readSkills readFloat disk skills
    | _ => []
  | .error _ => []

end Versions

section Operations

variable (readFloat : Bytes → Option NumberText) (sha256 : Bytes → Bytes)

/-- What an operation reports, once it is put into a text. -/
inductive Report where
  | error (message : Bytes)
  | status (text : Bytes)
  deriving DecidableEq, Repr

def Report.text : Report → Bytes
  | .error message => bytes "\x7b\"error\":\"" ++ message ++ bytes "\"\x7d"
  | .status text => text

/-- `BackupSkill` -/
def backupSkill (w : World) (name : SkillName) (disk : Disk) : Bool × Disk :=
  match disk.skill name with
  | none => (true, disk)
  | some src =>
    if w.createBackupDir then
      let dest := name.text ++ bytes "_" ++ decimalInt w.now
      let old := disk.backups.lookup dest
      match w.backupFails with
      | none => (true, disk.setBackups (setEntry dest (overlay old src) disk.backups))
      | some (some left) => (false, disk.setBackups (setEntry dest left disk.backups))
      | some none => (false, disk.setBackups disk.backups)
    else (false, disk)

/-- `DownloadFile`; whether the text was written is not checked. -/
def downloadFile (w : World) (name : SkillName) (disk : Disk) : Bool × Disk :=
  match w.download with
  | none => (false, disk)
  | some body =>
    if w.tmpOpens then (true, { disk with tmp := disk.tmp.insert name.text (w.written body) })
    else (false, disk)

/-- `VerifySha256`: nothing is checked without a sum. -/
def verifySha256 (w : World) (content expected : Bytes) : Bool :=
  expected = [] ∨ (w.tmpReads ∧ sha256 content = expected)

/-- `UpdateSkill` up to the removal of the installed skill. -/
def prepare (w : World) (name : SkillName) (disk : Disk) :
    Except Report SkillUpdateInfo × Disk :=
  match w.manifest with
  | none => (.error (.error (bytes "Manifest fetch failed")), disk)
  | some manifest =>
    match (parseManifest readFloat disk manifest).find? fun u => u.name = name.text with
    | none => (.error (.error (bytes "Skill not found in manifest")), disk)
    | some target =>
      if target.updateAvailable then
        let backup := backupSkill w name disk
        if backup.1 then
          let download := downloadFile w name backup.2
          if download.1 then
            if verifySha256 sha256 w ((download.2.tmp.get name.text).getD []) target.sha256 then
              (.ok target, download.2)
            else (.error (.error (bytes "SHA-256 mismatch")),
              { download.2 with tmp := download.2.tmp.erase name.text })
          else (.error (.error (bytes "Download failed")), download.2)
        else (.error (.error (bytes "Backup failed")), backup.2)
      else (.error (.status (bytes "\x7b\"status\":\"up_to_date\",\"version\":\"" ++
        target.localVersion ++ bytes "\"\x7d")), disk)

/-- `remove_all` -/
def World.removeAll (w : World) : Option Node → Option Node
  | none => none
  | some _ => w.unremoved

/-- `create_directories` -/
def World.createDirectory (w : World) : Option Node → Option Node
  | none => if w.createSkillDir then some (.dir []) else none
  | some node => some node

/-- `rename` into a directory: the message of the error, if it fails. -/
def World.move (w : World) : Option Node → Option Bytes
  | some (.dir _) => w.renameFails
  | some (.file _) => some (bytes "Not a directory")
  | none => some (bytes "No such file or directory")

/-- `UpdateSkill`; `configured` says whether there is a manifest URL. -/
def updateSkill (configured : Bool) (w : World) (name : SkillName) (disk : Disk) :
    Except JsonException Report × Disk :=
  if configured then
    match prepare readFloat sha256 w name disk with
    | (.error report, disk) => (.ok report, disk)
    | (.ok target, disk) =>
      let skillDir := w.createDirectory (w.removeAll (disk.skill name))
      match w.move skillDir with
      | some message => (.ok (.error (bytes "Install failed: " ++ message)),
          disk.setSkill name skillDir)
      | none =>
        let manifest := Node.file ((disk.tmp.get name.text).getD [])
        let entries := setEntry (bytes "manifest.json") manifest
          ((skillDir.map Node.entries).getD [])
        let text := dump (.object [(bytes "status", .str (bytes "updated")),
          (bytes "tool", .str name.text), (bytes "old_version", .str target.localVersion),
          (bytes "new_version", .str target.remoteVersion)])
        (text.map .status, { disk.setSkill name (some (.dir entries)) with
          tmp := disk.tmp.erase name.text })
  else (.ok (.error (bytes "No manifest URL configured")), disk)

/-- The backup that was written last, the first one of them. -/
def latestBackup (w : World) (name : SkillName) (entries : List (Bytes × Node)) :
    Option (Bytes × Node) :=
  (entries.foldl (fun latest e =>
    if (name.text ++ bytes "_").isPrefixOf e.1 then
      match w.lastWrite e.1, latest with
      | none, _ => latest
      | some t, none => some (e, t)
      | some t, some (l, u) => if u < t then some (e, t) else some (l, u)
    else latest) (none : Option ((Bytes × Node) × ℤ))).map Prod.fst

/-- `RollbackSkill` -/
def rollbackSkill (w : World) (name : SkillName) (disk : Disk) :
    Except JsonException Report × Disk :=
  match disk.skills.get backupName with
  | none => (.ok (.error (bytes "No backups found")), disk)
  | some _ =>
    match latestBackup w name disk.backups with
    | none => (.ok (.error (bytes "No backup found for " ++ name.text)), disk)
    | some backup =>
      match w.restoreFails with
      | some (message, copied) => (.ok (.error (bytes "Rollback failed: " ++ message)),
          disk.setSkill name (copied (w.removeAll (disk.skill name))))
      | none =>
        let restored := overlay (w.removeAll (disk.skill name)) backup.2
        let rest := disk.backups.filter fun e => e.1 ≠ backup.1
        let text := dump (.object [(bytes "status", .str (bytes "rolled_back")),
          (bytes "tool", .str name.text),
          (bytes "restored_version", .str (readSkillVersion readFloat (some restored)))])
        (text.map .status, (disk.setSkill name (some restored)).setBackups rest)

end Operations

section Atomicity

variable {readFloat : Bytes → Option NumberText} {sha256 : Bytes → Bytes} {w : World}
  {name : SkillName} {disk : Disk}

/-- When an error is reported, the directory of the skill and its version are as they were. -/
def Atomic (readFloat : Bytes → Option NumberText) (name : SkillName) (disk : Disk)
    (x : Except JsonException Report × Disk) : Prop :=
  ∀ message, x.1 = .ok (.error message) → x.2.skill name = disk.skill name ∧
    readSkillVersion readFloat (x.2.skill name) = readSkillVersion readFloat (disk.skill name)

/-- The removal and the creation of the directory left what was there: there was none and none could
be made, or nothing was removed, or the directory was empty. -/
def Spared (w : World) : Option Node → Prop
  | none => w.createSkillDir = false
  | some node => w.unremoved = some node ∨
      (w.unremoved = none ∧ w.createSkillDir = true ∧ node = .dir [])

/-- If an update comes to the removal, then the download can be moved into the directory, or nothing
was lost before that. -/
def UpdateSafe (readFloat : Bytes → Option NumberText) (sha256 : Bytes → Bytes) (configured : Bool)
    (w : World) (name : SkillName) (disk : Disk) : Prop :=
  configured = true → ∀ target disk', prepare readFloat sha256 w name disk = (.ok target, disk') →
    w.move (w.createDirectory (w.removeAll (disk.skill name))) = none ∨
      Spared w (disk.skill name)

/-- If there is a backup, then it can be copied, or what the removal and the copy leave is the
directory as it was. -/
def RollbackSafe (w : World) (name : SkillName) (disk : Disk) : Prop :=
  (disk.skills.get backupName).isSome → (latestBackup w name disk.backups).isSome →
    ∀ message copied, w.restoreFails = some (message, copied) →
      copied (w.removeAll (disk.skill name)) = disk.skill name

theorem skill_setSkill (disk : Disk) (name : SkillName) (node : Option Node) :
    (disk.setSkill name node).skill name = node := by
  cases node with
  | none => exact Map.get_erase_self _ _
  | some node => exact Map.get_insert_self _ _ _

theorem skill_setBackups (disk : Disk) (name : SkillName) (entries : List (Bytes × Node)) :
    (disk.setBackups entries).skill name = disk.skill name :=
  Map.get_insert_other name.notBackup _ _

theorem backupSkill_skill (w : World) (name : SkillName) (disk : Disk) :
    (backupSkill w name disk).2.skill name = disk.skill name := by
  unfold backupSkill
  split
  · rfl
  · split_ifs
    · dsimp only
      split
      · exact skill_setBackups _ _ _
      · exact skill_setBackups _ _ _
      · exact skill_setBackups _ _ _
    · rfl

theorem downloadFile_skill (w : World) (name : SkillName) (disk : Disk) :
    (downloadFile w name disk).2.skill name = disk.skill name := by
  unfold downloadFile
  split
  · rfl
  · split_ifs
    · rfl
    · rfl

/-- Nothing before the removal touches the skill. -/
theorem prepare_skill (w : World) (name : SkillName) (disk : Disk) :
    (prepare readFloat sha256 w name disk).2.skill name = disk.skill name := by
  have hdownload : (downloadFile w name (backupSkill w name disk).2).2.skill name =
      disk.skill name := by rw [downloadFile_skill, backupSkill_skill]
  unfold prepare
  split
  · rfl
  · split
    · rfl
    · dsimp only
      split_ifs
      · exact hdownload
      · exact hdownload
      · exact hdownload
      · exact backupSkill_skill w name disk
      · rfl

theorem spared_iff (w : World) (before : Option Node) :
    w.createDirectory (w.removeAll before) = before ↔ Spared w before := by
  cases before with
  | none =>
    rw [World.removeAll, World.createDirectory, Spared]
    cases w.createSkillDir <;> simp
  | some node =>
    rw [World.removeAll, Spared]
    cases w.unremoved with
    | some left => simp [World.createDirectory]
    | none =>
      rw [World.createDirectory]
      cases w.createSkillDir
      · simp
      · simp only [↓reduceIte, Option.some.injEq, reduceCtorEq, true_and, false_or]
        exact eq_comm

theorem atomic_iff_skill {x : Except JsonException Report × Disk} :
    Atomic readFloat name disk x ↔
      ∀ message, x.1 = .ok (.error message) → x.2.skill name = disk.skill name := by
  constructor
  · exact fun h message hm => (h message hm).1
  · exact fun h message hm => ⟨h message hm, congrArg _ (h message hm)⟩

theorem status_ne_error {x : Except JsonException Bytes} {message : Bytes} :
    x.map Report.status ≠ .ok (.error message) := by
  cases x with
  | error e => exact fun h => by cases h
  | ok text =>
    intro h
    cases Except.ok.inj h

theorem update_atomic_iff (configured : Bool) (w : World) (name : SkillName) (disk : Disk) :
    Atomic readFloat name disk (updateSkill readFloat sha256 configured w name disk) ↔
      UpdateSafe readFloat sha256 configured w name disk := by
  rw [atomic_iff_skill, updateSkill, UpdateSafe]
  cases configured with
  | false => exact iff_of_true (fun _ _ => rfl) nofun
  | true =>
    have hskill : (prepare readFloat sha256 w name disk).2.skill name = disk.skill name :=
      prepare_skill w name disk
    rw [if_pos rfl]
    rcases hp : prepare readFloat sha256 w name disk with ⟨report | target, disk'⟩
    · rw [hp] at hskill
      exact iff_of_true (fun _ _ => hskill) (by simp)
    · rw [hp] at hskill
      have hskill : disk'.skill name = disk.skill name := hskill
      simp only [forall_const, Prod.mk.injEq, Except.ok.injEq, and_imp, hskill]
      cases hm : w.move (w.createDirectory (w.removeAll (disk.skill name))) with
      | none => exact iff_of_true (fun _ h => absurd h status_ne_error) fun _ _ _ _ => .inl rfl
      | some message =>
        dsimp only
        rw [skill_setSkill, ← spared_iff]
        simp

theorem rollback_atomic_iff (w : World) (name : SkillName) (disk : Disk) :
    Atomic readFloat name disk (rollbackSkill readFloat w name disk) ↔
      RollbackSafe w name disk := by
  rw [atomic_iff_skill, rollbackSkill, RollbackSafe]
  cases disk.skills.get backupName with
  | none => exact iff_of_true (fun _ _ => rfl) nofun
  | some node =>
    dsimp only
    cases latestBackup w name disk.backups with
    | none => exact iff_of_true (fun _ _ => rfl) (by simp)
    | some backup =>
      dsimp only
      cases w.restoreFails with
      | none => exact iff_of_true (fun message h => absurd h status_ne_error) (by simp)
      | some fails =>
        obtain ⟨message, copied⟩ := fails
        dsimp only
        rw [skill_setSkill]
        simp

/-- Both operations are atomic exactly if what they remove can be replaced or was not removed. -/
theorem operations_atomic_iff (readFloat : Bytes → Option NumberText) (sha256 : Bytes → Bytes)
    (configured : Bool) (w : World) (name : SkillName) (disk : Disk) :
    (Atomic readFloat name disk (updateSkill readFloat sha256 configured w name disk) ↔
      UpdateSafe readFloat sha256 configured w name disk) ∧
    (Atomic readFloat name disk (rollbackSkill readFloat w name disk) ↔
      RollbackSafe w name disk) :=
  ⟨update_atomic_iff configured w name disk, rollback_atomic_iff w name disk⟩

end Atomicity

namespace Counterexample

def manifest (version : String) : Bytes :=
  bytes "\x7b\"version\":\"" ++ bytes version ++ bytes "\"\x7d"

def installed : Node := .dir [(bytes "manifest.json", .file (manifest "1.0.0"))]

def weather : SkillName := ⟨bytes "weather", by decide, by decide⟩

/-- The skill is installed, and there is a backup of it. -/
def disk : Disk where
  skills := ⟨[(backupName, .dir [(bytes "weather_5", installed)]), (bytes "weather", installed)],
    by decide⟩

/-- Everything works but the move from `/tmp`, which is on another device, and the restoring copy. -/
def world : World where
  manifest := some (bytes "\x7b\"skills\":[\x7b\"name\":\"weather\",\"version\":\"1.1.0\"\x7d]\x7d")
  createBackupDir := true
  now := 10
  backupFails := none
  download := some (manifest "1.1.0")
  tmpOpens := true
  written := id
  tmpReads := true
  unremoved := none
  createSkillDir := true
  renameFails := some (bytes "Invalid cross-device link")
  lastWrite := fun _ => some 5
  restoreFails := some (bytes "No space left on device", id)

/-- Both operations report an error, and the skill is gone. -/
theorem skill_lost :
    ¬ Atomic (fun _ => none) weather disk (updateSkill (fun _ => none) id true world weather disk) ∧
    ¬ Atomic (fun _ => none) weather disk (rollbackSkill (fun _ => none) world weather disk) := by
  constructor
  · intro h
    have herror : (updateSkill (fun _ => none) id true world weather disk).1 =
        .ok (.error (bytes "Install failed: Invalid cross-device link")) := by decide +kernel
    exact absurd (h _ herror).2 (by decide +kernel)
  · intro h
    have herror : (rollbackSkill (fun _ => none) world weather disk).1 =
        .ok (.error (bytes "Rollback failed: No space left on device")) := by decide +kernel
    exact absurd (h _ herror).2 (by decide +kernel)

end Counterexample

end OtaUpdater
