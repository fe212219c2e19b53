import TizenClaw.ByteLines
import TizenClaw.TaskScheduler

/-! Task files: what `SaveTask` writes and what `LoadTasks` reads back. -/
namespace TaskFile

open ByteString ByteLines JsonDump OrderedMap TaskSchedule TaskScheduler

/-- The keys of the frontmatter. -/
inductive Key where
  | id
  | schedule
  | prompt
  | sessionId
  | status
  | createdAt
  | nextRun
  | lastRun
  | runCount
  | failCount
  | maxRetries
  deriving DecidableEq, Repr

def Key.text : Key → Bytes
  | .id => bytes "id"
  | .schedule => bytes "schedule"
  | .prompt => bytes "prompt"
  | .sessionId => bytes "session_id"
  | .status => bytes "status"
  | .createdAt => bytes "created_at"
  | .nextRun => bytes "next_run"
  | .lastRun => bytes "last_run"
  | .runCount => bytes "run_count"
  | .failCount => bytes "fail_count"
  | .maxRetries => bytes "max_retries"

def Key.all : List Key :=
  [.id, .schedule, .prompt, .sessionId, .status, .createdAt, .nextRun, .lastRun, .runCount,
    .failCount, .maxRetries]

section Write

variable (cal : Calendar)

def formatTime (t : Time) : Bytes :=
  cal.strftime (bytes "%Y-%m-%dT%H:%M:%S") (cal.localtime (toTimeT t))

def taskStatusToString : TaskStatus → Bytes
  | .active => bytes "active"
  | .paused => bytes "paused"
  | .completed => bytes "completed"
  | .failed => bytes "failed"
  | .cancelled => bytes "cancelled"

/-- A line of the frontmatter, without its newline. -/
def field (key : Key) (val : Bytes) : Bytes := key.text ++ (bytes ": " ++ val)

/-- The lines with the schedule, the prompt and the session, which are free text. -/
def freeText (task : ScheduledTask) : Bytes :=
  unlines [field .schedule task.scheduleExpr, field .prompt (0x22 :: task.prompt ++ [0x22]),
    field .sessionId task.sessionId]

def fixedLines (task : ScheduledTask) : List Bytes :=
  [field .status (taskStatusToString task.status),
    field .createdAt (formatTime cal task.createdAt),
    field .nextRun (formatTime cal task.nextRun)] ++
  (if 0 < task.runCount then [field .lastRun (formatTime cal task.lastRun)] else []) ++
  [field .runCount (decimalInt task.runCount), field .failCount (decimalInt task.failCount),
    field .maxRetries (decimalInt task.maxRetries)]

def historyRow (num : ℤ) (e : TaskExecEntry) : Bytes :=
  bytes "| " ++ decimalInt num ++ bytes " | " ++ e.timestamp ++ bytes " | " ++ e.status ++
    bytes " | " ++ decimalInt e.durationMs ++ bytes "ms | " ++ e.resultSummary ++ bytes " |"

/-- The rows count down from the number of executions. -/
def historyRows (num : ℤ) : List TaskExecEntry → List Bytes
  | [] => []
  | e :: history => historyRow num e :: historyRows (num - 1) history

def historyTable (task : ScheduledTask) : Bytes :=
  if task.history = [] then []
  else unlines ([bytes "## Execution History", [],
    bytes "| # | Timestamp | Status | Duration | Result |",
    bytes "|---|-----------|--------|----------|--------|"] ++
      historyRows task.runCount task.history)

/-- The text of `SaveTask`. -/
def taskText (task : ScheduledTask) : Bytes :=
  bytes "---\n" ++ unlines [field .id task.id] ++ freeText task ++
    unlines (fixedLines cal task) ++ bytes "---\n\n" ++ historyTable task

def taskPath (id : Bytes) : Bytes := bytes "task-" ++ id ++ bytes ".md"

/-- The directory of the tasks under the names of its files. -/
abbrev Directory := Map Bytes Bytes

/-- `SaveTask`, when it can write: the new text is renamed over the old file. -/
def saveTask (dir : Directory) (task : ScheduledTask) : Directory :=
  dir.insert (taskPath task.id) (taskText cal task)

end Write

section Read

variable (cal : Calendar)

def stringToTaskStatus (s : Bytes) : TaskStatus :=
  if s = bytes "active" then .active
  else if s = bytes "paused" then .paused
  else if s = bytes "completed" then .completed
  else if s = bytes "failed" then .failed
  else if s = bytes "cancelled" then .cancelled
  else .active

/-- What the clock reads while a file is loaded: where a text is no time, before the next run is
compared, and where it is computed again. -/
structure Readings where
  parsing : Bytes → Time
  loading : Time
  computing : Time

def parseTime (now : Time) (s : Bytes) : Time :=
  match cal.strptime (bytes "%Y-%m-%dT%H:%M:%S") s with
  | some tm => fromTimeT (cal.mktime { tm with isdst := -1 }).1
  | none =>
    match cal.strptime (bytes "%Y-%m-%d %H:%M") s with
    | some tm => fromTimeT (cal.mktime { tm with isdst := -1 }).1
    | none => now

def Quoted (val : Bytes) : Prop :=
  2 ≤ val.length ∧ val.head? = some 0x22 ∧ val.getLast? = some 0x22

instance (val : Bytes) : Decidable (Quoted val) := inferInstanceAs (Decidable (_ ∧ _))

def unquote (val : Bytes) : Bytes :=
  if Quoted val then (val.drop 1).take (val.length - 2) else val

def keyOf (text : Bytes) : Option Key := Key.all.find? fun key => key.text = text

/-- The known key of a line, and its value. -/
def keyValue (line : Bytes) : Option (Key × Bytes) :=
  (find (bytes ": ") line).bind fun colon =>
    (keyOf (line.take colon)).map fun key => (key, unquote (line.drop (colon + 2)))

/-- A value into its field. What `stoi` throws is caught. -/
def setField (clock : Readings) (task : ScheduledTask) (val : Bytes) : Key → ScheduledTask
  | .id => { task with id := val }
  | .schedule => { task with scheduleExpr := val }
  | .prompt => { task with prompt := val }
  | .sessionId => { task with sessionId := val }
  | .status => { task with status := stringToTaskStatus val }
  | .createdAt => { task with createdAt := parseTime cal (clock.parsing val) val }
  | .nextRun => { task with nextRun := parseTime cal (clock.parsing val) val }
  | .lastRun => { task with lastRun := parseTime cal (clock.parsing val) val }
  | .runCount => { task with runCount := (stoi val).getD task.runCount }
  | .failCount => { task with failCount := (stoi val).getD task.failCount }
  | .maxRetries => { task with maxRetries := (stoi val).getD task.maxRetries }

def readField (clock : Readings) (task : ScheduledTask) (line : Bytes) : ScheduledTask :=
  match keyValue line with
  | none => task
  | some (key, val) => setField cal clock task val key

def readFields (clock : Readings) (ls : List Bytes) : ScheduledTask :=
  ls.foldl (readField cal clock) {}

/-- The cells of a row that are not blank. -/
def cells (row : Bytes) : List Bytes :=
  ((pieces 0x7C row).map (trim [space])).filter (· ≠ [])

def readDuration (cell : Bytes) : ℤ :=
  (stoi (match find (bytes "ms") cell with
    | some i => cell.take i
    | none => cell)).getD 0

def readEntry (row : Bytes) : Option TaskExecEntry :=
  match cells row with
  | _ :: timestamp :: status :: duration :: result =>
    some { timestamp := timestamp, status := status, durationMs := readDuration duration
           resultSummary := result.headD [] }
  | _ => none

/-- `skip` counts the rows since the last heading; the first two are the head of the table. -/
structure HistoryReader where
  skip : ℕ := 0
  history : List TaskExecEntry := []

def readHistoryLine (r : HistoryReader) : Bytes → HistoryReader
  | [] => r
  | c :: line =>
    if c = 0x23 then { r with skip := 0 }
    else if c = 0x7C then
      if r.skip + 1 ≤ 2 then { r with skip := r.skip + 1 }
      else { skip := r.skip + 1, history := r.history ++ (readEntry (c :: line)).toList }
    else r

/-- The heading is searched in the whole file. -/
def readHistory (content : Bytes) : List TaskExecEntry :=
  match find (bytes "## Execution History") content with
  | none => []
  | some i => ((lines (content.drop i)).foldl readHistoryLine {}).history

/-- Only these are reloaded. -/
def Live (task : ScheduledTask) : Prop := task.status = .active ∨ task.status = .paused

instance (task : ScheduledTask) : Decidable (Live task) := inferInstanceAs (Decidable (_ ∨ _))

/-- The task of a frontmatter, with its schedule and its history. The schedule type is read even
where the schedule could not be parsed. -/
def reload (clock : Readings) (task : ScheduledTask) (history : List TaskExecEntry) :
    Option ScheduledTask :=
  if task.id = [] then none
  else
    let task := { (parseSchedule cal task.scheduleExpr task).1 with history := history }
    if Live task then
      if task.scheduleType ≠ some .once ∧ task.nextRun ≤ clock.loading then
        some (computeNextRun cal task clock.computing)
      else some task
    else none

/-- What `LoadTasks` takes from one file. -/
def loadFile (clock : Readings) (content : Bytes) : Option ScheduledTask :=
  if content.take 4 = bytes "---\n" then
    (find (bytes "\n---\n") (content.drop 4)).bind fun k =>
      reload cal clock (readFields cal clock (lines ((content.drop 4).take k)))
        (readHistory content)
  else none

def IsTaskName (name : Bytes) : Prop := 4 ≤ name.length ∧ bytes ".md" <:+ name

instance (name : Bytes) : Decidable (IsTaskName name) := inferInstanceAs (Decidable (_ ∧ _))

def loadEntry (clock : Bytes → Readings) (e : Bytes × Bytes) : Option ScheduledTask :=
  if IsTaskName e.1 then loadFile cal (clock e.1) e.2 else none

def store (tasks : Tasks) (task : Option ScheduledTask) : Tasks :=
  match task with
  | none => tasks
  | some task => tasks.insert task.id task

/-- `LoadTasks` into a scheduler without tasks, in the order in which the directory is listed. -/
def loadTasks (clock : Bytes → Readings) (listing : List (Bytes × Bytes)) : Tasks :=
  (listing.map (loadEntry cal clock)).foldl store Map.empty

end Read

end TaskFile
