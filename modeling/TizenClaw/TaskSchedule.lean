import TizenClaw.JsonDump
import TizenClaw.JsonParse

/-! Scheduled tasks: their record, the schedule expressions and the next due instant. -/
namespace TaskSchedule

open ByteString JsonValue JsonParse

section Streams

def isSpace (b : UInt8) : Bool := b = 0x20 ∨ 0x09 ≤ b ∧ b ≤ 0x0D

/-- `operator>>` into a string: the next word and what is left. -/
def word (s : Bytes) : Bytes × Bytes :=
  let s := s.dropWhile isSpace
  (s.takeWhile (! isSpace ·), s.dropWhile (! isSpace ·))

/-- `std::stoi`, which throws without a digit and outside of 32 bits. -/
def stoi (s : Bytes) : Option ℤ :=
  let s := s.dropWhile isSpace
  let signed : Bool × Bytes := match s with
    | 0x2D :: t => (true, t)
    | 0x2B :: t => (false, t)
    | _ => (false, s)
  let ds := signed.2.takeWhile isDigit
  if ds = [] then none
  else
    let v : ℤ := if signed.1 then -(digitsValue ds : ℤ) else digitsValue ds
    if -2 ^ 31 ≤ v ∧ v < 2 ^ 31 then some v else none

end Streams

/-- An instant of the system clock, in nanoseconds. -/
abbrev Time := ℤ

/-- `struct tm` -/
structure Tm where
  sec : ℤ := 0
  min : ℤ := 0
  hour : ℤ := 0
  mday : ℤ := 0
  mon : ℤ := 0
  year : ℤ := 0
  wday : ℤ := 0
  isdst : ℤ := 0
  deriving DecidableEq, Repr

/-- The C library in its time zone; `mktime` normalizes the fields it is given. -/
structure Calendar where
  localtime : ℤ → Tm
  mktime : Tm → ℤ × Tm
  strptime (format text : Bytes) : Option Tm
  strftime (format : Bytes) (tm : Tm) : Bytes

def toTimeT (t : Time) : ℤ := t.tdiv (10 ^ 9)
def fromTimeT (t : ℤ) : Time := t * 10 ^ 9

def hours (n : ℤ) : Time := n * 3600 * 10 ^ 9

inductive ScheduleType where
  | once
  | daily
  | weekly
  | interval
  deriving DecidableEq, Repr

inductive TaskStatus where
  | active
  | paused
  | completed
  | failed
  | cancelled
  deriving DecidableEq, Repr

structure TaskExecEntry where
  timestamp : Bytes
  status : Bytes
  durationMs : ℤ := 0
  resultSummary : Bytes
  deriving DecidableEq, Repr

/-- A new record has no schedule type yet; reading it is undefined. -/
structure ScheduledTask where
  id : Bytes := []
  scheduleType : Option ScheduleType := none
  scheduleExpr : Bytes := []
  prompt : Bytes := []
  sessionId : Bytes := []
  status : TaskStatus := .active
  nextRun : Time := 0
  createdAt : Time := 0
  lastRun : Time := 0
  runCount : ℤ := 0
  failCount : ℤ := 0
  maxRetries : ℤ := 3
  intervalSeconds : ℤ := 0
  hour : ℤ := 0
  minute : ℤ := 0
  weekday : ℤ := -1
  history : List TaskExecEntry := []
  deriving DecidableEq, Repr

section Parse

variable (cal : Calendar)

/-- `HH:MM` into the task. The hour stays set when the minute is bad. -/
def parseClock (time : Bytes) (task : ScheduledTask) : ScheduledTask × Bool :=
  match find (bytes ":") time with
  | none => (task, false)
  | some pos =>
    match stoi (time.take pos) with
    | none => (task, false)
    | some hour =>
      match stoi (time.drop (pos + 1)) with
      | none => ({ task with hour := hour }, false)
      | some minute =>
        ({ task with hour := hour, minute := minute },
          0 ≤ hour ∧ hour ≤ 23 ∧ 0 ≤ minute ∧ minute ≤ 59)

/-- The type is set at the end of a successful parse. -/
def withType (type : ScheduleType) (x : ScheduledTask × Bool) : ScheduledTask × Bool :=
  if x.2 then ({ x.1 with scheduleType := some type }, true) else x

/-- A product of 32-bit integers, which wraps around. -/
def times32 (a b : ℤ) : ℤ := (a * b).bmod (2 ^ 32)

def parseInterval (value : Bytes) (task : ScheduledTask) : ScheduledTask × Bool :=
  match value.getLast? with
  | none => (task, false)
  | some unit =>
    match stoi value.dropLast with
    | none => (task, false)
    | some val =>
      if val ≤ 0 then (task, false)
      else if unit = 0x73 then ({ task with intervalSeconds := val }, true)
      else if unit = 0x6D then ({ task with intervalSeconds := times32 val 60 }, true)
      else if unit = 0x68 then ({ task with intervalSeconds := times32 val 3600 }, true)
      else (task, false)

def parseOnce (date time : Bytes) (task : ScheduledTask) : ScheduledTask × Bool :=
  match cal.strptime (bytes "%Y-%m-%d %H:%M") (date ++ bytes " " ++ time) with
  | none => (task, false)
  | some tm =>
    let t := (cal.mktime { tm with isdst := -1 }).1
    if t = -1 then (task, false) else ({ task with nextRun := fromTimeT t }, true)

def dayMap : List (Bytes × ℤ) :=
  [(bytes "sun", 0), (bytes "mon", 1), (bytes "tue", 2), (bytes "wed", 3), (bytes "thu", 4),
    (bytes "fri", 5), (bytes "sat", 6)]

def parseSchedule (expr : Bytes) (task : ScheduledTask) : ScheduledTask × Bool :=
  let type := word expr
  let typeStr := type.1.map toLower
  if typeStr = bytes "daily" then
    withType .daily (parseClock (word type.2).1 task)
  else if typeStr = bytes "interval" then
    withType .interval (parseInterval (word type.2).1 task)
  else if typeStr = bytes "once" then
    let date := word type.2
    withType .once (parseOnce cal date.1 (word date.2).1 task)
  else if typeStr = bytes "weekly" then
    let day := word type.2
    match dayMap.lookup (day.1.map toLower) with
    | none => (task, false)
    | some weekday =>
      withType .weekly (parseClock (word day.2).1 { task with weekday := weekday })
  else (task, false)

end Parse

section Frame

/-- A parse sets the schedule of a task and nothing else. -/
structure SameButSchedule (a b : ScheduledTask) : Prop where
  id : b.id = a.id
  scheduleExpr : b.scheduleExpr = a.scheduleExpr
  prompt : b.prompt = a.prompt
  sessionId : b.sessionId = a.sessionId
  status : b.status = a.status
  createdAt : b.createdAt = a.createdAt
  lastRun : b.lastRun = a.lastRun
  runCount : b.runCount = a.runCount
  failCount : b.failCount = a.failCount
  maxRetries : b.maxRetries = a.maxRetries
  history : b.history = a.history

theorem SameButSchedule.refl (a : ScheduledTask) : SameButSchedule a a :=
  ⟨rfl, rfl, rfl, rfl, rfl, rfl, rfl, rfl, rfl, rfl, rfl⟩

theorem withType_frame {a : ScheduledTask} (type : ScheduleType) {x : ScheduledTask × Bool}
    (h : SameButSchedule a x.1) : SameButSchedule a (withType type x).1 := by
  unfold withType
  split_ifs
  · exact ⟨h.id, h.scheduleExpr, h.prompt, h.sessionId, h.status, h.createdAt, h.lastRun,
      h.runCount, h.failCount, h.maxRetries, h.history⟩
  · exact h

theorem parseClock_frame (time : Bytes) (task : ScheduledTask) :
    SameButSchedule task (parseClock time task).1 := by
  unfold parseClock
  split
  · exact .refl task
  split
  · exact .refl task
  split
  · exact ⟨rfl, rfl, rfl, rfl, rfl, rfl, rfl, rfl, rfl, rfl, rfl⟩
  · exact ⟨rfl, rfl, rfl, rfl, rfl, rfl, rfl, rfl, rfl, rfl, rfl⟩

theorem parseInterval_frame (value : Bytes) (task : ScheduledTask) :
    SameButSchedule task (parseInterval value task).1 := by
  unfold parseInterval
  split
  · exact .refl task
  split
  · exact .refl task
  split_ifs
  all_goals exact ⟨rfl, rfl, rfl, rfl, rfl, rfl, rfl, rfl, rfl, rfl, rfl⟩

theorem parseOnce_frame (cal : Calendar) (date time : Bytes) (task : ScheduledTask) :
    SameButSchedule task (parseOnce cal date time task).1 := by
  unfold parseOnce
  split
  · exact .refl task
  dsimp only
  split_ifs
  all_goals exact ⟨rfl, rfl, rfl, rfl, rfl, rfl, rfl, rfl, rfl, rfl, rfl⟩

theorem parseSchedule_frame (cal : Calendar) (expr : Bytes) (task : ScheduledTask) :
    SameButSchedule task (parseSchedule cal expr task).1 := by
  unfold parseSchedule
  dsimp only
  split_ifs
  · exact withType_frame _ (parseClock_frame _ _)
  · exact withType_frame _ (parseInterval_frame _ _)
  · exact withType_frame _ (parseOnce_frame _ _ _ _)
  · split
    · exact .refl task
    · rename_i weekday _
      have h := parseClock_frame (word (word (word expr).2).2).1 { task with weekday := weekday }
      apply withType_frame
      exact ⟨h.id, h.scheduleExpr, h.prompt, h.sessionId, h.status, h.createdAt, h.lastRun,
        h.runCount, h.failCount, h.maxRetries, h.history⟩
  · exact .refl task

end Frame

section NextRun

variable (cal : Calendar)

/-- The instant at the task's hour and minute on the day of `now`. -/
def todayAt (task : ScheduledTask) (now : Time) : Tm :=
  { cal.localtime (toTimeT now) with
    hour := task.hour, min := task.minute, sec := 0, isdst := -1 }

def nextDaily (task : ScheduledTask) (now : Time) : ℤ :=
  let next := (cal.mktime (todayAt cal task now)).1
  if next ≤ toTimeT now then next + 24 * 3600 else next

def nextWeekly (task : ScheduledTask) (now : Time) : ℤ :=
  let today := todayAt cal task now
  let ahead := task.weekday - (cal.localtime (toTimeT now)).wday
  let ahead := if ahead < 0 then ahead + 7 else ahead
  -- on the same day the first call of `mktime` normalizes the fields of the second
  let next : Tm × ℤ :=
    if ahead = 0 then
      let candidate := cal.mktime today
      (candidate.2, if candidate.1 ≤ toTimeT now then 7 else 0)
    else (today, ahead)
  (cal.mktime { next.1 with mday := next.1.mday + next.2, isdst := -1 }).1

/-- `ComputeNextRun` at a reading of the clock. -/
def nextRun (task : ScheduledTask) (now : Time) : Time :=
  match task.scheduleType with
  | some .daily => fromTimeT (nextDaily cal task now)
  | some .interval => now + task.intervalSeconds * 10 ^ 9
  | some .weekly => fromTimeT (nextWeekly cal task now)
  | some .once | none => task.nextRun

def computeNextRun (task : ScheduledTask) (now : Time) : ScheduledTask :=
  { task with nextRun := nextRun cal task now }

end NextRun

section TaskId

def hex (n : ℕ) : Bytes := (Nat.toDigits 16 n).map fun c => UInt8.ofNat c.toNat

/-- `GenerateTaskId` with the number it draws. -/
def generateTaskId (now : Time) (drawn : ℕ) : Bytes :=
  hex (now.tdiv (10 ^ 6) % 2 ^ 24).toNat ++ bytes "-" ++ hex drawn

/-- The clock part of an id comes back after 2^24 milliseconds. -/
theorem generateTaskId_period (now : ℤ) (h : 0 ≤ now) (drawn : ℕ) :
    generateTaskId (now + 2 ^ 24 * 10 ^ 6) drawn = generateTaskId now drawn := by
  have hm : (now + 2 ^ 24 * 10 ^ 6).tdiv (10 ^ 6) % 2 ^ 24 = now.tdiv (10 ^ 6) % 2 ^ 24 := by
    rw [Int.tdiv_eq_ediv_of_nonneg h, Int.tdiv_eq_ediv_of_nonneg (by omega)]
    omega
  rw [generateTaskId, hm, generateTaskId]

end TaskId

section Utc

/-- Days from the epoch to a civil date; months are counted from 0 and may overflow. -/
def daysFromCivil (year mon mday : ℤ) : ℤ :=
  let months := year * 12 + mon - 2
  let y := months.fdiv 12
  let m := months.fmod 12
  let yearOfEra := y.fmod 400
  let dayOfYear := (153 * m + 2) / 5 + mday - 1
  y.fdiv 400 * 146097 + yearOfEra * 365 + yearOfEra / 4 - yearOfEra / 100 + dayOfYear - 719468

def civilFromDays (days : ℤ) : ℤ × ℤ × ℤ :=
  let z := days + 719468
  let era := z.fdiv 146097
  let d := z.fmod 146097
  let yearOfEra := (d - d / 1460 + d / 36524 - d / 146096) / 365
  let dayOfYear := d - (365 * yearOfEra + yearOfEra / 4 - yearOfEra / 100)
  let m := (5 * dayOfYear + 2) / 153
  let mon := if m < 10 then m + 2 else m - 10
  (era * 400 + yearOfEra + (if mon ≤ 1 then 1 else 0), mon, dayOfYear - (153 * m + 2) / 5 + 1)

def gmtime (t : ℤ) : Tm :=
  let days := t.fdiv 86400
  let clock := t.fmod 86400
  let date := civilFromDays days
  { sec := clock % 60, min := clock / 60 % 60, hour := clock / 3600, mday := date.2.2
    mon := date.2.1, year := date.1 - 1900, wday := (days + 4).fmod 7 }

def timegm (tm : Tm) : ℤ :=
  daysFromCivil (tm.year + 1900) tm.mon tm.mday * 86400 + tm.hour * 3600 + tm.min * 60 + tm.sec

def twoDigits (n : ℤ) : Bytes :=
  [0x30 + UInt8.ofNat (n.toNat / 10 % 10), 0x30 + UInt8.ofNat (n.toNat % 10)]

def fourDigits (n : ℤ) : Bytes := twoDigits (n / 100) ++ twoDigits (n % 100)

/-- The conversions that the scheduler uses, for years of four digits. -/
def formatTm (tm : Tm) : Bytes → Bytes
  | 0x25 :: 0x59 :: f => fourDigits (tm.year + 1900) ++ formatTm tm f
  | 0x25 :: 0x6D :: f => twoDigits (tm.mon + 1) ++ formatTm tm f
  | 0x25 :: 0x64 :: f => twoDigits tm.mday ++ formatTm tm f
  | 0x25 :: 0x48 :: f => twoDigits tm.hour ++ formatTm tm f
  | 0x25 :: 0x4D :: f => twoDigits tm.min ++ formatTm tm f
  | 0x25 :: 0x53 :: f => twoDigits tm.sec ++ formatTm tm f
  | b :: f => b :: formatTm tm f
  | [] => []

/-- A number of at most `width` digits within bounds, and what is left. -/
def scanNumber (width : ℕ) (low high : ℤ) (s : Bytes) : Option (ℤ × Bytes) :=
  let s := s.dropWhile (· = 0x20)
  let ds := (s.take width).takeWhile isDigit
  let v : ℤ := digitsValue ds
  if ds ≠ [] ∧ low ≤ v ∧ v ≤ high then some (v, s.drop ds.length) else none

def scanTm (tm : Tm) : Bytes → Bytes → Option Tm
  | 0x25 :: 0x59 :: f, s =>
    (scanNumber 4 0 9999 s).bind fun x => scanTm { tm with year := x.1 - 1900 } f x.2
  | 0x25 :: 0x6D :: f, s =>
    (scanNumber 2 1 12 s).bind fun x => scanTm { tm with mon := x.1 - 1 } f x.2
  | 0x25 :: 0x64 :: f, s =>
    (scanNumber 2 1 31 s).bind fun x => scanTm { tm with mday := x.1 } f x.2
  | 0x25 :: 0x48 :: f, s =>
    (scanNumber 2 0 23 s).bind fun x => scanTm { tm with hour := x.1 } f x.2
  | 0x25 :: 0x4D :: f, s =>
    (scanNumber 2 0 59 s).bind fun x => scanTm { tm with min := x.1 } f x.2
  | 0x25 :: 0x53 :: f, s =>
    (scanNumber 2 0 61 s).bind fun x => scanTm { tm with sec := x.1 } f x.2
  | b :: f, s =>
    if isSpace b then scanTm tm f (s.dropWhile isSpace)
    else match s with
      | c :: s => if b = c then scanTm tm f s else none
      | [] => none
  | [], _ => some tm

/-- The C library in a zone without an offset. -/
def utc : Calendar where
  localtime := gmtime
  mktime tm := (timegm tm, gmtime (timegm tm))
  strptime format text := scanTm {} format text
  strftime format tm := formatTm tm format

end Utc

end TaskSchedule
