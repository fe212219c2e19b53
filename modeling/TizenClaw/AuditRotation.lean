import TizenClaw.AuditLogger
import TizenClaw.FileLogBackend

/-! The audit log over any number of events and dates: each date has files of its own, in which the
rotation keeps the newest rows. -/
namespace AuditRotation

open ByteString ByteLines JsonDump AuditLogger FileRotation
open FileLogBackend (slot slot_injective)

/-- A call of `Log` on a date. -/
structure DatedCall where
  date : DateText
  call : LogCall

def logRun (logDir : Bytes) (cs : List DatedCall) (fs : AuditLogger.Files) : AuditLogger.Files :=
  cs.foldl (fun fs c => (log logDir c.date c.call.time c.call.event fs).1) fs

/-- The calls on a date. -/
def callsOn (date : DateText) (cs : List DatedCall) : List LogCall :=
  (cs.filter (·.date = date)).map (·.call)

section Write

variable {logDir : Bytes} {date : DateText} {path : Bytes} {fs : AuditLogger.Files} {c : LogCall}

def fullFile (content : Bytes) : Bool := decide (kMaxFileSize ≤ content.length)

/-- The header goes before the first row of a file. -/
def addRow (date : DateText) (c : LogCall) (content : Bytes) : Bytes :=
  (content ++ if content = [] then header date else []) ++ written c

theorem rename_eq (old new : Bytes) : rename old new fs = move true old new fs := by
  unfold rename
  cases hold : fs old with
  | none => exact (move_none hold).symm
  | some content => exact (move_some hold).symm

theorem rotated_eq (i : ℕ) : rotated path (i + 1) = slot path (i + 1) := rfl

theorem rotateIfNeeded_eq : rotateIfNeeded path fs =
    if (fs path).any fullFile then
      FileRotation.rotate (slot path) kMaxRotation { removed := false } fs
    else fs := by
  have hshift : FileRotation.rotate (slot path) kMaxRotation { removed := false } fs =
      rename path (rotated path 1) ((List.range' 1 (kMaxRotation - 1)).reverse.foldl
        (fun fs i => rename (rotated path i) (rotated path (i + 1)) fs) fs) := by
    rw [rename_eq]
    refine (shift_eq_foldl (slot path) _ (kMaxRotation - 1) fs).trans ?_
    refine congrArg (move true path (rotated path 1)) (List.foldl_ext _ _ _ ?_)
    intro gs i hi
    obtain ⟨j, rfl⟩ := Nat.exists_eq_succ_of_ne_zero
      (Nat.one_le_iff_ne_zero.mp (List.mem_range'_1.mp (List.mem_reverse.mp hi)).1)
    rw [rename_eq]
    rfl
  unfold rotateIfNeeded
  rw [hshift]
  cases fs path with
  | none => rfl
  | some content =>
    by_cases hsize : content.length < kMaxFileSize
    · have hfull : fullFile content = false := decide_eq_false (Nat.not_le.mpr hsize)
      simp [hsize, hfull]
    · have hfull : fullFile content = true := decide_eq_true (Nat.not_lt.mp hsize)
      simp [hsize, hfull]

theorem log_eq : (log logDir date c.time c.event fs).1 =
    write (slot (auditPath logDir date.1)) kMaxRotation fullFile { removed := false }
      (addRow date c) fs := by
  rw [log, rotateIfNeeded_eq, write, append, addRow, written]
  cases eventToRow c.time c.event with
  | ok row => rfl
  | error e =>
    dsimp only
    rw [List.append_nil]
    rfl

end Write

section Dates

variable {logDir : Bytes}

theorem dot_not_mem (date : DateText) : ∀ b ∈ date.1, (b != 0x2E) = true := by
  intro b hb
  rw [bne_iff_ne]
  rintro rfl
  exact absurd (date.2 0x2E hb) (by decide)

/-- A file of the log of a date: its name goes on with a dot behind the date. -/
theorem slot_eq (logDir : Bytes) (date : DateText) (i : ℕ) :
    ∃ rest, slot (auditPath logDir date.1) i = logDir ++ bytes "/" ++ (date.1 ++ 0x2E :: rest) := by
  cases i with
  | zero =>
    refine ⟨bytes "md", ?_⟩
    rw [slot, auditPath, List.append_assoc _ date.1]
    rfl
  | succ i =>
    refine ⟨bytes "md" ++ (bytes "." ++ decimal (i + 1)), ?_⟩
    rw [slot, auditPath, List.append_assoc _ date.1, List.append_assoc,
      List.append_assoc (logDir ++ bytes "/"), List.append_assoc date.1]
    rfl

/-- The logs of two dates have no file in common. -/
theorem slot_ne {d d' : DateText} (h : d ≠ d') (i j : ℕ) :
    slot (auditPath logDir d.1) i ≠ slot (auditPath logDir d'.1) j := by
  intro he
  obtain ⟨rest, hi⟩ := slot_eq logDir d i
  obtain ⟨rest', hj⟩ := slot_eq logDir d' j
  rw [hi, hj] at he
  have hdate := congrArg (List.takeWhile (· != 0x2E)) (List.append_cancel_left he)
  rw [List.takeWhile_append_of_pos (dot_not_mem d), List.takeWhile_append_of_pos (dot_not_mem d'),
    List.takeWhile_cons_of_neg (by decide), List.takeWhile_cons_of_neg (by decide),
    List.append_nil, List.append_nil] at hdate
  exact h (Subtype.ext hdate)

end Dates

section Retention

variable {logDir : Bytes} {date : DateText} {fs : AuditLogger.Files} {gens : Generations LogCall}

/-- The files of a date hold the newest generations of its calls. -/
structure Kept (logDir : Bytes) (date : DateText) (fs : AuditLogger.Files)
    (gens : Generations LogCall) : Prop where
  shows : Shows (total date) (slot (auditPath logDir date.1)) kMaxRotation fs gens
  gapless : Gapless (slot (auditPath logDir date.1)) kMaxRotation fs

theorem addRow_total (c : LogCall) (calls : List LogCall) :
    addRow date c (total date calls) = total date (calls ++ [c]) :=
  (total_concat calls c).symm

theorem Kept.log (h : Kept logDir date fs gens) (c : LogCall) :
    Kept logDir date (log logDir date c.time c.event fs).1
      (record (fun g => fullFile (total date g)) c gens) := by
  have hname := slot_injective (auditPath logDir date.1)
  have hpos : 0 < kMaxRotation := by decide
  rw [log_eq]
  refine ⟨?_, gapless_write hname hpos h.gapless⟩
  exact shows_write hname hpos (.inr h.gapless) rfl (by decide) (addRow_total c) h.shows

theorem Kept.congr {gs : AuditLogger.Files} (h : Kept logDir date fs gens)
    (he : ∀ i ≤ kMaxRotation, gs (slot (auditPath logDir date.1) i) =
      fs (slot (auditPath logDir date.1) i)) : Kept logDir date gs gens := by
  constructor
  · intro i hi
    rw [he i hi]
    exact h.shows i hi
  · intro i h0 hi hnone
    rw [he i hi.le] at hnone
    rw [he (i + 1) hi]
    exact h.gapless i h0 hi hnone

theorem kept_logRun (cs : List DatedCall) (h : Kept logDir date fs gens) :
    Kept logDir date (logRun logDir cs fs)
      (recordAll (fun g => fullFile (total date g)) gens (callsOn date cs)) := by
  induction cs generalizing fs gens with
  | nil => exact h
  | cons c cs ih =>
    by_cases hc : c.date = date
    · have hcalls : callsOn date (c :: cs) = c.call :: callsOn date cs := by simp [callsOn, hc]
      have hlog := h.log c.call
      rw [← hc] at hlog
      rw [hcalls, ← hc]
      rw [← hc] at ih
      exact ih hlog
    · have hcalls : callsOn date (c :: cs) = callsOn date cs := by simp [callsOn, hc]
      rw [hcalls]
      refine ih (h.congr fun i _ => ?_)
      exact (congrFun log_eq _).trans (write_other fun j _ => slot_ne (Ne.symm hc) i j)

end Retention

end AuditRotation
