import TizenClaw.FileRotation
import TizenClaw.JsonRoundTrip

/-! The log file of the daemon, and the files that its rotation makes of it. -/
namespace FileLogBackend

open ByteString JsonDump FileRotation

inductive LogLevel where
  | error
  | warning
  | info
  | debug
  deriving DecidableEq, Repr

structure Backend where
  filePath : Bytes
  rotationSize : ℤ
  maxRotation : ℤ
  deriving DecidableEq, Repr

/-- What the system carries out of a call; a line may be cut short when the device is full. -/
structure Outcome extends FileRotation.Outcome where
  reached : Option ℕ := none

/-- A call of `WriteLog`: the date is what `%Y%m%d.%H%M%S` gives, and the permissions that are set
afterwards are left out. -/
structure Call where
  level : LogLevel
  logstr : Bytes
  date : Bytes
  ms : ℕ
  pid : ℕ
  outcome : Outcome := {}

section Write

def getTimeStamp (date : Bytes) (ms : ℕ) : Bytes :=
  date ++ bytes "." ++ List.replicate (3 - (decimal ms).length) 0x30 ++ decimal ms ++ bytes "UTC|"

def getPid (pid : ℕ) : Bytes := decimal pid ++ bytes "|"

def line (c : Call) : Bytes := getTimeStamp c.date c.ms ++ getPid c.pid ++ c.logstr ++ [newline]

/-- The file, and the backups behind it. -/
def slot (path : Bytes) : ℕ → Bytes
  | 0 => path
  | i + 1 => path ++ bytes "." ++ decimal (i + 1)

/-- `static_cast<uintmax_t>(rotation_size_)`. -/
def limit (b : Backend) : ℕ := (b.rotationSize % 2 ^ 64).toNat

def rotateSlot (b : Backend) (o : Outcome) (fs : Files Bytes UInt8) (i : ℕ) : Files Bytes UInt8 :=
  if (i : ℤ) = b.maxRotation then remove o.removed (slot b.filePath i) fs
  else move (o.moved i) (slot b.filePath i) (slot b.filePath (i + 1)) fs

def rotate (b : Backend) (o : Outcome) (fs : Files Bytes UInt8) : Files Bytes UInt8 :=
  move (o.moved 0) b.filePath (b.filePath ++ bytes ".1")
    ((List.range' 1 b.maxRotation.toNat).reverse.foldl (rotateSlot b o) fs)

/-- The part of the line that is written. -/
def written (c : Call) : Bytes :=
  match c.outcome.reached with
  | none => line c
  | some n => (line c).take n

def writeLog (b : Backend) (c : Call) (fs : Files Bytes UInt8) : Files Bytes UInt8 :=
  if c.level = .debug ∨ b.filePath = [] then fs
  else
    append c.outcome.opened b.filePath (· ++ written c)
      (if (fs b.filePath).any (fun content => decide (limit b < content.length)) then
        rotate b c.outcome fs
      else fs)

def writeAll (b : Backend) (cs : List Call) (fs : Files Bytes UInt8) : Files Bytes UInt8 :=
  cs.foldl (fun fs c => writeLog b c fs) fs

/-- One backup is kept even where none is asked for. -/
def backups (b : Backend) : ℕ := max 1 b.maxRotation.toNat

/-- The contents of the log's files, the oldest first. -/
def contents (b : Backend) (fs : Files Bytes UInt8) : List Bytes :=
  stored (slot b.filePath) (fun path => (fs path).map fun content => [content]) (backups b)

/-- The calls that the backend is to write. -/
def Logged (b : Backend) (c : Call) : Prop := c.level ≠ .debug ∧ b.filePath ≠ []

instance (b : Backend) : DecidablePred (Logged b) := fun c =>
  inferInstanceAs (Decidable (c.level ≠ .debug ∧ b.filePath ≠ []))

end Write

section Slots

variable {path : Bytes} {b : Backend} {c : Call} {fs : Files Bytes UInt8}

theorem decimal_injective : Function.Injective decimal := by
  intro m n h
  rw [← JsonRoundTrip.digitsValue_decimal m, h, JsonRoundTrip.digitsValue_decimal]

theorem slot_injective (path : Bytes) : Function.Injective (slot path) := by
  have hbase : ∀ i, slot path (i + 1) ≠ path := by
    intro i h
    have hlen := congrArg List.length h
    have hdot : (bytes ".").length = 1 := rfl
    rw [slot, List.length_append, List.length_append, hdot] at hlen
    omega
  intro i j h
  cases i with
  | zero =>
    cases j with
    | zero => rfl
    | succ j => exact absurd h.symm (hbase j)
  | succ i =>
    cases j with
    | zero => exact absurd h (hbase i)
    | succ j => exact decimal_injective (List.append_cancel_left h)

/-- The loop over the backups is a shift of the slots, after the last one has been emptied. -/
theorem rotate_eq (o : Outcome) : rotate b o fs = FileRotation.rotate (slot b.filePath) (backups b)
    { o with removed := o.removed && decide (0 < b.maxRotation) } fs := by
  have hfirst : b.filePath ++ bytes ".1" = slot b.filePath 1 := by
    rw [slot, List.append_assoc]
    rfl
  unfold rotate FileRotation.rotate backups
  rw [hfirst]
  by_cases hmax : 0 < b.maxRotation
  · obtain ⟨n, hn⟩ := Int.eq_succ_of_zero_lt hmax
    have hnat : b.maxRotation.toNat = n + 1 := by omega
    have htop : rotateSlot b o fs (n + 1) = remove o.removed (slot b.filePath (n + 1)) fs :=
      if_pos (by rw [hn]; rfl)
    have hrest : ∀ gs, (List.range' 1 n).reverse.foldl (rotateSlot b o) gs =
        (List.range' 1 n).reverse.foldl
          (fun fs i => move (o.moved i) (slot b.filePath i) (slot b.filePath (i + 1)) fs) gs := by
      intro gs
      apply List.foldl_ext
      intro gs i hi
      have hlt := List.mem_range'_1.mp (List.mem_reverse.mp hi)
      exact if_neg (by omega)
    rw [hnat, decide_eq_true hmax, Bool.and_true, Nat.max_eq_right (Nat.le_add_left 1 n),
      shift_eq_foldl, List.range'_concat, List.reverse_append, List.reverse_singleton,
      List.singleton_append, List.foldl_cons, Nat.one_mul, Nat.add_comm 1 n, htop, hrest]
    rfl
  · have hnat : b.maxRotation.toNat = 0 := by omega
    rw [hnat, decide_eq_false hmax, Bool.and_false]
    rfl

theorem writeLog_eq (hc : Logged b c) : writeLog b c fs =
    write (slot b.filePath) (backups b) (fun content => decide (limit b < content.length))
      { c.outcome with removed := c.outcome.removed && decide (0 < b.maxRotation) }
      (· ++ written c) fs := by
  rw [writeLog, if_neg (not_or.mpr hc), rotate_eq]
  rfl

theorem writeLog_skip (hc : ¬ Logged b c) : writeLog b c fs = fs := by
  rw [writeLog, if_pos]
  by_contra hn
  exact hc (not_or.mp hn)

end Slots

section Faults

variable {b : Backend} {cs : List Call} {fs : Files Bytes UInt8}

/-- What a call writes, if the file can be opened. -/
def line? (b : Backend) (c : Call) : List Bytes :=
  if Logged b c ∧ c.outcome.opened = true then [written c] else []

/-- A call on files that are kept in pieces. -/
def writePieces (b : Backend) (gs : Files Bytes Bytes) (c : Call) : Files Bytes Bytes :=
  if Logged b c then
    write (slot b.filePath) (backups b) (fun content => decide (limit b < content.flatten.length))
      { c.outcome with removed := c.outcome.removed && decide (0 < b.maxRotation) }
      (· ++ [written c]) gs
  else gs

theorem flat_writePieces (gs : Files Bytes Bytes) (c : Call) :
    flat (writePieces b gs c) = writeLog b c (flat gs) := by
  unfold writePieces
  split_ifs with hc
  · rw [writeLog_eq hc]
    refine flat_write (fun content => decide (limit b < content.length)) _ fun content => ?_
    rw [List.flatten_append, List.flatten_singleton]
  · exact (writeLog_skip hc).symm

theorem stored_writePieces (gs : Files Bytes Bytes) (c : Call) :
    (stored (slot b.filePath) (writePieces b gs c) (backups b)).Sublist
      (stored (slot b.filePath) gs (backups b) ++ line? b c) := by
  unfold writePieces
  split_ifs with hc
  · have hline : line? b c = if c.outcome.opened then [written c] else [] := by simp [line?, hc]
    rw [hline]
    exact stored_write_sublist (slot_injective b.filePath) fun _ => rfl
  · exact List.sublist_append_left _ _

theorem writeLog_other {c : Call} {path : Bytes}
    (hpath : ∀ i ≤ backups b, path ≠ slot b.filePath i) : writeLog b c fs path = fs path := by
  by_cases hc : Logged b c
  · rw [writeLog_eq hc]
    exact write_other hpath
  · rw [writeLog_skip hc]

theorem flat_pieces (fs : Files Bytes UInt8) :
    flat (fun path => (fs path).map fun content => [content]) = fs := by
  funext path
  change ((fs path).map fun content => [content]).map List.flatten = fs path
  cases fs path with
  | none => rfl
  | some content => exact congrArg some List.flatten_singleton

theorem contents_flatten (b : Backend) (fs : Files Bytes UInt8) :
    (contents b fs).flatten = stored (slot b.filePath) fs (backups b) := by
  rw [contents, ← stored_flat, flat_pieces]

/-- Whichever removals, renames, openings and writes the system carries out, the files of the log
hold in order the lines, or the parts of them, that are left; and no other file is touched. -/
theorem kept_in_order (b : Backend) (cs : List Call) (fs : Files Bytes UInt8) :
    (∃ kept : List Bytes, kept.Sublist (contents b fs ++ cs.flatMap (line? b)) ∧
        (contents b (writeAll b cs fs)).flatten = kept.flatten) ∧
      ∀ path, (∀ i ≤ backups b, path ≠ slot b.filePath i) → writeAll b cs fs path = fs path := by
  -- The run is followed on files of pieces, from what each file holds at the start.
  have hrun : ∀ (cs : List Call) (gs : Files Bytes Bytes),
      flat (cs.foldl (writePieces b) gs) = writeAll b cs (flat gs) ∧
        (stored (slot b.filePath) (cs.foldl (writePieces b) gs) (backups b)).Sublist
          (stored (slot b.filePath) gs (backups b) ++ cs.flatMap (line? b)) := by
    intro cs
    induction cs with
    | nil =>
      intro gs
      refine ⟨rfl, ?_⟩
      rw [List.flatMap_nil, List.append_nil]
      exact List.Sublist.refl _
    | cons c cs ih =>
      intro gs
      obtain ⟨hflat, hsub⟩ := ih (writePieces b gs c)
      constructor
      · rw [List.foldl_cons, hflat, flat_writePieces]
        rfl
      · rw [List.foldl_cons, List.flatMap_cons, ← List.append_assoc]
        exact hsub.trans ((stored_writePieces gs c).append_right _)
  constructor
  · obtain ⟨hflat, hsub⟩ := hrun cs fun path => (fs path).map fun content => [content]
    refine ⟨_, hsub, ?_⟩
    rw [contents_flatten, ← stored_flat, hflat, flat_pieces]
  · intro path hpath
    induction cs generalizing fs with
    | nil => rfl
    | cons c cs ih => exact (ih (writeLog b c fs)).trans (writeLog_other hpath)

end Faults

section Retention

variable {b : Backend} {cs : List Call} {fs : Files Bytes UInt8}

/-- The lines that some calls are to write. -/
def loggedLines (b : Backend) (cs : List Call) : List Bytes := (cs.filter (Logged b)).map line

def fullFile (b : Backend) (g : List Bytes) : Bool := decide (limit b < g.flatten.length)

/-- Where no backup is removed there is but one. -/
theorem gapless_or_removed (b : Backend) (gs : Files Bytes UInt8) :
    (true && decide (0 < b.maxRotation)) = true ∨ Gapless (slot b.filePath) (backups b) gs := by
  by_cases hmax : 0 < b.maxRotation
  · exact .inl (by rw [decide_eq_true hmax]; rfl)
  · refine .inr fun i h0 hi => ?_
    have hone : backups b = 1 := by
      unfold backups
      omega
    omega

theorem shows_writeLog {c : Call} {gens : Generations Bytes} (hc : Logged b c)
    (ho : c.outcome = {}) (hshows : Shows List.flatten (slot b.filePath) (backups b) fs gens) :
    Shows List.flatten (slot b.filePath) (backups b) (writeLog b c fs)
      (record (fullFile b) (line c) gens) := by
  have hwritten : written c = line c := by
    unfold written
    rw [ho]
  have hadd : ∀ g : List Bytes, g.flatten ++ written c = (g ++ [line c]).flatten := by
    intro g
    rw [List.flatten_append, List.flatten_singleton, hwritten]
  rw [writeLog_eq hc, ho]
  exact shows_write (slot_injective b.filePath) (Nat.le_max_left 1 _) (gapless_or_removed b fs) rfl
    (decide_eq_false (Nat.not_lt_zero _)) hadd hshows

theorem shows_writeAll {gens : Generations Bytes} (h : ∀ c ∈ cs, c.outcome = {})
    (hshows : Shows List.flatten (slot b.filePath) (backups b) fs gens) :
    Shows List.flatten (slot b.filePath) (backups b) (writeAll b cs fs)
      (recordAll (fullFile b) gens (loggedLines b cs)) := by
  induction cs generalizing fs gens with
  | nil => exact hshows
  | cons c cs ih =>
    rw [List.forall_mem_cons] at h
    by_cases hc : Logged b c
    · have hlines : loggedLines b (c :: cs) = line c :: loggedLines b cs := by
        simp [loggedLines, hc]
      rw [hlines]
      exact ih h.2 (shows_writeLog hc h.1 hshows)
    · have hlines : loggedLines b (c :: cs) = loggedLines b cs := by simp [loggedLines, hc]
      have hsame : writeAll b (c :: cs) fs = writeAll b cs fs :=
        congrArg (writeAll b cs) (writeLog_skip hc)
      rw [hlines, hsame]
      exact ih h.2 hshows

/-- The files at the start, as generations of one piece each. -/
def started (b : Backend) (fs : Files Bytes UInt8) : Generations Bytes :=
  (List.range (backups b + 1)).map fun i => [(fs (slot b.filePath i)).getD []]

theorem shows_started (b : Backend) (fs : Files Bytes UInt8) :
    Shows List.flatten (slot b.filePath) (backups b) fs (started b fs) := by
  intro i hi
  have hget : (started b fs)[i]? = some [(fs (slot b.filePath i)).getD []] := by
    rw [started, List.getElem?_map, List.getElem?_range (by omega)]
    rfl
  rw [List.getD_eq_getElem?_getD, hget, Option.getD_some, List.flatten_singleton]

theorem started_eq (b : Backend) (fs : Files Bytes UInt8) :
    started b fs = [(fs (slot b.filePath 0)).getD []] :: (started b fs).tail := by
  rw [started, List.range_succ_eq_map]
  rfl

theorem flatten_pieces (gens : Generations Bytes) :
    (gens.map List.flatten).reverse.flatten = gens.reverse.flatten.flatten := by
  rw [← List.map_reverse, List.flatten_flatten]

theorem contents_started (b : Backend) (fs : Files Bytes UInt8) :
    (contents b fs).flatten = (started b fs).reverse.flatten.flatten := by
  have hlen : (started b fs).length = backups b + 1 := by
    rw [started, List.length_map, List.length_range]
  rw [contents_flatten, stored_of_shows rfl (shows_started b fs), List.take_of_length_le hlen.le,
    flatten_pieces]

/-- The files of a run, of which only full ones have been closed. -/
theorem exists_closed (fs : Files Bytes UInt8) (h : ∀ c ∈ cs, c.outcome = {}) :
    ∃ live closed, Shows List.flatten (slot b.filePath) (backups b) (writeAll b cs fs)
        (live :: closed ++ (started b fs).tail) ∧
      (∀ g ∈ closed, limit b + 1 ≤ g.flatten.length) ∧
      (live :: closed).reverse.flatten =
        [(fs (slot b.filePath 0)).getD []] ++ loggedLines b cs := by
  obtain ⟨live, closed, hall, hclosed, hrecords⟩ := recordAll_cons (fullFile b)
    (loggedLines b cs) [(fs (slot b.filePath 0)).getD []] (started b fs).tail
  have hshows := shows_writeAll h (shows_started b fs)
  rw [started_eq, hall] at hshows
  exact ⟨live, closed, hshows, fun g hg => of_decide_eq_true (hclosed g hg), hrecords⟩

theorem contents_isSuffix (fs : Files Bytes UInt8) (h : ∀ c ∈ cs, c.outcome = {}) :
    (contents b (writeAll b cs fs)).flatten <:+
      (contents b fs).flatten ++ (loggedLines b cs).flatten := by
  obtain ⟨live, closed, hshows, -, hrecords⟩ := exists_closed fs h
  have hall : (live :: closed ++ (started b fs).tail).reverse.flatten =
      (started b fs).reverse.flatten ++ loggedLines b cs := by
    rw [List.reverse_append, List.flatten_append, hrecords, started_eq, List.tail_cons,
      List.reverse_cons, List.flatten_append, List.flatten_singleton, List.append_assoc]
  have hsuffix := stored_isSuffix rfl hshows
  rwa [flatten_pieces, hall, List.flatten_append, ← contents_started, ← contents_flatten] at hsuffix

theorem contents_whole_or_full (fs : Files Bytes UInt8) (h : ∀ c ∈ cs, c.outcome = {}) :
    (loggedLines b cs).flatten <:+ (contents b (writeAll b cs fs)).flatten ∨
      backups b * (limit b + 1) ≤ (contents b (writeAll b cs fs)).flatten.length := by
  obtain ⟨live, closed, hshows, hclosed, hrecords⟩ := exists_closed fs h
  rw [contents_flatten]
  rcases Nat.le_total closed.length (backups b) with hle | hge
  · have hsuffix := isSuffix_stored rfl hshows hle
    rw [flatten_pieces, hrecords, List.flatten_append] at hsuffix
    exact .inl ((List.suffix_append _ _).trans hsuffix)
  · exact .inr (length_stored_ge rfl hshows hge hclosed)

theorem slot_bounded {M : ℕ} (h : ∀ c ∈ cs, c.outcome = {})
    (hstart : ∀ i ≤ backups b, ((fs (slot b.filePath i)).getD []).length ≤ M)
    (hlines : ∀ l ∈ loggedLines b cs, limit b + l.length ≤ M) :
    ∀ i ≤ backups b, ((writeAll b cs fs (slot b.filePath i)).getD []).length ≤ M := by
  have hbound : ∀ g ∈ recordAll (fullFile b) (started b fs) (loggedLines b cs),
      g.flatten.length ≤ M := by
    apply recordAll_bound
    · intro g hg
      obtain ⟨j, hj, rfl⟩ := List.mem_map.mp hg
      rw [List.flatten_singleton]
      exact hstart j (Nat.lt_succ_iff.mp (List.mem_range.mp hj))
    · intro l hl
      have hline := hlines l hl
      rw [List.flatten_singleton]
      omega
    · intro l hl g hfull
      have hline := hlines l hl
      have hsmall : ¬ limit b < g.flatten.length := of_decide_eq_false hfull
      rw [List.flatten_append, List.flatten_singleton, List.length_append]
      omega
  intro i hi
  rw [shows_writeAll h (shows_started b fs) i hi, List.getD_eq_getElem?_getD]
  cases hg : (recordAll (fullFile b) (started b fs) (loggedLines b cs))[i]? with
  | none => exact Nat.zero_le M
  | some g => exact hbound g (List.mem_of_getElem? hg)

/-- As long as nothing fails the files hold the end of the log: all that was written, or at least as
many bytes as it takes to fill every backup. No file is longer than the limit and one line. -/
theorem newest_kept (b : Backend) (fs : Files Bytes UInt8) (h : ∀ c ∈ cs, c.outcome = {}) :
    (contents b (writeAll b cs fs)).flatten <:+
        (contents b fs).flatten ++ (loggedLines b cs).flatten ∧
      ((loggedLines b cs).flatten <:+ (contents b (writeAll b cs fs)).flatten ∨
        backups b * (limit b + 1) ≤ (contents b (writeAll b cs fs)).flatten.length) ∧
      ∀ M, (∀ i ≤ backups b, ((fs (slot b.filePath i)).getD []).length ≤ M) →
        (∀ l ∈ loggedLines b cs, limit b + l.length ≤ M) →
        ∀ i ≤ backups b, ((writeAll b cs fs (slot b.filePath i)).getD []).length ≤ M :=
  ⟨contents_isSuffix fs h, contents_whole_or_full fs h,
    fun _ hstart hlines => slot_bounded h hstart hlines⟩

def sampleBackend : Backend := ⟨bytes "c.log", 12, 2⟩

def sampleCalls : List Call :=
  [⟨.info, bytes "up", bytes "d", 7, 9, {}⟩, ⟨.debug, bytes "poll", bytes "d", 8, 9, {}⟩,
    ⟨.error, bytes "lost", bytes "d", 80, 9, {}⟩, ⟨.warning, bytes "slow", bytes "e", 2, 9, {}⟩,
    ⟨.info, bytes "down", bytes "e", 120, 9, {}⟩]

theorem newest_kept_sample :
    contents sampleBackend (writeAll sampleBackend sampleCalls fun _ => none) =
        [bytes "d.080UTC|9|lost\n", bytes "e.002UTC|9|slow\n", bytes "e.120UTC|9|down\n"] ∧
      ∀ i ≤ 2, ((writeAll sampleBackend sampleCalls (fun _ => none)
        (slot sampleBackend.filePath i)).getD []).length ≤ 28 := by
  have hhealthy : ∀ c ∈ sampleCalls, c.outcome = {} := by
    intro c hc
    simp only [sampleCalls, List.mem_cons, List.not_mem_nil, or_false] at hc
    rcases hc with rfl | rfl | rfl | rfl | rfl <;> rfl
  obtain ⟨-, -, hbound⟩ := newest_kept sampleBackend (fun _ => none) hhealthy
  exact ⟨by decide +kernel, hbound 28 (fun _ _ => Nat.zero_le _) (by decide +kernel)⟩

end Retention

end FileLogBackend
