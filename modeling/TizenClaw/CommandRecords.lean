import TizenClaw.MemoryStore
import TizenClaw.OrderedMap
import TizenClaw.TransitionSystem

/-! The records of commands in the short-term directory of a session, and which make room. -/
namespace CommandRecords

open ByteString ByteLines MemoryStore OrderedMap TransitionSystem

section Model

abbrev Directory := Map Bytes Bytes

def names (d : Directory) : List Bytes := d.entries.map Prod.fst

structure Session where
  directory : Directory
  summaryDirty : Bool

/-- A call of `RecordCommand`, with the clock at the call and what becomes of the write. -/
structure Recording where
  clock : Clock
  writing : Writing
  command : Bytes
  result : Bytes
  success : Bool

def kMaxResultLen : ℕ := 200

def shortResult (result : Bytes) : Bytes :=
  if kMaxResultLen < result.length then result.take kMaxResultLen ++ bytes "..." else result

namespace Recording

variable (r : Recording)

def entry : MemoryEntry where
  type := .shortTerm
  title := r.command
  content := shortResult r.result
  importance := if r.success = true then bytes "success" else bytes "failure"
  created := r.clock.timestamp.1
  updated := r.clock.timestamp.1

/-- `std::ranges::replace` -/
def replace (old new : UInt8) (s : Bytes) : Bytes := s.map fun b => if b = old then new else b

def filename : Bytes :=
  replace 0x2f 0x5f
    (replace 0x20 0x2d (r.clock.datePrefix ++ bytes "-" ++ r.command ++ bytes ".md"))

/-- The names under which the file system knows the file and its temporary file. -/
def own : Bytes := fileName r.filename

def temporary : Bytes := fileName (r.filename ++ bytes ".tmp")

/-- The temporary file was written and took the place of the file. -/
def Written : Prop :=
  r.writing.opened = true ∧ r.writing.written = true ∧ r.writing.renamed = true

end Recording

/-- `AtomicWrite` to a file of the directory. -/
def writeFile (w : Writing) (name content : Bytes) (d : Directory) : Directory :=
  let removed := d.erase (fileName (name ++ bytes ".tmp"))
  if w.opened = false then d
  else if w.written = false ∨ w.renamed = false then removed
  else removed.insert (fileName name) content

/-- The first file in the order of the names. -/
def oldest (d : Directory) : Option Bytes := ((names d).insertionSort (· ≤ ·)).head?

def makeRoom (maxEntries : ℤ) (d : Directory) : Directory :=
  if maxEntries ≤ (names d).length then
    match oldest d with
    | some f => d.erase f
    | none => d
  else d

def recordCommand (maxEntries : ℤ) (r : Recording) (s : Session) : Session where
  directory :=
    writeFile r.writing r.filename (entryToMarkdown r.entry) (makeRoom maxEntries s.directory)
  summaryDirty := true

end Model

section Specification

/-- The session, and the names of the files that were recorded, the last one in front. -/
structure Watched where
  session : Session
  recorded : List Bytes

namespace Watched

def files (x : Watched) : List Bytes := names x.session.directory

/-- A file that was recorded before all others that are there. -/
def LeastRecent (x : Watched) (f : Bytes) : Prop :=
  f ∈ x.files ∧ ∀ g ∈ x.files, x.recorded.idxOf g ≤ x.recorded.idxOf f

def First (x : Watched) (f : Bytes) : Prop := f ∈ x.files ∧ ∀ g ∈ x.files, f ≤ g

instance (x : Watched) (f : Bytes) : Decidable (x.LeastRecent f) :=
  inferInstanceAs (Decidable (_ ∧ ∀ g ∈ x.files, _))

end Watched

variable (maxEntries : ℤ)

def recording (x : Watched) (r : Recording) : Watched :=
  ⟨recordCommand maxEntries r x.session, r.own :: x.recorded⟩

/-- Sequences of calls that start with an empty directory. -/
def recordings : System Watched Recording where
  Init x := x.files = []
  Step x r y := y = recording maxEntries x r

/-- What a call may do to the files. -/
structure Lawful (x : Watched) (r : Recording) : Prop where
  bound : ((recording maxEntries x r).files.length : ℤ) ≤ max 1 maxEntries
  kept : r.own ∈ (recording maxEntries x r).files
  evicted : ∀ f ∈ x.files, f ∉ (recording maxEntries x r).files → x.LeastRecent f
  repeated : r.own ∈ x.files → ∀ f ∈ x.files, f ∈ (recording maxEntries x r).files

/-- The first name of a full directory is that of the file itself, or of the file that was recorded
before all others when the file is new. The same goes for a file in the place of the temporary
one. -/
structure Orderly (x : Watched) (r : Recording) : Prop where
  stored : r.Written ∨
    r.own ∈ x.files ∧ (maxEntries ≤ x.files.length → ¬ x.First r.own) ∧
      (r.writing.opened = true → r.own ≠ r.temporary)
  full : maxEntries ≤ x.files.length → ∀ f, x.First f →
    f = r.own ∨ r.own ∉ x.files ∧ x.LeastRecent f
  temporary : r.writing.opened = true → r.temporary ∈ x.files →
    r.temporary = r.own ∨ r.own ∉ x.files ∧ x.LeastRecent r.temporary

end Specification

section Directories

variable {d : Directory} {f k : Bytes}

@[simp] theorem mem_names_erase : f ∈ names (d.erase k) ↔ f ∈ names d ∧ f ≠ k := by
  constructor
  · intro h
    obtain ⟨e, he, rfl⟩ := List.mem_map.mp h
    obtain ⟨he, hne⟩ := Map.mem_erase.mp he
    exact ⟨List.mem_map_of_mem he, hne⟩
  · rintro ⟨h, hne⟩
    obtain ⟨e, he, rfl⟩ := List.mem_map.mp h
    exact List.mem_map_of_mem (Map.mem_erase.mpr ⟨he, hne⟩)

@[simp] theorem mem_names_insert {v : Bytes} : f ∈ names (d.insert k v) ↔ f = k ∨ f ∈ names d := by
  constructor
  · intro h
    obtain ⟨e, he, rfl⟩ := List.mem_map.mp h
    rcases Map.mem_insert he with rfl | ⟨-, he⟩
    · exact .inl rfl
    · exact .inr (List.mem_map_of_mem he)
  · intro h
    by_cases hk : f = k
    · rw [hk]
      exact List.mem_map_of_mem (Map.mem_insert_self k v d)
    · obtain ⟨e, he, rfl⟩ := List.mem_map.mp (h.resolve_left hk)
      exact List.mem_map_of_mem (Map.mem_insert_other hk he)

theorem length_names_erase (h : k ∈ names d) :
    (names (d.erase k)).length < (names d).length := by
  obtain ⟨e, he, rfl⟩ := List.mem_map.mp h
  rw [names, names, List.length_map, List.length_map]
  refine List.length_filter_lt_length_iff_exists.mpr ⟨e, he, ?_⟩
  simp

theorem length_names_insert_le (k v : Bytes) (d : Directory) :
    (names (d.insert k v)).length ≤ (names d).length + 1 := by
  rw [names, names, List.length_map, List.length_map]
  exact Map.length_insert_le k v d

theorem oldest_eq_some : oldest d = some f ↔ f ∈ names d ∧ ∀ g ∈ names d, f ≤ g := by
  have hmem : ∀ g, g ∈ (names d).insertionSort (· ≤ ·) ↔ g ∈ names d :=
    fun g => List.mem_insertionSort _
  have hsorted := List.pairwise_insertionSort (· ≤ ·) (names d)
  have hhead : ∀ {g}, oldest d = some g → g ∈ names d ∧ ∀ h ∈ names d, g ≤ h := by
    intro g hg
    obtain ⟨l, hl⟩ := List.head?_eq_some_iff.mp hg
    rw [hl, List.pairwise_cons] at hsorted
    constructor
    · rw [← hmem, hl]
      exact List.mem_cons_self
    · intro h hh
      rw [← hmem, hl, List.mem_cons] at hh
      rcases hh with rfl | hh
      · exact List.le_refl _
      · exact hsorted.1 h hh
  refine ⟨hhead, ?_⟩
  rintro ⟨hf, hleast⟩
  cases ho : oldest d with
  | none =>
    have hnil := List.head?_eq_none_iff.mp ho
    have hin := (hmem f).mpr hf
    rw [hnil] at hin
    cases hin
  | some g =>
    obtain ⟨hg, hle⟩ := hhead ho
    exact congrArg some (List.le_antisymm (hle f hf) (hleast g hg))

theorem mem_makeRoom {maxEntries : ℤ} :
    f ∈ names (makeRoom maxEntries d) ↔
      f ∈ names d ∧ (maxEntries ≤ (names d).length → oldest d ≠ some f) := by
  unfold makeRoom
  split_ifs with hfull
  · cases ho : oldest d with
    | none => simp
    | some g => simp [hfull, eq_comm]
  · simp [hfull]

/-- A full directory has room for one more, or has no file. -/
theorem length_makeRoom (maxEntries : ℤ) (d : Directory) :
    (names (makeRoom maxEntries d)).length + 1 ≤ max (names d).length 1 ∨
      (names (makeRoom maxEntries d)).length + 1 ≤ maxEntries := by
  unfold makeRoom
  split_ifs with hfull
  · cases ho : oldest d with
    | none =>
      have hnil := List.head?_eq_none_iff.mp ho
      have hlen := (List.perm_insertionSort (· ≤ ·) (names d)).length_eq
      rw [hnil, List.length_nil] at hlen
      dsimp only
      omega
    | some g =>
      have hlt := length_names_erase (oldest_eq_some.mp ho).1
      dsimp only
      omega
  · omega

theorem mem_writeFile {w : Writing} {name content : Bytes} :
    f ∈ names (writeFile w name content d) ↔
      (w.opened = true ∧ w.written = true ∧ w.renamed = true) ∧ f = fileName name ∨
        f ∈ names d ∧ (w.opened = true → f ≠ fileName (name ++ bytes ".tmp")) := by
  unfold writeFile
  dsimp only
  split_ifs with hopen hfail
  · simp [hopen]
  · have hopened : w.opened = true := Bool.not_eq_false _ ▸ hopen
    have hno : ¬ (w.written = true ∧ w.renamed = true) := by
      rintro ⟨hw, hr⟩
      rcases hfail with h | h
      · exact absurd (hw.symm.trans h) nofun
      · exact absurd (hr.symm.trans h) nofun
    rw [mem_names_erase]
    simp [hopened, hno]
  · have hopened : w.opened = true := Bool.not_eq_false _ ▸ hopen
    rw [not_or] at hfail
    have hwritten : w.written = true := Bool.not_eq_false _ ▸ hfail.1
    have hrenamed : w.renamed = true := Bool.not_eq_false _ ▸ hfail.2
    rw [mem_names_insert, mem_names_erase]
    simp [hopened, hwritten, hrenamed]

theorem length_writeFile_le (w : Writing) (name content : Bytes) (d : Directory) :
    (names (writeFile w name content d)).length ≤ (names d).length + 1 := by
  have hremoved : (names (d.erase (fileName (name ++ bytes ".tmp")))).length ≤
      (names d).length := by
    rw [names, names, List.length_map, List.length_map]
    exact List.length_filter_le _ _
  unfold writeFile
  dsimp only
  split_ifs
  · omega
  · omega
  · have := length_names_insert_le (fileName name) content
      (d.erase (fileName (name ++ bytes ".tmp")))
    omega

theorem get_erase (k q : Bytes) (d : Directory) :
    (d.erase k).get q = Function.update d.get k none q := by
  by_cases hq : q = k
  · rw [hq, Map.get_erase_self, Function.update_self]
  · rw [Map.get_erase_other hq, Function.update_of_ne hq]

theorem get_insert (k q v : Bytes) (d : Directory) :
    (d.insert k v).get q = Function.update d.get k (some v) q := by
  by_cases hq : q = k
  · rw [hq, Map.get_insert_self, Function.update_self]
  · rw [Map.get_insert_other hq, Function.update_of_ne hq]

/-- On the paths under the directory this is the `AtomicWrite` of the store. -/
theorem files_atomicWrite {dir : Bytes} (hdir : (0 : UInt8) ∉ dir) {s : Store}
    (h : ∀ q, s.files (dir ++ bytes "/" ++ q) = d.get q) (w : Writing) (name content q : Bytes) :
    (atomicWrite w (dir ++ bytes "/" ++ name) content s).2.files (dir ++ bytes "/" ++ q) =
      (writeFile w name content d).get q := by
  have hfile : ∀ n, fileName (dir ++ bytes "/" ++ n) = dir ++ bytes "/" ++ fileName n := by
    intro n
    apply List.takeWhile_append_of_pos
    intro b hb
    rcases List.mem_append.mp hb with hb | hb
    · exact decide_eq_true fun hz => hdir (hz ▸ hb)
    · have hslash : ∀ b ∈ bytes "/", decide (b ≠ 0) = true := by decide
      exact hslash b hb
  have hunder : ∀ (files : Bytes → Option Bytes) k v,
      Function.update files (dir ++ bytes "/" ++ k) v (dir ++ bytes "/" ++ q) =
        Function.update (fun n => files (dir ++ bytes "/" ++ n)) k v q := by
    intro files k v
    by_cases hq : q = k
    · rw [hq, Function.update_self, Function.update_self]
    · rw [Function.update_of_ne hq, Function.update_of_ne]
      exact fun he => hq (List.append_cancel_left he)
  have hshown : (fun n => s.files (dir ++ bytes "/" ++ n)) = d.get := funext h
  have hremoved : ∀ k, (fun n => Function.update s.files (dir ++ bytes "/" ++ k) none
      (dir ++ bytes "/" ++ n)) = (d.erase k).get := by
    intro k
    funext n
    rw [get_erase, ← hshown]
    by_cases hn : n = k
    · rw [hn, Function.update_self, Function.update_self]
    · rw [Function.update_of_ne hn, Function.update_of_ne]
      exact fun he => hn (List.append_cancel_left he)
  unfold atomicWrite writeFile
  dsimp only
  rw [List.append_assoc _ name, hfile, hfile]
  split_ifs
  · exact h q
  · dsimp only
    rw [hunder, hshown, get_erase]
  · dsimp only
    rw [hunder, hremoved, get_insert]

end Directories

section Runs

variable {maxEntries : ℤ} {x : Watched} {r : Recording}

theorem first_iff {f : Bytes} : x.First f ↔ oldest x.session.directory = some f :=
  oldest_eq_some.symm

theorem mem_files_recording {f : Bytes} :
    f ∈ (recording maxEntries x r).files ↔ r.Written ∧ f = r.own ∨
      (f ∈ x.files ∧ (maxEntries ≤ x.files.length → ¬ x.First f)) ∧
        (r.writing.opened = true → f ≠ r.temporary) := by
  rw [first_iff]
  exact mem_writeFile.trans (or_congr_right (and_congr_left' mem_makeRoom))

theorem files_recording_length (h : (x.files.length : ℤ) ≤ max 1 maxEntries) :
    ((recording maxEntries x r).files.length : ℤ) ≤ max 1 maxEntries := by
  have hwrite : (recording maxEntries x r).files.length ≤
      (names (makeRoom maxEntries x.session.directory)).length + 1 :=
    length_writeFile_le _ _ _ _
  have hroom := length_makeRoom maxEntries x.session.directory
  have hfiles : (names x.session.directory).length = x.files.length := rfl
  omega

theorem orderly_of_lawful (h : Lawful maxEntries x r) : Orderly maxEntries x r := by
  obtain ⟨-, hkept, hevicted, hrepeated⟩ := h
  -- A file that is lost is not one that the directory already had for the command.
  have hlost : ∀ f ∈ x.files, f ∉ (recording maxEntries x r).files →
      r.own ∉ x.files ∧ x.LeastRecent f :=
    fun f hf hno => ⟨fun hown => hno (hrepeated hown f hf), hevicted f hf hno⟩
  refine ⟨?_, ?_, ?_⟩
  · rcases mem_files_recording.mp hkept with ⟨hw, -⟩ | ⟨⟨hown, hfirst⟩, htmp⟩
    · exact .inl hw
    · exact .inr ⟨hown, hfirst, htmp⟩
  · intro hfull f hf
    by_cases hown : f = r.own
    · exact .inl hown
    · right
      apply hlost f hf.1
      rw [mem_files_recording]
      rintro (⟨-, he⟩ | ⟨⟨-, hfirst⟩, -⟩)
      · exact hown he
      · exact hfirst hfull hf
  · intro hopen hin
    by_cases hown : r.temporary = r.own
    · exact .inl hown
    · right
      apply hlost _ hin
      rw [mem_files_recording]
      rintro (⟨-, he⟩ | ⟨-, hne⟩)
      · exact hown he
      · exact hne hopen rfl

/-- An orderly call loses only the file that was recorded before all others, for a new one. -/
theorem Orderly.lost (h : Orderly maxEntries x r) (hkept : r.own ∈ (recording maxEntries x r).files)
    {f : Bytes} (hf : f ∈ x.files) (hno : f ∉ (recording maxEntries x r).files) :
    r.own ∉ x.files ∧ x.LeastRecent f := by
  have hne : f ≠ r.own := fun he => hno (he ▸ hkept)
  rw [mem_files_recording, not_or] at hno
  by_cases hroom : maxEntries ≤ x.files.length → ¬ x.First f
  · have htaken : ¬ (r.writing.opened = true → f ≠ r.temporary) :=
      fun h => hno.2 ⟨⟨hf, hroom⟩, h⟩
    obtain ⟨hopen, he⟩ := Classical.not_imp.mp htaken
    have he : f = r.temporary := not_ne_iff.mp he
    rw [he] at hf hne ⊢
    exact (h.temporary hopen hf).resolve_left hne
  · obtain ⟨hmax, hfirst⟩ := Classical.not_imp.mp hroom
    exact (h.full hmax f (not_not.mp hfirst)).resolve_left hne

theorem lawful_iff (h : (x.files.length : ℤ) ≤ max 1 maxEntries) :
    Lawful maxEntries x r ↔ Orderly maxEntries x r := by
  refine ⟨orderly_of_lawful, fun ho => ?_⟩
  have hkept : r.own ∈ (recording maxEntries x r).files := by
    rw [mem_files_recording]
    rcases ho.stored with hw | ⟨hown, hfirst, hne⟩
    · exact .inl ⟨hw, rfl⟩
    · exact .inr ⟨⟨hown, hfirst⟩, hne⟩
  refine ⟨files_recording_length h, hkept, fun f hf hno => (ho.lost hkept hf hno).2, ?_⟩
  intro hown f hf
  by_contra hno
  exact (ho.lost hkept hf hno).1 hown

/-- All calls of a run keep to the law exactly if all of them are orderly. -/
theorem eviction_iff {tr : List (Watched × Recording)} (h : Run (recordings maxEntries) tr x) :
    (∀ y ∈ tr, Lawful maxEntries y.1 y.2) ↔ ∀ y ∈ tr, Orderly maxEntries y.1 y.2 := by
  refine h.steps_iff (I := fun x => (x.files.length : ℤ) ≤ max 1 maxEntries) ?_ ?_ ?_
  · intro x hx
    have hnil : x.files = [] := hx
    rw [hnil, List.length_nil]
    omega
  · intro x r y hx _
    exact lawful_iff hx
  · rintro x r y hx - rfl
    exact files_recording_length hx

end Runs

namespace Counterexample

def call (timestamp : { t : Bytes // newline ∉ t }) (command : String) : Recording :=
  ⟨⟨timestamp, bytes "2026"⟩, ⟨true, true, true⟩, bytes command, bytes "ok", true⟩

def start : Watched := ⟨⟨Map.empty, false⟩, []⟩

def after (calls : List Recording) : Watched := calls.foldl (recording 2) start

/-- The steps of three calls with room for two files. -/
def steps (a b c : Recording) : List (Watched × Recording) :=
  [(start, a), (after [a], b), (after [a, b], c)]

theorem run_steps (a b c : Recording) : Run (recordings 2) (steps a b c) (after [a, b, c]) :=
  (((Run.init rfl).step (e := a) rfl).step (e := b) rfl).step (e := c) rfl

def first (command : String) : Recording := call ⟨bytes "08:00", by decide⟩ command

def second (command : String) : Recording := call ⟨bytes "08:01", by decide⟩ command

def third (command : String) : Recording := call ⟨bytes "08:02", by decide⟩ command

/-- Three commands in the order of their names. -/
theorem sorted_commands :
    (steps (first "a") (second "b") (third "c")).Forall fun y => Lawful 2 y.1 y.2 := by
  rw [List.forall_iff_forall_mem]
  refine (eviction_iff (run_steps _ _ _)).mpr ?_
  have hwritten : ∀ timestamp command, (call timestamp command).Written :=
    fun _ _ => ⟨rfl, rfl, rfl⟩
  have hroom : ∀ f, (after [first "a", second "b"]).First f → f = bytes "2026-a.md" := by
    intro f hf
    have holdest : oldest (after [first "a", second "b"]).session.directory =
        some (bytes "2026-a.md") := by decide
    exact Option.some.inj ((first_iff.mp hf).symm.trans holdest)
  simp only [steps, List.forall_mem_cons, List.not_mem_nil, IsEmpty.forall_iff, implies_true,
    and_true]
  refine ⟨⟨.inl (hwritten _ _), ?_, ?_⟩, ⟨.inl (hwritten _ _), ?_, ?_⟩,
    ⟨.inl (hwritten _ _), ?_, ?_⟩⟩
  · exact fun h => absurd h (by decide)
  · exact fun _ h => absurd h (by decide)
  · exact fun h => absurd h (by decide)
  · exact fun _ h => absurd h (by decide)
  · rintro - f hf
    rw [hroom f hf]
    exact .inr ⟨by decide, by decide⟩
  · exact fun _ h => absurd h (by decide)

/-- The second command comes first by its name, and is removed in place of the first one. -/
theorem newer_evicted :
    Run (recordings 2) (steps (first "b") (second "a") (third "c"))
      (after [first "b", second "a", third "c"]) ∧
    ¬ ∀ y ∈ steps (first "b") (second "a") (third "c"), Lawful 2 y.1 y.2 := by
  refine ⟨run_steps _ _ _, fun h => ?_⟩
  have hlast : Lawful 2 (after [first "b", second "a"]) (third "c") :=
    h (after [first "b", second "a"], third "c") (by simp [steps])
  have hevicted := hlast.evicted (bytes "2026-a.md") (by decide) (by decide)
  have hnewer : ¬ (after [first "b", second "a"]).LeastRecent (bytes "2026-a.md") := by decide
  exact hnewer hevicted

end Counterexample

end CommandRecords
