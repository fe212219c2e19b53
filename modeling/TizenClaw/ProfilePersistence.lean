import TizenClaw.JsonStorable
import TizenClaw.OrderedMap
import TizenClaw.TransitionSystem
import TizenClaw.UserProfileStore
import TizenClaw.WebBridge

/-! The table of user profiles and the file it is saved to: what a restart makes of any run of
changes. -/
namespace ProfilePersistence

open ByteString JsonValue JsonDump JsonParse JsonRoundTrip JsonStorable OrderedMap TransitionSystem
  UserProfileStore

section Model

abbrev Table := Map Bytes UserProfile

/-- `db_path_` is empty before the store is initialized. -/
structure Store where
  dbPath : Bytes := []
  profiles : Table := .empty
  sessionUserMap : SessionUserMap := fun _ => none

def roleToString : UserRole → Bytes
  | .guest => bytes "guest"
  | .child => bytes "child"
  | .member => bytes "member"
  | .admin => bytes "admin"

def stringToRole (s : Bytes) : UserRole :=
  if s = bytes "admin" then .admin
  else if s = bytes "member" then .member
  else if s = bytes "child" then .child
  else .guest

def profileMembers (p : UserProfile) : List (Bytes × Json) :=
  [(bytes "user_id", .str p.userId), (bytes "name", .str p.name),
    (bytes "role", .str (roleToString p.role)), (bytes "voice_id", .str p.voiceId)] ++
    if p.preferences.empty then [] else [(bytes "preferences", p.preferences)]

def fileJson (t : Table) : Json :=
  .object [(bytes "profiles", .arr (t.entries.map fun e => .object (profileMembers e.2)))]

/-- What becomes of the temporary file: it may not be opened, take only some of the bytes, which goes
unnoticed, or not be renamed. -/
structure Outcome where
  opened : Bool := true
  written : Option ℕ := none
  renamed : Bool := true

/-- The profiles are dumped when the temporary file is open already. -/
def saveToDisk (s : Store) (o : Outcome) (file : Option Bytes) : Option Bytes × Bool :=
  if s.dbPath = [] ∨ o.opened = false then (file, false)
  else match dumpIndent 2 (fileJson s.profiles) with
    | .error _ => (file, false)
    | .ok text =>
      if o.renamed then
        (some ((o.written.map fun n => (text ++ [newline]).take n).getD (text ++ [newline])), true)
      else (file, false)

def upsertProfile (s : Store) (p : UserProfile) (o : Outcome) (file : Option Bytes) :
    Store × Option Bytes × Bool :=
  if p.userId = [] then (s, file, false)
  else
    let t := { s with profiles := s.profiles.insert p.userId p }
    (t, saveToDisk t o file)

/-- Sessions of the user go with the profile. -/
def erased (s : Store) (userId : Bytes) : Store :=
  { s with
    profiles := s.profiles.erase userId
    sessionUserMap := fun session => (s.sessionUserMap session).filter (· ≠ userId) }

def deleteProfile (s : Store) (userId : Bytes) (o : Outcome) (file : Option Bytes) :
    Store × Option Bytes × Bool :=
  if s.profiles.contains userId then
    (erased s userId, saveToDisk (erased s userId) o file)
  else (s, file, false)

variable (readFloat : Bytes → Option NumberText)

def readProfile (item : Json) : Except JsonException UserProfile :=
  (item.valueString (bytes "user_id") []).bind fun userId =>
    (item.valueString (bytes "name") (bytes "Unknown")).bind fun name =>
      (item.valueString (bytes "role") (bytes "guest")).bind fun role =>
        (item.valueString (bytes "voice_id") []).map fun voiceId =>
          { userId, name, role := stringToRole role, voiceId
            preferences := (item.member? (bytes "preferences")).getD .null }

/-- What is read before an exception stays in the table. -/
def readProfiles : List Json → Table → Table × Bool
  | [], t => (t, true)
  | item :: items, t => match readProfile item with
    | .error _ => (t, false)
    | .ok p => readProfiles items (if p.userId = [] then t else t.insert p.userId p)

def loadProfiles : Option Bytes → Table × Bool
  | none => (.empty, true)
  | some content => match WebBridge.parseFront readFloat content with
    | .error _ => (.empty, false)
    | .ok j => match j.member? (bytes "profiles") with
      | some (.arr items) => readProfiles items .empty
      | _ => (.empty, true)

/-- `Initialize` of a new store -/
def initializeProfiles (dbPath : Bytes) (file : Option Bytes) : Store × Bool :=
  ({ dbPath, profiles := (loadProfiles readFloat file).1 }, (loadProfiles readFloat file).2)

end Model

section Runs

inductive Event where
  | upsert (p : UserProfile) (o : Outcome)
  | delete (userId : Bytes) (o : Outcome)
  | bind (session userId : Bytes)
  | restart

/-- The table as it was saved last is kept for the statements. -/
structure State where
  store : Store
  file : Option Bytes
  saved : Table

variable (readFloat : Bytes → Option NumberText)

def State.ofFile (dbPath : Bytes) (file : Option Bytes) : State where
  store := (initializeProfiles readFloat dbPath file).1
  file
  saved := (loadProfiles readFloat file).1

/-- The store, its file, and what the call returns. -/
def act (s : State) : Event → Store × Option Bytes × Bool
  | .upsert p o => upsertProfile s.store p o s.file
  | .delete userId o => deleteProfile s.store userId o s.file
  | .bind session userId =>
    ({ s.store with sessionUserMap := bindSession s.store.sessionUserMap session userId }, s.file,
      true)
  | .restart =>
    ((initializeProfiles readFloat s.store.dbPath s.file).1, s.file,
      (initializeProfiles readFloat s.store.dbPath s.file).2)

def Event.outcome : Event → Option Outcome
  | .upsert _ o | .delete _ o => some o
  | _ => none

def step (s : State) (e : Event) : State where
  store := (act readFloat s e).1
  file := (act readFloat s e).2.1
  saved :=
    if e.outcome.isSome ∧ (act readFloat s e).2.2 = true then (act readFloat s e).1.profiles
    else s.saved

def agent (dbPath : Bytes) : System State Event where
  Init s := ∃ file, s = State.ofFile readFloat dbPath file
  Step s e t := step readFloat s e = t

/-- The texts of a profile can be written out. -/
def Legible (p : UserProfile) : Prop :=
  Utf8.valid p.userId = true ∧ Utf8.valid p.name = true ∧ Utf8.valid p.voiceId = true ∧
    p.preferences.utf8 = true

instance (p : UserProfile) : Decidable (Legible p) := inferInstanceAs (Decidable (_ ∧ _))

/-- Empty preferences are not written. -/
def shown (p : UserProfile) : UserProfile :=
  if p.preferences.empty then { p with preferences := .null } else p

/-- What is written gets into the file whole, and preferences that can be written can be read back. -/
def Orderly : Event → Prop
  | .upsert p o =>
    o.written = none ∧ (p.preferences.utf8 = true → Storable readFloat p.preferences)
  | .delete _ o => o.written = none
  | .bind _ _ | .restart => True

/-- The call changes the table. -/
def Changes (s : State) : Event → Prop
  | .upsert p _ => p.userId ≠ []
  | .delete userId _ => s.store.profiles.contains userId = true
  | _ => False

instance (s : State) : DecidablePred (Changes s)
  | .upsert p _ => inferInstanceAs (Decidable (p.userId ≠ []))
  | .delete userId _ => inferInstanceAs (Decidable (s.store.profiles.contains userId = true))
  | .bind _ _ | .restart => isFalse id

end Runs

section Written

variable {readFloat : Bytes → Option NumberText} {p : UserProfile} {t : Table}

theorem stringToRole_roleToString (r : UserRole) : stringToRole (roleToString r) = r := by
  cases r <;> decide

theorem keys_nodup (p : UserProfile) : ((profileMembers p).map Prod.fst).Nodup := by
  unfold profileMembers
  split_ifs
  · change [bytes "user_id", bytes "name", bytes "role", bytes "voice_id"].Nodup
    decide
  · change [bytes "user_id", bytes "name", bytes "role", bytes "voice_id",
      bytes "preferences"].Nodup
    decide

theorem utf8_profile : (Json.object (profileMembers p)).utf8 = true ↔ Legible p := by
  have hkeys : ∀ s ∈ [bytes "user_id", bytes "name", bytes "role", bytes "voice_id",
      bytes "preferences"], Utf8.valid s = true := by decide
  have hrole : Utf8.valid (roleToString p.role) = true := by
    cases p.role <;> decide
  rw [utf8_object _ rfl (keys_nodup p), Legible, profileMembers]
  split_ifs with hempty
  · simp [utf8Members, Json.utf8, hkeys, hrole, utf8_of_empty hempty]
  · simp [utf8Members, Json.utf8, hkeys, hrole]

theorem utf8_fileJson : (fileJson t).utf8 = true ↔ ∀ e ∈ t.entries, Legible e.2 := by
  have hkey : Utf8.valid (bytes "profiles") = true := by decide
  rw [fileJson, utf8_object [bytes "profiles"] rfl (by decide)]
  simp only [utf8Members, hkey, Json.utf8, Bool.true_and, Bool.and_true, utf8List_iff,
    List.forall_mem_map, utf8_profile]

theorem storable_profile (h : Legible p) (hp : Storable readFloat p.preferences) :
    Storable readFloat (.object (profileMembers p)) := by
  have hkeys : ∀ s ∈ [bytes "user_id", bytes "name", bytes "role", bytes "voice_id",
      bytes "preferences"], Utf8.valid s = true := by decide
  have hrole : Utf8.valid (roleToString p.role) = true := by
    cases p.role <;> decide
  apply storable_object
  unfold profileMembers
  split_ifs
  · exact ⟨hkeys _ (by simp), h.1, hkeys _ (by simp), h.2.1, hkeys _ (by simp), hrole,
      hkeys _ (by simp), h.2.2.1, trivial⟩
  · exact ⟨hkeys _ (by simp), h.1, hkeys _ (by simp), h.2.1, hkeys _ (by simp), hrole,
      hkeys _ (by simp), h.2.2.1, hkeys _ (by simp), hp, trivial⟩

theorem storable_fileJson
    (h : ∀ e ∈ t.entries, Legible e.2 ∧ Storable readFloat e.2.preferences) :
    Storable readFloat (fileJson t) := by
  have hkey : Utf8.valid (bytes "profiles") = true := by decide
  refine storable_object ⟨hkey, ?_, trivial⟩
  rw [Storable, storableList_iff]
  intro j hj
  obtain ⟨e, he, rfl⟩ := List.mem_map.mp hj
  exact storable_profile (h e he).1 (h e he).2

theorem readProfile_members (p : UserProfile) :
    readProfile (.object (profileMembers p)) = .ok (shown p) := by
  have hmember := member_object (keys_nodup p)
  have hid : (Json.object (profileMembers p)).member? (bytes "user_id") = some (.str p.userId) :=
    (hmember _).trans rfl
  have hname : (Json.object (profileMembers p)).member? (bytes "name") = some (.str p.name) :=
    (hmember _).trans rfl
  have hrole : (Json.object (profileMembers p)).member? (bytes "role") =
      some (.str (roleToString p.role)) := (hmember _).trans rfl
  have hvoice : (Json.object (profileMembers p)).member? (bytes "voice_id") =
      some (.str p.voiceId) := (hmember _).trans rfl
  have hpreferences : ((Json.object (profileMembers p)).member? (bytes "preferences")).getD .null =
      (shown p).preferences := by
    rw [hmember, profileMembers, shown]
    split_ifs <;> rfl
  rw [readProfile, valueString_of_member hid, valueString_of_member hname,
    valueString_of_member hrole, valueString_of_member hvoice, hpreferences]
  simp only [Except.bind, Except.map, stringToRole_roleToString]
  unfold shown
  split_ifs <;> rfl

theorem lookup_entries (t : Table) (userId : Bytes) :
    t.entries.lookup userId = t.get userId := by
  cases hget : t.get userId with
  | some p => exact lookup_of_mem t.nodup (Map.mem_iff_get.mpr hget)
  | none =>
    rw [List.lookup_eq_none_iff]
    intro x hx
    simp only [bne_iff_ne, ne_eq]
    rintro rfl
    rw [Map.mem_iff_get.mp hx] at hget
    cases hget

theorem shown_userId (p : UserProfile) : (shown p).userId = p.userId := by
  unfold shown
  split_ifs <;> rfl

/-- The profiles of a list, each under its own id, are what is read of it. -/
theorem readProfiles_get {l : List (Bytes × UserProfile)} (hn : (l.map Prod.fst).Nodup)
    (hl : ∀ e ∈ l, e.2.userId = e.1 ∧ e.1 ≠ []) (t : Table) (userId : Bytes) :
    (readProfiles (l.map fun e => .object (profileMembers e.2)) t).1.get userId =
      ((l.lookup userId).map shown).or (t.get userId) := by
  induction l generalizing t with
  | nil => rfl
  | cons e l ih =>
    rw [List.map_cons, List.nodup_cons] at hn
    rw [List.forall_mem_cons] at hl
    obtain ⟨⟨hid, hne⟩, hl⟩ := hl
    rw [List.map_cons, readProfiles, readProfile_members]
    simp only [shown_userId, hid, if_neg hne]
    rw [ih hn.2 hl, List.lookup_cons]
    by_cases hk : userId = e.1
    · subst hk
      have hnone : l.lookup e.1 = none := by
        rw [List.lookup_eq_none_iff]
        intro x hx
        simp only [bne_iff_ne, ne_eq]
        intro he
        exact hn.1 (he ▸ List.mem_map_of_mem hx)
      rw [hnone, beq_self_eq_true, Map.get_insert_self]
      rfl
    · rw [beq_false_of_ne hk, Map.get_insert_other hk]

end Written

section Kept

variable {readFloat : Bytes → Option NumberText} {s : Store} {o : Outcome} {file : Option Bytes}
  {t : Table}

/-- Each profile is under its own id, and its preferences can be read back if they can be written. -/
structure Proper (readFloat : Bytes → Option NumberText) (t : Table) : Prop where
  keyed : ∀ e ∈ t.entries, e.2.userId = e.1 ∧ e.1 ≠ []
  plain : ∀ e ∈ t.entries, e.2.preferences.utf8 = true → Storable readFloat e.2.preferences

theorem Proper.empty : Proper readFloat .empty :=
  ⟨fun _ he => absurd he List.not_mem_nil, fun _ he => absurd he List.not_mem_nil⟩

theorem Proper.insert (h : Proper readFloat t) {p : UserProfile} (hid : p.userId ≠ [])
    (hp : p.preferences.utf8 = true → Storable readFloat p.preferences) :
    Proper readFloat (t.insert p.userId p) := by
  constructor
  · intro e he
    rcases Map.mem_insert he with rfl | ⟨-, he⟩
    · exact ⟨rfl, hid⟩
    · exact h.keyed e he
  · intro e he
    rcases Map.mem_insert he with rfl | ⟨-, he⟩
    · exact hp
    · exact h.plain e he

theorem Proper.erase (h : Proper readFloat t) (userId : Bytes) :
    Proper readFloat (t.erase userId) :=
  ⟨fun e he => h.keyed e (Map.mem_erase.mp he).1, fun e he => h.plain e (Map.mem_erase.mp he).1⟩

theorem saveToDisk_iff : (saveToDisk s o file).2 = true ↔
    s.dbPath ≠ [] ∧ o.opened = true ∧ o.renamed = true ∧
      ∀ e ∈ s.profiles.entries, Legible e.2 := by
  rw [← utf8_fileJson, saveToDisk]
  by_cases hopen : s.dbPath = [] ∨ o.opened = false
  · rw [if_pos hopen]
    refine iff_of_false Bool.false_ne_true ?_
    rintro ⟨hpath, hopened, -⟩
    rcases hopen with ho | ho
    · exact hpath ho
    · rw [hopened] at ho
      cases ho
  · rw [if_neg hopen]
    rw [not_or, Bool.not_eq_false] at hopen
    by_cases hutf8 : (fileJson s.profiles).utf8 = true
    · rw [dumpIndent, dumpWith_utf8 _ hutf8]
      dsimp only
      by_cases hr : o.renamed = true
      · rw [if_pos hr]
        exact iff_of_true rfl ⟨hopen.1, hopen.2, hr, hutf8⟩
      · rw [if_neg hr]
        exact iff_of_false Bool.false_ne_true fun h => hr h.2.2.1
    · rw [dumpIndent, dumpWith, if_neg hutf8]
      exact iff_of_false Bool.false_ne_true fun h => hutf8 h.2.2.2

theorem saveToDisk_false (h : (saveToDisk s o file).2 = false) :
    (saveToDisk s o file).1 = file := by
  rw [saveToDisk] at h ⊢
  by_cases hopen : s.dbPath = [] ∨ o.opened = false
  · rw [if_pos hopen]
  · rw [if_neg hopen] at h ⊢
    cases hdump : dumpIndent 2 (fileJson s.profiles) with
    | error e => rfl
    | ok text =>
      rw [hdump] at h
      dsimp only at h ⊢
      by_cases hr : o.renamed = true
      · rw [if_pos hr] at h
        cases h
      · rw [if_neg hr]

theorem loadProfiles_save (h : Proper readFloat s.profiles) (hw : o.written = none)
    (hs : (saveToDisk s o file).2 = true) (userId : Bytes) :
    (loadProfiles readFloat (saveToDisk s o file).1).1.get userId =
      (s.profiles.get userId).map shown := by
  obtain ⟨hpath, hopened, hrenamed, hlegible⟩ := saveToDisk_iff.mp hs
  have hutf8 := utf8_fileJson.mpr hlegible
  have hfile : (saveToDisk s o file).1 =
      some (render id (indented 2) 0 (fileJson s.profiles) ++ [newline]) := by
    rw [saveToDisk, if_neg (by simp [hpath, hopened]), dumpIndent, dumpWith_utf8 _ hutf8]
    simp only [hrenamed, if_true, hw]
    rfl
  have hstorable : Storable readFloat (fileJson s.profiles) :=
    storable_fileJson fun e he => ⟨hlegible e he, h.plain e he (hlegible e he).2.2.2⟩
  have hparse := parse_render (whiteLayout_indented 2) hstorable 0 white_nil
    (white_singleton (by decide : isWhitespace newline = true))
  rw [List.nil_append] at hparse
  have hmember : (fileJson s.profiles).member? (bytes "profiles") =
      some (.arr (s.profiles.entries.map fun e => .object (profileMembers e.2))) := by
    refine (member_object ?_ _).trans rfl
    change [bytes "profiles"].Nodup
    decide
  rw [hfile, loadProfiles, WebBridge.parseFront_of_parse hparse]
  simp only [hmember]
  rw [readProfiles_get s.profiles.nodup h.keyed, Map.get_empty, Option.or_none, lookup_entries]

theorem readProfile_preferences {item : Json} {p : UserProfile} (h : readProfile item = .ok p) :
    p.preferences = (item.member? (bytes "preferences")).getD .null := by
  obtain ⟨userId, -, h⟩ := bind_eq_ok.mp h
  obtain ⟨name, -, h⟩ := bind_eq_ok.mp h
  obtain ⟨role, -, h⟩ := bind_eq_ok.mp h
  obtain ⟨voiceId, -, rfl⟩ := map_eq_ok.mp h
  rfl

theorem proper_readProfiles {items : List Json} (hi : ∀ j ∈ items, Storable readFloat j)
    (h : Proper readFloat t) : Proper readFloat (readProfiles items t).1 := by
  induction items generalizing t with
  | nil => exact h
  | cons item items ih =>
    rw [List.forall_mem_cons] at hi
    rw [readProfiles]
    cases hp : readProfile item with
    | error e => exact h
    | ok p =>
      apply ih hi.2
      split_ifs with hid
      · exact h
      · apply h.insert hid
        intro _
        rw [readProfile_preferences hp]
        cases hm : item.member? (bytes "preferences") with
        | none => trivial
        | some v => exact Storable.member hi.1 hm

theorem storable_parseFront (hf : ReadsBack readFloat) {text : Bytes} {j : Json}
    (h : WebBridge.parseFront readFloat text = .ok j) : Storable readFloat j := by
  unfold WebBridge.parseFront at h
  split at h
  next j' rest hv =>
    obtain rfl := Except.ok.inj h
    obtain ⟨u, -, hv⟩ := Option.bind_eq_some_iff.mp hv
    exact storable_parseValue hf hv
  · cases h

theorem proper_loadProfiles (hf : ReadsBack readFloat) (file : Option Bytes) :
    Proper readFloat (loadProfiles readFloat file).1 := by
  unfold loadProfiles
  cases file with
  | none => exact .empty
  | some text =>
    dsimp only
    cases hparse : WebBridge.parseFront readFloat text with
    | error e => exact .empty
    | ok j =>
      dsimp only
      split
      next items hm =>
        apply proper_readProfiles _ .empty
        have harr := Storable.member (storable_parseFront hf hparse) hm
        rw [Storable, storableList_iff] at harr
        exact harr
      · exact .empty

end Kept

section Restarts

variable {readFloat : Bytes → Option NumberText} {dbPath : Bytes} {s : State}
  {tr : List (State × Event)}

/-- What the file holds is the table as it was saved last, as far as profiles can be told apart. -/
structure Sound (readFloat : Bytes → Option NumberText) (dbPath : Bytes) (s : State) : Prop where
  path : s.store.dbPath = dbPath
  proper : Proper readFloat s.store.profiles
  kept : ∀ userId, ((loadProfiles readFloat s.file).1.get userId).map shown =
    (s.saved.get userId).map shown

theorem shown_shown (p : UserProfile) : shown (shown p) = shown p := by
  by_cases h : p.preferences.empty = true
  · have hp : shown p = { p with preferences := .null } := if_pos h
    rw [hp]
    exact if_pos rfl
  · have hp : shown p = p := if_neg h
    rw [hp, hp]

/-- A change that has been made in the table, with what the save of it does. -/
theorem Sound.save (h : Sound readFloat dbPath s) {e : Event} {store : Store} {o : Outcome}
    (ho : e.outcome = some o) (hw : o.written = none) (hpath : store.dbPath = dbPath)
    (hproper : Proper readFloat store.profiles)
    (hact : act readFloat s e = (store, saveToDisk store o s.file)) :
    Sound readFloat dbPath (step readFloat s e) := by
  refine ⟨?_, ?_, ?_⟩
  · rw [step, hact]
    exact hpath
  · rw [step, hact]
    exact hproper
  · intro userId
    simp only [step, hact, ho, Option.isSome_some, true_and]
    split_ifs with hs
    · rw [loadProfiles_save hproper hw hs, Option.map_map]
      congr 1
      funext p
      exact shown_shown p
    · rw [saveToDisk_false (Bool.eq_false_iff.mpr hs)]
      exact h.kept userId

/-- A call that returns at once. -/
theorem Sound.refused (h : Sound readFloat dbPath s) {e : Event}
    (hact : act readFloat s e = (s.store, s.file, false)) :
    Sound readFloat dbPath (step readFloat s e) := by
  have hstep : step readFloat s e = s := by
    simp [step, hact]
  rw [hstep]
  exact h

theorem sound_step (hf : ReadsBack readFloat) (h : Sound readFloat dbPath s) {e : Event}
    (he : Orderly readFloat e) : Sound readFloat dbPath (step readFloat s e) := by
  cases e with
  | upsert p o =>
    by_cases hid : p.userId = []
    · exact h.refused (if_pos hid)
    · have hact : act readFloat s (.upsert p o) =
          ({ s.store with profiles := s.store.profiles.insert p.userId p },
            saveToDisk { s.store with profiles := s.store.profiles.insert p.userId p } o s.file) :=
        if_neg hid
      refine h.save rfl he.1 ?_ ?_ hact
      · exact h.path
      · exact h.proper.insert hid he.2
  | delete userId o =>
    by_cases hc : s.store.profiles.contains userId = true
    · have hact : act readFloat s (.delete userId o) = (erased s.store userId,
          saveToDisk (erased s.store userId) o s.file) := if_pos hc
      refine h.save rfl he ?_ ?_ hact
      · exact h.path
      · exact h.proper.erase userId
    · exact h.refused (if_neg hc)
  | bind session userId => exact ⟨h.path, h.proper, h.kept⟩
  | restart => exact ⟨h.path, proper_loadProfiles hf s.file, h.kept⟩

theorem sound_ofFile (hf : ReadsBack readFloat) (file : Option Bytes) :
    Sound readFloat dbPath (State.ofFile readFloat dbPath file) :=
  ⟨rfl, proper_loadProfiles hf file, fun _ => rfl⟩

theorem sound_run (hf : ReadsBack readFloat) (hr : Run (agent readFloat dbPath) tr s)
    (horderly : ∀ x ∈ tr, Orderly readFloat x.2) : Sound readFloat dbPath s := by
  refine hr.guarded_invariant (P := fun _ e => Orderly readFloat e) ?_ ?_ horderly
  · rintro s ⟨file, rfl⟩
    exact sound_ofFile hf file
  · rintro s e t h he rfl
    exact sound_step hf h he

theorem act_returns_iff (h : s.store.dbPath = dbPath) {e : Event} {o : Outcome}
    (ho : e.outcome = some o) :
    (act readFloat s e).2.2 = true ↔ Changes s e ∧ dbPath ≠ [] ∧ o.opened = true ∧
      o.renamed = true ∧ ∀ x ∈ (act readFloat s e).1.profiles.entries, Legible x.2 := by
  cases e with
  | upsert p o' =>
    obtain rfl := Option.some.inj ho
    by_cases hid : p.userId = []
    · rw [act, upsertProfile, if_pos hid]
      exact iff_of_false Bool.false_ne_true fun hc => hc.1 hid
    · rw [act, upsertProfile, if_neg hid, ← h]
      exact saveToDisk_iff.trans (and_iff_right hid).symm
  | delete userId o' =>
    obtain rfl := Option.some.inj ho
    by_cases hc : s.store.profiles.contains userId = true
    · rw [act, deleteProfile, if_pos hc, ← h]
      exact saveToDisk_iff.trans (and_iff_right hc).symm
    · rw [act, deleteProfile, if_neg hc]
      exact iff_of_false Bool.false_ne_true fun hx => hc hx.1
  | bind session userId => cases ho
  | restart => cases ho

theorem shown_getProfile {t u : Table} {userId : Bytes}
    (h : (t.get userId).map shown = (u.get userId).map shown) :
    shown (getProfile t.entries userId) = shown (getProfile u.entries userId) := by
  have hget : ∀ v : Table, shown (getProfile v.entries userId) =
      ((v.get userId).map shown).getD (shown (getProfile [] userId)) := by
    intro v
    rw [getProfile, lookup_entries]
    cases v.get userId with
    | none => rfl
    | some p => rfl
  rw [hget t, hget u, h]

/-- After any run, if what was written got into the files whole, a restart gives every user the
profile of the last table that was saved. A call is saved exactly if it changes the table, its file
can be opened and renamed, and all profiles of the table are legible: one that is not keeps the
changes to all others from the file. -/
theorem restart_restores (hf : ReadsBack readFloat) (hr : Run (agent readFloat dbPath) tr s)
    (horderly : ∀ x ∈ tr, Orderly readFloat x.2) :
    (∀ userId, shown (getProfile (initializeProfiles readFloat dbPath s.file).1.profiles.entries userId) =
        shown (getProfile s.saved.entries userId)) ∧
      ∀ x ∈ tr, ∀ o, x.2.outcome = some o →
        ((act readFloat x.1 x.2).2.2 = true ↔ Changes x.1 x.2 ∧ dbPath ≠ [] ∧ o.opened = true ∧
          o.renamed = true ∧
            ∀ y ∈ (act readFloat x.1 x.2).1.profiles.entries, Legible y.2) := by
  constructor
  · intro userId
    exact shown_getProfile ((sound_run hf hr horderly).kept userId)
  · intro x hx o ho
    obtain ⟨tr₁, tr₂, t, rfl, hr₁, -⟩ := hr.split hx
    have hbefore := sound_run hf hr₁ fun y hy => horderly y (List.mem_append_left _ hy)
    exact act_returns_iff hbefore.path ho

theorem shown_role (p : UserProfile) : (shown p).role = p.role := by
  unfold shown
  split_ifs <;> rfl

/-- The second profile is not legible; the third is saved only when that one is gone. -/
def sampleEvents : List Event :=
  [.upsert { userId := bytes "a", name := bytes "Ann", role := .admin } {},
    .upsert { userId := bytes "b", name := [0xFF] } {},
    .upsert { userId := bytes "c", name := bytes "Cy", role := .member } {},
    .delete (bytes "b") {}, .restart]

def isPlain : Event → Bool
  | .upsert p o => o.written.isNone && p.preferences.isNull
  | .delete _ o => o.written.isNone
  | .bind _ _ | .restart => true

theorem orderly_of_isPlain {e : Event} (h : isPlain e = true) : Orderly readFloat e := by
  cases e with
  | upsert p o =>
    obtain ⟨ho, hp⟩ := Bool.and_eq_true_iff.mp h
    refine ⟨Option.isNone_iff_eq_none.mp ho, fun _ => ?_⟩
    rw [isNull_iff.mp hp]
    trivial
  | delete userId o => exact Option.isNone_iff_eq_none.mp h
  | bind session userId => trivial
  | restart => trivial

theorem restart_restores_sample : ∃ tr s, Run (agent (fun _ => none) (bytes "p")) tr s ∧
    (getProfile (initializeProfiles (fun _ => none) (bytes "p") s.file).1.profiles.entries
      (bytes "c")).role = .member ∧
    ∃ x ∈ tr, (act (fun _ => none) x.1 x.2).2.2 = false := by
  obtain ⟨tr, s, hr, hp⟩ := Run.of_execute (M := agent (fun _ => none) (bytes "p"))
    (fun s e t h => Option.some.inj h) ⟨none, rfl⟩ sampleEvents
    (fun tr s => tr.all (fun x => isPlain x.2) &&
      (decide ((getProfile s.saved.entries (bytes "c")).role = .member) &&
        tr.any fun x => !(act (fun _ => none) x.1 x.2).2.2)) (by decide +kernel)
  simp only [Bool.and_eq_true, decide_eq_true_eq, List.all_eq_true] at hp
  obtain ⟨hplain, hrole, hfailed⟩ := hp
  have hrestored := (restart_restores (fun _ _ hx => by cases hx) hr fun x hx =>
    orderly_of_isPlain (hplain x hx)).1 (bytes "c")
  refine ⟨tr, s, hr, ?_, ?_⟩
  · rw [← shown_role, hrestored, shown_role, hrole]
  · obtain ⟨x, hx, hno⟩ := List.any_eq_true.mp hfailed
    exact ⟨x, hx, by simpa using hno⟩

end Restarts

end ProfilePersistence
