import TizenClaw.SessionFiles

/-! Sessions as records of their own, one for each id, and when the files keep them apart. -/
namespace SessionIsolation

open ByteString JsonValue LlmTypes SessionMarkdown OrderedMap TransitionSystem SessionFiles

/-- What has been saved under one id. -/
structure Record where
  session : Option Bytes := none
  usage : Option Bytes := none

def Record.next (r : Record) : Event → Record
  | .saveSession _ history _ stamp written =>
    { r with session := (saved history stamp written).or r.session }
  | .logTokenUsage id u _ written => { r with usage := (logged id u written r.usage).or r.usage }
  | .deleteSession _ _ removed => if removed then { r with session := none } else r

/-- The record of an id after some calls: only those on the id count. -/
def record (id : SessionId) (calls : List Event) : Record :=
  (calls.filter fun e => e.id = id).foldl Record.next {}

/-- The file name of `a` ends like one of `b`: `b` follows a dash in `a`, or `b` starts with the
part of the date after one of its dashes. -/
def Clash (date : DatePrefix) (a b : SessionId) : Prop :=
  (∃ p, a.1 = p ++ bytes "-" ++ b.1) ∨
    ∃ p t, p ≠ [] ∧ date.1 = p ++ bytes "-" ++ t ∧ b.1 = t ++ bytes "-" ++ a.1

def Apart (ids : Set SessionId) (days : Set DatePrefix) : Prop :=
  ∀ a ∈ ids, ∀ b ∈ ids, a ≠ b → ∀ date ∈ days, ¬ Clash date a b

section Names

theorem nameSuffix_append (id : SessionId) (p : Bytes) :
    p ++ nameSuffix id = (p ++ bytes "-" ++ id.1) ++ bytes ".md" := by
  simp [nameSuffix]

theorem dash_eq : bytes "-" = [0x2D] := by decide

theorem matches_newName_iff (date : DatePrefix) (a b : SessionId) :
    Matches b (newName date a) ↔ a = b ∨ Clash date a b := by
  have hsuffix : nameSuffix b <:+ newName date a ↔
      ∃ p, p ++ (bytes "-" ++ b.1) = date.1 ++ (bytes "-" ++ a.1) := by
    apply exists_congr
    intro p
    rw [newName, nameSuffix_append, nameSuffix_append, List.append_cancel_right_eq,
      List.append_assoc, List.append_assoc]
  constructor
  · rintro ⟨hlen, hs⟩
    obtain ⟨p, hp⟩ := hsuffix.mp hs
    have hpne : p ≠ [] := by
      rintro rfl
      have hlength := congrArg List.length hp
      simp only [newName, nameSuffix, List.length_append, List.length_nil] at hlen hlength
      omega
    -- the dash of `b` stands behind the date, is the one after the date, or stands in the date
    rcases List.append_eq_append_iff.mp hp with ⟨t, hd, hb⟩ | ⟨t, rfl, ha⟩
    · cases t with
      | nil =>
        left
        exact Subtype.ext (List.append_cancel_left hb).symm
      | cons c t =>
        rw [dash_eq] at hb
        obtain ⟨rfl, ht⟩ := List.cons.inj hb
        right; right
        refine ⟨p, t, hpne, ?_, ?_⟩
        · rw [dash_eq, hd, List.append_assoc, List.singleton_append]
        · rw [dash_eq, List.append_assoc]
          exact ht
    · cases t with
      | nil =>
        left
        exact Subtype.ext (List.append_cancel_left ha)
      | cons c t =>
        rw [dash_eq] at ha
        obtain ⟨rfl, ht⟩ := List.cons.inj ha
        right; left
        refine ⟨t, ?_⟩
        rw [dash_eq, List.append_assoc]
        exact ht
  · rintro (rfl | ⟨p, ha⟩ | ⟨p, t, hp, hd, hb⟩)
    · exact matches_newName_self date a
    · constructor
      · have hd := List.length_pos_of_ne_nil date.2
        simp only [newName, nameSuffix, ha, List.length_append]
        omega
      · apply hsuffix.mpr
        exact ⟨date.1 ++ bytes "-" ++ p, by simp [ha]⟩
    · constructor
      · have hlength := List.length_pos_of_ne_nil hp
        simp only [newName, nameSuffix, hd, hb, List.length_append]
        omega
      · apply hsuffix.mpr
        exact ⟨p, by simp [hd, hb]⟩

end Names

section Directories

variable {dir : Directory} {days : Set DatePrefix} {id : SessionId} {listing : List Bytes}

/-- The one file an id finds, if there is one. -/
def Holds (dir : Directory) (days : Set DatePrefix) (id : SessionId) : Option Bytes → Prop
  | none => ∀ n ∈ dir.names, ¬ Matches id n
  | some text => ∃ date ∈ days, dir.get (newName date id) = some text ∧
      ∀ n ∈ dir.names, Matches id n → n = newName date id

theorem Holds.find_none (h : Holds dir days id none) (hl : listing.Perm dir.names) :
    findSessionFile listing id = none := by
  apply List.find?_eq_none.mpr
  intro n hn
  simpa using h n (hl.subset hn)

theorem Holds.find_some {date : DatePrefix} {text : Bytes}
    (hg : dir.get (newName date id) = some text)
    (hu : ∀ n ∈ dir.names, Matches id n → n = newName date id) (hl : listing.Perm dir.names) :
    findSessionFile listing id = some (newName date id) := by
  cases hf : findSessionFile listing id with
  | none =>
    have hn := List.find?_eq_none.mp hf _ (hl.symm.subset (mem_names_of_get hg))
    simp [matches_newName_self] at hn
  | some n =>
    have hm := List.find?_some hf
    rw [hu n (hl.subset (List.mem_of_find?_eq_some hf)) (by simpa using hm)]

/-- What an id finds is what it holds. -/
theorem Holds.found {content : Option Bytes} (h : Holds dir days id content)
    (hl : listing.Perm dir.names) : (findSessionFile listing id).bind dir.get = content := by
  cases content with
  | none =>
    rw [h.find_none hl]
    rfl
  | some text =>
    obtain ⟨date, -, hg, hu⟩ := h
    rw [Holds.find_some hg hu hl]
    exact hg

theorem Holds.get_path {content : Option Bytes} (h : Holds dir days id content)
    (hl : listing.Perm dir.names) (date : DatePrefix) :
    dir.get (getSessionPath listing date id) = content := by
  cases content with
  | none =>
    rw [getSessionPath, h.find_none hl, Option.getD_none]
    cases hg : dir.get (newName date id) with
    | none => rfl
    | some text => exact absurd (matches_newName_self date id) (h _ (mem_names_of_get hg))
  | some text =>
    obtain ⟨date', -, hg, hu⟩ := h
    rw [getSessionPath, Holds.find_some hg hu hl]
    exact hg

/-- The path of an id carries a day on which the id has been used, and only the file there
matches. -/
theorem Holds.path {content : Option Bytes} (h : Holds dir days id content)
    (hl : listing.Perm dir.names) {date : DatePrefix} (hd : date ∈ days) :
    ∃ date' ∈ days, getSessionPath listing date id = newName date' id ∧
      ∀ n ∈ dir.names, Matches id n → n = newName date' id := by
  cases content with
  | none =>
    refine ⟨date, hd, ?_, fun n hn hm => absurd hm (h n hn)⟩
    rw [getSessionPath, h.find_none hl, Option.getD_none]
  | some text =>
    obtain ⟨date', hd', hg, hu⟩ := h
    refine ⟨date', hd', ?_, hu⟩
    rw [getSessionPath, Holds.find_some hg hu hl, Option.getD_some]

theorem Holds.write_self {content : Option Bytes} (h : Holds dir days id content)
    (hl : listing.Perm dir.names) {date : DatePrefix} (hd : date ∈ days) (text : Option Bytes) :
    Holds (write (getSessionPath listing date id) text dir) days id (text.or content) := by
  cases text with
  | none => exact h
  | some text =>
    obtain ⟨date', hd', hp, hu⟩ := h.path hl hd
    rw [hp]
    refine ⟨date', hd', Map.get_insert_self _ _ _, fun n hn hm => ?_⟩
    rcases mem_names_insert hn with rfl | hn
    · rfl
    · exact hu n hn hm

theorem Holds.write_other {content : Option Bytes} (h : Holds dir days id content) {path : Bytes}
    (hp : ¬ Matches id path) (text : Option Bytes) :
    Holds (write path text dir) days id content := by
  cases text with
  | none => exact h
  | some text =>
    cases content with
    | none =>
      intro n hn hm
      rcases mem_names_insert hn with rfl | hn
      · exact hp hm
      · exact h n hn hm
    | some text' =>
      obtain ⟨date, hd, hg, hu⟩ := h
      refine ⟨date, hd, ?_, fun n hn hm => ?_⟩
      · have hne : newName date id ≠ path := fun he => hp (he ▸ matches_newName_self date id)
        rw [write, Map.get_insert_other hne, hg]
      · rcases mem_names_insert hn with rfl | hn
        · exact absurd hm hp
        · exact hu n hn hm

theorem Holds.erase_self {content : Option Bytes} (h : Holds dir days id content)
    (hl : listing.Perm dir.names) {date : DatePrefix} (hd : date ∈ days) :
    Holds (dir.erase (getSessionPath listing date id)) days id none := by
  obtain ⟨date', -, hp, hu⟩ := h.path hl hd
  rw [hp]
  intro n hn hm
  obtain ⟨hn, hne⟩ := mem_names_erase.mp hn
  exact hne (hu n hn hm)

theorem Holds.erase_other {content : Option Bytes} (h : Holds dir days id content) {path : Bytes}
    (hp : ¬ Matches id path) : Holds (dir.erase path) days id content := by
  cases content with
  | none =>
    intro n hn
    exact h n (mem_names_erase.mp hn).1
  | some text =>
    obtain ⟨date, hd, hg, hu⟩ := h
    refine ⟨date, hd, ?_, fun n hn => hu n (mem_names_erase.mp hn).1⟩
    have hne : newName date id ≠ path := fun he => hp (he ▸ matches_newName_self date id)
    exact Map.mem_iff_get.mp (Map.mem_erase.mpr ⟨Map.mem_iff_get.mpr hg, hne⟩)

end Directories

section Isolation

variable {ids : Set SessionId} {days : Set DatePrefix} {s t : Store} {e : Event}

/-- Each id finds its record. -/
def Refines (ids : Set SessionId) (days : Set DatePrefix) (s : Store) (calls : List Event) : Prop :=
  ∀ id ∈ ids, Holds s.sessions days id (record id calls).session ∧
    Holds s.usage days id (record id calls).usage

theorem record_self (calls : List Event) :
    record e.id (calls ++ [e]) = (record e.id calls).next e := by
  simp [record, List.filter_append]

theorem record_other {id : SessionId} (h : e.id ≠ id) (calls : List Event) :
    record id (calls ++ [e]) = record id calls := by
  simp [record, List.filter_append, h]

/-- The path of one id is not a file of another. -/
theorem not_matches_path (ha : Apart ids days) {dir : Directory} {id other : SessionId}
    {content : Option Bytes} (h : Holds dir days id content) (hid : id ∈ ids) (ho : other ∈ ids)
    (hne : id ≠ other) {listing : List Bytes} (hl : listing.Perm dir.names) {date : DatePrefix}
    (hd : date ∈ days) : ¬ Matches other (getSessionPath listing date id) := by
  obtain ⟨date', hd', hp, -⟩ := h.path hl hd
  rw [hp, matches_newName_iff]
  rintro (he | hc)
  · exact hne he
  · exact ha id hid other ho hne date' hd' hc

theorem refines_step (ha : Apart ids days) {calls : List Event} (h : Refines ids days s calls)
    (hs : (stores ids days).Step s e t) : Refines ids days t (calls ++ [e]) := by
  obtain ⟨hid, hd, sessions, usage, hls, hlu, rfl⟩ := hs
  obtain ⟨hsession, husage⟩ := h e.id hid
  intro other ho
  by_cases hne : e.id = other
  · subst hne
    rw [record_self]
    cases e with
    | saveSession id history date stamp written =>
      exact ⟨hsession.write_self hls hd _, husage⟩
    | logTokenUsage id u date written =>
      refine ⟨hsession, ?_⟩
      have hg := husage.get_path hlu date
      simp only [next, Record.next, Event.id] at hg ⊢
      rw [hg]
      exact husage.write_self hlu hd _
    | deleteSession id date removed =>
      cases removed with
      | false => exact ⟨hsession, husage⟩
      | true => exact ⟨(hsession.erase_self hls hd).erase_other (not_matches_legacy _ _), husage⟩
  · rw [record_other hne]
    obtain ⟨hsession', husage'⟩ := h other ho
    have hps := not_matches_path ha hsession hid ho hne hls hd
    have hpu := not_matches_path ha husage hid ho hne hlu hd
    cases e with
    | saveSession id history date stamp written => exact ⟨hsession'.write_other hps _, husage'⟩
    | logTokenUsage id u date written => exact ⟨hsession', husage'.write_other hpu _⟩
    | deleteSession id date removed =>
      cases removed with
      | false => exact ⟨hsession', husage'⟩
      | true => exact ⟨(hsession'.erase_other hps).erase_other (not_matches_legacy _ _), husage'⟩

theorem refines (ha : Apart ids days) {tr} (h : Run (stores ids days) tr s) :
    Refines ids days s (tr.map Prod.snd) := by
  induction h with
  | init h =>
    obtain rfl := h
    intro id _
    exact ⟨by simp [record, Holds, Directory.names, Map.empty],
      by simp [record, Holds, Directory.names, Map.empty]⟩
  | step _ hs ih =>
    rw [List.map_append]
    exact refines_step ha ih hs

variable (readFloat : Bytes → Option NumberText)

/-- What an id loads, on any day and in whatever order the directories are listed. -/
def Loads (s : Store) (id : SessionId) (session : Except OutOfRange (List LlmMessage))
    (usage : Option TokenUsageSummary) : Prop :=
  (∀ listing date, listing.Perm s.sessions.names →
    loadSession readFloat listing date s.sessions id = session) ∧
  ∀ listing, listing.Perm s.usage.names → loadTokenUsage listing s.usage id = usage

/-- A call leaves what the other ids load as it was, and an id loads what the calls on it alone
have saved. -/
structure Isolated (ids : Set SessionId) (days : Set DatePrefix) : Prop where
  frame : ∀ tr s e t, Run (stores ids days) tr s → (stores ids days).Step s e t →
    ∀ id ∈ ids, id ≠ e.id → ∃ session usage,
      Loads readFloat s id session usage ∧ Loads readFloat t id session usage
  own : ∀ tr s, Run (stores ids days) tr s → ∀ id ∈ ids,
    Loads readFloat s id
      (SessionMarkdown.loadSession readFloat (record id (tr.map Prod.snd)).session)
      (readUsage (record id (tr.map Prod.snd)).usage)

theorem loads_record {calls : List Event} (h : Refines ids days s calls) {id : SessionId}
    (hid : id ∈ ids) :
    Loads readFloat s id (SessionMarkdown.loadSession readFloat (record id calls).session)
      (readUsage (record id calls).usage) := by
  obtain ⟨hsession, husage⟩ := h id hid
  constructor
  · intro listing date hl
    rw [SessionFiles.loadSession, hsession.get_path hl date]
  · intro listing hl
    rw [loadTokenUsage, husage.found hl]

theorem isolated_of_apart (ha : Apart ids days) : Isolated readFloat ids days where
  frame tr s e t hr hs id hid hne := by
    have h := loads_record readFloat (refines ha hr) hid
    have h' := loads_record readFloat (refines_step ha (refines ha hr) hs) hid
    rw [record_other fun he => hne he.symm] at h'
    exact ⟨_, _, h, h'⟩
  own tr s hr id hid := loads_record readFloat (refines ha hr) hid

end Isolation

section Clashing

def stamp : Timestamp := ⟨bytes "2026-03-01T09:00:00Z", by decide⟩
def hello : List LlmMessage := [userMessage (bytes "hello")]

def file : Bytes :=
  bytes "---\nmessage_count: 1\nupdated: 2026-03-01T09:00:00Z\n---\n\n## user\n\nhello\n"

theorem saved_hello : saved hello stamp true = some file := by decide

theorem load_hello (readFloat : Bytes → Option NumberText) :
    SessionMarkdown.loadSession readFloat (some file) = .ok hello := rfl

def saveHello (id : SessionId) (date : DatePrefix) : Event := .saveSession id hello date stamp true

/-- The store after the first save of all. -/
def savedStore (id : SessionId) (date : DatePrefix) : Store :=
  { sessions := Map.empty.insert (newName date id) file }

variable {ids : Set SessionId} {days : Set DatePrefix} {a b : SessionId} {date : DatePrefix}

theorem run_saved (ha : a ∈ ids) (hd : date ∈ days) :
    Run (stores ids days) [({}, saveHello a date)] (savedStore a date) := by
  apply Run.step (.init rfl)
  refine ⟨ha, hd, [], [], .nil, .nil, ?_⟩
  simp only [saveHello, next, saved_hello]
  rfl

theorem names_saved : (savedStore a date).sessions.names = [newName date a] := rfl

/-- One save of `a` is enough for a session of `b`. -/
theorem load_clash (readFloat : Bytes → Option NumberText) (hc : Matches b (newName date a))
    (day : DatePrefix) : loadSession readFloat (savedStore a date).sessions.names day
      (savedStore a date).sessions b = .ok hello := by
  have hf : findSessionFile (savedStore a date).sessions.names b = some (newName date a) := by
    rw [names_saved]
    simp [findSessionFile, hc]
  rw [SessionFiles.loadSession, getSessionPath, hf, Option.getD_some, savedStore,
    Map.get_insert_self, load_hello]

theorem not_isolated_of_clash (readFloat : Bytes → Option NumberText) (ha : a ∈ ids) (hb : b ∈ ids)
    (hne : a ≠ b) (hd : date ∈ days) (hc : Clash date a b) : ¬ Isolated readFloat ids days := by
  intro h
  have hown := (h.own _ _ (run_saved ha hd) b hb).1 _ date (.refl _)
  rw [load_clash readFloat ((matches_newName_iff date a b).mpr (.inr hc))] at hown
  have hrecord : record b ([(({} : Store), saveHello a date)].map Prod.snd) = {} :=
    record_other (e := saveHello a date) hne []
  rw [hrecord] at hown
  cases hown

/-- The sessions of a set of ids are isolated exactly when no id of the set clashes with
another. -/
theorem isolated_iff (readFloat : Bytes → Option NumberText) (ids : Set SessionId)
    (days : Set DatePrefix) : Isolated readFloat ids days ↔ Apart ids days := by
  constructor
  · intro h a ha b hb hne date hd hc
    exact not_isolated_of_clash readFloat ha hb hne hd hc h
  · exact isolated_of_apart readFloat

end Clashing

namespace Counterexample

def alice : SessionId := ⟨bytes "alice", by decide⟩
def teamAlice : SessionId := ⟨bytes "team-alice", by decide⟩
def today : DatePrefix := ⟨bytes "2026-03-01", by decide⟩

def noFloats : Bytes → Option NumberText := fun _ => none

/-- The session of the one is loaded as that of the other. -/
theorem sessions_shared : ¬ Isolated noFloats {alice, teamAlice} {today} ∧
    ∃ tr s, Run (stores {alice, teamAlice} {today}) tr s ∧ (∀ x ∈ tr, x.2.id = teamAlice) ∧
      loadSession noFloats s.sessions.names today s.sessions alice = .ok hello := by
  have hne : teamAlice ≠ alice := by decide
  have hc : Clash today teamAlice alice := by
    left
    exact ⟨bytes "team", by decide⟩
  constructor
  · exact not_isolated_of_clash noFloats (by simp) (by simp) hne rfl hc
  · refine ⟨_, _, run_saved (a := teamAlice) (by simp) rfl,
      by simp [saveHello, Event.id], ?_⟩
    exact load_clash noFloats ((matches_newName_iff today teamAlice alice).mpr (.inr hc)) today

end Counterexample

end SessionIsolation
