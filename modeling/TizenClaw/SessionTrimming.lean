import TizenClaw.SessionMarkdown

/-! Saving a session under the size limit: which messages of the history are written. -/
namespace SessionTrimming

open ByteString JsonValue JsonDump LlmTypes SessionMarkdown

section Model

/-- The clock at the renderings of one save. Its texts are all of the same width. -/
structure Clock where
  stamp : ℕ → Timestamp
  width : ∀ m n, (stamp m).1.length = (stamp n).1.length

def Clock.stopped (stamp : Timestamp) : Clock := ⟨fun _ => stamp, fun _ _ => rfl⟩

variable (clock : Clock)

/-- The loop over the size: the messages that are left, and their rendering. -/
def trim : ℕ → Bytes → List LlmMessage → Except JsonException (List LlmMessage × Bytes)
  | n, data, a :: b :: c :: msgs =>
    if kMaxFileSize < data.length then
      (messagesToMarkdown (clock.stamp n) (b :: c :: msgs)).bind fun data =>
        trim (n + 1) data (b :: c :: msgs)
    else .ok (a :: b :: c :: msgs, data)
  | _, data, history => .ok (history, data)

/-- `SaveSession` with a name and a directory it can write to: what is written, and its bytes. -/
def save (history : List LlmMessage) : Except JsonException (Option (List LlmMessage × Bytes)) :=
  if history = [] then .ok none
  else (messagesToMarkdown (clock.stamp 0) history).bind fun data =>
    (trim clock 1 data history).map some

end Model

section Specification

variable (clock : Clock)

def Fits (msgs : List LlmMessage) : Prop :=
  ∃ data, messagesToMarkdown (clock.stamp 0) msgs = .ok data ∧ data.length ≤ kMaxFileSize

/-- An end of the history that could be written. -/
structure Candidate (history msgs : List LlmMessage) : Prop where
  suffix : msgs <:+ history
  two : 2 ≤ msgs.length
  fits : Fits clock msgs

/-- The messages that are to be written of a history. -/
structure SizeLaw (history kept : List LlmMessage) : Prop where
  suffix : kept <:+ history
  whole : Fits clock history → kept = history
  longest : ¬ Fits clock history → (∃ msgs, Candidate clock history msgs) →
    Candidate clock history kept ∧ ∀ msgs, Candidate clock history msgs → msgs.length ≤ kept.length
  least : ¬ Fits clock history → (¬ ∃ msgs, Candidate clock history msgs) →
    kept = history.drop (history.length - 2)

end Specification

section Trimming

variable {clock : Clock} {a : LlmMessage} {history kept : List LlmMessage} {n : ℕ} {data : Bytes}

/-- The time of a rendering does not change its length. -/
theorem fits_iff (h : messagesToMarkdown (clock.stamp n) history = .ok data) :
    Fits clock history ↔ data.length ≤ kMaxFileSize := by
  have hlength : ∀ m data', messagesToMarkdown (clock.stamp m) history = .ok data' →
      data'.length = data.length := by
    intro m data' h'
    unfold messagesToMarkdown at h h'
    cases hbody : bodyMarkdown history with
    | error e =>
      rw [hbody] at h
      cases h
    | ok body =>
      rw [hbody] at h h'
      obtain rfl := Except.ok.inj h
      obtain rfl := Except.ok.inj h'
      simp only [frontmatter, List.length_append, clock.width m n]
  have hsucceeds : Succeeds (messagesToMarkdown (clock.stamp 0) history) := by
    rw [succeeds_messagesToMarkdown, ← succeeds_messagesToMarkdown (clock.stamp n)]
    exact ⟨data, h⟩
  constructor
  · rintro ⟨data', h', hle⟩
    rwa [← hlength 0 data' h']
  · intro hle
    obtain ⟨data', h'⟩ := hsucceeds
    exact ⟨data', h', (hlength 0 data' h').trans_le hle⟩

theorem sizeLaw_of_fits (h : Fits clock history) : SizeLaw clock history history where
  suffix := List.suffix_refl history
  whole _ := rfl
  longest hno := absurd h hno
  least hno := absurd h hno

theorem sizeLaw_of_short (hlen : history.length ≤ 2) : SizeLaw clock history history where
  suffix := List.suffix_refl history
  whole _ := rfl
  longest := by
    rintro hno ⟨msgs, hsuffix, htwo, hfits⟩
    obtain rfl := hsuffix.eq_of_length_le (hlen.trans htwo)
    exact absurd hfits hno
  least _ _ := by rw [Nat.sub_eq_zero_of_le hlen, List.drop_zero]

/-- Without its oldest message a history that does not fit has the same candidates. -/
theorem candidate_cons_iff (h : ¬ Fits clock (a :: history)) {msgs : List LlmMessage} :
    Candidate clock (a :: history) msgs ↔ Candidate clock history msgs := by
  constructor
  · rintro ⟨hsuffix, htwo, hfits⟩
    rcases List.suffix_cons_iff.mp hsuffix with rfl | hsuffix
    · exact absurd hfits h
    · exact ⟨hsuffix, htwo, hfits⟩
  · rintro ⟨hsuffix, htwo, hfits⟩
    exact ⟨hsuffix.trans (List.suffix_cons a history), htwo, hfits⟩

theorem SizeLaw.cons (h : SizeLaw clock history kept) (hlen : 2 ≤ history.length)
    (hno : ¬ Fits clock (a :: history)) : SizeLaw clock (a :: history) kept where
  suffix := h.suffix.trans (List.suffix_cons a history)
  whole hfits := absurd hfits hno
  longest := by
    rintro - hex
    simp only [candidate_cons_iff hno] at hex ⊢
    by_cases hfits : Fits clock history
    · obtain rfl := h.whole hfits
      exact ⟨⟨List.suffix_refl kept, hlen, hfits⟩, fun msgs hm => hm.suffix.length_le⟩
    · exact h.longest hfits hex
  least := by
    rintro - hnone
    simp only [candidate_cons_iff hno] at hnone
    have hfits : ¬ Fits clock history :=
      fun hfits => hnone ⟨history, List.suffix_refl history, hlen, hfits⟩
    rw [h.least hfits hnone, List.length_cons, Nat.succ_sub hlen, List.drop_succ_cons]

/-- What the loop leaves, for a history with its rendering. -/
theorem trim_law {data' : Bytes}
    (hdata : ∃ m, messagesToMarkdown (clock.stamp m) history = .ok data)
    (h : trim clock n data history = .ok (kept, data')) :
    (∃ m, messagesToMarkdown (clock.stamp m) kept = .ok data') ∧ SizeLaw clock history kept := by
  induction history generalizing n data with
  | nil =>
    obtain ⟨rfl, rfl⟩ := Prod.mk.inj (Except.ok.inj h)
    exact ⟨hdata, sizeLaw_of_short (Nat.zero_le 2)⟩
  | cons a history ih =>
    match history with
    | [] =>
      obtain ⟨rfl, rfl⟩ := Prod.mk.inj (Except.ok.inj h)
      exact ⟨hdata, sizeLaw_of_short (Nat.le_succ 1)⟩
    | [b] =>
      obtain ⟨rfl, rfl⟩ := Prod.mk.inj (Except.ok.inj h)
      exact ⟨hdata, sizeLaw_of_short (le_refl 2)⟩
    | b :: c :: msgs =>
      obtain ⟨m, hm⟩ := hdata
      rw [trim] at h
      split_ifs at h with hsize
      · have hno : ¬ Fits clock (a :: b :: c :: msgs) := by
          rw [fits_iff hm]
          exact not_le.mpr hsize
        cases hnext : messagesToMarkdown (clock.stamp n) (b :: c :: msgs) with
        | error e =>
          rw [hnext] at h
          cases h
        | ok next =>
          rw [hnext] at h
          obtain ⟨hrendered, hlaw⟩ := ih ⟨n, hnext⟩ h
          exact ⟨hrendered, hlaw.cons (Nat.le_add_left 2 msgs.length) hno⟩
      · obtain ⟨rfl, rfl⟩ := Prod.mk.inj (Except.ok.inj h)
        exact ⟨⟨m, hm⟩, sizeLaw_of_fits ((fits_iff hm).mpr (not_lt.mp hsize))⟩

/-- On a stopped clock the loop gives the bytes of the file. -/
theorem trim_stopped (stamp : Timestamp) :
    (trim (.stopped stamp) n data history).map Prod.snd = trimToSize stamp data history := by
  induction history generalizing n data with
  | nil => rfl
  | cons a history ih =>
    match history with
    | [] => rfl
    | [b] => rfl
    | b :: c :: msgs =>
      rw [trim, trimToSize]
      split_ifs
      · cases hnext : messagesToMarkdown stamp (b :: c :: msgs) with
        | error e =>
          rw [Clock.stopped, hnext]
          rfl
        | ok next =>
          have hstamp : messagesToMarkdown ((Clock.stopped stamp).stamp n) (b :: c :: msgs) =
              .ok next := hnext
          rw [hstamp]
          exact ih
      · rfl

/-- On a stopped clock these are the bytes that a session file is saved with. -/
theorem save_stopped (stamp : Timestamp) (history : List LlmMessage) :
    (save (.stopped stamp) history).map (Option.map Prod.snd) = saveSession stamp history := by
  unfold save saveSession
  split_ifs
  · rfl
  · have hstamp : (Clock.stopped stamp).stamp 0 = stamp := rfl
    rw [hstamp]
    cases messagesToMarkdown stamp history with
    | error e => rfl
    | ok data =>
      have htrim : (trim (.stopped stamp) 1 data history).map Prod.snd =
          trimToSize stamp data history := trim_stopped stamp
      simp only [Except.bind, ← htrim]
      cases trim (.stopped stamp) 1 data history with
      | error e => rfl
      | ok x => rfl

theorem succeeds_trim (h : ∀ msg ∈ history, Writable msg) :
    Succeeds (trim clock n data history) := by
  induction history generalizing n data with
  | nil => exact succeeds_ok _
  | cons a history ih =>
    match history with
    | [] => exact succeeds_ok _
    | [b] => exact succeeds_ok _
    | b :: c :: msgs =>
      unfold trim
      split_ifs
      · have hrest : ∀ msg ∈ b :: c :: msgs, Writable msg :=
          fun msg hm => h msg (List.mem_cons_of_mem a hm)
        obtain ⟨next, hnext⟩ := (succeeds_messagesToMarkdown (clock.stamp n) _).mpr hrest
        rw [succeeds_bind]
        exact ⟨next, hnext, ih hrest⟩
      · exact succeeds_ok _

theorem save_eq_some {x : List LlmMessage × Bytes} (h : save clock history = .ok (some x)) :
    ∃ data, messagesToMarkdown (clock.stamp 0) history = .ok data ∧
      trim clock 1 data history = .ok x := by
  unfold save at h
  split_ifs at h
  · cases h
  cases hdata : messagesToMarkdown (clock.stamp 0) history with
  | error e =>
    rw [hdata] at h
    cases h
  | ok data =>
    rw [hdata] at h
    refine ⟨data, rfl, ?_⟩
    cases htrim : trim clock 1 data history with
    | error e =>
      rw [Except.bind, htrim] at h
      cases h
    | ok y =>
      rw [Except.bind, htrim] at h
      obtain rfl := Option.some.inj (Except.ok.inj h)
      rfl

end Trimming

namespace Example

def clock : Clock := .stopped ⟨bytes "11:45", by decide⟩

def greeting : List LlmMessage := [userMessage (bytes "hi")]

end Example

end SessionTrimming
