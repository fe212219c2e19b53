import TizenClaw.MessageRoundTrip

/-! Saving a session and loading it again. -/
namespace SessionRoundTrip

open ByteString ByteLines JsonValue JsonDump JsonParse JsonRoundTrip JsonLines LlmTypes
  SessionMarkdown CallRoundTrip MessageRoundTrip

section Blocks

theorem splitBlocks_whole {ls : List Bytes} (h : dashes ∉ ls) (current : Bytes)
    (rest : List Bytes) :
    splitBlocks current (ls ++ rest) = splitBlocks (current ++ unlines ls) rest := by
  induction ls generalizing current with
  | nil => simp
  | cons l ls ih =>
    rw [List.mem_cons, not_or] at h
    have hl : l ≠ bytes "---" := fun he => h.1 he.symm
    rw [List.cons_append, splitBlocks, if_neg hl, ih h.2, unlines_cons]
    simp

theorem splitBlocks_dashes {current : Bytes} (h : current ≠ []) (ls : List Bytes) :
    splitBlocks current (dashes :: ls) = current :: splitBlocks [] ls := by
  have hd : dashes = bytes "---" := rfl
  rw [splitBlocks, if_pos hd, if_neg h]

theorem lines_separator (s : Bytes) : lines (separator ++ s) = [] :: dashes :: [] :: lines s := by
  have hseparator : separator ++ s =
      [] ++ newline :: (dashes ++ newline :: ([] ++ newline :: s)) := by
    rw [separator]
    rfl
  rw [hseparator, lines_line (by simp), lines_line (by decide), lines_line (by simp)]

end Blocks

section Body

variable (readFloat : Bytes → Option NumberText)

/-- The blocks are read as the messages. -/
def Back (blocks : List Bytes) (history : List LlmMessage) : Prop :=
  ∃ loaded, readBlocks readFloat blocks = .ok loaded ∧ List.Forall₂ Same loaded history

variable {readFloat}

theorem back_nil : Back readFloat [] [] := ⟨[], rfl, .nil⟩

theorem back_cons_iff {b : Bytes} {bs : List Bytes} {m : LlmMessage} {history : List LlmMessage}
    (hb : readBlock readFloat b ≠ .ok none) :
    Back readFloat (b :: bs) (m :: history) ↔
      ReadsBack readFloat b m ∧ Back readFloat bs history := by
  constructor
  · rintro ⟨loaded, hl, hs⟩
    obtain ⟨o, ho, hl⟩ := bind_eq_ok.mp hl
    obtain ⟨loaded, hbs, rfl⟩ := map_eq_ok.mp hl
    cases o with
    | none => exact absurd ho hb
    | some m' =>
      rw [Option.toList_some, List.singleton_append, List.forall₂_cons] at hs
      exact ⟨⟨m', ho, hs.1⟩, loaded, hbs, hs.2⟩
  · rintro ⟨⟨m', hm', hs⟩, loaded, hbs, hrest⟩
    refine ⟨m' :: loaded, ?_, .cons hs hrest⟩
    rw [readBlocks, hm']
    change (readBlocks readFloat bs).map _ = _
    rw [hbs]
    rfl

variable {m : LlmMessage} {M : Bytes}

/-- A message with a separator line spoils the session. -/
theorem not_back_cut (hk : Known m) (hM : messageMarkdown m = .ok M) (hs : Stores readFloat m)
    (hd : dashes ∈ lines M) (rest : List Bytes) (history : List LlmMessage) :
    ¬ Tame m ∧ ¬ Back readFloat (splitBlocks [newline] (lines M ++ rest)) (m :: history) := by
  obtain ⟨ht, pre, post, x, hlines, hpre, hx, hback⟩ := not_readsBack_cut hk hM hs hd
  refine ⟨ht, ?_⟩
  have hhead : readBlock readFloat (newline :: unlines pre) ≠ .ok none := by
    rw [hx]
    exact readBlock_head hk x
  rw [hlines, List.append_assoc, splitBlocks_whole hpre, List.singleton_append, List.cons_append,
    splitBlocks_dashes (by simp), back_cons_iff hhead]
  exact fun h => hback h.1

/-- Any other message is a block of its own, with the newline before the separator if there is
one. -/
theorem back_whole_iff (hk : Known m) (hM : messageMarkdown m = .ok M) (hs : Stores readFloat m)
    (hd : dashes ∉ lines M) (n : ℕ) (bs : List Bytes) (history : List LlmMessage) :
    Back readFloat ((newline :: (M ++ List.replicate n newline)) :: bs) (m :: history) ↔
      Tame m ∧ Back readFloat bs history := by
  have hhead : readBlock readFloat (newline :: (M ++ List.replicate n newline)) ≠ .ok none := by
    obtain ⟨x, hx⟩ := messageMarkdown_head hM
    rw [hx, List.append_assoc]
    exact readBlock_head hk _
  rw [back_cons_iff hhead, readsBack_whole_iff hk hM hs hd]

/-- The body of a session file, message by message. -/
theorem back_body_iff {history : List LlmMessage} (hne : history ≠ [])
    (hk : ∀ m ∈ history, Known m) (hs : ∀ m ∈ history, Stores readFloat m) {body : Bytes}
    (hb : bodyMarkdown history = .ok body) :
    Back readFloat (splitBlocks [newline] (lines body)) history ↔ ∀ m ∈ history, Tame m := by
  induction history generalizing body with
  | nil => exact absurd rfl hne
  | cons m history ih =>
    rw [List.forall_mem_cons] at hk hs ⊢
    cases history with
    | nil =>
      have hM : messageMarkdown m = .ok body := hb
      have hlast : lines body = lines body ++ [] := (List.append_nil _).symm
      by_cases hd : dashes ∈ lines body
      · obtain ⟨ht, hback⟩ := not_back_cut hk.1 hM hs.1 hd [] []
        rw [hlast]
        exact iff_of_false hback fun h => ht h.1
      · have hone := back_whole_iff hk.1 hM hs.1 hd 0 [] []
        rw [hlast, splitBlocks_whole hd, unlines_messageMarkdown hM, splitBlocks,
          if_neg (by simp), List.singleton_append]
        rw [List.replicate_zero, List.append_nil] at hone
        rw [hone]
        simp [back_nil]
    | cons m' history =>
      obtain ⟨M, hM, hb⟩ := bind_eq_ok.mp hb
      obtain ⟨rest, hrest, rfl⟩ := map_eq_ok.mp hb
      have hlines : lines (M ++ separator ++ rest) =
          lines M ++ ([] :: dashes :: [] :: lines rest) := by
        rw [← lines_separator, ← lines_unlines_append (newline_not_mem_lines M),
          unlines_messageMarkdown hM, List.append_assoc]
      have hih := ih (by simp) hk.2 hs.2 hrest
      rw [hlines]
      by_cases hd : dashes ∈ lines M
      · obtain ⟨ht, hback⟩ := not_back_cut hk.1 hM hs.1 hd ([] :: dashes :: [] :: lines rest)
          (m' :: history)
        exact iff_of_false hback fun h => ht h.1
      · have hone := back_whole_iff hk.1 hM hs.1 hd 1 (splitBlocks [newline] (lines rest))
          (m' :: history)
        have hsplit : splitBlocks [newline] (lines M ++ ([] :: dashes :: [] :: lines rest)) =
            (newline :: (M ++ List.replicate 1 newline)) :: splitBlocks [newline] (lines rest) := by
          rw [splitBlocks_whole hd, unlines_messageMarkdown hM, splitBlocks,
            if_neg (by decide), splitBlocks_dashes (by simp), splitBlocks, if_neg (by decide)]
          simp
        rw [hsplit, hone, hih]

end Body

section File

variable (readFloat : Bytes → Option NumberText) (stamp : Timestamp)

/-- What is loaded after saving is the same history. -/
def RoundTrips (history : List LlmMessage) : Prop :=
  ∃ file loaded, saveSession stamp history = .ok file ∧ loadSession readFloat file = .ok loaded ∧
    List.Forall₂ Same loaded history

/-- The serialization of a history is within the size limit. -/
def Fits (history : List LlmMessage) : Prop :=
  ∃ data, messagesToMarkdown stamp history = .ok data ∧ data.length ≤ kMaxFileSize

variable {readFloat stamp}

theorem newline_not_mem_decimal (n : ℕ) : newline ∉ decimal n :=
  fun h => absurd (decimal_digits n newline h) (by decide)

/-- The front matter is skipped up to the empty line behind it. -/
theorem skipFrontmatter_frontmatter (count : ℕ) (body : Bytes) :
    skipFrontmatter (frontmatter stamp count ++ body) = newline :: body := by
  generalize hhead : bytes "message_count: " ++ decimal count = head
  generalize hupdated : bytes "updated: " ++ stamp.1 = updated
  have hcontent : frontmatter stamp count ++ body = bytes "---\n" ++
      (joined head [updated] ++ newline :: (dashes ++ newline :: newline :: body)) := by
    have hopen : bytes "---\nmessage_count: " = bytes "---\n" ++ bytes "message_count: " := by
      decide
    have hline : bytes "\nupdated: " = newline :: bytes "updated: " := by decide
    have hclose : bytes "\n---\n\n" = newline :: (dashes ++ [newline, newline]) := by decide
    rw [frontmatter, hopen, hline, hclose, ← hhead, ← hupdated, joined_cons]
    simp only [joined, List.flatMap_nil, List.append_assoc, List.cons_append, List.nil_append]
  have hlines : ∀ l ∈ [head, updated], newline ∉ l := by
    intro l hl
    simp only [List.mem_cons, List.not_mem_nil, or_false] at hl
    rcases hl with rfl | rfl
    · rw [← hhead, List.mem_append, not_or]
      exact ⟨by decide, newline_not_mem_decimal count⟩
    · rw [← hupdated, List.mem_append, not_or]
      exact ⟨by decide, stamp.2⟩
  have hno : dashes ∉ [updated] := by
    rw [← hupdated, List.mem_singleton]
    exact fun he => absurd (List.cons.inj he).1 (by decide)
  have hfind : find (bytes "\n---\n")
      (joined head [updated] ++ newline :: (dashes ++ newline :: newline :: body)) =
        some (joined head [updated]).length := find_rule (by decide) hlines hno (newline :: body)
  have hdrop : (bytes "---\n" ++
      (joined head [updated] ++ newline :: (dashes ++ newline :: newline :: body))).drop
        (4 + (joined head [updated]).length + 5) = newline :: body := by
    have hfour : (bytes "---\n").length = 4 := by decide
    rw [← hfour, Nat.add_assoc, List.drop_length_add_append, List.drop_length_add_append]
    rfl
  have htake : (bytes "---\n" ++
      (joined head [updated] ++ newline :: (dashes ++ newline :: newline :: body))).take 4 =
        bytes "---\n" := rfl
  have hbody : (bytes "---\n" ++
      (joined head [updated] ++ newline :: (dashes ++ newline :: newline :: body))).drop 4 =
        joined head [updated] ++ newline :: (dashes ++ newline :: newline :: body) := rfl
  unfold skipFrontmatter
  rw [hcontent, htake, if_pos rfl, hbody, hfind]
  exact hdrop

theorem loadSession_markdown (count : ℕ) (body : Bytes) :
    loadSession readFloat (some (frontmatter stamp count ++ body)) =
      readBlocks readFloat (splitBlocks [newline] (lines body)) := by
  have hempty : ([] : Bytes) ≠ bytes "---" := by decide
  rw [loadSession, markdownToMessages, skipFrontmatter_frontmatter, lines, if_pos rfl,
    splitBlocks, if_neg hempty]
  rfl

theorem trimToSize_fits {data : Bytes} (h : data.length ≤ kMaxFileSize)
    (history : List LlmMessage) : trimToSize stamp data history = .ok data := by
  unfold trimToSize
  split
  · rw [if_neg (by omega)]
  · rfl

/-- A history comes back from its file exactly when every message of it is tame. -/
theorem round_trip_iff {history : List LlmMessage} (hne : history ≠ [])
    (hk : ∀ m ∈ history, Known m) (hs : ∀ m ∈ history, Stores readFloat m)
    (hf : Fits stamp history) :
    RoundTrips readFloat stamp history ↔ ∀ m ∈ history, Tame m := by
  obtain ⟨data, hdata, hle⟩ := hf
  obtain ⟨body, hbody, rfl⟩ := map_eq_ok.mp hdata
  have hsave : saveSession stamp history =
      .ok (some (frontmatter stamp history.length ++ body)) := by
    rw [saveSession, if_neg hne, hdata]
    change (trimToSize stamp _ history).map some = _
    rw [trimToSize_fits hle]
    rfl
  rw [← back_body_iff hne hk hs hbody]
  constructor
  · rintro ⟨file, loaded, hfile, hload, hsame⟩
    rw [hsave] at hfile
    obtain rfl := Except.ok.inj hfile
    rw [loadSession_markdown] at hload
    exact ⟨loaded, hload, hsame⟩
  · rintro ⟨loaded, hload, hsame⟩
    refine ⟨_, loaded, hsave, ?_, hsame⟩
    rw [loadSession_markdown]
    exact hload

end File

namespace Counterexample

def stamp : Timestamp := ⟨bytes "2026-01-01T00:00:00Z", by decide⟩
def noFloats : Bytes → Option NumberText := fun _ => none

/-- A text with a rule between two paragraphs. -/
def ruled : List LlmMessage := [userMessage (bytes "a\n---\nb")]

/-- Behind the rule the text is lost. -/
theorem ruled_text_lost : (∀ m ∈ ruled, Known m) ∧ (∀ m ∈ ruled, Stores noFloats m) ∧
    Fits stamp ruled ∧ ¬ RoundTrips noFloats stamp ruled := by
  have hsave : saveSession stamp ruled = .ok (some (bytes
      "---\nmessage_count: 1\nupdated: 2026-01-01T00:00:00Z\n---\n\n## user\n\na\n---\nb\n")) := by
    decide
  have hload : loadSession noFloats (some (bytes
      "---\nmessage_count: 1\nupdated: 2026-01-01T00:00:00Z\n---\n\n## user\n\na\n---\nb\n")) =
        .ok [userMessage (bytes "a")] := by
    decide
  refine ⟨?_, ?_, ⟨bytes
      "---\nmessage_count: 1\nupdated: 2026-01-01T00:00:00Z\n---\n\n## user\n\na\n---\nb\n",
    by decide, by decide⟩, ?_⟩
  · simp [ruled, Known, userMessage]
  · simp [ruled, Stores, userMessage]
  · rintro ⟨file, loaded, hfile, hloaded, hsame⟩
    rw [hsave] at hfile
    obtain rfl := Except.ok.inj hfile
    rw [hload] at hloaded
    obtain rfl := Except.ok.inj hloaded
    have htext := (List.forall₂_cons.mp hsame).1.text
    exact absurd htext (by decide)

/-- A question, a call and its result. -/
def exchange : List LlmMessage :=
  [userMessage (bytes "battery?"),
    assistantMessage [] [⟨bytes "call_1", bytes "get_battery",
      .obj [(bytes "unit", .str (bytes "%"))]⟩],
    { role := .tool, toolCallId := bytes "call_1", toolName := bytes "get_battery",
      toolResult := .obj [(bytes "level", .int 80)] }]

theorem exchange_round_trip : RoundTrips noFloats stamp exchange := by
  refine (round_trip_iff (by simp [exchange]) ?_ ?_ ?_).mpr ?_
  · simp [exchange, Known, userMessage, assistantMessage]
  · have hunit : Utf8.valid (bytes "unit") = true := by decide
    have hpercent : Utf8.valid (bytes "%") = true := by decide
    have hlevel : Utf8.valid (bytes "level") = true := by decide
    simp [exchange, Stores, userMessage, assistantMessage, Storable, StorableMembers, KeysSorted,
      InRange, hunit, hpercent, hlevel]
  · exact ⟨_, rfl, by decide +kernel⟩
  · intro m hm
    simp only [exchange, List.mem_cons, List.not_mem_nil, or_false] at hm
    rcases hm with rfl | rfl | rfl
    · exact ⟨by decide, by decide, by simp [userMessage], rfl, rfl, rfl⟩
    · refine ⟨by decide, by decide, fun tc htc => ?_, rfl, rfl, rfl⟩
      obtain rfl := List.mem_singleton.mp htc
      refine ⟨by decide, by decide, ⟨by decide, ?_⟩, by decide⟩
      rw [if_neg (by decide)]
      decide
    · refine ⟨by decide, by decide, ?_, by decide, rfl⟩
      rw [ToolNames, if_neg (by decide)]
      decide

end Counterexample

end SessionRoundTrip
