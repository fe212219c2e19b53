import TizenClaw.CallRoundTrip

/-! Which messages the reader gives back as they were written. -/
namespace MessageRoundTrip

open ByteString ByteLines JsonValue JsonDump JsonParse JsonRoundTrip JsonLines LlmTypes
  SessionMarkdown CallRoundTrip

/-- The same message, its text up to white space at both ends. -/
structure Same (a b : LlmMessage) : Prop where
  role : a.role = b.role
  toolCalls : a.toolCalls = b.toolCalls
  toolName : a.toolName = b.toolName
  toolCallId : a.toolCallId = b.toolCallId
  toolResult : a.toolResult = b.toolResult
  text : trim blank a.text = trim blank b.text

/-- A tool call whose heading and arguments come back. -/
structure TameCall (tc : LlmToolCall) : Prop where
  name : newline ∉ tc.name
  id : newline ∉ tc.id
  plain : PlainNames tc.name tc.id
  args : tc.args.empty = true → tc.args = .null

/-- A tool message carries names and a result. -/
structure TameTool (m : LlmMessage) : Prop where
  id : newline ∉ m.toolCallId
  name : newline ∉ m.toolName
  names : ToolNames m.toolCallId m.toolName
  text : trim blank m.text = []
  toolCalls : m.toolCalls = []

/-- Any other message carries a text, without a separator line or the mark of a call, and tool
calls. -/
structure TameText (m : LlmMessage) : Prop where
  dashes : dashes ∉ lines m.text
  marker : find callMarker m.text = none
  calls : ∀ tc ∈ m.toolCalls, TameCall tc
  toolName : m.toolName = []
  toolCallId : m.toolCallId = []
  toolResult : m.toolResult = .null

def Tame (m : LlmMessage) : Prop := if m.role = .tool then TameTool m else TameText m

section Markdown

variable (readFloat : Bytes → Option NumberText)

/-- The values of a message that are written are values of the JSON type. -/
def Stores (m : LlmMessage) : Prop :=
  if m.role = .tool then Storable readFloat m.toolResult
  else ∀ tc ∈ m.toolCalls, Storable readFloat tc.args

/-- A block is read as the message. -/
def ReadsBack (block : Bytes) (m : LlmMessage) : Prop :=
  ∃ m', readBlock readFloat block = .ok (some m') ∧ Same m' m

variable {readFloat}

/-- What every writing of a message starts with. -/
def headText (m : LlmMessage) : Bytes :=
  if m.role = .tool then bytes "## tool" else bytes "## " ++ roleText m.role ++ [newline]

/-- The text of a message, with its newline. -/
def textMarkdown (text : Bytes) : Bytes := if text = [] then [] else text ++ [newline]

theorem toolMarkdown_ok {m : LlmMessage} {M : Bytes} (ht : m.role = .tool)
    (h : messageMarkdown m = .ok M) :
    M = unlines ((bytes "## tool" ++ toolTitle m.toolCallId m.toolName) :: [] ::
      if m.toolResult.isNull then [] else fenceLines m.toolResult) := by
  have hheading : toolHeading m.toolCallId m.toolName =
      bytes "## tool" ++ toolTitle m.toolCallId m.toolName ++ [newline, newline] := by
    have hclose : bytes "\n\n" = [newline, newline] := by decide
    unfold toolHeading toolTitle
    rw [hclose]
    simp only [List.append_assoc]
  unfold messageMarkdown at h
  rw [if_pos ht] at h
  rw [unlines_cons, unlines_cons]
  split_ifs at h ⊢ with hn
  · obtain rfl := Except.ok.inj h
    rw [hheading]
    simp
  · obtain ⟨block, hb, rfl⟩ := map_eq_ok.mp h
    rw [hheading, fencedJson_ok hb, ← unlines_fenceLines]
    simp

theorem textMarkdown_ok {m : LlmMessage} {M : Bytes} (ht : m.role ≠ .tool)
    (h : messageMarkdown m = .ok M) :
    M = headText m ++ newline :: (textMarkdown m.text ++ unlines (callsLines m.toolCalls)) := by
  unfold messageMarkdown at h
  rw [if_neg ht] at h
  obtain ⟨calls, hc, rfl⟩ := map_eq_ok.mp h
  have hclose : bytes "\n\n" = [newline, newline] := by decide
  rw [callsMarkdown_ok hc, headText, if_neg ht, hclose, textMarkdown]
  simp only [List.append_assoc, List.cons_append, List.nil_append]

/-- A written message ends its last line. -/
theorem unlines_messageMarkdown {m : LlmMessage} {M : Bytes} (h : messageMarkdown m = .ok M) :
    unlines (lines M) = M := by
  obtain ⟨s, rfl⟩ : ∃ s, M = s ++ [newline] := by
    by_cases ht : m.role = .tool
    · rw [toolMarkdown_ok ht h]
      exact unlines_ends _ (by simp)
    · rw [textMarkdown_ok ht h]
      rcases List.eq_nil_or_concat (callsLines m.toolCalls) with hc | ⟨ls, l, hc⟩
      · rw [hc, unlines_nil, List.append_nil, textMarkdown]
        split_ifs
        · exact ⟨headText m, rfl⟩
        · exact ⟨headText m ++ newline :: m.text, by simp⟩
      · obtain ⟨s, hs⟩ := unlines_ends (callsLines m.toolCalls) (by simp [hc])
        exact ⟨headText m ++ newline :: (textMarkdown m.text ++ s), by rw [hs]; simp⟩
  exact unlines_lines s

end Markdown

section Tool

variable {readFloat : Bytes → Option NumberText}

/-- A block with the heading of a tool message is read as one, its names within one line. -/
theorem readBlock_tool (x : Bytes) :
    readBlock readFloat (newline :: (bytes "## tool" ++ x)) =
      .ok (some (readToolMessage readFloat (bytes "tool" ++ x.takeWhile (· ≠ newline))
        (trimLeft blank (x.drop ((x.takeWhile (· ≠ newline)).length + 1))))) := by
  have htrim : trimLeft (bytes " \n\r") (newline :: (bytes "## tool" ++ x)) =
      bytes "## tool" ++ x := rfl
  have hmark : (bytes "## tool" ++ x).take 3 = bytes "## " := rfl
  have hrest : (bytes "## tool" ++ x).drop 3 = bytes "tool" ++ x := rfl
  have hheader : (bytes "tool" ++ x).takeWhile (· ≠ newline) =
      bytes "tool" ++ x.takeWhile (· ≠ newline) := rfl
  have hdrop : (bytes "tool" ++ x).drop
      ((bytes "tool" ++ x.takeWhile (· ≠ newline)).length + 1) =
        x.drop ((x.takeWhile (· ≠ newline)).length + 1) := by
    have hlen : (bytes "tool" ++ x.takeWhile (· ≠ newline)).length + 1 =
        (bytes "tool").length + ((x.takeWhile (· ≠ newline)).length + 1) := by
      rw [List.length_append, Nat.add_assoc]
    rw [hlen, List.drop_append]
    simp
  have htool : (bytes "tool" ++ x.takeWhile (· ≠ newline)).take 4 = bytes "tool" := rfl
  unfold readBlock
  dsimp only
  rw [htrim, hmark, if_neg (by simp), hrest, hheader, hdrop, if_pos htool]

theorem newline_not_mem_toolTitle {id name : Bytes} (hid : newline ∉ id) (hname : newline ∉ name) :
    newline ∉ toolTitle id name := by
  unfold toolTitle
  rw [List.mem_append, not_or]
  constructor
  · split_ifs
    · simp
    · simp only [List.mem_append, hid, or_false, not_or]
      decide
  · split_ifs
    · simp
    · simp only [List.mem_append, hname, or_false]
      decide

theorem takeWhile_line {l : Bytes} (h : newline ∉ l) (s : Bytes) :
    (l ++ newline :: s).takeWhile (· ≠ newline) = l := by
  rw [List.takeWhile_append_of_pos, List.takeWhile_cons_of_neg (by simp), List.append_nil]
  intro b hb
  have hne : b ≠ newline := fun he => h (he ▸ hb)
  simpa using hne

theorem readToolResult_null {w : Bytes} (hw : ∀ b ∈ w, blank.contains b = true) :
    readToolResult readFloat (trimLeft blank w) = .null := by
  rw [trimLeft_all_white hw]
  rfl

/-- The result of a written fence. -/
theorem readToolResult_fence {j : Json} (h : Storable readFloat j) (w : Bytes) :
    readToolResult readFloat (unlines (fenceLines j) ++ w) = j := by
  have hclose : bytes "\n```\n" ++ w = bytes "\n```" ++ newline :: w := rfl
  have hrest : unlines (fenceLines j) ++ w =
      bytes "```json\n" ++ (jsonText j ++ (bytes "\n```" ++ newline :: w)) := by
    rw [unlines_fenceLines, List.append_assoc, List.append_assoc, hclose]
  have hopen : find (bytes "```json\n") (bytes "```json\n" ++
      (jsonText j ++ (bytes "\n```" ++ newline :: w))) = some 0 := find_self (by decide) _
  have hdrop : (bytes "```json\n" ++ (jsonText j ++ (bytes "\n```" ++ newline :: w))).drop (0 + 8) =
      jsonText j ++ (bytes "\n```" ++ newline :: w) := rfl
  have hfind : find (bytes "\n```") (jsonText j ++ (bytes "\n```" ++ newline :: w)) =
      some (jsonText j).length :=
    find_fence (render_guarded j 0) (c := 0x60) (p := [0x60, 0x60]) (by decide) (newline :: w)
  have hparse : parse readFloat (jsonText j) = .ok j := by
    have := parse_jsonText h white_nil
    rwa [List.append_nil] at this
  unfold readToolResult
  rw [hrest, hopen]
  dsimp only
  rw [hdrop, hfind]
  dsimp only
  rw [List.take_left, hparse]

/-- A tool message whose names have a newline is not read back, whatever follows its heading. -/
theorem not_readsBack_tool {m : LlmMessage} (x : Bytes)
    (h : newline ∈ m.toolCallId ∨ newline ∈ m.toolName) :
    ¬ ReadsBack readFloat (newline :: (bytes "## tool" ++ x)) m := by
  rintro ⟨m', hm', hs⟩
  rw [readBlock_tool] at hm'
  obtain rfl := Option.some.inj (Except.ok.inj hm')
  have hheader : newline ∉ bytes "tool" ++ x.takeWhile (· ≠ newline) := by
    rw [List.mem_append, not_or]
    refine ⟨by decide, fun hm => ?_⟩
    simpa using List.mem_takeWhile_imp hm
  obtain ⟨hid, hname⟩ := readToolNames_newline hheader
  rcases h with h | h
  · rw [← hs.toolCallId] at h
    exact hid h
  · rw [← hs.toolName] at h
    exact hname h

/-- A tool message, written whole. -/
theorem readsBack_tool_iff {m : LlmMessage} {M : Bytes} (ht : m.role = .tool)
    (hM : messageMarkdown m = .ok M) (hj : Storable readFloat m.toolResult) (n : ℕ) :
    ReadsBack readFloat (newline :: (M ++ List.replicate n newline)) m ↔ TameTool m := by
  have hx : M ++ List.replicate n newline = bytes "## tool" ++
      (toolTitle m.toolCallId m.toolName ++ newline :: newline ::
        (unlines (if m.toolResult.isNull then [] else fenceLines m.toolResult) ++
          List.replicate n newline)) := by
    rw [toolMarkdown_ok ht hM, unlines_cons, unlines_cons]
    simp only [List.append_assoc, List.cons_append, List.nil_append]
  rw [hx]
  by_cases hn : newline ∈ m.toolCallId ∨ newline ∈ m.toolName
  · refine iff_of_false (not_readsBack_tool _ hn) fun h => ?_
    rcases hn with hn | hn
    · exact h.id hn
    · exact h.name hn
  rw [not_or] at hn
  obtain ⟨hid, hname⟩ := hn
  have hresult : readToolResult readFloat (trimLeft blank (newline ::
      (unlines (if m.toolResult.isNull then [] else fenceLines m.toolResult) ++
        List.replicate n newline))) = m.toolResult := by
    split_ifs with hz
    · rw [isNull_iff.mp hz]
      refine readToolResult_null ?_
      intro b hb
      rcases List.mem_cons.mp hb with rfl | hb
      · decide
      · rw [List.eq_of_mem_replicate hb]
        decide
    · exact readToolResult_fence hj _
  unfold ReadsBack
  rw [readBlock_tool, takeWhile_line (newline_not_mem_toolTitle hid hname)]
  have hdrop : (toolTitle m.toolCallId m.toolName ++ newline :: newline ::
      (unlines (if m.toolResult.isNull then [] else fenceLines m.toolResult) ++
        List.replicate n newline)).drop ((toolTitle m.toolCallId m.toolName).length + 1) =
      newline :: (unlines (if m.toolResult.isNull then [] else fenceLines m.toolResult) ++
        List.replicate n newline) := by
    rw [List.drop_append]
    simp
  rw [hdrop]
  unfold readToolMessage
  rw [hresult]
  constructor
  · rintro ⟨m', hm', hs⟩
    obtain rfl := Option.some.inj (Except.ok.inj hm')
    refine ⟨hid, hname, ?_, ?_, hs.toolCalls.symm⟩
    · rw [← readToolNames_iff]
      exact Prod.ext hs.toolCallId hs.toolName
    · exact hs.text.symm
  · intro h
    refine ⟨_, rfl, ht.symm, h.toolCalls.symm, ?_, ?_, rfl, h.text.symm⟩
    · rw [(readToolNames_iff _ _).mpr h.names]
    · rw [(readToolNames_iff _ _).mpr h.names]

end Tool

section Text

variable {readFloat : Bytes → Option NumberText}

theorem readBlock_text {m : LlmMessage} (h : m.role = .user ∨ m.role = .assistant) (x : Bytes) :
    readBlock readFloat (newline :: (headText m ++ x)) =
      (readTextMessage readFloat m.role (trimLeft blank x)).map some := by
  rcases h with h | h
  · rw [headText, h]
    rfl
  · rw [headText, h]
    rfl

/-- What a text message is read as: a part of the rest, and one-line calls. -/
theorem readTextMessage_ok {role : Role} {rest : Bytes} {m : LlmMessage}
    (h : readTextMessage readFloat role rest = .ok m) :
    OneLine m.toolCalls ∧ visible blank m.text ≤ visible blank rest := by
  unfold readTextMessage at h
  cases hf : find callMarker rest with
  | some i =>
    rw [hf] at h
    obtain ⟨calls, hc, rfl⟩ := map_eq_ok.mp h
    refine ⟨readCalls_oneLine hc, ?_⟩
    rw [visible_trimRight]
    exact visible_take_le i rest
  | none =>
    rw [hf] at h
    obtain rfl := Except.ok.inj h
    refine ⟨by simp [OneLine], ?_⟩
    rw [visible_trimRight]

theorem not_readsBack_newline {m : LlmMessage} (hr : m.role = .user ∨ m.role = .assistant)
    (x : Bytes) (h : ¬ OneLine m.toolCalls) :
    ¬ ReadsBack readFloat (newline :: (headText m ++ x)) m := by
  rintro ⟨m', hm', hs⟩
  rw [readBlock_text hr] at hm'
  obtain ⟨m'', hm, he⟩ := map_eq_ok.mp hm'
  obtain rfl := Option.some.inj he
  rw [← hs.toolCalls] at h
  exact h (readTextMessage_ok hm).1

/-- A block that keeps too little of the text. -/
theorem not_readsBack_visible {m : LlmMessage} (hr : m.role = .user ∨ m.role = .assistant)
    {x : Bytes} (h : visible blank x < visible blank m.text) :
    ¬ ReadsBack readFloat (newline :: (headText m ++ x)) m := by
  rintro ⟨m', hm', hs⟩
  rw [readBlock_text hr] at hm'
  obtain ⟨m'', hm, he⟩ := map_eq_ok.mp hm'
  obtain rfl := Option.some.inj he
  have hle := (readTextMessage_ok hm).2
  rw [trimLeft, visible_dropWhile] at hle
  exact trim_ne_of_visible_lt (by omega) hs.text

theorem callMarker_eq : callMarker = 0x23 :: bytes "## tool_call:" := by decide

theorem callMarker_append (s : Bytes) :
    callMarker ++ s = 0x23 :: (bytes "## tool_call:" ++ s) := by
  rw [callMarker_eq]
  rfl

theorem blank_hash : blank.contains 0x23 = false := by decide
theorem blank_newline : blank.contains newline = true := by decide

theorem visible_newline (s : Bytes) : visible blank (newline :: s) = visible blank s := by
  have hn : ¬ (!blank.contains newline) = true := by
    rw [blank_newline]
    decide
  exact List.countP_cons_of_neg hn

theorem white_newlines (n : ℕ) : ∀ b ∈ List.replicate n newline, blank.contains b = true := by
  intro b hb
  rw [List.eq_of_mem_replicate hb]
  exact blank_newline

theorem find_marker_newlines (n : ℕ) : find callMarker (List.replicate n newline) = none := by
  have hn : (0x23 : UInt8) ∉ List.replicate n newline := by
    rw [List.mem_replicate]
    rintro ⟨-, h⟩
    exact absurd h (by decide)
  have := find_skip (p := bytes "## tool_call:") hn []
  rw [← callMarker_eq, List.append_nil] at this
  rw [this]
  rfl

/-- The mark of a call behind a text without one. -/
theorem find_marker_text {text : Bytes} (h : find callMarker text = none) (s : Bytes) :
    find callMarker (newline :: (textMarkdown text ++ s)) =
      (find callMarker s).map (· + (newline :: textMarkdown text).length) := by
  have hnl : newline ∉ callMarker := by decide
  have hne : callMarker ≠ [] := by decide
  have hstart := find_line (l := []) hne hnl rfl (textMarkdown text ++ s)
  rw [List.nil_append] at hstart
  rw [hstart, textMarkdown]
  split_ifs with ht
  · rfl
  · rw [List.append_assoc]
    have := find_line hne hnl h s
    change (find callMarker (text ++ newline :: s)).map _ = _
    rw [this, Option.map_map]
    congr 1
    funext i
    simp
    omega

theorem trim_textMarkdown (text : Bytes) :
    trim blank (newline :: textMarkdown text) = trim blank text := by
  have hone : ∀ b ∈ [newline], blank.contains b = true := white_newlines 1
  have hstart := trim_white_append hone (textMarkdown text)
  rw [List.singleton_append] at hstart
  rw [hstart, textMarkdown]
  split_ifs with ht
  · rw [ht]
  · exact trim_append_white text hone

theorem trimLeft_split (s : Bytes) :
    ∃ w, (∀ b ∈ w, blank.contains b = true) ∧ s = w ++ trimLeft blank s :=
  ⟨s.takeWhile fun c => blank.contains c, fun _ hb => by simpa using List.mem_takeWhile_imp hb,
    List.takeWhile_append_dropWhile.symm⟩

/-- A text without the mark of a call comes back, with its calls. -/
theorem readTextMessage_whole (role : Role) {text : Bytes} (ht : find callMarker text = none)
    {tcs : List LlmToolCall} (hl : OneLine tcs) (hs : ∀ tc ∈ tcs, Storable readFloat tc.args)
    (n : ℕ) :
    readTextMessage readFloat role (trimLeft blank (newline :: (textMarkdown text ++
        (unlines (callsLines tcs) ++ List.replicate n newline)))) =
      .ok { role := role, text := trim blank text, toolCalls := tcs.map readBack } := by
  cases tcs with
  | nil =>
    have hnone : find callMarker (newline :: (textMarkdown text ++ List.replicate n newline)) =
        none := by
      rw [find_marker_text ht, find_marker_newlines]
      rfl
    obtain ⟨w, -, hw⟩ := trimLeft_split (newline :: (textMarkdown text ++ List.replicate n newline))
    rw [hw] at hnone
    have htext : trimRight blank (trimLeft blank
        (newline :: (textMarkdown text ++ List.replicate n newline))) = trim blank text := by
      rw [← trim_textMarkdown]
      exact trim_append_white (newline :: textMarkdown text) (white_newlines n)
    unfold readTextMessage
    rw [callsLines, List.flatMap_nil, unlines_nil, List.nil_append, find_append_none hnone]
    dsimp only
    rw [htext]
    rfl
  | cons tc tcs =>
    generalize hc : unlines (callLines tc ++ callsLines tcs) ++ List.replicate n newline = c
    have hwritten : newline :: (textMarkdown text ++
        (unlines (callsLines (tc :: tcs)) ++ List.replicate n newline)) =
          newline :: (textMarkdown text ++ newline :: c) := by
      rw [← hc, callsLines, List.flatMap_cons, List.cons_append, unlines_cons]
      rfl
    obtain ⟨d, hd⟩ : ∃ d, c = callMarker ++ d := by
      rw [← hc, callLines, List.cons_append, unlines_cons]
      exact ⟨_, rfl⟩
    have hhash : c = 0x23 :: (bytes "## tool_call:" ++ d) := by
      rw [hd, callMarker_append]
    have hrest : trimLeft blank (newline :: (textMarkdown text ++ newline :: c)) =
        trimLeft blank (newline :: textMarkdown text ++ [newline]) ++ c := by
      have := trimLeft_append (newline :: textMarkdown text ++ [newline]) blank_hash
        (bytes "## tool_call:" ++ d)
      rw [← hhash] at this
      rw [← this]
      simp
    have hmark : find callMarker (newline :: c) = some 1 := by
      have hstart := find_line (p := callMarker) (l := []) (by decide) (by decide) rfl c
      rw [List.nil_append] at hstart
      rw [hstart, hd, find_self (by decide)]
      rfl
    have hfind : find callMarker (trimLeft blank (newline :: textMarkdown text ++ [newline]) ++ c) =
        some (trimLeft blank (newline :: textMarkdown text ++ [newline])).length := by
      obtain ⟨w, -, hw⟩ := trimLeft_split (newline :: textMarkdown text ++ [newline])
      have hall := find_marker_text ht (newline :: c)
      have hsplit : newline :: (textMarkdown text ++ newline :: c) =
          w ++ (trimLeft blank (newline :: textMarkdown text ++ [newline]) ++ c) := by
        rw [← List.append_assoc, ← hw]
        simp
      rw [hmark, hsplit] at hall
      refine find_append_right (w := w) ?_
      rw [hall, Option.map_some]
      have hlen := congrArg List.length hw
      simp only [List.length_append, List.length_cons, List.length_nil] at hlen
      congr 1
      rw [List.length_cons]
      omega
    have htext : trimRight blank (trimLeft blank (newline :: textMarkdown text ++ [newline])) =
        trim blank text := by
      rw [← trim_textMarkdown]
      exact trim_append_white (newline :: textMarkdown text) (white_newlines 1)
    have hcalls : readCalls readFloat c = .ok ((tc :: tcs).map readBack) := by
      rw [← hc]
      exact readCalls_callLines hl hs
    unfold readTextMessage
    rw [hwritten, hrest, hfind]
    dsimp only
    rw [List.drop_left, List.take_left, hcalls, htext]
    rfl

/-- A text with the mark of a call is cut there. -/
theorem not_readsBack_marker {m : LlmMessage} (hr : m.role = .user ∨ m.role = .assistant)
    {i : ℕ} (hf : find callMarker m.text = some i) (s : Bytes) :
    ¬ ReadsBack readFloat (newline :: (headText m ++ newline :: (textMarkdown m.text ++ s))) m := by
  rintro ⟨m', hm', hs⟩
  rw [readBlock_text hr] at hm'
  obtain ⟨m'', hm, he⟩ := map_eq_ok.mp hm'
  obtain rfl := Option.some.inj he
  obtain ⟨t, ht⟩ := find_eq_some hf
  have hne : m.text ≠ [] := by
    intro h
    rw [h] at hf
    cases hf
  have hwritten : newline :: (textMarkdown m.text ++ s) =
      newline :: m.text.take i ++ 0x23 :: (bytes "## tool_call:" ++ (t ++ newline :: s)) := by
    rw [textMarkdown, if_neg hne]
    conv_lhs => rw [ht, callMarker_append]
    simp
  have hrest := trimLeft_append (newline :: m.text.take i) blank_hash
    (bytes "## tool_call:" ++ (t ++ newline :: s))
  rw [← hwritten, ← callMarker_append] at hrest
  obtain ⟨k, hk, hfind⟩ := find_le (p := callMarker) (by decide)
    (trimLeft blank (newline :: m.text.take i)) (t ++ newline :: s)
  unfold readTextMessage at hm
  rw [hrest, hfind] at hm
  obtain ⟨calls, -, rfl⟩ := map_eq_ok.mp hm
  have hvisible : visible blank (trimRight blank ((trimLeft blank (newline :: m.text.take i) ++
      (callMarker ++ (t ++ newline :: s))).take k)) ≤ visible blank (m.text.take i) := by
    rw [visible_trimRight, List.take_append_of_le_length hk]
    refine (visible_take_le _ _).trans ?_
    rw [trimLeft, visible_dropWhile, visible_newline]
  have hmore : visible blank m.text = visible blank (m.text.take i) + (visible blank callMarker +
      visible blank t) := by
    conv_lhs => rw [ht]
    rw [visible_append, visible_append]
  have hpos : visible blank callMarker = 13 := by decide
  refine trim_ne_of_visible_lt (lt_of_le_of_lt hvisible ?_) hs.text
  omega

/-- A text message, written whole. -/
theorem readsBack_text_iff {m : LlmMessage} {M : Bytes} (hr : m.role = .user ∨ m.role = .assistant)
    (hM : messageMarkdown m = .ok M) (hs : ∀ tc ∈ m.toolCalls, Storable readFloat tc.args)
    (hd : dashes ∉ lines m.text) (n : ℕ) :
    ReadsBack readFloat (newline :: (M ++ List.replicate n newline)) m ↔ TameText m := by
  have ht : m.role ≠ .tool := by
    rintro h
    rw [h] at hr
    simp at hr
  have hx : M ++ List.replicate n newline = headText m ++ newline :: (textMarkdown m.text ++
      (unlines (callsLines m.toolCalls) ++ List.replicate n newline)) := by
    rw [textMarkdown_ok ht hM]
    simp only [List.append_assoc, List.cons_append]
  rw [hx]
  by_cases hl : OneLine m.toolCalls
  · cases hf : find callMarker m.text with
    | some i =>
      refine iff_of_false (not_readsBack_marker hr hf _) fun h => ?_
      rw [h.marker] at hf
      cases hf
    | none =>
      unfold ReadsBack
      rw [readBlock_text hr, readTextMessage_whole m.role hf hl hs n]
      constructor
      · rintro ⟨m', hm', hsame⟩
        obtain rfl := Option.some.inj (Except.ok.inj hm')
        refine ⟨hd, hf, fun tc htc => ?_, hsame.toolName.symm, hsame.toolCallId.symm,
          hsame.toolResult.symm⟩
        have hback : m.toolCalls.map readBack = m.toolCalls.map id := by
          rw [List.map_id]
          exact hsame.toolCalls
        obtain ⟨hplain, hargs⟩ := (readBack_eq_iff tc).mp (List.map_inj_left.mp hback tc htc)
        exact ⟨(hl tc htc).1, (hl tc htc).2, hplain, hargs⟩
      · intro h
        have hback : m.toolCalls.map readBack = m.toolCalls := by
          conv_rhs => rw [← List.map_id m.toolCalls]
          refine List.map_congr_left fun tc htc => ?_
          exact (readBack_eq_iff tc).mpr ⟨(h.calls tc htc).plain, (h.calls tc htc).args⟩
        exact ⟨_, rfl, rfl, hback, h.toolName.symm, h.toolCallId.symm, h.toolResult.symm,
          trim_trim m.text⟩
  · refine iff_of_false (not_readsBack_newline hr _ hl) fun h => hl fun tc htc => ?_
    exact ⟨(h.calls tc htc).name, (h.calls tc htc).id⟩

theorem dashes_not_mem_fenceLines {j : Json} (h : Storable readFloat j) :
    dashes ∉ fenceLines j := by
  intro hm
  rcases List.mem_cons.mp hm with hm | hm
  · exact absurd hm (by decide)
  rcases List.mem_append.mp hm with hm | hm
  · exact (render_lines h dashes hm).not_dashes rfl
  · exact absurd (List.mem_singleton.mp hm) (by decide)

theorem dashes_not_mem_callsLines {tcs : List LlmToolCall}
    (h : ∀ tc ∈ tcs, Storable readFloat tc.args) : dashes ∉ callsLines tcs := by
  intro hm
  obtain ⟨tc, htc, hm⟩ := List.mem_flatMap.mp hm
  rcases List.mem_cons.mp hm with hm | hm
  · exact absurd hm (by decide)
  rcases List.mem_cons.mp hm with hm | hm
  · exact absurd (List.cons.inj hm).1 (by decide)
  rcases List.mem_cons.mp hm with hm | hm
  · exact absurd hm (by decide)
  split_ifs at hm
  · cases hm
  · exact dashes_not_mem_fenceLines (h tc htc) hm

/-- The heading line of a text message. -/
def headLine (m : LlmMessage) : Bytes := bytes "## " ++ roleText m.role

theorem lines_textMarkdown {m : LlmMessage} {M : Bytes}
    (hr : m.role = .user ∨ m.role = .assistant) (hM : messageMarkdown m = .ok M) :
    lines M = headLine m :: [] ::
      (lines (textMarkdown m.text) ++ lines (unlines (callsLines m.toolCalls))) := by
  have ht : m.role ≠ .tool := by
    rintro h
    rw [h] at hr
    simp at hr
  have hline : newline ∉ headLine m := by
    unfold headLine
    rcases hr with h | h
    · rw [h]
      decide
    · rw [h]
      decide
  have hhead : headText m ++ newline :: (textMarkdown m.text ++ unlines (callsLines m.toolCalls)) =
      headLine m ++ newline :: (newline ::
        (textMarkdown m.text ++ unlines (callsLines m.toolCalls))) := by
    rw [headText, if_neg ht, headLine]
    simp
  rw [textMarkdown_ok ht hM, hhead, lines_line hline, lines, if_pos rfl, textMarkdown]
  split_ifs
  · rfl
  · rw [List.append_assoc, List.singleton_append, lines_append_newline]

theorem dashes_mem_textMarkdown (text : Bytes) :
    dashes ∈ lines (textMarkdown text) ↔ dashes ∈ lines text := by
  unfold textMarkdown
  split_ifs with h
  · rw [h]
  · exact mem_lines_newline (by decide) text

end Text

section Message

variable {readFloat : Bytes → Option NumberText} {m : LlmMessage} {M : Bytes}

/-- A user, an assistant or a tool message. -/
def Known (m : LlmMessage) : Prop := m.role = .user ∨ m.role = .assistant ∨ m.role = .tool

theorem readBlock_head (hk : Known m) (x : Bytes) :
    readBlock readFloat (newline :: (headText m ++ x)) ≠ .ok none := by
  have htext : m.role = .user ∨ m.role = .assistant →
      readBlock readFloat (newline :: (headText m ++ x)) ≠ .ok none := by
    intro hr h
    rw [readBlock_text hr] at h
    obtain ⟨m', -, h⟩ := map_eq_ok.mp h
    cases h
  rcases hk with h | h | h
  · exact htext (.inl h)
  · exact htext (.inr h)
  · rw [headText, if_pos h, readBlock_tool]
    simp

theorem messageMarkdown_head (hM : messageMarkdown m = .ok M) : ∃ x, M = headText m ++ x := by
  by_cases ht : m.role = .tool
  · rw [toolMarkdown_ok ht hM, headText, if_pos ht, unlines_cons, List.append_assoc]
    exact ⟨_, rfl⟩
  · exact ⟨_, textMarkdown_ok ht hM⟩

theorem Known.text (hk : Known m) (ht : m.role ≠ .tool) : m.role = .user ∨ m.role = .assistant := by
  rcases hk with h | h | h
  · exact .inl h
  · exact .inr h
  · exact absurd h ht

/-- A message whose writing contains no separator line. -/
theorem readsBack_whole_iff (hk : Known m) (hM : messageMarkdown m = .ok M)
    (hs : Stores readFloat m) (hd : dashes ∉ lines M) (n : ℕ) :
    ReadsBack readFloat (newline :: (M ++ List.replicate n newline)) m ↔ Tame m := by
  unfold Stores at hs
  unfold Tame
  split_ifs at hs ⊢ with ht
  · exact readsBack_tool_iff ht hM hs n
  · have hr := hk.text ht
    refine readsBack_text_iff hr hM hs (fun hm => hd ?_) n
    rw [lines_textMarkdown hr hM]
    rw [← dashes_mem_textMarkdown] at hm
    simp [hm]

/-- A tool message is cut at a separator line in its names. -/
theorem cut_tool (ht : m.role = .tool) (hM : messageMarkdown m = .ok M)
    (hs : Storable readFloat m.toolResult) (hd : dashes ∈ lines M) :
    (newline ∈ m.toolCallId ∨ newline ∈ m.toolName) ∧ ∃ pre post x,
      lines M = pre ++ dashes :: post ∧ dashes ∉ pre ∧ unlines pre = bytes "## tool" ++ x := by
  rw [toolMarkdown_ok ht hM] at hd ⊢
  constructor
  · by_contra hn
    rw [not_or] at hn
    have hline : ∀ l ∈ (bytes "## tool" ++ toolTitle m.toolCallId m.toolName) :: [] ::
        (if m.toolResult.isNull then [] else fenceLines m.toolResult), newline ∉ l := by
      intro l hl
      rcases List.mem_cons.mp hl with rfl | hl
      · rw [List.mem_append, not_or]
        exact ⟨by decide, newline_not_mem_toolTitle hn.1 hn.2⟩
      rcases List.mem_cons.mp hl with rfl | hl
      · simp
      split_ifs at hl
      · cases hl
      · exact newline_not_mem_fenceLines _ l hl
    rw [lines_unlines hline] at hd
    rcases List.mem_cons.mp hd with hd | hd
    · exact absurd (List.cons.inj hd).1 (by decide)
    rcases List.mem_cons.mp hd with hd | hd
    · exact absurd hd (by decide)
    split_ifs at hd
    · cases hd
    · exact dashes_not_mem_fenceLines hs hd
  · rw [unlines_cons, List.append_assoc] at hd ⊢
    obtain ⟨l, ls, hl⟩ := lines_append_head (p := bytes "## tool") (by decide) (by decide)
      (toolTitle m.toolCallId m.toolName ++ newline :: unlines ([] ::
        if m.toolResult.isNull then [] else fenceLines m.toolResult))
    rw [hl] at hd ⊢
    have hfirst : dashes ≠ bytes "## tool" ++ l :=
      fun h => absurd (List.cons.inj h).1 (by decide)
    rcases List.mem_cons.mp hd with hd | hd
    · exact absurd hd hfirst
    obtain ⟨pre, post, rfl, hpre⟩ := List.eq_append_cons_of_mem hd
    refine ⟨(bytes "## tool" ++ l) :: pre, post, l ++ newline :: unlines pre, rfl, ?_, ?_⟩
    · rw [List.mem_cons, not_or]
      exact ⟨hfirst, hpre⟩
    · rw [unlines_cons, List.append_assoc]

theorem headLine_ne_dashes : dashes ≠ headLine m := fun h => absurd (List.cons.inj h).1 (by decide)

/-- A text message whose calls stay within their lines is cut in its text. -/
theorem cut_text (hr : m.role = .user ∨ m.role = .assistant) (hM : messageMarkdown m = .ok M)
    (hd : dashes ∈ lines m.text) : ∃ pre post x, lines M = pre ++ dashes :: post ∧ dashes ∉ pre ∧
      unlines pre = headLine m ++ newline :: x ∧ visible blank x < visible blank m.text := by
  have htext := hd
  rw [← dashes_mem_textMarkdown] at hd
  obtain ⟨pre, post, hlines, hpre⟩ := List.eq_append_cons_of_mem hd
  refine ⟨headLine m :: [] :: pre, post ++ lines (unlines (callsLines m.toolCalls)),
    newline :: unlines pre, ?_, ?_, ?_, ?_⟩
  · rw [lines_textMarkdown hr hM, hlines]
    simp
  · rw [List.mem_cons, List.mem_cons, not_or, not_or]
    exact ⟨headLine_ne_dashes, by decide, hpre⟩
  · rw [unlines_cons, unlines_cons, List.nil_append]
  · have hne : m.text ≠ [] := by
      intro h
      rw [h] at htext
      cases htext
    have hwhole : m.text ++ [newline] = unlines (pre ++ dashes :: post) := by
      rw [← hlines, textMarkdown, if_neg hne, unlines_lines]
    have hcount := congrArg (visible blank) hwhole
    have hzero : visible blank [] = 0 := by decide
    have hthree : visible blank dashes = 3 := by decide
    rw [unlines_append, unlines_cons, visible_append, visible_append, visible_append,
      visible_newline, hzero, hthree] at hcount
    rw [visible_newline]
    omega

/-- A message whose writing contains a separator line is cut there, and is not read back. -/
theorem not_readsBack_cut (hk : Known m) (hM : messageMarkdown m = .ok M)
    (hs : Stores readFloat m) (hd : dashes ∈ lines M) :
    ¬ Tame m ∧ ∃ pre post x, lines M = pre ++ dashes :: post ∧ dashes ∉ pre ∧
      unlines pre = headText m ++ x ∧ ¬ ReadsBack readFloat (newline :: unlines pre) m := by
  unfold Stores at hs
  unfold Tame headText
  split_ifs at hs ⊢ with ht
  · obtain ⟨hn, pre, post, x, hlines, hpre, hx⟩ := cut_tool ht hM hs hd
    refine ⟨fun h => ?_, pre, post, x, hlines, hpre, hx, ?_⟩
    · rcases hn with hn | hn
      · exact h.id hn
      · exact h.name hn
    · rw [hx]
      exact not_readsBack_tool x hn
  · have hr := hk.text ht
    have hhead : ∀ x, headLine m ++ newline :: x = headText m ++ x := by
      intro x
      rw [headText, if_neg ht, headLine]
      simp
    by_cases hl : OneLine m.toolCalls
    · rw [lines_textMarkdown hr hM, lines_unlines (callsLines_newline hl)] at hd
      have htext : dashes ∈ lines m.text := by
        rcases List.mem_cons.mp hd with hd | hd
        · exact absurd hd headLine_ne_dashes
        rcases List.mem_cons.mp hd with hd | hd
        · exact absurd hd (by decide)
        rcases List.mem_append.mp hd with hd | hd
        · exact (dashes_mem_textMarkdown _).mp hd
        · exact absurd hd (dashes_not_mem_callsLines hs)
      obtain ⟨pre, post, x, hlines, hpre, hx, hv⟩ := cut_text hr hM htext
      rw [hhead] at hx
      refine ⟨fun h => h.dashes htext, pre, post, x, hlines, hpre, ?_, ?_⟩
      · rw [hx, headText, if_neg ht]
      · rw [hx]
        exact not_readsBack_visible hr hv
    · have hcalls : ¬ TameText m :=
        fun h => hl fun tc htc => ⟨(h.calls tc htc).name, (h.calls tc htc).id⟩
      rw [lines_textMarkdown hr hM] at hd ⊢
      rcases List.mem_cons.mp hd with hd | hd
      · exact absurd hd headLine_ne_dashes
      obtain ⟨pre, post, hlines, hpre⟩ := List.eq_append_cons_of_mem hd
      refine ⟨hcalls, headLine m :: pre, post, unlines pre, ?_, ?_, ?_, ?_⟩
      · rw [hlines]
        rfl
      · rw [List.mem_cons, not_or]
        exact ⟨headLine_ne_dashes, hpre⟩
      · rw [unlines_cons, hhead, headText, if_neg ht]
      · rw [unlines_cons, hhead]
        exact not_readsBack_newline hr _ hl

end Message

end MessageRoundTrip
