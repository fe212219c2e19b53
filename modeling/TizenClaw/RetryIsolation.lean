import TizenClaw.JsonRoundTrip
import TizenClaw.StreamRetry

/-! When a streamed reply does not depend on the attempts that failed before it: what they left in
the decoder can be told from a fresh one by the line that comes next. -/
namespace RetryIsolation

open ByteString JsonValue JsonDump JsonParse JsonParseUtf8 JsonRoundTrip JsonTokens LineBuffer
open LlmTypes OrderedMap.Map StreamDecoders TryBlock ToolPolicy AnthropicAgreement StreamRetry

section Probes

variable {readFloat : Bytes → Option NumberText} {τ : Type} {d : Decoder τ}

/-- A line of data that no part of a line can stand before: its tab is white space only where no
letter is. -/
def probe (j : Json) : Bytes := dataPrefix ++ 0x09 :: render id compact 0 j

structure Probing (readFloat : Bytes → Option NumberText) (j : Json) : Prop where
  storable : Storable readFloat j
  plain : Plain (probe j)
  last : (probe j).getLast? ≠ some 0x0D ∧ probe j ≠ []

theorem parse_probe {j : Json} (h : Probing readFloat j) :
    parse readFloat ((probe j).drop 6) = .ok j := by
  have hp := parse_render whiteLayout_compact h.storable 0 (white_singleton (b := 0x09) (by decide))
    white_nil
  rw [List.append_nil] at hp
  rw [probe, dataPrefix_eq]
  exact hp

theorem stripCr_append {x : Bytes} (hx : x.getLast? ≠ some 0x0D ∧ x ≠ []) (l : Bytes) :
    stripCr (l ++ x) = l ++ x := by
  unfold stripCr
  rw [List.getLast?_append_of_ne_nil _ hx.2, if_neg hx.1]

theorem foldl_probe {line : Bytes} (hl : Plain line) {s : Buffered UInt8 (Stream τ)}
    (hs : newline ∉ s.buffer) :
    [line ++ [newline]].foldl (streamCb d) s = ⟨[], d.line s.state (s.buffer ++ line)⟩ := by
  have hc : cString (line ++ [newline]) = line ++ [newline] := by
    apply cString_of_nul_free
    rw [List.mem_append, not_or]
    exact ⟨hl.2.2, by decide⟩
  rw [foldl_streamCb_push _ hs, List.map_cons, List.map_nil, hc, List.flatten_singleton,
    foldl_push_line hl.1]

/-- A prefix that does not overlap itself is found behind other bytes only if they start with it. -/
theorem prefix_of_unbordered {α : Type*} {p l x : List α} (hl : l ≠ [])
    (hp : ∀ k < p.length, 0 < k → p.drop k ≠ p.take (p.length - k)) (h : p <+: l ++ (p ++ x)) :
    p <+: l := by
  by_contra hno
  have hlen : l.length < p.length := by
    by_contra hge
    exact hno (List.prefix_of_prefix_length_le h (List.prefix_append l _) (not_lt.mp hge))
  obtain ⟨y, rfl⟩ := List.prefix_of_prefix_length_le (List.prefix_append l _) h hlen.le
  have hy : y <+: (l ++ y) ++ x := (List.prefix_append_right_inj l).mp h
  have hyl : y <+: l ++ y :=
    List.prefix_of_prefix_length_le hy (List.prefix_append _ x) (by simp)
  refine hp l.length hlen (List.length_pos_iff.mpr hl) ?_
  rw [List.drop_left, List.length_append, Nat.add_sub_cancel_left]
  exact List.prefix_iff_eq_take.mp hyl

theorem probe_mangled {j k : Json} {l : Bytes} (hl : l ≠ [])
    (hp : dataPrefix.isPrefixOf (l ++ probe j) = true) :
    parse readFloat ((l ++ probe j).drop 6) ≠ .ok k := by
  have hfree : ∀ k < dataPrefix.length, 0 < k →
      dataPrefix.drop k ≠ dataPrefix.take (dataPrefix.length - k) := by
    rw [dataPrefix_eq]
    decide
  obtain ⟨l', rfl⟩ := prefix_of_unbordered hl hfree (List.isPrefixOf_iff_prefix.mp hp)
  have hdrop : (dataPrefix ++ l' ++ probe j).drop 6 = l' ++ probe j := by
    rw [List.append_assoc, dataPrefix_eq]
    rfl
  rw [hdrop, probe, dataPrefix_eq]
  exact not_parse (d := 0x64) (u := [0x61, 0x74, 0x61, 0x3A, 0x20]) (by decide)
    (by decide) (by decide)
    (by decide) l' _ k

end Probes

section Texts

variable {readFloat : Bytes → Option NumberText} {τ : Type} {d : Decoder τ}

/-- A probe that is heard as a text, but not behind a part of a line. -/
structure TextProbe (d : Decoder τ) (j : Json) : Prop where
  plain : Plain (probe j)
  heard : ∀ s, (d.line s (probe j)).text = s.text ++ bytes "a"
  lost : ∀ s l, l ≠ [] → d.line s (l ++ probe j) = s

theorem buffer_nil {j : Json} (hj : TextProbe d j) {s : Buffered UInt8 (Stream τ)}
    (hs : newline ∉ s.buffer) (ht : s.state.text = [])
    (h : ∀ chunks : List Bytes, result d (chunks.foldl (streamCb d) s) =
      result d (chunks.foldl (streamCb d) (start d))) : s.buffer = [] := by
  by_contra hl
  have heq := congrArg Decoded.text (h [probe j ++ [newline]])
  rw [foldl_probe hj.plain hs, foldl_probe hj.plain List.not_mem_nil] at heq
  change (d.line s.state (s.buffer ++ probe j)).text =
    (d.line (start d).state (probe j)).text at heq
  rw [hj.lost _ _ hl, hj.heard, ht] at heq
  exact absurd heq (show ([] : Bytes) ≠ bytes "a" by decide)

def openAiText : Json :=
  .obj [(bytes "choices",
    .arr [.obj [(bytes "delta", .obj [(bytes "content", .str (bytes "a"))])]])]

theorem probing_openAiText (readFloat : Bytes → Option NumberText) :
    Probing readFloat openAiText := by
  refine ⟨?_, by decide, by decide⟩
  simp only [openAiText, Storable, StorableList, StorableMembers]
  decide

def geminiText : Json :=
  .obj [(bytes "candidates", .arr [.obj [(bytes "content", .obj [(bytes "parts",
    .arr [.obj [(bytes "text", .str (bytes "a"))]])])]])]

theorem probing_geminiText (readFloat : Bytes → Option NumberText) :
    Probing readFloat geminiText := by
  refine ⟨?_, by decide, by decide⟩
  simp only [geminiText, Storable, StorableList, StorableMembers]
  decide

end Texts

section OpenAi

variable {readFloat : Bytes → Option NumberText} {truncate : NumberText → ℤ}

theorem textProbe_openAi : TextProbe (openAi readFloat truncate) openAiText := by
  have hp := probing_openAiText readFloat
  refine ⟨hp.plain, fun s => ?_, fun s l hl => ?_⟩
  · have hstrip : stripCr (probe openAiText) = probe openAiText := stripCr_append hp.last []
    have hdata : dataPrefix.isPrefixOf (probe openAiText) = true := by decide
    have hdone : (probe openAiText).drop 6 ≠ bytes "[DONE]" := by decide
    change (openAiLine readFloat truncate s (probe openAiText)).text = _
    unfold openAiLine
    dsimp only
    rw [hstrip, if_pos hdata, if_neg hdone, parse_probe hp]
    rfl
  · change openAiLine readFloat truncate s (l ++ probe openAiText) = s
    unfold openAiLine
    dsimp only
    rw [stripCr_append hp.last]
    split_ifs with hdata
    · rfl
    · split
      · next k hk => exact absurd hk (probe_mangled hl hdata)
      · rfl
    · rfl

theorem openAi_clean_iff (failed : List Attempt) :
    Untouched noAccums (fun _ => True) (after (openAi readFloat truncate) failed) ↔
      OpenAiClean readFloat truncate failed := by
  have hnone (lines : List Bytes) : noAccums (openAiContext lines) := rfl
  refine untouched_iff_clean ?_ ?_ rfl hnone failed
  · intro lines line htext htools
    exact sound_silent (sound_openAiLine ⟨rfl, trivial⟩ line) htext (no_accums htools)
  · intro s line hs
    apply line_openAi_keeps (I := fun s => ¬ (s.text = [] ∧ noAccums s.tools)) _ _ hs
    · exact fun text => keeps_modify fun s hs h => hs ⟨(List.append_eq_nil_iff.mp h.1).1, h.2⟩
    · exact fun idx f => keeps_modify fun s _ h =>
        List.ne_nil_of_mem (mem_insert_self idx _ s.tools) h.2

theorem openAi_isolated_iff {failed : List Attempt} (hf : ∀ b ∈ failed, Retried b)
    (hn : failed.length < maxRetries) :
    Isolated readFloat (openAi readFloat truncate) failed ↔
      OpenAiClean readFloat truncate failed := by
  rw [← openAi_clean_iff,
    isolated_iff_result (P := fun _ => True)
      (fun _ line hs => sound_openAiLine hs line) trivial hf hn]
  have hsound : Sound (fun _ => True) (after (openAi readFloat truncate) failed).state :=
    sound_after (fun _ line hs => sound_openAiLine hs line) trivial failed
  have hopen := newline_not_mem_after (d := openAi readFloat truncate) failed
  generalize after (openAi readFloat truncate) failed = s at *
  constructor
  · intro h
    have htext : s.state.text = [] := congrArg Decoded.text (h [])
    have hcalls : (openAi readFloat truncate).toolCalls s.state.tools = [] :=
      congrArg Decoded.toolCalls (h [])
    exact ⟨buffer_nil textProbe_openAi hopen htext h, htext, List.map_eq_nil_iff.mp hcalls, trivial⟩
  · rintro ⟨hbuffer, htext, htools, -⟩ chunks
    have hinit : s.state.tools = (openAi readFloat truncate).init := no_accums htools
    rw [start_of_silent hsound hbuffer htext hinit]

end OpenAi

section Gemini

variable {readFloat : Bytes → Option NumberText} {clock : ℕ → ℕ}

def geminiCall : Json :=
  .obj [(bytes "candidates", .arr [.obj [(bytes "content", .obj [(bytes "parts",
    .arr [.obj [(bytes "functionCall",
      .obj [(bytes "args", .null), (bytes "name", .str (bytes "f"))])]])])]])]

theorem probing_geminiCall (readFloat : Bytes → Option NumberText) :
    Probing readFloat geminiCall := by
  refine ⟨?_, by decide, by decide⟩
  simp only [geminiCall, Storable, StorableList, StorableMembers]
  decide

theorem line_gemini {j : Json} (hj : Probing readFloat j) (s : Stream Calls) :
    geminiLine readFloat clock s (probe j) = attempt (geminiEvent clock j) s := by
  have hdata : dataPrefix.isPrefixOf (probe j) = true :=
    List.isPrefixOf_iff_prefix.mpr (List.prefix_append _ _)
  have hstrip : stripCr (probe j) = probe j := stripCr_append hj.last []
  unfold geminiLine
  dsimp only
  rw [hstrip, if_pos hdata, parse_probe hj]

theorem textProbe_gemini : TextProbe (gemini readFloat clock) geminiText := by
  have hp := probing_geminiText readFloat
  refine ⟨hp.plain, fun s => ?_, fun s l hl => ?_⟩
  · change (geminiLine readFloat clock s (probe geminiText)).text = _
    rw [line_gemini hp]
    rfl
  · change geminiLine readFloat clock s (l ++ probe geminiText) = s
    unfold geminiLine
    dsimp only
    rw [stripCr_append hp.last]
    split_ifs with hdata
    · split
      · next k hk => exact absurd hk (probe_mangled hl hdata)
      · rfl
    · rfl

theorem hexText_no_underscore (n : ℕ) : (0x5F : UInt8) ∉ hexText n := by
  have hdigit : ∀ d < 16, hexDigit d ≠ 0x5F := by decide
  unfold hexText
  split_ifs with h
  · decide
  · rw [List.mem_map]
    rintro ⟨d, hd, he⟩
    exact hdigit d (Nat.digits_lt_base (by decide) (List.mem_reverse.mp hd)) he

theorem hexText_zero {n : ℕ} (h : hexText n = hexText 0) : n = 0 := by
  by_contra hn
  have hdigit : ∀ d < 16, hexDigit d = 48 → d = 0 := by decide
  have hne := Nat.digits_ne_nil_iff_ne_zero (b := 16).mpr hn
  have hlast := Nat.getLast_digit_ne_zero 16 hn
  rw [hexText, if_neg hn] at h
  change (Nat.digits 16 n).reverse.map hexDigit = [48] at h
  obtain ⟨d, hd, he⟩ := List.map_eq_singleton_iff.mp h
  rw [List.reverse_eq_iff] at hd
  have hd' : Nat.digits 16 n = [d] := hd
  simp only [hd', List.getLast_singleton] at hlast
  exact hlast (hdigit d (Nat.digits_lt_base (b := 16) (m := n) (by decide) (by simp [hd'])) he)

theorem geminiId_zero {n : ℕ} (h : geminiId clock n = geminiId clock 0) : n = 0 := by
  have hrev (k : ℕ) : (geminiId clock k).reverse.takeWhile (· ≠ 0x5F) = (hexText k).reverse := by
    have hall : ∀ b ∈ (hexText k).reverse, decide (b ≠ 0x5F) = true := by
      intro b hb
      apply decide_eq_true
      rintro rfl
      exact hexText_no_underscore k (List.mem_reverse.mp hb)
    have hbar : bytes "_" = [0x5F] := by decide
    unfold geminiId
    rw [hbar, List.reverse_append, List.takeWhile_append_of_pos hall]
    simp
  exact hexText_zero (List.reverse_injective (by rw [← hrev, ← hrev, h]))

theorem gemini_clean_iff (failed : List Attempt) :
    Untouched noCalls (fun _ => True) (after (gemini readFloat clock) failed) ↔
      GeminiClean readFloat clock failed := by
  refine untouched_iff_clean ?_ ?_ rfl (fun _ => ⟨rfl, rfl⟩) failed
  · intro lines line htext htools
    exact sound_silent (sound_geminiLine ⟨rfl, trivial⟩ line) htext (no_calls htools)
  · intro s line hs
    apply line_gemini_keeps (I := fun s => ¬ (s.text = [] ∧ noCalls s.tools)) _ _ _ hs
    · exact fun text => keeps_modify fun s hs h => hs ⟨(List.append_eq_nil_iff.mp h.1).1, h.2⟩
    · exact keeps_modify fun s _ h => Nat.succ_ne_zero _ h.2.2
    · exact fun call => keeps_modify fun s _ h => by simpa using h.2.1

theorem gemini_isolated_iff {failed : List Attempt} (hf : ∀ b ∈ failed, Retried b)
    (hn : failed.length < maxRetries) :
    Isolated readFloat (gemini readFloat clock) failed ↔ GeminiClean readFloat clock failed := by
  rw [← gemini_clean_iff,
    isolated_iff_result (P := fun _ => True)
      (fun _ line hs => sound_geminiLine hs line) trivial hf hn]
  have hsound : Sound (fun _ => True) (after (gemini readFloat clock) failed).state :=
    sound_after (fun _ line hs => sound_geminiLine hs line) trivial failed
  have hopen := newline_not_mem_after (d := gemini readFloat clock) failed
  generalize after (gemini readFloat clock) failed = s at *
  constructor
  · intro h
    have htext : s.state.text = [] := congrArg Decoded.text (h [])
    have hcalls : s.state.tools.calls = [] := congrArg Decoded.toolCalls (h [])
    have hbuffer := buffer_nil textProbe_gemini hopen htext h
    refine ⟨hbuffer, htext, ⟨hcalls, ?_⟩, trivial⟩
    -- the id of the next call has the index in it
    have hp := probing_geminiCall readFloat
    have heq := congrArg Decoded.toolCalls (h [probe geminiCall ++ [newline]])
    rw [foldl_probe hp.plain hopen, foldl_probe hp.plain List.not_mem_nil, hbuffer] at heq
    change (geminiLine readFloat clock s.state (probe geminiCall)).tools.calls =
      (geminiLine readFloat clock (start (gemini readFloat clock)).state
        (probe geminiCall)).tools.calls at heq
    rw [line_gemini hp, line_gemini hp] at heq
    change s.state.tools.calls ++ [⟨geminiId clock s.state.tools.toolIdx, bytes "f", .null⟩] =
      [⟨geminiId clock 0, bytes "f", .null⟩] at heq
    rw [hcalls] at heq
    exact geminiId_zero (LlmToolCall.mk.inj (List.cons.inj heq).1).1
  · rintro ⟨hbuffer, htext, htools, -⟩ chunks
    have hinit : s.state.tools = (gemini readFloat clock).init := no_calls htools
    rw [start_of_silent hsound hbuffer htext hinit]

end Gemini

section Anthropic

variable {readFloat : Bytes → Option NumberText}

def anthropicText : Json :=
  .obj [(bytes "delta",
    .obj [(bytes "text", .str (bytes "a")), (bytes "type", .str (bytes "text_delta"))])]

theorem probing_anthropicText (readFloat : Bytes → Option NumberText) :
    Probing readFloat anthropicText := by
  refine ⟨?_, by decide, by decide⟩
  simp only [anthropicText, Storable, StorableMembers]
  decide

def anthropicTool : Json :=
  .obj [(bytes "content_block", .obj [(bytes "type", .str (bytes "tool_use"))])]

theorem probing_anthropicTool (readFloat : Bytes → Option NumberText) :
    Probing readFloat anthropicTool := by
  refine ⟨?_, by decide, by decide⟩
  simp only [anthropicTool, Storable, StorableMembers]
  decide

theorem line_probe {j : Json} (hj : Probing readFloat j) (s : Stream Blocks) :
    anthropicLine readFloat s (probe j) = attempt (anthropicEvent s.tools.event j) s := by
  have hdata : dataPrefix.isPrefixOf (probe j) = true :=
    List.isPrefixOf_iff_prefix.mpr (List.prefix_append _ _)
  have hevent : ¬ eventPrefix.isPrefixOf (probe j) = true := by
    rw [probe, eventPrefix_eq, dataPrefix_eq]
    exact Bool.false_ne_true
  have hstrip : stripCr (probe j) = probe j := stripCr_append hj.last []
  unfold anthropicLine
  dsimp only
  rw [hstrip, if_neg hevent, if_pos hdata, parse_probe hj]

/-- A text is heard only in the event of a delta. -/
theorem text_heard (s : Stream Blocks) :
    (anthropicLine readFloat s (probe anthropicText)).text =
      if s.tools.event = blockDelta then s.text ++ bytes "a" else s.text := by
  rw [line_probe (probing_anthropicText readFloat)]
  unfold anthropicEvent
  by_cases hd : s.tools.event = blockDelta
  · rw [hd, if_neg (by decide), if_pos rfl, if_pos rfl]
    rfl
  · rw [if_neg hd, if_neg hd]
    by_cases hs : s.tools.event = blockStart
    · rw [if_pos hs]
      rfl
    · rw [if_neg hs]
      rfl

theorem keeps_quiet {event : Bytes} (he : event ≠ blockDelta) (t : Bytes) (j : Json) :
    Keeps (fun s : Stream Blocks => s.text = t) (anthropicEvent event j) := by
  unfold anthropicEvent
  rw [if_neg he]
  refine keeps_ite (keeps_anthropicStart ?_ ?_ j) (keeps_pure ())
  · exact fun _ _ => keeps_modify fun _ h => h
  · exact keeps_modify fun _ h => h

theorem keeps_event (event event' : Bytes) (j : Json) :
    Keeps (fun s : Stream Blocks => s.tools.event = event) (anthropicEvent event' j) := by
  apply keeps_anthropicEvent
  · exact fun _ _ => keeps_modify fun _ h => h
  · exact keeps_modify fun _ h => h
  · exact fun _ => keeps_modify fun _ h => h
  · exact fun _ _ => keeps_modify fun _ h => h

theorem line_eventAfter (s : Stream Blocks) (line : Bytes) :
    (anthropicLine readFloat s line).tools.event = eventAfter s.tools.event line := by
  unfold anthropicLine eventAfter
  dsimp only
  split_ifs
  · rfl
  · split
    · exact keeps_event _ _ _ s rfl
    · rfl
  · rfl
  · rfl

/-- Only a line of its own changes the event. -/
theorem line_keeps_event {line : Bytes} (hp : ¬ eventPrefix.isPrefixOf (stripCr line) = true)
    (hne : stripCr line ≠ []) (s : Stream Blocks) :
    (anthropicLine readFloat s line).tools.event = s.tools.event := by
  rw [line_eventAfter]
  unfold eventAfter
  dsimp only
  rw [if_neg hp, if_neg hne, ite_self]

theorem line_quiet {s : Stream Blocks} (he : s.tools.event ≠ blockDelta) (line : Bytes) :
    (anthropicLine readFloat s line).text = s.text := by
  unfold anthropicLine
  dsimp only
  split_ifs
  · rfl
  · split
    · exact keeps_quiet he _ _ s rfl
    · rfl
  · rfl
  · rfl

theorem line_tab (s : Stream Blocks) : anthropicLine readFloat s [0x09] = s := by
  unfold anthropicLine
  rw [eventPrefix_eq, dataPrefix_eq]
  rfl

def announcement : Bytes := eventPrefix ++ blockDelta

theorem strip_announcement (l : Bytes) : stripCr (l ++ announcement) = l ++ announcement :=
  stripCr_append (by decide) l

/-- Behind a part of a line the event is not announced: its name gets longer. -/
theorem announcement_lost {l : Bytes} (hl : l ≠ []) {s : Stream Blocks}
    (h : (anthropicLine readFloat s (l ++ announcement)).tools.event = blockDelta) :
    ¬ eventPrefix.isPrefixOf (l ++ announcement) = true ∧ s.tools.event = blockDelta := by
  by_cases hp : eventPrefix.isPrefixOf (l ++ announcement) = true
  · exfalso
    have hfree : ∀ k < eventPrefix.length, 0 < k →
        eventPrefix.drop k ≠ eventPrefix.take (eventPrefix.length - k) := by
      rw [eventPrefix_eq]
      decide
    obtain ⟨l', rfl⟩ := prefix_of_unbordered hl hfree (List.isPrefixOf_iff_prefix.mp hp)
    unfold anthropicLine at h
    dsimp only at h
    rw [strip_announcement, if_pos hp] at h
    have hname : ((eventPrefix ++ l' ++ announcement).drop 7).length = blockDelta.length :=
      congrArg List.length h
    have hlong : blockDelta.length < announcement.length := by decide
    have hseven : eventPrefix.length = 7 := by decide
    simp only [List.length_drop, List.length_append, hseven] at hname
    omega
  · have hne : stripCr (l ++ announcement) ≠ [] := by
      rw [strip_announcement]
      exact List.append_ne_nil_of_left_ne_nil hl _
    rw [line_keeps_event (by rwa [strip_announcement]) hne] at h
    exact ⟨hp, h⟩

theorem anthropic_buffer_nil {s : Buffered UInt8 (Stream Blocks)} (hs : newline ∉ s.buffer)
    (ht : s.state.text = [])
    (h : ∀ chunks : List Bytes,
      result (anthropic readFloat) (chunks.foldl (streamCb (anthropic readFloat)) s) =
      result (anthropic readFloat)
        (chunks.foldl (streamCb (anthropic readFloat)) (start (anthropic readFloat)))) :
    s.buffer = [] := by
  by_contra hl
  have hprobe : Plain (probe anthropicText) := (probing_anthropicText readFloat).plain
  -- a line and the text behind it
  have htwo (first : Bytes) (hf : Plain first) :
      (anthropicLine readFloat (anthropicLine readFloat s.state (s.buffer ++ first))
        (probe anthropicText)).text =
        (anthropicLine readFloat (anthropicLine readFloat (start (anthropic readFloat)).state first)
          (probe anthropicText)).text := by
    have heq := congrArg Decoded.text (h [first ++ [newline], probe anthropicText ++ [newline]])
    have hsplit (x : Buffered UInt8 (Stream Blocks)) :
        [first ++ [newline], probe anthropicText ++ [newline]].foldl
          (streamCb (anthropic readFloat)) x =
          [probe anthropicText ++ [newline]].foldl (streamCb (anthropic readFloat))
            ([first ++ [newline]].foldl (streamCb (anthropic readFloat)) x) := rfl
    rw [hsplit, hsplit, foldl_probe hf hs, foldl_probe hf List.not_mem_nil,
      foldl_probe hprobe List.not_mem_nil, foldl_probe hprobe List.not_mem_nil] at heq
    exact heq
  have hone := htwo announcement (by decide)
  rw [text_heard, text_heard] at hone
  by_cases he : (anthropicLine readFloat s.state
    (s.buffer ++ announcement)).tools.event = blockDelta
  · obtain ⟨hp, hevent⟩ := announcement_lost hl he
    have htab := htwo [0x09] (by decide)
    have hstrip : stripCr (s.buffer ++ [0x09]) = s.buffer ++ [0x09] := stripCr_append (by decide) _
    have hp' : ¬ eventPrefix.isPrefixOf (stripCr (s.buffer ++ [0x09])) = true := by
      rw [hstrip]
      intro hpre
      rcases List.prefix_concat_iff.mp (List.isPrefixOf_iff_prefix.mp hpre) with heq | hpre
      · have hlast := congrArg List.getLast? heq
        rw [List.getLast?_concat, eventPrefix_eq] at hlast
        exact absurd hlast (by decide)
      · exact hp (List.isPrefixOf_iff_prefix.mpr (hpre.trans (List.prefix_append _ _)))
    have hne : stripCr (s.buffer ++ [0x09]) ≠ [] := by
      rw [hstrip]
      exact List.append_ne_nil_of_left_ne_nil hl _
    rw [line_tab, text_heard, text_heard, line_keeps_event hp' hne, if_pos hevent] at htab
    exact List.append_ne_nil_of_right_ne_nil _ (by decide) htab
  · rw [if_neg he] at hone
    have hsame : (anthropicLine readFloat s.state (s.buffer ++ announcement)).text =
      s.state.text := by
      by_cases hp : eventPrefix.isPrefixOf (s.buffer ++ announcement) = true
      · unfold anthropicLine
        dsimp only
        rw [strip_announcement, if_pos hp]
      · apply line_quiet
        rw [line_keeps_event (by rwa [strip_announcement])] at he
        · exact he
        · rw [strip_announcement]
          exact List.append_ne_nil_of_left_ne_nil hl _
    have hname : (anthropicLine readFloat (start (anthropic readFloat)).state announcement) =
        setEvent blockDelta (start (anthropic readFloat)).state := by
      have h : anthropicLine readFloat (start (anthropic readFloat)).state (announcement ++ []) =
          setEvent blockDelta (start (anthropic readFloat)).state :=
            line_event (.inl rfl) (by decide)
      rwa [List.append_nil] at h
    rw [hsame, ht, hname] at hone
    exact absurd hone (show ([] : Bytes) ≠ bytes "a" by decide)

theorem anthropic_inert {s : Buffered UInt8 (Stream Blocks)} (hs : s.buffer = [])
    (h : ∀ chunks : List Bytes,
      result (anthropic readFloat) (chunks.foldl (streamCb (anthropic readFloat)) s) =
      result (anthropic readFloat)
        (chunks.foldl (streamCb (anthropic readFloat)) (start (anthropic readFloat)))) :
    Inert s.state.tools.event := by
  have hopen : newline ∉ s.buffer := hs ▸ List.not_mem_nil
  constructor
  · intro he
    have hp := probing_anthropicTool readFloat
    have heq := congrArg Decoded.toolCalls (h [probe anthropicTool ++ [newline]])
    rw [foldl_probe hp.plain hopen, foldl_probe hp.plain List.not_mem_nil, hs] at heq
    change (anthropic readFloat).toolCalls
        (anthropicLine readFloat s.state (probe anthropicTool)).tools =
      (anthropic readFloat).toolCalls
        (anthropicLine readFloat (start (anthropic readFloat)).state
          (probe anthropicTool)).tools at heq
    rw [line_probe hp, line_probe hp, he] at heq
    have hlen := congrArg List.length heq
    change ((s.state.tools.accums ++ [_]).map _).length = 0 at hlen
    simp at hlen
  · intro he
    have hp := probing_anthropicText readFloat
    have heq := congrArg Decoded.text (h [probe anthropicText ++ [newline]])
    rw [foldl_probe hp.plain hopen, foldl_probe hp.plain List.not_mem_nil, hs] at heq
    change (anthropicLine readFloat s.state (probe anthropicText)).text =
      (anthropicLine readFloat (start (anthropic readFloat)).state
        (probe anthropicText)).text at heq
    rw [text_heard, text_heard, if_pos he] at heq
    exact List.append_ne_nil_of_right_ne_nil _ (by decide) heq

/-- An event that announces no content is not told from no event. -/
theorem foldl_inert (readFloat : Bytes → Option NumberText) (l : Bytes) {event : Bytes}
    {s : Stream Blocks} (b : Bytes) (he : Inert event)
    (hs : Inert s.tools.event) :
    ∃ event', l.foldl (push newline (anthropicLine readFloat)) ⟨b, setEvent event s⟩ =
      ⟨(l.foldl (push newline (anthropicLine readFloat)) ⟨b, s⟩).buffer,
        setEvent event' (l.foldl (push newline (anthropicLine readFloat)) ⟨b, s⟩).state⟩ := by
  induction l generalizing b event s with
  | nil => exact ⟨event, rfl⟩
  | cons a l ih =>
    rw [List.foldl_cons, List.foldl_cons]
    unfold push
    dsimp only
    by_cases ha : a = newline
    · rw [if_pos ha, if_pos ha, line_inert (s := setEvent event s) he, line_inert hs]
      split_ifs
      · exact ⟨_, rfl⟩
      · exact ⟨_, rfl⟩
      · exact ih [] he hs
    · rw [if_neg ha, if_neg ha]
      exact ih _ he hs

theorem placed_context (lines : List Bytes) : Placed (anthropicContext lines) := by
  intro i hi
  cases hi

theorem anthropic_clean_iff (failed : List Attempt) :
    Untouched noBlocks lastInert (after (anthropic readFloat) failed) ↔
      AnthropicClean readFloat failed := by
  have hnone (lines : List Bytes) : noBlocks (anthropicContext lines) := rfl
  refine untouched_iff_clean ?_ ?_ rfl hnone failed
  · intro lines line htext htools
    have hsound : Sound Placed (anthropicLine readFloat { tools := anthropicContext lines } line) :=
      sound_anthropicLine ⟨rfl, placed_context lines⟩ line
    refine sound_silent hsound htext ((no_blocks hsound.2 htools).trans ?_)
    rw [line_eventAfter, anthropicContext, anthropicContext, List.foldl_concat]
  · intro s line hs
    apply line_anthropic_keeps (I := fun s => ¬ (s.text = [] ∧ noBlocks s.tools)) _ _ _ _ _ hs
    · exact fun id name => keeps_modify fun s _ h => by simpa [noBlocks] using h.2
    · exact keeps_modify fun s hs h => hs h
    · exact fun text => keeps_modify fun s hs h => hs ⟨(List.append_eq_nil_iff.mp h.1).1, h.2⟩
    · exact fun i fragment => keeps_modify fun s hs h => hs ⟨h.1, by simpa [noBlocks] using h.2⟩
    · exact fun name s hs h => hs h

theorem anthropic_isolated_iff {failed : List Attempt} (hf : ∀ b ∈ failed, Retried b)
    (hn : failed.length < maxRetries) :
    Isolated readFloat (anthropic readFloat) failed ↔ AnthropicClean readFloat failed := by
  have hinit : Placed {} := placed_context []
  rw [← anthropic_clean_iff,
    isolated_iff_result (P := Placed) (fun _ line hs => sound_anthropicLine hs line) hinit hf hn]
  have hsound : Sound Placed (after (anthropic readFloat) failed).state :=
    sound_after (fun _ line hs => sound_anthropicLine hs line) hinit failed
  have hopen := newline_not_mem_after (d := anthropic readFloat) failed
  generalize after (anthropic readFloat) failed = s at *
  constructor
  · intro h
    have htext : s.state.text = [] := congrArg Decoded.text (h [])
    have hcalls : (anthropic readFloat).toolCalls s.state.tools = [] :=
      congrArg Decoded.toolCalls (h [])
    have hbuffer := anthropic_buffer_nil hopen htext h
    exact ⟨hbuffer, htext, List.map_eq_nil_iff.mp hcalls, anthropic_inert hbuffer h⟩
  · rintro ⟨hbuffer, htext, haccums, hinert⟩ chunks
    obtain ⟨buffer, state⟩ := s
    obtain rfl : buffer = [] := hbuffer
    have hstate : state = setEvent state.tools.event (start (anthropic readFloat)).state :=
      sound_silent hsound htext (no_blocks hsound.2 haccums)
    obtain ⟨event', he⟩ := foldl_inert readFloat (chunks.map cString).flatten
      (s := (start (anthropic readFloat)).state) [] hinert inert_nil
    rw [foldl_streamCb_push _ List.not_mem_nil, foldl_streamCb_push _ List.not_mem_nil, hstate]
    change result (anthropic readFloat)
      (List.foldl (push newline (anthropicLine readFloat)) _ _) = _
    rw [he]
    rfl

end Anthropic

section Retry

/-- A streamed reply is its last attempt's exactly if the attempts before it left complete lines
that say nothing. -/
theorem retry_iff (readFloat : Bytes → Option NumberText) (truncate : NumberText → ℤ)
    (clock : ℕ → ℕ) {failed : List Attempt} (hf : ∀ b ∈ failed, Retried b)
    (hn : failed.length < maxRetries) :
    (Isolated readFloat (openAi readFloat truncate) failed ↔
      OpenAiClean readFloat truncate failed) ∧
    (Isolated readFloat (anthropic readFloat) failed ↔ AnthropicClean readFloat failed) ∧
    (Isolated readFloat (gemini readFloat clock) failed ↔ GeminiClean readFloat clock failed) :=
  ⟨openAi_isolated_iff hf hn, anthropic_isolated_iff hf hn, gemini_isolated_iff hf hn⟩

theorem silent_singleton {τ : Type} {d : Decoder τ} {context : List Bytes → τ} {nothing : τ → Prop}
    {line : Bytes} (h : (d.line { tools := context [] } line).text = [] ∧
      nothing (d.line { tools := context [] } line).tools) : Silent d context nothing [line] := by
  intro pre l post he
  obtain ⟨rfl, hl⟩ | ⟨x, rfl, hx⟩ := List.cons_eq_append_iff.mp he
  · obtain ⟨rfl, -⟩ := List.cons.inj hl
    exact h
  · exact absurd hx.symm (List.append_ne_nil_of_right_ne_nil _ (List.cons_ne_nil _ _))

end Retry

namespace Counterexample

def noFloat (_ : Bytes) : Option NumberText := none

/-- An attempt that gives up after a comment. -/
def pinged : Attempt where
  chunks := [bytes ": ping\n"]
  curlError := some (bytes "Timeout was reached")

theorem pinged_isolated :
    Isolated noFloat (openAi noFloat fun _ => 0) [pinged] ∧
    Isolated noFloat (anthropic noFloat) [pinged] ∧
    Isolated noFloat (gemini noFloat id) [pinged] := by
  have hf : ∀ b ∈ [pinged], Retried b := by
    intro b hb
    obtain rfl := List.mem_singleton.mp hb
    exact .inr (.inl (Option.some_ne_none _))
  have hhanded : handed [pinged] = [bytes ": ping"].flatMap (· ++ [newline]) := by decide
  have hopen : ∀ line ∈ [bytes ": ping"], newline ∉ line := by decide
  obtain ⟨hopenAi, hanthropic, hgemini⟩ := retry_iff noFloat (fun _ => 0) id hf (by decide)
  refine ⟨hopenAi.mpr ?_, hanthropic.mpr ?_, hgemini.mpr ?_⟩
  · exact ⟨[bytes ": ping"], hhanded, hopen, silent_singleton ⟨rfl, rfl⟩, trivial⟩
  · exact ⟨[bytes ": ping"], hhanded, hopen, silent_singleton ⟨rfl, rfl⟩, by decide, by decide⟩
  · exact ⟨[bytes ": ping"], hhanded, hopen, silent_singleton ⟨rfl, rfl, rfl⟩, trivial⟩

/-- A stream that says "a". -/
def said : List Bytes :=
  [bytes "data: \x7b\"choices\":[\x7b\"delta\":\x7b\"content\":\"a\"\x7d\x7d]\x7d\n"]

/-- The connection breaks when all is said, and the next attempt says it again. -/
theorem said_twice :
    (chat noFloat (openAi noFloat fun _ => 0)
      (attemptsOf [{ chunks := said, curlError := some (bytes "Timeout was reached") },
        { chunks := said }])).1.text = bytes "aa" ∧
    (chat noFloat (openAi noFloat fun _ => 0) (attemptsOf [{ chunks := said }])).1.text =
      bytes "a" := by
  decide +kernel

end Counterexample

end RetryIsolation
