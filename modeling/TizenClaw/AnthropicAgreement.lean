import TizenClaw.AnthropicResponse

/-! Where the two decoders of an Anthropic reply agree: the streamed text has no newlines between
its blocks, and an input without fragments stays an empty string. -/
namespace AnthropicAgreement

open ByteString JsonValue JsonParse JsonParseUtf8 LineBuffer LlmTypes StreamDecoders TryBlock
open AnthropicResponse

section Contents

def textOf : Block → Option Bytes
  | .text deltas => some deltas.flatten
  | .toolUse _ _ _ _ => none

def inputText : Block → Option Bytes
  | .text _ => none
  | .toolUse _ _ _ fragments => some fragments.flatten

def texts (blocks : List Block) : List Bytes := blocks.filterMap textOf

def joinTexts (ts : List Bytes) (acc : Bytes) : Bytes :=
  ts.foldl (fun acc t => separate acc ++ t) acc

/-- The calls a list of blocks gives, with the arguments read from each. -/
def callOf (args : List (Bytes × Json) → Bytes → Json) : Block → Option LlmToolCall
  | .text _ => none
  | .toolUse id name input fragments => some ⟨id, name, args input fragments.flatten⟩

def wholeArgs (input : List (Bytes × Json)) (_ : Bytes) : Json := .obj input

def streamedArgs (readFloat : Bytes → Option NumberText) (_ : List (Bytes × Json))
    (s : Bytes) : Json :=
  parseArgs readFloat s

end Contents

section Joining

theorem length_le_join (ts : List Bytes) (acc : Bytes) :
    (acc ++ ts.flatten).length ≤ (joinTexts ts acc).length := by
  induction ts generalizing acc with
  | nil => simp [joinTexts]
  | cons t ts ih =>
    have hsep : acc.length ≤ (separate acc).length := by
      unfold separate
      split_ifs with h
      · simp [h]
      · simp
    calc (acc ++ (t :: ts).flatten).length
      _ ≤ ((separate acc ++ t) ++ ts.flatten).length := by simp; omega
      _ ≤ (joinTexts (t :: ts) acc).length := ih (separate acc ++ t)

theorem length_lt_join {ts : List Bytes} {acc : Bytes} (ha : acc ≠ []) (hne : ts ≠ []) :
    (acc ++ ts.flatten).length < (joinTexts ts acc).length := by
  cases ts with
  | nil => exact absurd rfl hne
  | cons t ts =>
    have hsep : (separate acc).length = acc.length + 1 := by simp [separate, ha]
    calc (acc ++ (t :: ts).flatten).length
      _ < ((separate acc ++ t) ++ ts.flatten).length := by simp; omega
      _ ≤ (joinTexts (t :: ts) acc).length := length_le_join ts (separate acc ++ t)

/-- Joining adds nothing exactly if no text but the last has anything in it. -/
theorem join_eq_iff (ts : List Bytes) :
    joinTexts ts [] = ts.flatten ↔ ∀ t ∈ ts.dropLast, t = [] := by
  induction ts with
  | nil => simp [joinTexts]
  | cons t ts ih =>
    have hfirst : joinTexts (t :: ts) [] = joinTexts ts t := rfl
    rw [hfirst]
    cases ts with
    | nil => simp [joinTexts]
    | cons u us =>
      rw [List.dropLast_cons_cons, List.forall_mem_cons]
      by_cases ht : t = []
      · subst ht
        rw [← ih]
        simp
      · refine iff_of_false (fun he => ?_) fun h => ht h.1
        have hlt := length_lt_join ht (List.cons_ne_nil u us)
        rw [he] at hlt
        exact lt_irrefl _ hlt

end Joining

section Parsing

variable {readFloat : Bytes → Option NumberText} {truncate : NumberText → ℤ}

/-- What the parser makes of a block. -/
def parsedBlock (r : LlmResponse) (block : Block) : LlmResponse :=
  { r with
    text := (textOf block).elim r.text fun t => separate r.text ++ t
    toolCalls := r.toolCalls ++ (callOf wholeArgs block).toList }

theorem getString_str (s : Bytes) : (Json.str s).getString = .ok s := rfl

theorem parseBlock_run {block : Block} {j : Json} (h : Shows block j) (r : LlmResponse) :
    (parseBlock j).run r = (.ok ⟨⟩, parsedBlock r block) := by
  cases block with
  | text deltas =>
    obtain ⟨htype, htext⟩ := h
    unfold parseBlock
    rw [run_bind (run_lift (valueString_of_member htype []) r), if_pos rfl,
      run_bind (run_modify _ r), run_bind (run_lift (field_of_member htext) _),
      run_bind (run_lift (getString_str _) _), run_modify]
    simp [parsedBlock, textOf, callOf]
  | toolUse id name input fragments =>
    obtain ⟨htype, hid, hname, hinput⟩ := h
    unfold parseBlock
    rw [run_bind (run_lift (valueString_of_member htype []) r), if_neg (by decide), if_pos rfl,
      run_bind (run_lift (valueString_of_member hid []) r),
      run_bind (run_lift (field_of_member hname) _), run_bind (run_lift (getString_str _) _),
      run_bind (run_lift (field_of_member hinput) _), run_modify]
    rfl

theorem forM_parseBlock {blocks : List Block} {content : List Json}
    (h : List.Forall₂ Shows blocks content) (r : LlmResponse) :
    (content.forM parseBlock).run r = (.ok ⟨⟩, blocks.foldl parsedBlock r) :=
  run_forM (h.imp fun _ _ hs => parseBlock_run hs) r

theorem parsed_text (blocks : List Block) (r : LlmResponse) :
    (blocks.foldl parsedBlock r).text = joinTexts (texts blocks) r.text := by
  induction blocks generalizing r with
  | nil => rfl
  | cons block blocks ih =>
    rw [List.foldl_cons, ih]
    cases block with
    | text deltas => rfl
    | toolUse id name input fragments => rfl

theorem parsed_calls (blocks : List Block) (r : LlmResponse) :
    (blocks.foldl parsedBlock r).toolCalls = r.toolCalls ++
      blocks.filterMap (callOf wholeArgs) := by
  induction blocks generalizing r with
  | nil => simp
  | cons block blocks ih =>
    rw [List.foldl_cons, ih, List.filterMap_cons]
    cases block with
    | text deltas => simp [parsedBlock, callOf]
    | toolUse id name input fragments => simp [parsedBlock, callOf]

/-- The usage is read after the blocks and changes neither text nor calls. -/
theorem usage_frame {t : Bytes} {calls : List LlmToolCall} (j : Json) :
    Keeps (fun r : LlmResponse => r.text = t ∧ r.toolCalls = calls)
      (match j.member? (bytes "usage") with
        | some usage => parseUsage truncate usage
        | none => pure ()) := by
  split
  · refine keeps_bind (keeps_lift _) fun prompt =>
      keeps_bind (keeps_modify fun _ h => h) fun _ => ?_
    exact keeps_bind (keeps_lift _) fun completion => keeps_modify fun _ h => h
  · exact keeps_pure ()

theorem parsed_message {blocks : List Block} {body : Bytes} (h : Message readFloat blocks body)
    (what : JsonException → Bytes) :
    (parseAnthropicResponse readFloat truncate what body).text = joinTexts (texts blocks) [] ∧
    (parseAnthropicResponse readFloat truncate what body).toolCalls =
      blocks.filterMap (callOf wholeArgs) := by
  obtain ⟨j, content, hparse, herror, hcontent, hshows⟩ := h
  have hmessage :
      ((parseMessage truncate j).run ({} : LlmResponse)).2.text = joinTexts (texts blocks) [] ∧
      ((parseMessage truncate j).run ({} : LlmResponse)).2.toolCalls =
        blocks.filterMap (callOf wholeArgs) := by
    unfold parseMessage
    rw [herror, hcontent]
    cases hshows with
    | nil => exact ⟨rfl, rfl⟩
    | @cons block json blocks content hblock hrest =>
      dsimp only
      have hfull : ¬ (Json.arr (json :: content)).empty = true := Bool.false_ne_true
      have hblocks (r : LlmResponse) :
          ((Json.arr (json :: content)).elements.forM parseBlock).run r =
            (.ok ⟨⟩, (block :: blocks).foldl parsedBlock r) :=
        forM_parseBlock (.cons hblock hrest) r
      rw [if_neg hfull, run_bind (run_modify _ _), run_bind (hblocks _)]
      refine usage_frame j _ ⟨parsed_text _ _, ?_⟩
      rw [parsed_calls]
      rfl
  unfold parseAnthropicResponse
  rw [hparse]
  dsimp only
  split
  · next r hr =>
    rw [hr] at hmessage
    exact hmessage
  · next e r hr =>
    rw [hr] at hmessage
    exact hmessage

end Parsing

section Lines

variable {readFloat : Bytes → Option NumberText} {cr : Bytes} {s : Stream Blocks}

def setEvent (name : Bytes) (s : Stream Blocks) : Stream Blocks :=
  { s with tools := { s.tools with event := name } }

theorem stripCr_line (hcr : cr = [] ∨ cr = [0x0D]) {l : Bytes} (hl : 0x0D ∉ l) :
    stripCr (l ++ cr) = l := by
  unfold stripCr
  rcases hcr with rfl | rfl
  · rw [List.append_nil, if_neg]
    intro hlast
    exact hl (List.mem_of_getLast? hlast)
  · rw [if_pos (by simp), List.dropLast_concat]

theorem eventPrefix_eq : eventPrefix = [0x65, 0x76, 0x65, 0x6E, 0x74, 0x3A, 0x20] := by decide
theorem dataPrefix_eq : dataPrefix = [0x64, 0x61, 0x74, 0x61, 0x3A, 0x20] := by decide

theorem line_event (hcr : cr = [] ∨ cr = [0x0D]) {name : Bytes} (hn : 0x0D ∉ name) :
    anthropicLine readFloat s (eventPrefix ++ name ++ cr) = setEvent name s := by
  have hline : 0x0D ∉ eventPrefix ++ name := by
    rw [List.mem_append, not_or]
    exact ⟨by decide, hn⟩
  unfold anthropicLine
  rw [stripCr_line hcr hline, eventPrefix_eq]
  rfl

theorem line_data (hcr : cr = [] ∨ cr = [0x0D]) {data : Bytes} {j : Json} (hd : 0x0D ∉ data)
    (hj : parse readFloat data = .ok j) :
    anthropicLine readFloat s (dataPrefix ++ data ++ cr) =
      attempt (anthropicEvent s.tools.event j) s := by
  have hline : 0x0D ∉ dataPrefix ++ data := by
    rw [List.mem_append, not_or]
    exact ⟨by decide, hd⟩
  unfold anthropicLine
  rw [stripCr_line hcr hline, eventPrefix_eq, dataPrefix_eq]
  have hdrop : ([0x64, 0x61, 0x74, 0x61, 0x3A, 0x20] ++ data).drop 6 = data := rfl
  rw [if_neg nofun, if_pos (List.isPrefixOf_iff_prefix.mpr (List.prefix_append _ _)), hdrop, hj]

theorem line_blank (hcr : cr = [] ∨ cr = [0x0D]) :
    anthropicLine readFloat s cr = setEvent [] s := by
  unfold anthropicLine
  rw [← List.nil_append cr, stripCr_line hcr List.not_mem_nil, eventPrefix_eq, dataPrefix_eq]
  rfl

/-- The events whose data the callback does not look at. -/
def Inert (event : Bytes) : Prop := event ≠ blockStart ∧ event ≠ blockDelta

theorem inert_nil : Inert [] := ⟨by decide, by decide⟩
theorem inert_blockStop : Inert blockStop := ⟨by decide, by decide⟩

theorem line_inert (he : Inert s.tools.event) (line : Bytes) :
    anthropicLine readFloat s line =
      if eventPrefix.isPrefixOf (stripCr line) then setEvent ((stripCr line).drop 7) s
      else if stripCr line = [] then setEvent [] s
      else s := by
  have hevent (j : Json) : attempt (anthropicEvent s.tools.event j) s = s := by
    unfold anthropicEvent
    rw [if_neg he.1, if_neg he.2]
    rfl
  unfold anthropicLine
  dsimp only
  by_cases hp : eventPrefix.isPrefixOf (stripCr line) = true
  · rw [if_pos hp, if_pos hp]
    rfl
  · rw [if_neg hp, if_neg hp]
    by_cases hd : dataPrefix.isPrefixOf (stripCr line) = true
    · have hne : stripCr line ≠ [] := by
        intro h
        rw [h, dataPrefix_eq] at hd
        cases hd
      rw [if_pos hd, if_neg hne]
      split
      · exact hevent _
      · rfl
    · rw [if_neg hd]
      rfl

end Lines

section Events

variable {readFloat : Bytes → Option NumberText} {cr : Bytes}

/-- A whole event: the state is the same whatever event came before. -/
def eventStep (readFloat : Bytes → Option NumberText) (s : Stream Blocks) (e : SseEvent) :
    Stream Blocks :=
  match parse readFloat e.data with
  | .ok j => setEvent [] (attempt (anthropicEvent e.name j) (setEvent e.name s))
  | .error _ => setEvent [] s

def Plain (s : Bytes) : Prop := newline ∉ s ∧ 0x0D ∉ s ∧ 0 ∉ s

instance (s : Bytes) : Decidable (Plain s) := inferInstanceAs (Decidable (_ ∧ _))

def OneLine (readFloat : Bytes → Option NumberText) (e : SseEvent) : Prop :=
  Plain e.name ∧ Plain e.data ∧ ∃ j, parse readFloat e.data = .ok j

theorem Event.oneLine {name : Bytes} {holds : Json → Prop} {e : SseEvent}
    (h : Event readFloat name holds e) (hname : Plain name) : OneLine readFloat e := by
  obtain ⟨rfl, hn, hr, j, hj, -⟩ := h
  exact ⟨hname, ⟨hn, hr, parse_zero_not_mem hj⟩, j, hj⟩

theorem foldl_event (hcr : cr = [] ∨ cr = [0x0D]) {e : SseEvent}
    (he : OneLine readFloat e) (s : Stream Blocks) :
    (render (cr ++ [newline]) e).foldl (push newline (anthropicLine readFloat)) ⟨[], s⟩ =
      ⟨[], eventStep readFloat s e⟩ := by
  obtain ⟨⟨hn, hn', -⟩, ⟨hd, hd', -⟩, j, hj⟩ := he
  have hcr' : newline ∉ cr := by rcases hcr with rfl | rfl <;> decide
  have hlines : render (cr ++ [newline]) e =
      [eventPrefix ++ e.name ++ cr, dataPrefix ++ e.data ++ cr, cr].flatMap (· ++ [newline]) := by
    simp [render, List.append_assoc]
  have hopen : ∀ l ∈ [eventPrefix ++ e.name ++ cr, dataPrefix ++ e.data ++ cr, cr],
    newline ∉ l := by
    have hp : newline ∉ eventPrefix ∧ newline ∉ dataPrefix := by decide
    intro l hl
    simp only [List.mem_cons, List.not_mem_nil, or_false] at hl
    rcases hl with rfl | rfl | rfl
    · simp only [List.mem_append, not_or]
      exact ⟨⟨hp.1, hn⟩, hcr'⟩
    · simp only [List.mem_append, not_or]
      exact ⟨⟨hp.2, hd⟩, hcr'⟩
    · exact hcr'
  rw [hlines, foldl_push_lines hopen, List.foldl_cons, List.foldl_cons, List.foldl_cons,
    line_event hcr hn', line_data hcr hd' hj, line_blank hcr, eventStep, hj]
  rfl

theorem foldl_events (hcr : cr = [] ∨ cr = [0x0D]) {events : List SseEvent}
    (he : ∀ e ∈ events, OneLine readFloat e) (s : Stream Blocks) :
    (events.flatMap (render (cr ++ [newline]))).foldl
      (push newline (anthropicLine readFloat)) ⟨[], s⟩ =
      ⟨[], events.foldl (eventStep readFloat) s⟩ := by
  induction events generalizing s with
  | nil => rfl
  | cons e events ih =>
    rw [List.forall_mem_cons] at he
    rw [List.flatMap_cons, List.foldl_append, foldl_event hcr he.1, ih he.2]
    rfl

end Events

section Effects

variable {readFloat : Bytes → Option NumberText} {s : Stream Blocks}

theorem eventStep_run {e : SseEvent} {j : Json} {t : Stream Blocks} {r : Except JsonException Unit}
    (hj : parse readFloat e.data = .ok j)
    (hrun : (anthropicEvent e.name j).run (setEvent e.name s) = (r, t)) :
    eventStep readFloat s e = setEvent [] t := by
  unfold eventStep
  rw [hj]
  dsimp only
  rw [attempt_run hrun]

theorem step_start_text {deltas : List Bytes} {e : SseEvent}
    (h : Event readFloat blockStart (Starts readFloat (.text deltas)) e) :
    eventStep readFloat s e =
      { s with tools := { s.tools with event := [], current := none } } := by
  obtain ⟨hname, -, -, j, hj, block, hblock, htype⟩ := h
  have hrun : (anthropicEvent e.name j).run (setEvent e.name s) =
      (.ok ⟨⟩, { s with tools := { s.tools with event := e.name, current := none } }) := by
    unfold anthropicEvent anthropicStart
    rw [if_pos hname, run_bind (run_lift (field_of_member hblock) _),
      run_bind (run_lift (valueString_of_member htype []) _), if_neg (by decide)]
    rfl
  exact eventStep_run hj hrun

theorem step_start_tool {id name : Bytes} {input : List (Bytes × Json)} {fragments : List Bytes}
    {e : SseEvent} (h : Event readFloat blockStart
      (Starts readFloat (.toolUse id name input fragments)) e) :
    eventStep readFloat s e =
      { s with tools :=
        ⟨[], s.tools.accums ++ [{ id := id, name := name }], some s.tools.accums.length⟩ } := by
  obtain ⟨hname, -, -, j, hj, ⟨block, hblock, htype, hid, hn⟩, -⟩ := h
  have hrun : (anthropicEvent e.name j).run (setEvent e.name s) =
      (.ok ⟨⟩, { s with tools := ⟨e.name, s.tools.accums ++ [{ id := id, name := name }],
        some s.tools.accums.length⟩ }) := by
    unfold anthropicEvent anthropicStart
    rw [if_pos hname, run_bind (run_lift (field_of_member hblock) _),
      run_bind (run_lift (valueString_of_member htype []) _), if_pos rfl,
      run_bind (run_lift (valueString_of_member hid []) _),
      run_bind (run_lift (valueString_of_member hn []) _)]
    rfl
  exact eventStep_run hj hrun

theorem step_text {piece : Bytes} {e : SseEvent}
    (h : Event readFloat blockDelta (Carries (bytes "text_delta") (bytes "text") piece) e) :
    eventStep readFloat s e =
      { text := s.text ++ piece, streamed := s.streamed ++ piece,
        tools := { s.tools with event := [] } } := by
  obtain ⟨hname, -, -, j, hj, delta, hdelta, htype, htext⟩ := h
  have hrun : (anthropicEvent e.name j).run (setEvent e.name s) =
      (.ok ⟨⟩, { text := s.text ++ piece, streamed := s.streamed ++ piece
                 tools := { s.tools with event := e.name } }) := by
    unfold anthropicEvent anthropicDelta
    rw [hname, if_neg (by decide), if_pos rfl, run_bind (run_lift (field_of_member hdelta) _),
      run_bind (run_lift (valueString_of_member htype []) _), if_pos rfl,
      run_bind (run_lift (field_of_member htext) _), run_bind (run_lift (getString_str _) _)]
    rfl
  exact eventStep_run hj hrun

theorem step_fragment {piece : Bytes} {e : SseEvent} {i : ℕ} (hi : s.tools.current = some i)
    (h : Event readFloat blockDelta
      (Carries (bytes "input_json_delta") (bytes "partial_json") piece) e) :
    eventStep readFloat s e =
      { s with tools := ⟨[],
        s.tools.accums.modify i fun t => { t with inputJson := t.inputJson ++ piece },
          some i⟩ } := by
  obtain ⟨hname, -, -, j, hj, delta, hdelta, htype, hpiece⟩ := h
  have hrun : (anthropicEvent e.name j).run (setEvent e.name s) =
      (.ok ⟨⟩, { s with tools := ⟨e.name,
        s.tools.accums.modify i fun t => { t with inputJson := t.inputJson ++ piece },
          some i⟩ }) := by
    have hcurrent : (setEvent e.name s).tools.current = some i := hi
    unfold anthropicEvent anthropicDelta
    rw [hname, if_neg (by decide), if_pos rfl, run_bind (run_lift (field_of_member hdelta) _),
      run_bind (run_lift (valueString_of_member htype []) _), if_neg (by decide), if_pos rfl,
      run_bind (run_get _), ← hname, hcurrent]
    dsimp only
    rw [run_bind (run_lift (field_of_member hpiece) _), run_bind (run_lift (getString_str _) _),
      setBlocks, run_modify, setEvent, hi]
  exact eventStep_run hj hrun

theorem step_stop {e : SseEvent} (h : Event readFloat blockStop (fun _ => True) e) :
    eventStep readFloat s e = setEvent [] s := by
  obtain ⟨hname, -, -, j, hj, -⟩ := h
  unfold eventStep
  rw [hj, hname]
  rfl

end Effects

section Streaming

variable {readFloat : Bytes → Option NumberText}

/-- What the callback makes of a block. -/
def streamedBlock (s : Stream Blocks) : Block → Stream Blocks
  | .text deltas =>
    { text := s.text ++ deltas.flatten, streamed := s.streamed ++ deltas.flatten
      tools := ⟨[], s.tools.accums, none⟩ }
  | .toolUse id name _ fragments =>
    { s with tools := ⟨[], s.tools.accums ++ [⟨id, name, fragments.flatten⟩],
      some s.tools.accums.length⟩ }

theorem foldl_texts {deltas : List Bytes} {events : List SseEvent}
    (h : List.Forall₂ (fun piece => Event readFloat blockDelta
      (Carries (bytes "text_delta") (bytes "text") piece)) deltas events)
    (text streamed : Bytes) (accums : List ToolAccum) (current : Option ℕ) :
    events.foldl (eventStep readFloat) ⟨text, streamed, ⟨[], accums, current⟩⟩ =
      ⟨text ++ deltas.flatten, streamed ++ deltas.flatten, ⟨[], accums, current⟩⟩ := by
  induction h generalizing text streamed with
  | nil => simp
  | cons he _ ih =>
    rw [List.foldl_cons, step_text he, ih]
    simp

theorem modify_last {α : Type*} (l : List α) (a : α) (f : α → α) :
    (l ++ [a]).modify l.length f = l ++ [f a] := by
  induction l with
  | nil => rfl
  | cons b l ih =>
    rw [List.cons_append, List.length_cons, List.modify_succ_cons, ih]
    rfl

theorem foldl_fragments {fragments : List Bytes} {events : List SseEvent}
    (h : List.Forall₂ (fun piece => Event readFloat blockDelta
      (Carries (bytes "input_json_delta") (bytes "partial_json") piece)) fragments events)
    (text streamed : Bytes) (accums : List ToolAccum) (t : ToolAccum) :
    events.foldl (eventStep readFloat) ⟨text, streamed, ⟨[], accums ++ [t], some accums.length⟩⟩ =
      ⟨text, streamed, ⟨[], accums ++ [{ t with inputJson := t.inputJson ++ fragments.flatten }],
        some accums.length⟩⟩ := by
  induction h generalizing t with
  | nil => simp
  | @cons piece e fragments events he _ ih =>
    have hlast : (accums ++ [t]).modify accums.length
        (fun t => { t with inputJson := t.inputJson ++ piece }) =
          accums ++ [{ t with inputJson := t.inputJson ++ piece }] := modify_last accums t _
    rw [List.foldl_cons, step_fragment rfl he, hlast, ih]
    simp

theorem foldl_block {block : Block} {events : List SseEvent} (h : Emits readFloat block events)
    (s : Stream Blocks) : events.foldl (eventStep readFloat) s = streamedBlock s block := by
  obtain ⟨first, deltas, last, rfl, hfirst, hdeltas, hlast⟩ := h
  rw [List.foldl_append, List.foldl_cons, List.foldl_cons, List.foldl_nil, step_stop hlast]
  cases block with
  | text pieces =>
    rw [step_start_text hfirst, foldl_texts hdeltas]
    rfl
  | toolUse id name input fragments =>
    rw [step_start_tool hfirst, foldl_fragments hdeltas]
    rfl

theorem foldl_blocks {blocks : List Block} {events : List (List SseEvent)}
    (h : List.Forall₂ (Emits readFloat) blocks events) (s : Stream Blocks) :
    events.flatten.foldl (eventStep readFloat) s = blocks.foldl streamedBlock s := by
  induction h generalizing s with
  | nil => rfl
  | cons he _ ih => rw [List.flatten_cons, List.foldl_append, foldl_block he, ih, List.foldl_cons]

theorem exists_left {α β : Type*} {R : α → β → Prop} {l : List α} {m : List β}
    (h : List.Forall₂ R l m) {b : β} (hb : b ∈ m) : ∃ a, R a b := by
  induction h with
  | nil => cases hb
  | cons hab _ ih =>
    rcases List.mem_cons.mp hb with rfl | hb
    · exact ⟨_, hab⟩
    · exact ih hb

theorem emitted_oneLine {block : Block} {events : List SseEvent}
    (h : Emits readFloat block events) :
    ∀ e ∈ events, OneLine readFloat e := by
  obtain ⟨first, deltas, last, rfl, hfirst, hdeltas, hlast⟩ := h
  intro e he
  rcases List.mem_append.mp he with he | he
  · rcases List.mem_cons.mp he with rfl | he
    · exact Event.oneLine hfirst (by decide)
    · obtain ⟨piece, hp⟩ := exists_left hdeltas he
      exact Event.oneLine hp (by decide)
  · obtain rfl := List.mem_singleton.mp he
    exact Event.oneLine hlast (by decide)

theorem streamed_text (blocks : List Block) (s : Stream Blocks) :
    (blocks.foldl streamedBlock s).text = s.text ++ (texts blocks).flatten := by
  induction blocks generalizing s with
  | nil => simp [texts]
  | cons block blocks ih =>
    rw [List.foldl_cons, ih]
    cases block with
    | text deltas => simp [streamedBlock, texts, textOf]
    | toolUse id name input fragments => rfl

theorem streamed_calls (blocks : List Block) (s : Stream Blocks) :
    (anthropic readFloat).toolCalls (blocks.foldl streamedBlock s).tools =
      (anthropic readFloat).toolCalls s.tools ++
        blocks.filterMap (callOf (streamedArgs readFloat)) := by
  induction blocks generalizing s with
  | nil => simp
  | cons block blocks ih =>
    rw [List.foldl_cons, ih, List.filterMap_cons]
    cases block with
    | text deltas => rfl
    | toolUse id name input fragments => simp [streamedBlock, callOf, anthropic, streamedArgs]

end Streaming

section Ending

variable {readFloat : Bytes → Option NumberText}

/-- An unfinished line that starts no event, under an event without effect. -/
def Idle (b : Buffered UInt8 (Stream Blocks)) : Prop :=
  Inert b.state.tools.event ∧ ¬ eventPrefix <+: b.buffer

def SameReply (s t : Stream Blocks) : Prop :=
  s.text = t.text ∧ s.streamed = t.streamed ∧ s.tools.accums = t.tools.accums

theorem idle_push {b : Buffered UInt8 (Stream Blocks)} {c : UInt8} (h : Idle b)
    (hc : c = newline ∨ c = 0x0D) :
    Idle (push newline (anthropicLine readFloat) b c) ∧
      SameReply (push newline (anthropicLine readFloat) b c).state b.state := by
  obtain ⟨hevent, hopen⟩ := h
  rcases hc with rfl | rfl
  · have hnone : ¬ eventPrefix.isPrefixOf (stripCr b.buffer) = true := by
      intro hp
      have hstrip : stripCr b.buffer <+: b.buffer := by
        unfold stripCr
        split_ifs
        · exact List.dropLast_prefix b.buffer
        · exact List.prefix_rfl
      exact hopen ((List.isPrefixOf_iff_prefix.mp hp).trans hstrip)
    have hempty : ¬ eventPrefix <+: ([] : Bytes) := by
      rw [eventPrefix_eq]
      decide
    rw [push, if_pos rfl, line_inert hevent, if_neg hnone]
    by_cases hblank : stripCr b.buffer = []
    · rw [if_pos hblank]
      exact ⟨⟨inert_nil, hempty⟩, rfl, rfl, rfl⟩
    · rw [if_neg hblank]
      exact ⟨⟨hevent, hempty⟩, rfl, rfl, rfl⟩
  · rw [push, if_neg (by decide)]
    refine ⟨⟨hevent, fun hp => ?_⟩, rfl, rfl, rfl⟩
    rcases List.prefix_concat_iff.mp hp with heq | hp
    · have hlast := congrArg List.getLast? heq
      rw [eventPrefix_eq, List.getLast?_concat] at hlast
      cases hlast
    · exact hopen hp

theorem idle_foldl {t : Bytes} (ht : ∀ c ∈ t, c = newline ∨ c = 0x0D)
    {b : Buffered UInt8 (Stream Blocks)} (h : Idle b) :
    SameReply (t.foldl (push newline (anthropicLine readFloat)) b).state b.state := by
  induction t generalizing b with
  | nil => exact ⟨rfl, rfl, rfl⟩
  | cons c t ih =>
    rw [List.forall_mem_cons] at ht
    obtain ⟨hidle, hsame⟩ :
        _ ∧ SameReply (push newline (anthropicLine readFloat) b c).state b.state :=
      idle_push h ht.1
    obtain ⟨h1, h2, h3⟩ := ih ht.2 hidle
    exact ⟨h1.trans hsame.1, h2.trans hsame.2.1, h3.trans hsame.2.2⟩

theorem streamed_oneLine {blocks : List Block} {events : List (List SseEvent)}
    (h : List.Forall₂ (Emits readFloat) blocks events) :
    ∀ e ∈ events.flatten, OneLine readFloat e := by
  intro e he
  obtain ⟨l, hl, he⟩ := List.mem_flatten.mp he
  obtain ⟨block, hb⟩ := exists_left h hl
  exact emitted_oneLine hb e he

/-- The line ends after the last event are not needed. -/
theorem foldl_stream {blocks : List Block} {stream : Bytes} (h : Streamed readFloat blocks stream)
    (s : Stream Blocks) :
    SameReply (stream.foldl (push newline (anthropicLine readFloat)) ⟨[], s⟩).state
      (blocks.foldl streamedBlock s) := by
  obtain ⟨cr, events, dropped, hcr, hevents, hstream, hdropped⟩ := h
  have hlines := streamed_oneLine hevents
  rw [← foldl_blocks hevents s]
  rcases List.eq_nil_or_concat' events with rfl | ⟨front, l, rfl⟩
  · obtain rfl : stream = [] := (List.append_eq_nil_iff.mp hstream).1
    exact ⟨rfl, rfl, rfl⟩
  · obtain ⟨block, first, deltas, last, rfl, -, -, hlast⟩ := exists_left hevents
      (List.mem_append_right front List.mem_cons_self)
    have hsplit : (front ++ [first :: deltas ++ [last]]).flatten =
        (front.flatten ++ first :: deltas) ++ [last] := by simp
    rw [hsplit] at hstream hlines ⊢
    generalize front.flatten ++ first :: deltas = before at hstream hlines ⊢
    obtain ⟨t, ht⟩ := hdropped
    obtain ⟨⟨-, hr, -⟩, ⟨hd, -, -⟩, -⟩ :=
      hlines last (List.mem_append_right before List.mem_cons_self)
    have hstop : last.name = blockStop := hlast.1
    -- the stream up to the data of the last event, and some of the line ends
    obtain rfl : stream = before.flatMap (render (cr ++ [newline])) ++
        ((eventPrefix ++ last.name ++ cr) ++ [newline]) ++ (dataPrefix ++ last.data) ++ t := by
      apply (List.append_left_inj dropped).mp
      rw [hstream, List.append_assoc _ t, ht]
      simp [render, List.append_assoc]
    have hopen : newline ∉ eventPrefix ++ last.name ++ cr := by
      rw [hstop]
      rcases hcr with rfl | rfl <;> decide
    have hdata : newline ∉ dataPrefix ++ last.data := by
      rw [List.mem_append, not_or]
      exact ⟨by decide, hd⟩
    have hidle : ¬ eventPrefix <+: dataPrefix ++ last.data := by
      rw [eventPrefix_eq, dataPrefix_eq]
      intro hp
      cases (List.cons_prefix_cons.mp hp).1
    have hevent (u : Stream Blocks) :
        anthropicLine readFloat u (eventPrefix ++ last.name ++ cr) = setEvent last.name u :=
      line_event hcr hr
    generalize eventPrefix ++ last.name ++ cr = eventLine at hopen hevent ⊢
    generalize dataPrefix ++ last.data = dataLine at hdata hidle ⊢
    rw [List.foldl_append, List.foldl_append, List.foldl_append,
      foldl_events hcr fun e he => hlines e (List.mem_append_left _ he), foldl_push_line hopen,
      List.nil_append, hevent, foldl_push_open hdata, List.nil_append, List.foldl_append,
      List.foldl_cons, List.foldl_nil, step_stop hlast, hstop]
    refine idle_foldl (fun c hc => ?_) ⟨inert_blockStop, ?_⟩
    · have hmem : c ∈ (cr ++ [newline]) ++ (cr ++ [newline]) := ht ▸ List.mem_append_left dropped hc
      rcases hcr with rfl | rfl
      · simp only [List.nil_append, List.mem_append, List.mem_singleton, or_self] at hmem
        exact .inl hmem
      · simp only [List.mem_append, List.mem_singleton, or_self] at hmem
        exact hmem.symm
    · exact hidle

theorem streamed_zero_not_mem {blocks : List Block} {stream : Bytes}
    (h : Streamed readFloat blocks stream) : 0 ∉ stream := by
  obtain ⟨cr, events, dropped, hcr, hevents, hstream, -⟩ := h
  intro h0
  have hmem : 0 ∈ stream ++ dropped := List.mem_append_left dropped h0
  rw [hstream] at hmem
  obtain ⟨e, he, hmem⟩ := List.mem_flatMap.mp hmem
  obtain ⟨⟨-, -, hn⟩, ⟨-, -, hd⟩, -⟩ := streamed_oneLine hevents e he
  have heol : 0 ∉ cr ++ [newline] := by rcases hcr with rfl | rfl <;> decide
  have hp : 0 ∉ eventPrefix ∧ 0 ∉ dataPrefix := by decide
  generalize cr ++ [newline] = eol at heol hmem
  simp only [render, List.mem_append] at hmem
  tauto

end Ending

section Agreement

variable {readFloat : Bytes → Option NumberText} {truncate : NumberText → ℤ}

/-- The fragments of an input are its text, or nothing for an empty one. -/
def Encoded (readFloat : Bytes → Option NumberText) : Block → Prop
  | .text _ => True
  | .toolUse _ _ input fragments =>
    parse readFloat fragments.flatten = .ok (.obj input) ∨ fragments.flatten = [] ∧ input = []

theorem emitted_encoded {blocks : List Block} {events : List (List SseEvent)}
    (h : List.Forall₂ (Emits readFloat) blocks events) :
    ∀ block ∈ blocks, Encoded readFloat block := by
  induction h with
  | nil => exact nofun
  | @cons block events blocks rest he _ ih =>
    refine List.forall_mem_cons.mpr ⟨?_, ih⟩
    obtain ⟨first, deltas, last, -, ⟨-, -, -, j, -, hstart⟩, -⟩ := he
    cases block with
    | text pieces => trivial
    | toolUse id name input fragments => exact hstart.2

theorem streamedArgs_eq_iff {input : List (Bytes × Json)} {s : Bytes}
    (h : parse readFloat s = .ok (.obj input) ∨ s = [] ∧ input = []) :
    streamedArgs readFloat input s = wholeArgs input s ↔ s ≠ [] := by
  have hempty : parse readFloat [] = .error .parseError := rfl
  unfold streamedArgs wholeArgs parseArgs
  rcases h with h | ⟨rfl, rfl⟩
  · rw [h]
    refine iff_of_true rfl ?_
    rintro rfl
    rw [hempty] at h
    cases h
  · rw [hempty]
    exact iff_of_false nofun fun h => h rfl

theorem calls_eq_iff {blocks : List Block} (h : ∀ block ∈ blocks, Encoded readFloat block) :
    blocks.filterMap (callOf (streamedArgs readFloat)) = blocks.filterMap (callOf wholeArgs) ↔
      ∀ fragments ∈ blocks.filterMap inputText, fragments ≠ [] := by
  induction blocks with
  | nil => simp
  | cons block blocks ih =>
    rw [List.forall_mem_cons] at h
    cases block with
    | text deltas => exact ih h.2
    | toolUse id name input fragments =>
      have hargs := streamedArgs_eq_iff h.1
      simp only [List.filterMap_cons, callOf, inputText, List.cons.injEq, LlmToolCall.mk.injEq,
        true_and, List.forall_mem_cons, hargs, ih h.2]

theorem calls_of_accums {s t : Stream Blocks} (h : s.tools.accums = t.tools.accums) :
    (anthropic readFloat).toolCalls s.tools = (anthropic readFloat).toolCalls t.tools := by
  unfold anthropic
  dsimp only
  rw [h]

/-- The two decoders read the same text and the same calls exactly if no text block but the last
has any text, and no input comes as an empty string. -/
theorem agrees_iff {blocks : List Block} {chunks : List Bytes} {body : Bytes}
    (hstream : Streamed readFloat blocks chunks.flatten) (hbody : Message readFloat blocks body)
    (what : JsonException → Bytes) :
    ((decode (anthropic readFloat) chunks).text =
        (parseAnthropicResponse readFloat truncate what body).text ∧
      (decode (anthropic readFloat) chunks).toolCalls =
        (parseAnthropicResponse readFloat truncate what body).toolCalls) ↔
    (∀ t ∈ (texts blocks).dropLast, t = []) ∧
      ∀ fragments ∈ blocks.filterMap inputText, fragments ≠ [] := by
  obtain ⟨htext, -, haccums⟩ := foldl_stream hstream { tools := {} }
  have hparsed : (parseAnthropicResponse readFloat truncate what body).text = _ ∧ _ :=
    parsed_message hbody what
  obtain ⟨hptext, hpcalls⟩ := hparsed
  have hdecode : chunks.foldl (streamCb (anthropic readFloat)) (start (anthropic readFloat)) =
      chunks.flatten.foldl (push newline (anthropicLine readFloat)) ⟨[], { tools := {} }⟩ :=
    foldl_streamCb (streamed_zero_not_mem hstream) List.not_mem_nil
  have hcalls : (decode (anthropic readFloat) chunks).toolCalls =
      blocks.filterMap (callOf (streamedArgs readFloat)) := by
    unfold decode result
    rw [hdecode, calls_of_accums haccums, streamed_calls]
    rfl
  have htexts : (decode (anthropic readFloat) chunks).text = (texts blocks).flatten := by
    unfold decode result
    rw [hdecode, htext, streamed_text]
    rfl
  obtain ⟨cr, events, dropped, -, hevents, -⟩ := hstream
  rw [htexts, hcalls, hptext, hpcalls, eq_comm, join_eq_iff, calls_eq_iff (emitted_encoded hevents)]

end Agreement

namespace Counterexample

def noFloat : Bytes → Option NumberText := fun _ => none

def textStart : Json :=
  .obj [(bytes "content_block", .obj [(bytes "type", .str (bytes "text"))])]

def textDelta (text : Bytes) : Json :=
  .obj [(bytes "delta",
    .obj [(bytes "text", .str text), (bytes "type", .str (bytes "text_delta"))])]

def toolStart : Json :=
  .obj [(bytes "content_block", .obj [(bytes "id", .str (bytes "t1")),
    (bytes "name", .str (bytes "now")), (bytes "type", .str (bytes "tool_use"))])]

def toolDelta : Json :=
  .obj [(bytes "delta", .obj [(bytes "partial_json", .str (bytes "\x7b\x7d")),
    (bytes "type", .str (bytes "input_json_delta"))])]

def eventOf (name : Bytes) (j : Json) : SseEvent := ⟨name, (JsonDump.dump j).toOption.getD []⟩

def textEvents (text : Bytes) : List SseEvent :=
  [eventOf blockStart textStart, eventOf blockDelta (textDelta text), eventOf blockStop (.obj [])]

def toolEvents : List SseEvent :=
  [eventOf blockStart toolStart, eventOf blockDelta toolDelta, eventOf blockStop (.obj [])]

theorem event_of {name : Bytes} {holds : Json → Prop} {j : Json}
    (hd : newline ∉ (eventOf name j).data ∧ 0x0D ∉ (eventOf name j).data ∧
      parse noFloat (eventOf name j).data = .ok j) (hj : holds j) :
    Event noFloat name holds (eventOf name j) :=
  ⟨rfl, hd.1, hd.2.1, j, hd.2.2, hj⟩

theorem emits_text {text : Bytes}
    (hd : newline ∉ (eventOf blockDelta (textDelta text)).data ∧
      0x0D ∉ (eventOf blockDelta (textDelta text)).data ∧
      parse noFloat (eventOf blockDelta (textDelta text)).data = .ok (textDelta text)) :
    Emits noFloat (.text [text]) (textEvents text) := by
  refine ⟨_, [eventOf blockDelta (textDelta text)], _, rfl, event_of (by decide +kernel) ?_,
    .cons (event_of hd ?_) .nil, event_of (by decide) trivial⟩
  · exact ⟨_, rfl, rfl⟩
  · exact ⟨_, rfl, rfl, rfl⟩

theorem emits_tool : Emits noFloat
    (.toolUse (bytes "t1") (bytes "now") [] [bytes "\x7b\x7d"]) toolEvents := by
  refine ⟨_, [eventOf blockDelta toolDelta], _, rfl, event_of (by decide +kernel) ?_,
    .cons (event_of (by decide +kernel) ?_) .nil, event_of (by decide +kernel) trivial⟩
  · exact ⟨⟨_, rfl, rfl, rfl, rfl⟩, .inl (by decide)⟩
  · exact ⟨_, rfl, rfl, rfl⟩

def streamOf (events : List (List SseEvent)) : Bytes := events.flatten.flatMap (render [newline])

theorem streamed_of {blocks : List Block} {events : List (List SseEvent)}
    (h : List.Forall₂ (Emits noFloat) blocks events) :
    Streamed noFloat blocks [streamOf events].flatten :=
  ⟨[], events, [], .inl rfl, h, by simp [streamOf], List.nil_suffix⟩

def textBlock (text : Bytes) : Json :=
  .obj [(bytes "text", .str text), (bytes "type", .str (bytes "text"))]

def toolBlock : Json :=
  .obj [(bytes "id", .str (bytes "t1")), (bytes "input", .obj []),
    (bytes "name", .str (bytes "now")),
    (bytes "type", .str (bytes "tool_use"))]

def bodyOf (content : List Json) : Bytes :=
  (JsonDump.dump (.obj [(bytes "content", .arr content)])).toOption.getD []

theorem message_of {blocks : List Block} {content : List Json}
    (hp : parse noFloat (bodyOf content) = .ok (.obj [(bytes "content", .arr content)]))
    (h : List.Forall₂ Shows blocks content) : Message noFloat blocks (bodyOf content) :=
  ⟨_, content, hp, rfl, rfl, h⟩

/-- Two text blocks: the parser puts a newline between them. -/
theorem joined_texts : ∃ blocks chunks body, Streamed noFloat blocks chunks.flatten ∧
    Message noFloat blocks body ∧
    ¬ ((decode (anthropic noFloat) chunks).text =
        (parseAnthropicResponse noFloat (fun _ => 0) (fun _ => []) body).text ∧
      (decode (anthropic noFloat) chunks).toolCalls =
        (parseAnthropicResponse noFloat (fun _ => 0) (fun _ => []) body).toolCalls) := by
  refine ⟨[.text [bytes "a"], .text [bytes "b"]],
    [streamOf [textEvents (bytes "a"), textEvents (bytes "b")]],
    bodyOf [textBlock (bytes "a"), textBlock (bytes "b")], ?_, ?_, by decide +kernel⟩
  · exact streamed_of
      (.cons (emits_text (by decide +kernel)) (.cons (emits_text (by decide +kernel)) .nil))
  · exact message_of (by decide +kernel) (.cons ⟨rfl, rfl⟩ (.cons ⟨rfl, rfl⟩ .nil))

def mixedBlocks : List Block :=
  [.text [bytes "a"], .toolUse (bytes "t1") (bytes "now") [] [bytes "\x7b\x7d"]]

/-- One text block and a call without arguments, which are streamed as an empty object. -/
theorem text_and_call : ∃ blocks chunks body, Streamed noFloat blocks chunks.flatten ∧
    Message noFloat blocks body ∧
    (decode (anthropic noFloat) chunks).text =
        (parseAnthropicResponse noFloat (fun _ => 0) (fun _ => []) body).text ∧
      (decode (anthropic noFloat) chunks).toolCalls =
        (parseAnthropicResponse noFloat (fun _ => 0) (fun _ => []) body).toolCalls := by
  have hstream :
      Streamed noFloat mixedBlocks [streamOf [textEvents (bytes "a"), toolEvents]].flatten :=
    streamed_of (.cons (emits_text (by decide +kernel)) (.cons emits_tool .nil))
  have hbody : Message noFloat mixedBlocks (bodyOf [textBlock (bytes "a"), toolBlock]) :=
    message_of (by decide +kernel) (.cons ⟨rfl, rfl⟩ (.cons ⟨rfl, rfl, rfl, rfl⟩ .nil))
  exact ⟨_, _, _, hstream, hbody, (agrees_iff hstream hbody _).mpr (by decide)⟩

end Counterexample

end AnthropicAgreement
