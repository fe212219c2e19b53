import TizenClaw.AnthropicAgreement

/-! The requests behind a streamed reply: an attempt that failed is repeated, and the next one goes
on with the decoder it left. -/
namespace StreamRetry

open ByteString JsonValue JsonDump JsonParse LineBuffer LlmTypes StreamDecoders TryBlock
open AnthropicAgreement

section Post

variable (readFloat : Bytes → Option NumberText)

/-- One attempt of a request: what is delivered to the callback, and how it ends. -/
structure Attempt where
  created : Bool := true
  chunks : List Bytes := []
  curlError : Option Bytes := none
  status : ℤ := 200

structure HttpResponse where
  statusCode : ℤ := 0
  body : Bytes := []
  error : Bytes := []
  success : Bool := false

/-- The loop with the attempts that are left. -/
def post {σ : Type} (cb : σ → Bytes → σ) (attempts : ℕ → Attempt) :
    ℕ → ℕ → HttpResponse → σ → HttpResponse × σ
  | 0, _, r, s => ({ r with success := false }, s)
  | left + 1, i, r, s =>
    let a := attempts i
    if a.created then
      let s := a.chunks.foldl cb s
      let r := { r with
        statusCode := a.status, body := (a.chunks.map cString).flatten, error := [] }
      match a.curlError with
      | some e => post cb attempts left (i + 1) { r with error := e } s
      | none =>
        if a.status = 429 ∨ 500 ≤ a.status then
          post cb attempts left (i + 1)
            { r with error := bytes "HTTP " ++ decimalInt a.status ++ bytes " (Retry limit)" } s
        else if 200 ≤ a.status ∧ a.status < 300 then ({ r with success := true }, s)
        else ({ r with error := bytes "HTTP " ++ decimalInt a.status }, s)
    else post cb attempts left (i + 1)
      { r with body := [], error := bytes "tizenclaw_curl_create() failed" } s

/-- The message of a failed request, with what its body says or the start of it. -/
def errorText (r : HttpResponse) : Bytes :=
  if r.body = [] then r.error
  else match parse readFloat r.body with
    | .error _ => r.error ++ bytes ": " ++ r.body.take 200
    | .ok j => match j.member? (bytes "error") with
      | none => r.error
      | some e => match e.valueString (bytes "message") [] with
        | .ok message => r.error ++ bytes ": " ++ message
        | .error _ => r.error ++ bytes ": " ++ r.body.take 200

def maxRetries : ℕ := 3

/-- A streaming `Chat`: its response, and what `on_chunk` was given. -/
def chat {τ : Type} (d : Decoder τ) (attempts : ℕ → Attempt) : LlmResponse × Bytes :=
  let (http, s) := post (streamCb d) attempts maxRetries 0 {} (start d)
  if http.success then
    ({ success := true, text := (result d s).text, toolCalls := (result d s).toolCalls },
      s.state.streamed)
  else ({ errorMessage := errorText readFloat http }, s.state.streamed)

end Post

section Isolation

variable (readFloat : Bytes → Option NumberText)

/-- An attempt after which the loop goes on. -/
def Retried (a : Attempt) : Prop :=
  a.created = false ∨ a.curlError ≠ none ∨ a.status = 429 ∨ 500 ≤ a.status

def Succeeds (a : Attempt) : Prop :=
  a.created = true ∧ a.curlError = none ∧ 200 ≤ a.status ∧ a.status < 300

def delivered (a : Attempt) : List Bytes := if a.created then a.chunks else []

/-- The attempts in order; what would come after the last is not asked for. -/
def attemptsOf (l : List Attempt) (i : ℕ) : Attempt := l.getD i {}

/-- Whatever the successful attempt delivers, the reply is what it alone would give, and the pieces
handed on are its text. -/
def Isolated {τ : Type} (d : Decoder τ) (failed : List Attempt) : Prop :=
  ∀ a, Succeeds a →
    chat readFloat d (attemptsOf (failed ++ [a])) = chat readFloat d (attemptsOf [a]) ∧
    (chat readFloat d (attemptsOf (failed ++ [a]))).2 =
      (chat readFloat d (attemptsOf (failed ++ [a]))).1.text

/-- The decoder after the failed attempts. -/
def after {τ : Type} (d : Decoder τ) (failed : List Attempt) : Buffered UInt8 (Stream τ) :=
  (failed.flatMap delivered).foldl (streamCb d) (start d)

/-- No unfinished line, no text, and tools that are as good as at the start. -/
structure Untouched {τ : Type} (nothing last : τ → Prop)
    (s : Buffered UInt8 (Stream τ)) : Prop where
  buffer : s.buffer = []
  text : s.state.text = []
  tools : nothing s.state.tools
  last : last s.state.tools

end Isolation

section Conditions

variable {τ : Type}

/-- The bytes that the failed attempts handed to the callback. -/
def handed (failed : List Attempt) : Bytes := ((failed.flatMap delivered).map cString).flatten

/-- No line gives text or tools where the lines before it gave none. -/
def Silent (d : Decoder τ) (context : List Bytes → τ) (nothing : τ → Prop)
    (lines : List Bytes) : Prop :=
  ∀ pre line post, lines = pre ++ line :: post →
    (d.line { tools := context pre } line).text = [] ∧
      nothing (d.line { tools := context pre } line).tools

/-- Complete lines that say nothing. -/
def Clean (d : Decoder τ) (context : List Bytes → τ) (nothing last : τ → Prop)
    (failed : List Attempt) : Prop :=
  ∃ lines : List Bytes, handed failed = lines.flatMap (· ++ [newline]) ∧
    (∀ line ∈ lines, newline ∉ line) ∧ Silent d context nothing lines ∧ last (context lines)

/-- The name of the event that a line leaves. -/
def eventAfter (event line : Bytes) : Bytes :=
  let line := stripCr line
  if eventPrefix.isPrefixOf line then line.drop 7
  else if dataPrefix.isPrefixOf line then event
  else if line = [] then []
  else event

def openAiContext (_ : List Bytes) : Accums := .empty
def anthropicContext (lines : List Bytes) : Blocks := { event := lines.foldl eventAfter [] }
def geminiContext (_ : List Bytes) : Calls := {}

def noAccums (accums : Accums) : Prop := accums.entries = []
def noBlocks (b : Blocks) : Prop := b.accums = []
def noCalls (c : Calls) : Prop := c.calls = [] ∧ c.toolIdx = 0

/-- The event that is left announces no content. -/
def lastInert (b : Blocks) : Prop := Inert b.event

variable (readFloat : Bytes → Option NumberText) (truncate : NumberText → ℤ) (clock : ℕ → ℕ)

def OpenAiClean : List Attempt → Prop :=
  Clean (openAi readFloat truncate) openAiContext noAccums fun _ => True

def AnthropicClean : List Attempt → Prop :=
  Clean (anthropic readFloat) anthropicContext noBlocks lastInert

def GeminiClean : List Attempt → Prop :=
  Clean (gemini readFloat clock) geminiContext noCalls fun _ => True

end Conditions

section Requests

variable {readFloat : Bytes → Option NumberText} {τ : Type} {d : Decoder τ}

theorem post_success {σ : Type} (cb : σ → Bytes → σ) {failed : List Attempt} {a : Attempt}
    (hf : ∀ b ∈ failed, Retried b) (ha : Succeeds a) (attempts : ℕ → Attempt) (i left : ℕ)
    (hattempts : ∀ k b, (failed ++ [a])[k]? = some b → attempts (i + k) = b)
    (hleft : failed.length < left) (r : HttpResponse) (s : σ) :
    (post cb attempts left i r s).1.success = true ∧
      (post cb attempts left i r s).2 = (failed.flatMap delivered ++ a.chunks).foldl cb s := by
  induction failed generalizing i left r s with
  | nil =>
    obtain ⟨left, rfl⟩ : ∃ n, left = n + 1 := ⟨left - 1, by simp at hleft; omega⟩
    obtain ⟨hcreated, herror, hlow, hhigh⟩ := ha
    have hi : attempts i = a := hattempts 0 a rfl
    rw [post]
    simp only [hi, hcreated, herror, if_true]
    rw [if_neg (by omega), if_pos ⟨hlow, hhigh⟩]
    exact ⟨rfl, rfl⟩
  | cons b failed ih =>
    obtain ⟨left, rfl⟩ : ∃ n, left = n + 1 := ⟨left - 1, by simp at hleft; omega⟩
    rw [List.forall_mem_cons] at hf
    have hi : attempts i = b := hattempts 0 b rfl
    have hnext (r : HttpResponse) (s : σ) := ih hf.2 (i + 1) left
      (fun k b hb => by rw [show i + 1 + k = i + (k + 1) by omega]; exact hattempts (k + 1) b hb)
      (by simpa using hleft) r s
    have hsplit : ((b :: failed).flatMap delivered ++ a.chunks).foldl cb s =
        (failed.flatMap delivered ++ a.chunks).foldl cb ((delivered b).foldl cb s) := by
      rw [List.flatMap_cons, List.append_assoc, List.foldl_append]
    rw [hsplit, post]
    simp only [hi]
    by_cases hc : b.created = true
    · have hd : delivered b = b.chunks := if_pos hc
      rw [if_pos hc, hd]
      cases he : b.curlError with
      | some e => exact hnext _ _
      | none =>
        have hstatus : b.status = 429 ∨ 500 ≤ b.status := by
          rcases hf.1 with h | h | h
          · rw [hc] at h
            cases h
          · exact absurd he h
          · exact h
        dsimp only
        rw [if_pos hstatus]
        exact hnext _ _
    · have hd : delivered b = [] := if_neg hc
      rw [if_neg hc, hd]
      exact hnext _ _

/-- The reply after failed attempts is read off the decoder that all of them fed. -/
theorem chat_success {failed : List Attempt} {a : Attempt} (hf : ∀ b ∈ failed, Retried b)
    (hn : failed.length < maxRetries) (ha : Succeeds a) :
    chat readFloat d (attemptsOf (failed ++ [a])) =
      let x := result d (a.chunks.foldl (streamCb d) (after d failed))
      ({ success := true, text := x.text, toolCalls := x.toolCalls }, x.streamed) := by
  obtain ⟨hs, ht⟩ := post_success (streamCb d) hf ha (attemptsOf (failed ++ [a])) 0 maxRetries
    (fun k b hb => by simp [attemptsOf, hb]) hn {} (start d)
  unfold chat
  dsimp only
  rw [hs, if_pos rfl, ht, List.foldl_append]
  rfl

end Requests

section Balance

variable {τ : Type}

theorem keeps_onString {I : Stream τ → Prop} {key : Bytes} {j : Json}
    {f : Bytes → StreamAction τ Unit}
    (hf : ∀ s, Keeps I (f s)) : Keeps I (onString key j f) := by
  unfold onString
  split
  · exact keeps_bind (keeps_lift _) hf
  · exact keeps_pure ()

section OpenAi

variable {readFloat : Bytes → Option NumberText} {truncate : NumberText → ℤ}
    {I : Stream Accums → Prop}
variable (hemit : ∀ text, Keeps I (emit text)) (hupdate : ∀ idx f, Keeps I (updateAccum idx f))

include hupdate in
theorem keeps_openAiTool (tc : Json) : Keeps I (openAiTool truncate tc) := by
  unfold openAiTool
  refine keeps_bind (keeps_lift _) fun idx => ?_
  refine keeps_bind (keeps_onString fun id => hupdate idx _) fun _ => ?_
  split
  · refine keeps_bind (keeps_onString fun name => hupdate idx _) fun _ => ?_
    exact keeps_onString fun fragment => hupdate idx _
  · exact keeps_pure ()

include hemit hupdate

theorem keeps_openAiEvent (j : Json) : Keeps I (openAiEvent truncate j) := by
  have hcontent (delta : Json) : Keeps I (openAiContent delta) := by
    unfold openAiContent
    split
    · exact keeps_ite (keeps_pure ()) (keeps_bind (keeps_lift _) hemit)
    · exact keeps_pure ()
  unfold openAiEvent
  split
  · refine keeps_ite (keeps_pure ()) (keeps_bind (keeps_lift _) fun choice => ?_)
    refine keeps_bind (keeps_lift _) fun delta => keeps_bind (hcontent delta) fun _ => ?_
    split
    · exact keeps_forM fun tc _ => keeps_openAiTool hupdate tc
    · exact keeps_pure ()
  · exact keeps_pure ()

theorem line_openAi_keeps {s : Stream Accums} (hs : I s) (line : Bytes) :
    I (openAiLine readFloat truncate s line) := by
  unfold openAiLine
  dsimp only
  split_ifs
  · exact hs
  · split
    · exact keeps_openAiEvent hemit hupdate _ s hs
    · exact hs
  · exact hs

end OpenAi

section Gemini

variable {readFloat : Bytes → Option NumberText} {clock : ℕ → ℕ} {I : Stream Calls → Prop}
variable (hemit : ∀ text, Keeps I (emit text))
variable (hnext : Keeps I (setCalls fun c => { c with toolIdx := c.toolIdx + 1 }))
variable (hcall : ∀ call, Keeps I (setCalls fun c => { c with calls := c.calls ++ [call] }))
include hemit hnext hcall

theorem keeps_geminiPart (part : Json) : Keeps I (geminiPart clock part) := by
  unfold geminiPart
  split
  · exact keeps_bind (keeps_lift _) hemit
  · refine keeps_bind keeps_get fun s => keeps_bind hnext fun _ => ?_
    refine keeps_bind (keeps_lift _) fun name => keeps_bind (keeps_lift _) fun _ => ?_
    exact keeps_bind (keeps_lift _) fun args => hcall _
  · exact keeps_pure ()

theorem keeps_geminiEvent (j : Json) : Keeps I (geminiEvent clock j) := by
  unfold geminiEvent
  split
  · refine keeps_ite (keeps_pure ()) (keeps_bind (keeps_lift _) fun _ => ?_)
    refine keeps_bind (keeps_lift _) fun _ => keeps_bind (keeps_lift _) fun parts => ?_
    exact keeps_forM fun i _ => keeps_bind (keeps_lift _) fun part =>
      keeps_geminiPart hemit hnext hcall part
  · exact keeps_pure ()

theorem line_gemini_keeps {s : Stream Calls} (hs : I s) (line : Bytes) :
    I (geminiLine readFloat clock s line) := by
  unfold geminiLine
  dsimp only
  split_ifs
  · split
    · exact keeps_geminiEvent hemit hnext hcall _ s hs
    · exact hs
  · exact hs

end Gemini

section Anthropic

variable {readFloat : Bytes → Option NumberText} {I : Stream Blocks → Prop}
variable (htool : ∀ id name, Keeps I (setBlocks fun b =>
  { b with accums := b.accums ++ [{ id := id, name := name }], current := some b.accums.length }))
variable (hnone : Keeps I (setBlocks fun b => { b with current := none }))
variable (hemit : ∀ text, Keeps I (emit text))
variable (hfragment : ∀ i fragment, Keeps I (setBlocks fun b =>
  { b with accums := b.accums.modify i fun t => { t with inputJson := t.inputJson ++ fragment } }))

include htool hnone in
theorem keeps_anthropicStart (j : Json) : Keeps I (anthropicStart j) := by
  unfold anthropicStart
  refine keeps_bind (keeps_lift _) fun block => keeps_bind (keeps_lift _) fun type => ?_
  refine keeps_ite ?_ hnone
  exact keeps_bind (keeps_lift _) fun id => keeps_bind (keeps_lift _) fun name => htool id name

include hemit hfragment in
theorem keeps_anthropicDelta (j : Json) : Keeps I (anthropicDelta j) := by
  unfold anthropicDelta
  refine keeps_bind (keeps_lift _) fun delta => keeps_bind (keeps_lift _) fun type => ?_
  refine keeps_ite ?_ (keeps_ite ?_ (keeps_pure ()))
  · exact keeps_bind (keeps_lift _) fun _ => keeps_bind (keeps_lift _) hemit
  · refine keeps_bind keeps_get fun s => ?_
    split
    · exact keeps_bind (keeps_lift _) fun _ => keeps_bind (keeps_lift _) fun _ => hfragment _ _
    · exact keeps_pure ()

include htool hnone hemit hfragment

theorem keeps_anthropicEvent (event : Bytes) (j : Json) : Keeps I (anthropicEvent event j) := by
  unfold anthropicEvent
  refine keeps_ite (keeps_anthropicStart htool hnone j) ?_
  exact keeps_ite (keeps_anthropicDelta hemit hfragment j) (keeps_pure ())

theorem line_anthropic_keeps (hevent : ∀ name s, I s → I (setEvent name s)) {s : Stream Blocks}
    (hs : I s) (line : Bytes) : I (anthropicLine readFloat s line) := by
  unfold anthropicLine
  dsimp only
  split_ifs
  · exact hevent _ s hs
  · split
    · exact keeps_anthropicEvent htool hnone hemit hfragment _ _ s hs
    · exact hs
  · exact hevent _ s hs
  · exact hs

end Anthropic

section Sound

/-- What was handed on is the text, and the tools are in order. -/
def Sound (P : τ → Prop) (s : Stream τ) : Prop := s.streamed = s.text ∧ P s.tools

/-- Fragments go to a tool that there is. -/
def Placed (b : Blocks) : Prop := ∀ i ∈ b.current, i < b.accums.length

theorem keeps_emit {P : τ → Prop} (text : Bytes) :
    Keeps (Sound P) (emit text : StreamAction τ Unit) :=
  keeps_modify fun s h => ⟨by rw [h.1], h.2⟩

theorem sound_openAiLine {readFloat : Bytes → Option NumberText} {truncate : NumberText → ℤ}
    {s : Stream Accums} (hs : Sound (fun _ => True) s) (line : Bytes) :
    Sound (fun _ => True) (openAiLine readFloat truncate s line) :=
  line_openAi_keeps keeps_emit (fun _ _ => keeps_modify fun _ h => ⟨h.1, trivial⟩) hs line

theorem sound_geminiLine {readFloat : Bytes → Option NumberText} {clock : ℕ → ℕ}
    {s : Stream Calls} (hs : Sound (fun _ => True) s) (line : Bytes) :
    Sound (fun _ => True) (geminiLine readFloat clock s line) :=
  line_gemini_keeps keeps_emit (keeps_modify fun _ h => ⟨h.1, trivial⟩)
    (fun _ => keeps_modify fun _ h => ⟨h.1, trivial⟩) hs line

theorem sound_anthropicLine {readFloat : Bytes → Option NumberText} {s : Stream Blocks}
    (hs : Sound Placed s) (line : Bytes) : Sound Placed (anthropicLine readFloat s line) := by
  apply line_anthropic_keeps _ _ keeps_emit _ _ hs
  · intro id name
    refine keeps_modify fun s h => ⟨h.1, fun i hi => ?_⟩
    obtain rfl := Option.some.inj hi
    simp
  · exact keeps_modify fun s h => ⟨h.1, nofun⟩
  · intro k fragment
    refine keeps_modify fun s h => ⟨h.1, fun i hi => ?_⟩
    have := h.2 i hi
    simpa using this
  · exact fun name s h => ⟨h.1, h.2⟩

/-- A sound stream without a text has handed out none. -/
theorem sound_silent {P : τ → Prop} {s : Stream τ} {t : τ} (hs : Sound P s) (htext : s.text = [])
    (htools : s.tools = t) : s = { tools := t } := by
  obtain ⟨text, streamed, tools⟩ := s
  obtain rfl : text = [] := htext
  obtain rfl : streamed = [] := hs.1
  obtain rfl : tools = t := htools
  rfl

theorem start_of_silent {P : τ → Prop} {d : Decoder τ} {s : Buffered UInt8 (Stream τ)}
    (hs : Sound P s.state) (hbuffer : s.buffer = []) (htext : s.state.text = [])
    (htools : s.state.tools = d.init) : s = start d := by
  obtain ⟨buffer, state⟩ := s
  obtain rfl : buffer = [] := hbuffer
  rw [start, ← sound_silent hs htext htools]

theorem no_accums {accums : Accums} (h : noAccums accums) : accums = .empty := by
  obtain ⟨entries, sorted⟩ := accums
  obtain rfl : entries = [] := h
  rfl

theorem no_calls {c : Calls} (h : noCalls c) : c = {} := by
  obtain ⟨calls, toolIdx⟩ := c
  obtain ⟨rfl, rfl⟩ : calls = [] ∧ toolIdx = 0 := h
  rfl

theorem no_current {b : Blocks} (h : Placed b) (hb : noBlocks b) : b.current = none := by
  cases hc : b.current with
  | none => rfl
  | some i =>
    have hi := h i hc
    rw [show b.accums = [] from hb] at hi
    exact absurd hi (Nat.not_lt_zero i)

theorem no_blocks {b : Blocks} (h : Placed b) (hb : noBlocks b) : b = { event := b.event } := by
  have hcurrent : b.current = none := no_current h hb
  obtain ⟨event, accums, current⟩ := b
  obtain rfl : accums = [] := hb
  obtain rfl : current = none := hcurrent
  rfl

end Sound

section Chunks

variable {d : Decoder τ} {P : τ → Prop}

theorem sound_push (hd : ∀ s line, Sound P s → Sound P (d.line s line)) (l : Bytes)
    {s : Buffered UInt8 (Stream τ)} (hs : Sound P s.state) :
    Sound P (l.foldl (push newline d.line) s).state := by
  induction l generalizing s with
  | nil => exact hs
  | cons b l ih =>
    rw [List.foldl_cons]
    apply ih
    unfold push
    split_ifs
    · exact hd _ _ hs
    · exact hs

end Chunks

end Balance

section Results

variable {readFloat : Bytes → Option NumberText} {τ : Type} {d : Decoder τ}

theorem newline_not_mem_after (failed : List Attempt) : newline ∉ (after d failed).buffer := by
  unfold after
  rw [foldl_streamCb_push _ List.not_mem_nil]
  exact foldl_push_buffer _ List.not_mem_nil

theorem sound_after {P : τ → Prop} (hd : ∀ s line, Sound P s → Sound P (d.line s line))
    (hi : P d.init) (failed : List Attempt) : Sound P (after d failed).state := by
  unfold after
  rw [foldl_streamCb_push _ List.not_mem_nil]
  exact sound_push hd _ ⟨rfl, hi⟩

/-- The reply is isolated exactly if every stream is decoded as from the start. -/
theorem isolated_iff_result {P : τ → Prop} (hd : ∀ s line, Sound P s → Sound P (d.line s line))
    (hi : P d.init) {failed : List Attempt} (hf : ∀ b ∈ failed, Retried b)
    (hn : failed.length < maxRetries) :
    Isolated readFloat d failed ↔ ∀ chunks : List Bytes,
      result d (chunks.foldl (streamCb d) (after d failed)) =
        result d (chunks.foldl (streamCb d) (start d)) := by
  have halone (a : Attempt) (ha : Succeeds a) : chat readFloat d (attemptsOf [a]) =
      let x := result d (a.chunks.foldl (streamCb d) (start d))
      ({ success := true, text := x.text, toolCalls := x.toolCalls }, x.streamed) :=
    chat_success (show ∀ b ∈ [], Retried b from nofun) (by decide) ha
  constructor
  · intro h chunks
    have ha : Succeeds { chunks := chunks } :=
      ⟨rfl, rfl, show (200 : ℤ) ≤ 200 by decide, show (200 : ℤ) < 300 by decide⟩
    have heq := (h _ ha).1
    rw [chat_success hf hn ha, halone _ ha] at heq
    obtain ⟨hr, hs⟩ := Prod.mk.inj heq
    obtain ⟨-, ht, -, hc, -⟩ := LlmResponse.mk.inj hr
    exact Decoded.mk.injEq .. ▸ ⟨ht, hc, hs⟩
  · intro h a ha
    rw [chat_success hf hn ha, halone a ha, h a.chunks]
    refine ⟨rfl, ?_⟩
    have hstart : newline ∉ (start d).buffer := List.not_mem_nil
    change (a.chunks.foldl (streamCb d) (start d)).state.streamed =
      (a.chunks.foldl (streamCb d) (start d)).state.text
    rw [foldl_streamCb_push _ hstart]
    exact (sound_push hd _ ⟨rfl, hi⟩).1

end Results

section Silence

variable {τ : Type} {d : Decoder τ} {context : List Bytes → τ} {nothing last : τ → Prop}

theorem Silent.init {lines : List Bytes} {line : Bytes}
    (h : Silent d context nothing (lines ++ [line])) : Silent d context nothing lines := by
  rintro pre l post rfl
  exact h pre l (post ++ [line]) (by simp)

variable (hline : ∀ lines line, (d.line { tools := context lines } line).text = [] →
  nothing (d.line { tools := context lines } line).tools →
    d.line { tools := context lines } line = { tools := context (lines ++ [line]) })
include hline

theorem foldl_silent {lines : List Bytes} (h : Silent d context nothing lines) :
    lines.foldl d.line { tools := context [] } = { tools := context lines } := by
  induction lines using List.reverseRecOn with
  | nil => rfl
  | append_singleton lines line ih =>
    obtain ⟨htext, htools⟩ := h lines line [] rfl
    rw [List.foldl_concat, ih h.init]
    exact hline lines line htext htools

variable (hkeep : ∀ s line, ¬ (s.text = [] ∧ nothing s.tools) →
  ¬ ((d.line s line).text = [] ∧ nothing (d.line s line).tools))
include hkeep

/-- What a line has given does not go away again. -/
theorem silent_of_nothing {lines : List Bytes}
    (h : (lines.foldl d.line { tools := context [] }).text = [] ∧
      nothing (lines.foldl d.line { tools := context [] }).tools) :
    Silent d context nothing lines := by
  induction lines using List.reverseRecOn with
  | nil =>
    intro pre line post he
    exact absurd he.symm (List.append_ne_nil_of_right_ne_nil _ (List.cons_ne_nil _ _))
  | append_singleton lines line ih =>
    rw [List.foldl_concat] at h
    have hsilent := ih (by
      by_contra hno
      exact hkeep _ line hno h)
    rw [foldl_silent hline hsilent] at h
    intro pre l post he
    rcases List.eq_nil_or_concat post with rfl | ⟨post, x, rfl⟩
    · obtain ⟨rfl, hl⟩ := List.append_inj' he rfl
      obtain rfl := (List.cons.inj hl).1
      exact h
    · rw [List.concat_eq_append, ← List.cons_append, ← List.append_assoc] at he
      exact hsilent pre l post (List.append_inj' he rfl).1

theorem untouched_iff_clean (hinit : d.init = context [])
    (hnothing : ∀ lines, nothing (context lines))
    (failed : List Attempt) :
    Untouched nothing last (after d failed) ↔ Clean d context nothing last failed := by
  have hafter : after d failed =
    (handed failed).foldl (push newline d.line) ⟨[], { tools := context [] }⟩ := by
    unfold after start
    rw [foldl_streamCb_push _ List.not_mem_nil, hinit]
    rfl
  constructor
  · rintro ⟨hbuffer, htext, htools, hlast⟩
    obtain ⟨lines, rest, hsplit, hopen, hrest⟩ := exists_lines newline (handed failed)
    rw [hafter, hsplit, List.foldl_append, foldl_push_lines hopen,
      foldl_push_open hrest] at hbuffer htext htools hlast
    obtain rfl : rest = [] := hbuffer
    have hsilent := silent_of_nothing hline hkeep ⟨htext, htools⟩
    rw [List.append_nil] at hsplit
    refine ⟨lines, hsplit, hopen, hsilent, ?_⟩
    rwa [foldl_silent hline hsilent] at hlast
  · rintro ⟨lines, hsplit, hopen, hsilent, hlast⟩
    rw [hafter, hsplit, foldl_push_lines hopen, foldl_silent hline hsilent]
    exact ⟨rfl, rfl, hnothing lines, hlast⟩

end Silence

end StreamRetry
