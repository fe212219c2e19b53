import TizenClaw.IpcHandler
import TizenClaw.JsonParseUtf8

/-! When every request gets its one response. The fields of the request have to be of their types,
the services must not throw an exception of the JSON library, and what they say has to be UTF-8. -/
namespace IpcTotality

open ByteString JsonValue JsonDump JsonParse JsonParseUtf8 IpcRequest TryBlock IpcHandler

section Contract

variable {σ : Type} (st : Services σ)

/-- An exception that can be reported as an internal error. -/
def Reportable : Thrown → Prop
  | .json _ => False
  | .std what => Utf8.valid what = true

/-- How a run of `ProcessPrompt` ends, given what becomes of its chunks. -/
def promptOutcome (stream : Bool) : PromptRun σ → Except Thrown Bytes × σ
  | .ends r s => (r, s)
  | .chunk text next => promptOutcome stream (next ((onChunk stream text).map fun _ => ()))

def promptResult (sessionId text : Bytes) (stream : Bool) : Action Thrown σ Bytes := fun s =>
  promptOutcome stream (st.processPrompt sessionId text s)

/-- A service whose value is not part of the response. -/
def Performs {α : Type} (x : Action Thrown σ α) (s : σ) : Prop :=
  Ends Reportable x (fun _ _ => True) s

/-- A service whose text is. -/
def Writes (x : Action Thrown σ Bytes) (s : σ) : Prop :=
  Ends Reportable x (fun text _ => Utf8.valid text = true) s

def Shows (x : Action Thrown σ Json) (s : σ) : Prop :=
  Ends Reportable x (fun j _ => j.utf8 = true) s

/-- A change of the tools: its error is reported, and without one the skills are read again. -/
def Changes (x : Action Thrown σ Bytes) (s : σ) : Prop :=
  Ends Reportable x
    (fun err t => if err = [] then Performs st.reloadSkills t else Utf8.valid err = true) s

/-- What the services have to do for an order. -/
def Contract (s : σ) : Order → Prop
  | .sessionUsage sessionId => Performs (st.loadTokenUsage sessionId) s
  | .monthlyUsage month => Performs (st.loadMonthlyUsage month) s
  | .dailyUsage date => Performs (st.loadDailyUsage date) s
  | .prompt sessionId text stream a2ui =>
    Ends Reportable (st.setSessionMode sessionId (if a2ui then bytes "a2ui" else bytes "default"))
      (fun _ t => text ≠ [] → Writes (promptResult st sessionId text stream) t) s
  | .sendTo channel text => ¬ (channel = [] ∨ text = []) →
    if channel = bytes "all" then Performs (st.broadcast text) s
    else Performs (st.sendTo channel text) s
  | .listAgents params =>
    Writes (st.executeSupervisorOp (bytes "list_agents") params (bytes "ipc")) s
  | .perceptionStatus => ∀ status ∈ st.perceptionStatus, Shows status s
  | .registerSystemCli name cfg toolDoc helpOutput =>
    if helpOutput = [] then Changes st (st.registerTool name cfg toolDoc) s
    else Ends Reportable (st.generateToolDoc name cfg.binaryPath helpOutput)
      (fun doc => Changes st (st.registerTool name cfg (if doc = [] then toolDoc else doc))) s
  | .unregisterSystemCli name => Changes st (st.unregisterTool name) s
  | .listMcpTools => Shows st.getMcpToolsJson s
  | .connectMcpServers configPath => Performs (st.connectMcpServers configPath) s
  | .listSystemCli => Shows st.getRegisteredToolsJson s
  | .unknown => True

end Contract

section Perform

variable {σ : Type} {st : Services σ} {readFloat : Bytes → Option NumberText} {c : Client σ}

def ReplyUtf8 : Reply → Prop
  | .result j => j.utf8 = true
  | .error _ message => Utf8.valid message = true

/-- Behind the texts of the handler itself, a response is UTF-8 when its reply is. -/
theorem json_utf8 {id : Json} (hid : id.utf8 = true) (reply : Reply) :
    (reply.json id).utf8 = true ↔ ReplyUtf8 reply := by
  have hkeys : Utf8.valid (bytes "jsonrpc") = true ∧ Utf8.valid (bytes "2.0") = true ∧
      Utf8.valid (bytes "id") = true ∧ Utf8.valid (bytes "result") = true ∧
      Utf8.valid (bytes "error") = true ∧ Utf8.valid (bytes "code") = true ∧
      Utf8.valid (bytes "message") = true := by decide
  obtain ⟨h₁, h₂, h₃, h₄, h₅, h₆, h₇⟩ := hkeys
  cases reply with
  | result j =>
    rw [Reply.json, utf8_object [bytes "jsonrpc", bytes "id", bytes "result"] rfl (by decide)]
    simp [utf8Members, Json.utf8, ReplyUtf8, hid, h₁, h₂, h₃, h₄]
  | error code message =>
    rw [Reply.json, utf8_object [bytes "jsonrpc", bytes "error", bytes "id"] rfl (by decide)]
    simp only [utf8Members, Json.utf8]
    rw [utf8_object [bytes "code", bytes "message"] rfl (by decide)]
    simp [utf8Members, Json.utf8, ReplyUtf8, hid, h₁, h₂, h₃, h₅, h₆, h₇]

theorem textResult_utf8 (text : Bytes) : ReplyUtf8 (textResult text) ↔ Utf8.valid text = true := by
  rw [textResult, ReplyUtf8, utf8_object [bytes "text"] rfl (by decide)]
  simp [utf8Members, Json.utf8, show Utf8.valid (bytes "text") = true by decide]

theorem ends_onDaemon {α : Type} (x : Action Thrown σ α) (good : α → Client σ → Prop) :
    Ends Reportable (onDaemon x) good c ↔
      Ends Reportable x (fun a t => good a { c with daemon := t }) c.daemon := by
  rcases h : x.run c.daemon with ⟨r, t⟩
  have hr : (onDaemon x).run c = (r, { c with daemon := t }) := by
    change ((x.run c.daemon).1, { c with daemon := (x.run c.daemon).2 }) = _
    rw [h]
  cases r with
  | ok a => rw [ends_ok hr, ends_ok h]
  | error e => rw [ends_error hr, ends_error h]

/-- The chunks only add frames. -/
theorem play_outcome (stream : Bool) (p : PromptRun σ) (c : Client σ) :
    ∃ chunks : List Bytes, p.play stream c = ((promptOutcome stream p).1,
      { c with daemon := (promptOutcome stream p).2
               frames := c.frames ++ chunks.map .chunk }) := by
  induction p generalizing c with
  | ends r s =>
    refine ⟨[], ?_⟩
    rw [List.map_nil, List.append_nil]
    rfl
  | chunk text next ih =>
    rw [promptOutcome]
    cases h : onChunk stream text with
    | error e =>
      obtain ⟨chunks, hc⟩ := ih (.error e) c
      refine ⟨chunks, ?_⟩
      rw [PromptRun.play, h]
      exact hc
    | ok cs =>
      obtain ⟨chunks, hc⟩ := ih (.ok ()) { c with frames := c.frames ++ [.chunk cs] }
      refine ⟨cs :: chunks, ?_⟩
      rw [PromptRun.play, h, List.map_cons, List.append_cons]
      exact hc

theorem run_prompt (st : Services σ) (call : PromptCall) (stream : Bool) (c : Client σ) :
    ∃ chunks : List Bytes, (runPrompt st call stream).run c =
      (((promptResult st call.session call.text stream).run c.daemon).1,
        ⟨((promptResult st call.session call.text stream).run c.daemon).2, c.prompts ++ [call],
          c.frames ++ chunks.map .chunk⟩) :=
  play_outcome stream (st.processPrompt call.session call.text c.daemon)
    { c with prompts := c.prompts ++ [call] }

theorem ends_runPrompt (call : PromptCall) (stream : Bool) (good : Bytes → Prop) :
    Ends Reportable (runPrompt st call stream) (fun text _ => good text) c ↔
      Ends Reportable (promptResult st call.session call.text stream) (fun text _ => good text)
        c.daemon := by
  obtain ⟨chunks, hr⟩ := run_prompt st call stream c
  rcases h : (promptResult st call.session call.text stream).run c.daemon with ⟨r, t⟩
  rw [h] at hr
  cases r with
  | ok a => rw [ends_ok hr, ends_ok h]
  | error e => rw [ends_error hr, ends_error h]

theorem ends_toolReply {name message err : Bytes} (hname : Utf8.valid name = true)
    (hmessage : Utf8.valid message = true) :
    Ends Reportable (toolReply st name err message) (fun reply _ => ReplyUtf8 reply) c ↔
      if err = [] then Performs st.reloadSkills c.daemon else Utf8.valid err = true := by
  rw [toolReply]
  split_ifs
  · rw [ends_bind, ends_onDaemon, Performs]
    apply ends_congr
    intro a t
    rw [ends_pure, ReplyUtf8,
      utf8_object [bytes "status", bytes "tool", bytes "message"] rfl (by decide)]
    simp [utf8Members, Json.utf8, hname, hmessage,
      show Utf8.valid (bytes "status") = true by decide,
      show Utf8.valid (bytes "ok") = true by decide,
      show Utf8.valid (bytes "tool") = true by decide,
      show Utf8.valid (bytes "message") = true by decide]
  · rw [ends_pure]
    rfl

/-- A reply made of what a service answers. -/
theorem ends_answer {α : Type} (x : Action Thrown σ α) (f : α → Reply) :
    Ends Reportable (do let a ← onDaemon x; pure (f a)) (fun reply _ => ReplyUtf8 reply) c ↔
      Ends Reportable x (fun a _ => ReplyUtf8 (f a)) c.daemon := by
  rw [ends_bind, ends_onDaemon]
  rfl

theorem ends_performs {α : Type} (x : Action Thrown σ α) {f : α → Reply}
    (h : ∀ a, ReplyUtf8 (f a)) :
    Ends Reportable (do let a ← onDaemon x; pure (f a)) (fun reply _ => ReplyUtf8 reply) c ↔
      Performs x c.daemon := by
  rw [ends_answer, Performs]
  apply ends_congr
  intro a t
  exact iff_true_intro (h a)

theorem usageReply_utf8 {usageType key value counter : Bytes}
    (hkeys : [bytes "usage_type", key, bytes "prompt_tokens", bytes "completion_tokens",
      counter].Nodup)
    (ht : Utf8.valid usageType = true ∧ Utf8.valid key = true ∧ Utf8.valid counter = true)
    (hvalue : Utf8.valid value = true) (u : Usage) :
    ReplyUtf8 (usageReply usageType key value counter u) := by
  obtain ⟨h₁, h₂, h₃⟩ := ht
  rw [usageReply, ReplyUtf8, utf8_object [bytes "usage_type", key, bytes "prompt_tokens",
    bytes "completion_tokens", counter] rfl hkeys]
  simp [utf8Members, Json.utf8, h₁, h₂, h₃, hvalue,
    show Utf8.valid (bytes "usage_type") = true by decide,
    show Utf8.valid (bytes "prompt_tokens") = true by decide,
    show Utf8.valid (bytes "completion_tokens") = true by decide]

theorem ends_performPrompt (sessionId text : Bytes) (stream a2ui : Bool) :
    Ends Reportable (performPrompt st sessionId text stream a2ui)
        (fun reply _ => ReplyUtf8 reply) c ↔
      Contract st c.daemon (.prompt sessionId text stream a2ui) := by
  rw [performPrompt, ends_bind, ends_onDaemon, Contract]
  apply ends_congr
  intro a t
  by_cases ht : text = []
  · rw [if_pos ht, ends_pure]
    exact iff_of_true (show Utf8.valid (bytes "Empty prompt") = true by decide) (absurd ht)
  · rw [if_neg ht, ends_bind]
    simp only [ends_pure, textResult_utf8]
    rw [ends_runPrompt, Writes]
    exact ⟨fun h _ => h, fun h => h ht⟩

theorem ends_performSendTo {channel : Bytes} (hc : Utf8.valid channel = true) (text : Bytes) :
    Ends Reportable (performSendTo st channel text) (fun reply _ => ReplyUtf8 reply) c ↔
      Contract st c.daemon (.sendTo channel text) := by
  have hreply : ∀ sent, ReplyUtf8 (.result (.object [(bytes "sent", .bool sent),
      (bytes "channel", .str channel)])) := by
    intro sent
    rw [ReplyUtf8, utf8_object [bytes "sent", bytes "channel"] rfl (by decide)]
    simp [utf8Members, Json.utf8, hc, show Utf8.valid (bytes "sent") = true by decide,
      show Utf8.valid (bytes "channel") = true by decide]
  rw [performSendTo, Contract]
  by_cases ht : channel = [] ∨ text = []
  · rw [if_pos ht, ends_pure]
    exact iff_of_true (show Utf8.valid (bytes "channel and text required") = true by decide)
      (absurd ht)
  · rw [if_neg ht, forall_prop_of_true ht]
    by_cases hall : channel = bytes "all"
    · rw [if_pos hall, if_pos hall]
      exact ends_performs _ fun _ => hreply true
    · rw [if_neg hall, if_neg hall]
      exact ends_performs _ hreply

theorem ends_changes {name message : Bytes} (x : Action Thrown σ Bytes)
    (hname : Utf8.valid name = true) (hmessage : Utf8.valid message = true) :
    Ends Reportable (do let err ← onDaemon x; toolReply st name err message)
        (fun reply _ => ReplyUtf8 reply) c ↔ Changes st x c.daemon := by
  rw [ends_bind, ends_onDaemon, Changes]
  apply ends_congr
  intro err t
  exact ends_toolReply hname hmessage

theorem ends_performRegister {name : Bytes} (hname : Utf8.valid name = true)
    (cfg : SystemCliToolConfig) (toolDoc helpOutput : Bytes) :
    Ends Reportable (performRegister st name cfg toolDoc helpOutput)
        (fun reply _ => ReplyUtf8 reply) c ↔
      Contract st c.daemon (.registerSystemCli name cfg toolDoc helpOutput) := by
  have hmessage : Utf8.valid (bytes "Tool registered successfully") = true := by decide
  rw [performRegister, Contract]
  by_cases hh : helpOutput = []
  · rw [if_pos hh, if_pos hh]
    exact ends_changes _ hname hmessage
  · rw [if_neg hh, if_neg hh, ends_bind, ends_onDaemon]
    apply ends_congr
    intro doc t
    exact ends_changes _ hname hmessage

/-- The reply to an order is UTF-8, and no exception of the JSON library is thrown, just when the
services do what they have to. -/
theorem ends_perform (order : Order) (h : ∀ t ∈ order.repeated, Utf8.valid t = true) :
    Ends Reportable (perform st readFloat order) (fun reply _ => ReplyUtf8 reply) c ↔
      Contract st c.daemon order := by
  cases order with
  | sessionUsage sessionId =>
    exact ends_performs _ (usageReply_utf8 (by decide) (by decide) (h _ List.mem_cons_self))
  | monthlyUsage month =>
    exact ends_performs _ (usageReply_utf8 (by decide) (by decide) (h _ List.mem_cons_self))
  | dailyUsage date =>
    exact ends_performs _ (usageReply_utf8 (by decide) (by decide) (h _ List.mem_cons_self))
  | prompt sessionId text stream a2ui => exact ends_performPrompt sessionId text stream a2ui
  | sendTo channel text => exact ends_performSendTo (h _ List.mem_cons_self) text
  | listAgents params =>
    rw [perform, ends_bind, ends_onDaemon, Contract, Writes]
    apply ends_congr
    intro text t
    cases hp : parse readFloat text with
    | ok j => exact iff_of_true (parse_utf8 hp).2 (parse_utf8 hp).1
    | error e => exact textResult_utf8 text
  | perceptionStatus =>
    rw [perform, Contract]
    cases st.perceptionStatus with
    | some status =>
      have hs : (∀ x ∈ some status, Shows x c.daemon) ↔ Shows status c.daemon := by simp
      exact (ends_answer status .result).trans hs.symm
    | none =>
      refine iff_of_true ?_ fun status hs => absurd hs (Option.not_mem_none status)
      exact show Json.utf8 (.object [(bytes "error",
        .str (bytes "PerceptionEngine not initialized"))]) = true by decide
  | registerSystemCli name cfg toolDoc helpOutput =>
    exact ends_performRegister (h _ List.mem_cons_self) cfg toolDoc helpOutput
  | unregisterSystemCli name => exact ends_changes _ (h _ List.mem_cons_self) (by decide)
  | listMcpTools => exact ends_answer _ .result
  | connectMcpServers configPath =>
    apply ends_performs
    intro ok
    cases ok with
    | true => exact show Json.utf8 (.object [(bytes "status", .str (bytes "ok")),
        (bytes "message", .str (bytes "MCP servers connected"))]) = true by decide
    | false => exact show Utf8.valid (bytes "Failed to load MCP config") = true by decide
  | listSystemCli => exact ends_answer _ .result
  | unknown =>
    rw [perform, ends_pure]
    exact iff_of_true (show Utf8.valid (bytes "Method not found") = true by decide) trivial

end Perform

section Quiet

variable {σ : Type} {st : Services σ} {readFloat : Bytes → Option NumberText}
  {truncate : NumberText → ℤ}

/-- Behind a request that was not answered yet: some prompts of its own, and chunks. -/
structure Quiet (n : ℕ) (c : Client σ) : Prop where
  calls : c.prompts.length ≤ n
  own : ∀ call ∈ c.prompts, call.isPayload = false
  chunks : ∃ chunks : List Bytes, c.frames = chunks.map .chunk

theorem Quiet.mono {m n : ℕ} (h : m ≤ n) {c : Client σ} (hc : Quiet m c) : Quiet n c :=
  ⟨hc.calls.trans h, hc.own, hc.chunks⟩

theorem keeps_onDaemon {α : Type} (n : ℕ) (x : Action Thrown σ α) :
    Keeps (Quiet n) (onDaemon x) := by
  intro c hc
  exact ⟨hc.calls, hc.own, hc.chunks⟩

theorem leads_runPrompt {call : PromptCall} (hcall : call.isPayload = false) (stream : Bool) :
    Leads (Quiet 0) (Quiet 1) (runPrompt st call stream) := by
  intro c hc
  obtain ⟨chunks, hr⟩ := run_prompt st call stream c
  obtain ⟨before, hb⟩ := hc.chunks
  have hp : c.prompts = [] := List.length_eq_zero_iff.mp (Nat.le_zero.mp hc.calls)
  rw [hr, hp, hb, List.nil_append, ← List.map_append]
  refine ⟨le_refl 1, ?_, _, rfl⟩
  intro x hx
  rw [List.mem_singleton.mp hx]
  exact hcall

theorem keeps_toolReply (n : ℕ) (name err message : Bytes) :
    Keeps (Quiet n) (toolReply st name err message) := by
  apply keeps_ite
  · exact keeps_bind (keeps_onDaemon n _) fun _ => keeps_pure _
  · exact keeps_pure _

theorem leads_performPrompt (sessionId text : Bytes) (stream a2ui : Bool) :
    Leads (Quiet 0) (Quiet 1) (performPrompt st sessionId text stream a2ui) := by
  have hone : ∀ c : Client σ, Quiet 0 c → Quiet 1 c := fun _ hc => hc.mono (Nat.zero_le 1)
  refine leads_bind (keeps_onDaemon 0 _) (fun _ => ?_) hone
  by_cases ht : text = []
  · rw [if_pos ht]
    exact leads_pure _ hone
  · rw [if_neg ht]
    exact leads_bind (leads_runPrompt rfl stream) (fun _ => keeps_pure _) fun _ hc => hc

/-- Only the order for a prompt runs one. -/
theorem leads_perform (order : Order) :
    Leads (Quiet 0) (Quiet 1) (perform st readFloat order) := by
  have hkeeps : ∀ x : Action Thrown (Client σ) Reply,
      Keeps (Quiet 0) x → Leads (Quiet 0) (Quiet 1) x :=
    fun _ hx c hc => (hx c hc).mono (Nat.zero_le 1)
  have hanswer : ∀ {α : Type} (x : Action Thrown σ α) (f : α → Reply),
      Keeps (Quiet 0) (do let a ← onDaemon x; pure (f a) : Action Thrown (Client σ) Reply) :=
    fun x f => keeps_bind (keeps_onDaemon 0 x) fun a => keeps_pure (f a)
  cases order with
  | prompt sessionId text stream a2ui => exact leads_performPrompt sessionId text stream a2ui
  | sessionUsage sessionId => exact hkeeps _ (hanswer _ _)
  | monthlyUsage month => exact hkeeps _ (hanswer _ _)
  | dailyUsage date => exact hkeeps _ (hanswer _ _)
  | sendTo channel text =>
    apply hkeeps
    apply keeps_ite
    · exact keeps_pure _
    · apply keeps_ite
      · exact hanswer _ _
      · exact hanswer _ _
  | listAgents params =>
    apply hkeeps
    refine keeps_bind (keeps_onDaemon 0 _) fun text => ?_
    cases parse readFloat text with
    | ok j => exact keeps_pure _
    | error e => exact keeps_pure _
  | perceptionStatus =>
    apply hkeeps
    rw [perform]
    cases st.perceptionStatus with
    | some status => exact hanswer _ _
    | none => exact keeps_pure _
  | registerSystemCli name cfg toolDoc helpOutput =>
    apply hkeeps
    have hregister : ∀ doc, Keeps (Quiet 0) (do
        let err ← onDaemon (st.registerTool name cfg doc)
        toolReply st name err (bytes "Tool registered successfully")) := by
      intro doc
      exact keeps_bind (keeps_onDaemon 0 _) fun err => keeps_toolReply 0 name err _
    apply keeps_ite
    · exact hregister _
    · exact keeps_bind (keeps_onDaemon 0 _) fun doc => hregister _
  | unregisterSystemCli name =>
    exact hkeeps _ (keeps_bind (keeps_onDaemon 0 _) fun err => keeps_toolReply 0 name err _)
  | listMcpTools => exact hkeeps _ (hanswer _ _)
  | connectMcpServers configPath => exact hkeeps _ (hanswer _ _)
  | listSystemCli => exact hkeeps _ (hanswer _ _)
  | unknown => exact hkeeps _ (keeps_pure _)

theorem leads_answer (raw : Bytes) :
    Leads (Quiet 0) (Quiet 1) (answer st readFloat truncate raw) := by
  have hone : ∀ c : Client σ, Quiet 0 c → Quiet 1 c := fun _ hc => hc.mono (Nat.zero_le 1)
  refine leads_bind (keeps_lift _) (fun req => ?_) hone
  refine leads_bind (keeps_lift _) (fun request => ?_) hone
  cases request with
  | invalid id => exact leads_pure _ hone
  | call id order => exact leads_bind (leads_perform order) (fun _ => keeps_pure _) fun _ hc => hc

end Quiet

section Round

variable {σ : Type} (st : Services σ) (readFloat : Bytes → Option NumberText)
  (truncate : NumberText → ℤ)

/-- What a request frame should lead to. -/
structure Total (raw : Bytes) (r : Round) : Prop where
  caught : r.escaped = none
  once : r.prompts.length ≤ 1
  answered : ∃ (chunks : List Bytes) (text : Bytes),
    r.frames = chunks.map .chunk ++ [.response text .whole]
  structured : Succeeds (parse readFloat raw) → ∀ call ∈ r.prompts, call.isPayload = false

/-- What the payload and the daemon have to be like. Text that is no JSON is only a prompt. -/
def Acceptable (s : σ) (raw : Bytes) : Prop :=
  match parse readFloat raw with
  | .ok req => WellTyped req ∧
    ∀ id order, readRequest truncate req = .ok (.call id order) → Contract st s order
  | .error _ => Ends (fun _ => False) (promptResult st (bytes "default") raw false)
    (fun text _ => Utf8.valid text = true) s

def roundOf (x : Except Thrown Unit × Client σ) : Round :=
  ⟨x.2.prompts, x.2.frames, match x.1 with
    | .ok _ => none
    | .error e => some e⟩

/-- The end of `respond`. -/
def send (response : Json) (delivery : Delivery) : Action Thrown (Client σ) Unit := do
  let text ← liftM (caught (dump response))
  write (.response text delivery)

variable {st readFloat truncate} {raw : Bytes} {delivery : Delivery} {s : σ}

theorem total_send {c : Client σ} (hcalls : c.prompts.length ≤ 1)
    (hchunks : ∃ chunks : List Bytes, c.frames = chunks.map .chunk)
    (hown : Succeeds (parse readFloat raw) → ∀ call ∈ c.prompts, call.isPayload = false)
    (response : Json) :
    Total readFloat raw (roundOf ((send response delivery).run c)) ↔
      response.utf8 = true ∧ delivery = .whole := by
  by_cases hr : response.utf8 = true
  · obtain ⟨text, ht⟩ := (succeeds_dump response).mpr hr
    have hrun : (send response delivery).run c =
        (.ok (), { c with frames := c.frames ++ [.response text delivery] }) := by
      rw [send, ht]
      rfl
    rw [hrun]
    constructor
    · rintro ⟨-, -, ⟨chunks, text', hf⟩, -⟩
      refine ⟨hr, ?_⟩
      have hlast := (List.append_inj' hf rfl).2
      simp only [List.cons.injEq, Frame.response.injEq, and_true] at hlast
      exact hlast.2
    · rintro ⟨-, rfl⟩
      obtain ⟨chunks, hc⟩ := hchunks
      exact ⟨rfl, hcalls, ⟨chunks, text, by rw [← hc]; rfl⟩, hown⟩
  · have hrun : (send response delivery).run c = (.error (.json (.typeError 316)), c) := by
      rw [send, dump, dumpWith, if_neg hr]
      rfl
    rw [hrun]
    constructor
    · rintro ⟨hcaught, -, -, -⟩
      cases hcaught
    · rintro ⟨h, -⟩
      exact absurd h hr

theorem respond_eq (c : Client σ) :
    (respond st readFloat truncate raw delivery).run c =
      (tryCatch (answer st readFloat truncate raw) (recover st raw) >>= fun response =>
        send response delivery).run c := rfl

/-- A payload of JSON is answered when it is acceptable. -/
theorem ends_answer_iff {req : Json} (hreq : parse readFloat raw = .ok req)
    (prompts : List PromptCall)
    (frames : List Frame) :
    Ends Reportable (answer st readFloat truncate raw) (fun j _ => j.utf8 = true)
      ⟨s, prompts, frames⟩ ↔
      Acceptable st readFloat truncate s raw := by
  have hc : caught (parse readFloat raw) = .ok req := by rw [hreq]; rfl
  rw [Acceptable, hreq, answer, ends_bind, ends_ok (run_lift hc _), ends_bind]
  have hread : Succeeds (readRequest truncate req) ↔ WellTyped req := succeeds_readRequest req
  dsimp only
  rw [← hread]
  cases hr : readRequest truncate req with
  | error e =>
    have hthrow : caught (.error e : Except JsonException Request) = .error (.json e) := rfl
    rw [ends_error (run_lift_error hthrow _)]
    exact iff_of_false id fun h => succeeds_error e h.1
  | ok request =>
    have hutf8 : request.Utf8 := readRequest_utf8 (parse_utf8 hreq).2 hr
    rw [ends_ok (run_lift (rfl : caught (.ok request) = .ok request) _)]
    cases request with
    | invalid id =>
      rw [ends_pure, json_utf8 hutf8]
      refine iff_of_true (show Utf8.valid (bytes "Invalid Request") = true by decide) ?_
      exact ⟨succeeds_ok _, fun id order h => by cases h⟩
    | call id order =>
      rw [ends_bind]
      simp only [ends_pure, json_utf8 hutf8.1]
      rw [ends_perform order hutf8.2]
      constructor
      · intro h
        refine ⟨succeeds_ok _, ?_⟩
        rintro id' order' ho
        cases ho
        exact h
      · rintro ⟨-, h⟩
        exact h id order rfl

theorem respond_ok {c t : Client σ} {response : Json}
    (h : (answer st readFloat truncate raw).run c = (.ok response, t)) :
    (respond st readFloat truncate raw delivery).run c = (send response delivery).run t := by
  rw [respond_eq]
  apply run_bind
  rw [run_tryCatch, h]

/-- An exception is answered by the handlers. -/
theorem respond_error {c t : Client σ} {e : Thrown}
    (h : (answer st readFloat truncate raw).run c = (.error e, t)) :
    (respond st readFloat truncate raw delivery).run c =
      (recover st raw e >>= fun response => send response delivery).run t := by
  have ht : (tryCatch (answer st readFloat truncate raw) (recover st raw)).run c =
      (recover st raw e).run t := by rw [run_tryCatch, h]
  rcases hr : (recover st raw e).run t with ⟨r, u⟩
  rw [hr] at ht
  cases r with
  | ok response => rw [respond_eq, run_bind ht, run_bind hr]
  | error e' => rw [respond_eq, run_bind_error ht, run_bind_error hr]

/-- The payload was run as a prompt. -/
def Prompted (c : Client σ) : Prop := ∃ call ∈ c.prompts, call.isPayload = true

theorem leads_recover (e : JsonException) :
    Leads (fun _ => True) Prompted (recover st raw (.json e)) := by
  have hprompt : Leads (fun _ => True) Prompted
      (runPrompt st ⟨bytes "default", raw, true⟩ false) := by
    intro c _
    obtain ⟨chunks, hr⟩ := run_prompt st ⟨bytes "default", raw, true⟩ false c
    rw [hr]
    exact ⟨_, List.mem_append_right _ List.mem_cons_self, rfl⟩
  have hpure : ∀ text, Keeps Prompted (pure ((textResult text).json .null) :
      Action Thrown (Client σ) Json) := fun text => keeps_pure _
  exact leads_bind hprompt hpure fun _ hc => hc

/-- Where the handlers take a request for plain text, they run it as a prompt. -/
theorem not_total_of_json {c t : Client σ} {e : JsonException} (hp : Succeeds (parse readFloat raw))
    (h : (answer st readFloat truncate raw).run c = (.error (.json e), t)) :
    ¬ Total readFloat raw (roundOf ((respond st readFloat truncate raw delivery).run c)) := by
  have hsend : ∀ response,
      Keeps Prompted (send response delivery : Action Thrown (Client σ) Unit) :=
    fun response => keeps_bind (keeps_lift _) fun text => keeps_modify fun _ hc => hc
  have hrun : Leads (fun _ => True) Prompted (recover st raw (.json e) >>= fun response =>
      send response delivery) := leads_bind (leads_recover e) hsend fun _ hc => hc
  obtain ⟨call, hmem, hpay⟩ := hrun t trivial
  rintro ⟨-, -, -, hown⟩
  rw [respond_error h] at hown
  have hfalse := hown hp call hmem
  rw [hpay] at hfalse
  cases hfalse

/-- The message of an internal error is UTF-8 as far as that of the exception is. -/
theorem internal_utf8 (what : Bytes) :
    ((Reply.error (-32000) (bytes "Internal error: " ++ what)).json .null).utf8 = true ↔
      Utf8.valid what = true := by
  rw [json_utf8 rfl, ReplyUtf8, Utf8.valid_append (by decide)]

/-- Plain text is served when its prompt returns a text in UTF-8. -/
theorem total_text_iff {e : JsonException} (hp : parse readFloat raw = .error e) :
    Total readFloat raw (roundOf ((respond st readFloat truncate raw delivery).run ⟨s, [], []⟩)) ↔
      Acceptable st readFloat truncate s raw ∧ delivery = .whole := by
  have h : (answer st readFloat truncate raw).run ⟨s, [], []⟩ =
      (.error (.json e), ⟨s, [], []⟩) := by
    rw [answer, hp]
    rfl
  obtain ⟨chunks, hr⟩ := run_prompt st ⟨bytes "default", raw, true⟩ false ⟨s, [], []⟩
  rw [respond_error h, Acceptable, hp]
  dsimp only
  rcases hx : (promptResult st (bytes "default") raw false).run s with ⟨x, u⟩
  rw [hx] at hr
  cases x with
  | error e' =>
    have hrun : (recover st raw (.json e) >>= fun response =>
        send response delivery).run ⟨s, [], []⟩ =
        (.error e', ⟨u, [⟨bytes "default", raw, true⟩], chunks.map .chunk⟩) :=
      run_bind_error (run_bind_error hr _) _
    rw [ends_error hx, hrun]
    refine iff_of_false ?_ fun hf => hf.1
    -- the handler has no handler of its own
    rintro ⟨hcaught, -, -, -⟩
    cases hcaught
  | ok text =>
    have hrun : (recover st raw (.json e) >>= fun response =>
        send response delivery).run ⟨s, [], []⟩ =
        (send ((textResult text).json .null) delivery).run
          ⟨u, [⟨bytes "default", raw, true⟩], chunks.map .chunk⟩ :=
      run_bind (run_bind hr)
    rw [ends_ok hx, hrun, ← textResult_utf8, ← json_utf8 (show Json.utf8 .null = true from rfl)]
    apply total_send
    · exact le_refl 1
    · exact ⟨chunks, rfl⟩
    · rintro ⟨j, hj⟩
      rw [hp] at hj
      cases hj

theorem total_json_iff {req : Json} (hp : parse readFloat raw = .ok req) :
    Total readFloat raw (roundOf ((respond st readFloat truncate raw delivery).run ⟨s, [], []⟩)) ↔
      Acceptable st readFloat truncate s raw ∧ delivery = .whole := by
  have hquiet : Quiet 1 ((answer st readFloat truncate raw).run ⟨s, [], []⟩).2 :=
    leads_answer raw _ ⟨le_refl 0, fun _ h => absurd h List.not_mem_nil, [], rfl⟩
  rw [← ends_answer_iff hp [] []]
  rcases h : (answer st readFloat truncate raw).run ⟨s, [], []⟩ with ⟨r, t⟩
  rw [h] at hquiet
  have hsend : ∀ response, Total readFloat raw (roundOf ((send response delivery).run t)) ↔
      response.utf8 = true ∧ delivery = .whole :=
    total_send hquiet.calls hquiet.chunks fun _ => hquiet.own
  cases r with
  | ok response =>
    rw [respond_ok h, ends_ok h]
    exact hsend response
  | error e =>
    rw [ends_error h]
    cases e with
    | json e => exact iff_of_false (not_total_of_json ⟨req, hp⟩ h) fun hf => hf.1
    | std what =>
      rw [respond_error h, Reportable, ← internal_utf8]
      exact hsend _

/-- A request is served as it should be just when it is acceptable, and its response taken. -/
theorem total_round_iff :
    Total readFloat raw (round st readFloat truncate raw delivery s).1 ↔
      Acceptable st readFloat truncate s raw ∧ delivery = .whole := by
  cases hp : parse readFloat raw with
  | ok req => exact total_json_iff hp
  | error e => exact total_text_iff hp

end Round

section Connection

/-- What a client can put into a frame. -/
structure Payload where
  raw : Bytes
  nonempty : raw ≠ []
  framed : raw.length < 2 ^ 32

def Payload.frame (p : Payload) : Bytes := lengthBytes p.raw.length ++ p.raw

theorem receive_frame (p : Payload) (rest : Bytes) :
    receive (p.frame ++ rest) =
      if kMaxPayload < p.raw.length then .nothing else .framed p.raw rest := by
  have hlen : ¬ (p.raw ++ rest).length < p.raw.length := by
    rw [List.length_append]
    omega
  rw [Payload.frame, List.append_assoc, receive_lengthBytes, Nat.mod_eq_of_lt p.framed,
    if_neg hlen, List.take_left, List.drop_left]

variable {σ : Type} (st : Services σ) (readFloat : Bytes → Option NumberText)
  (truncate : NumberText → ℤ) (deliver : ℕ → Delivery)

/-- Each request is acceptable to the daemon, as the requests before have left it, and the client
takes each response. -/
def Accepted : ℕ → σ → List Payload → Prop
  | _, _, [] => True
  | i, s, p :: ps =>
    p.raw.length ≤ kMaxPayload ∧ Acceptable st readFloat truncate s p.raw ∧ deliver i = .whole ∧
      Accepted (i + 1) (round st readFloat truncate p.raw (deliver i) s).2 ps

variable {st readFloat truncate deliver}

theorem serve_iff (ps : List Payload) (n i : ℕ) (s : σ)
    (hn : (ps.flatMap Payload.frame).length < n) :
    List.Forall₂ (fun p => Total readFloat p.raw) ps
        (serve st readFloat truncate deliver n i (ps.flatMap Payload.frame) s) ↔
      Accepted st readFloat truncate deliver i s ps := by
  induction ps generalizing n i s with
  | nil =>
    cases n with
    | zero => exact absurd hn (Nat.not_lt_zero _)
    | succ n => exact iff_of_true .nil trivial
  | cons p ps ih =>
    cases n with
    | zero => exact absurd hn (Nat.not_lt_zero _)
    | succ n =>
      rw [List.flatMap_cons, serve, receive_frame, Accepted]
      by_cases hmax : kMaxPayload < p.raw.length
      · rw [if_pos hmax]
        refine iff_of_false ?_ fun h => absurd h.1 (Nat.not_le.mpr hmax)
        rintro ⟨⟩
      · rw [if_neg hmax]
        dsimp only
        rw [if_neg p.nonempty]
        have hround : Total readFloat p.raw
            (round st readFloat truncate p.raw (deliver i) s).1 ↔
              Acceptable st readFloat truncate s p.raw ∧ deliver i = .whole := total_round_iff
        by_cases hc : (round st readFloat truncate p.raw (deliver i) s).1.escaped.isNone ∧
            deliver i ≠ .refused
        · have hlen : (ps.flatMap Payload.frame).length < n := by
            rw [List.flatMap_cons, List.length_append, Payload.frame, List.length_append] at hn
            have : (lengthBytes p.raw.length).length = 4 := rfl
            omega
          rw [if_pos hc, List.forall₂_cons, ih n (i + 1) _ hlen, hround]
          constructor
          · rintro ⟨⟨ha, hw⟩, hrest⟩
            exact ⟨Nat.not_lt.mp hmax, ha, hw, hrest⟩
          · rintro ⟨-, ha, hw, hrest⟩
            exact ⟨⟨ha, hw⟩, hrest⟩
        · -- only a request that was not served ends the connection
          have hnot : ¬ Total readFloat p.raw
              (round st readFloat truncate p.raw (deliver i) s).1 := by
            intro ht
            apply hc
            rw [ht.caught, (hround.mp ht).2]
            exact ⟨rfl, by decide⟩
          rw [if_neg hc]
          refine iff_of_false ?_ fun h => hnot (hround.mpr ⟨h.2.1, h.2.2.1⟩)
          intro h
          exact hnot (List.forall₂_cons.mp h).1

end Connection

namespace Counterexample

/-- A daemon that answers every prompt with one text. -/
def answering (text : Bytes) : Services Unit where
  processPrompt _ _ s := .ends (.ok text) s
  setSessionMode _ _ := pure ()
  loadTokenUsage _ := pure ⟨0, 0, 0⟩
  loadMonthlyUsage _ := pure ⟨0, 0, 0⟩
  loadDailyUsage _ := pure ⟨0, 0, 0⟩
  broadcast _ := pure ()
  sendTo _ _ := pure true
  executeSupervisorOp _ _ _ := pure []
  perceptionStatus := none
  generateToolDoc _ _ _ := pure []
  registerTool _ _ _ := pure []
  unregisterTool _ := pure []
  reloadSkills := pure ()
  getMcpToolsJson := pure (.obj [])
  connectMcpServers _ := pure true
  getRegisteredToolsJson := pure (.obj [])

def emptyArray : Payload := ⟨bytes "[]", by decide, by decide⟩
def greeting : Payload := ⟨bytes "hello", by decide, by decide⟩

def rounds (text : Bytes) (p : Payload) : List Round :=
  handleIpcClient (answering text) (fun _ => none) (fun _ => 0) (fun _ => .whole)
    ([p].flatMap Payload.frame) ()

end Counterexample

end IpcTotality
