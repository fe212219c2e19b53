import TizenClaw.GateDomination

/-! When a round of tool calls leaves one message per call and lets no exception out. -/
namespace ExchangeCompleteness

open ByteString JsonValue JsonDump JsonParse JsonParseUtf8 LlmTypes ToolPolicy ToolDispatch
  SessionMarkdown ToolExchange

variable {readFloat : Bytes → Option NumberText}

/-- The wrapper neither adds nor hides ill-formed text. -/
theorem wrapResult_utf8 (output : Bytes) :
    (wrapResult readFloat output).utf8 = Utf8.valid output := by
  unfold wrapResult
  split
  · rename_i j hj
    obtain ⟨hs, hu⟩ := parse_utf8 hj
    rw [hs, hu]
  · rw [utf8_object [bytes "output"] rfl (by decide)]
    simp [utf8Members, Json.utf8, show Utf8.valid (bytes "output") = true by decide]

/-- The display is told about the results of the session. -/
def Shown (canvas : Option Canvas) : Prop :=
  ∃ c ∈ canvas, c.running = true ∨ c.describe.isSome = true

/-- The texts that the display gets beside a result. -/
structure Named (session name : Bytes) : Prop where
  session : Utf8.valid session = true
  name : Utf8.valid name = true

theorem succeeds_broadcast {running : Bool} {type key name session : Bytes} {value : Json}
    (hkeys : [bytes "type", bytes "tool_name", bytes "session_id", key].Nodup)
    (htype : Utf8.valid type = true) (hkey : Utf8.valid key = true) :
    Succeeds (broadcast running type key name session value) ↔
      (running = true → Named session name ∧ value.utf8 = true) := by
  unfold broadcast
  split_ifs with hr
  · rw [succeeds_map, succeeds_dump, utf8_object
      [bytes "type", bytes "tool_name", bytes "session_id", key] rfl hkeys]
    simp only [utf8Members, Json.utf8, htype, hkey, Bool.and_true, Bool.true_and,
      show Utf8.valid (bytes "type") = true by decide,
      show Utf8.valid (bytes "tool_name") = true by decide,
      show Utf8.valid (bytes "session_id") = true by decide, Bool.and_eq_true, hr,
      forall_true_left]
    exact ⟨fun h => ⟨⟨h.2.1, h.1⟩, h.2.2⟩, fun h => ⟨h.1.name, h.1.session, h.2⟩⟩
  · simp [hr]

theorem succeeds_broadcastToolResult (running : Bool) (name session : Bytes) (value : Json) :
    Succeeds (broadcastToolResult running name session value) ↔
      (running = true → Named session name ∧ value.utf8 = true) :=
  succeeds_broadcast (by decide) (by decide) (by decide)

theorem succeeds_broadcastA2UIResult (running : Bool) (name session : Bytes) (value : Json) :
    Succeeds (broadcastA2UIResult running name session value) ↔
      (running = true → Named session name ∧ value.utf8 = true) :=
  succeeds_broadcast (by decide) (by decide) (by decide)

/-- The description of a result can be asked for, and is well-formed, when the result is. -/
theorem a2uiProcess_utf8 (chat : Bytes → { text : Bytes // Utf8.valid text = true })
    (name session : Bytes) (result : Json) :
    (Succeeds (a2uiProcess readFloat chat name session result) ↔
      Named session name ∧ result.utf8 = true) ∧
    ∀ j, a2uiProcess readFloat chat name session result = .ok j → j.utf8 = true := by
  have hnames : Succeeds (a2uiProcess readFloat chat name session result) ↔
      Named session name ∧ result.utf8 = true := by
    rw [a2uiProcess, succeeds_map, succeeds_dump,
      utf8_object [bytes "tool_name", bytes "session_id", bytes "tool_result"] rfl (by decide)]
    simp only [utf8Members, Json.utf8, Bool.and_true, Bool.true_and,
      show Utf8.valid (bytes "tool_name") = true by decide,
      show Utf8.valid (bytes "session_id") = true by decide,
      show Utf8.valid (bytes "tool_result") = true by decide, Bool.and_eq_true]
    exact ⟨fun h => ⟨⟨h.2.1, h.1⟩, h.2.2⟩, fun h => ⟨h.1.name, h.1.session, h.2⟩⟩
  refine ⟨hnames, fun j hj => ?_⟩
  obtain ⟨hn, hr⟩ := hnames.mp ⟨j, hj⟩
  unfold a2uiProcess at hj
  cases hd : dump (.object [(bytes "tool_name", .str name), (bytes "session_id", .str session),
    (bytes "tool_result", result)]) with
  | error e =>
    rw [hd] at hj
    cases hj
  | ok message =>
    rw [hd] at hj
    have hdata : (Json.object [(bytes "text", .str (chat message).1)]).utf8 = true := by
      rw [utf8_object [bytes "text"] rfl (by decide)]
      simp only [utf8Members, Json.utf8, (chat message).2]
      decide
    have hasText : (Json.object [(bytes "type", .str (bytes "text")), (bytes "title", .str name),
        (bytes "data", .object [(bytes "text", .str (chat message).1)]),
        (bytes "raw", result)]).utf8 = true := by
      rw [utf8_object [bytes "type", bytes "title", bytes "data", bytes "raw"] rfl (by decide)]
      simp only [utf8Members, hdata, hr]
      simp only [Json.utf8, hn.name]
      decide
    obtain rfl := Except.ok.inj hj
    dsimp only
    split_ifs
    · rw [utf8_object [bytes "error", bytes "raw"] rfl (by decide)]
      simp only [utf8Members, Json.utf8, hr]
      decide
    · split
      · exact hasText
      · rename_i v hv
        split
        · exact hasText
        · exact (parse_utf8 hv).2

theorem succeeds_present (canvas : Option Canvas) (session : Bytes) (msg : LlmMessage) :
    Succeeds (present readFloat canvas session msg) ↔
      (Shown canvas → Named session msg.toolName ∧ msg.toolResult.utf8 = true) := by
  cases canvas with
  | none => simp [present, Shown]
  | some c =>
    have hshown : Shown (some c) ↔ c.running = true ∨ c.describe.isSome = true := by simp [Shown]
    rw [hshown, present, succeeds_bind]
    have hfirst := succeeds_broadcastToolResult c.running msg.toolName session msg.toolResult
    have hunit : ∀ u : Unit, u = () := fun _ => rfl
    cases hd : c.describe with
    | none =>
      simp only [Option.isSome_none, Bool.false_eq_true, or_false, succeeds_ok, and_true]
      exact hfirst
    | some chat =>
      simp only [Option.isSome_some, or_true, forall_true_left, exists_and_right]
      obtain ⟨hproc, hutf⟩ := a2uiProcess_utf8 chat msg.toolName session msg.toolResult
      constructor
      · rintro ⟨-, h⟩
        obtain ⟨j, hj, -⟩ := (succeeds_bind _ _).mp h
        exact hproc.mp ⟨j, hj⟩
      · intro h
        refine ⟨hfirst.mpr fun _ => h, (succeeds_bind _ _).mpr ?_⟩
        obtain ⟨j, hj⟩ := hproc.mpr h
        exact ⟨j, hj, (succeeds_broadcastA2UIResult _ _ _ _).mpr fun _ => ⟨h.1, hutf j hj⟩⟩

/-- The results are collected exactly when all futures have a value and all can be shown. -/
theorem collect_ok_iff {canvas : Option Canvas} {session : Bytes}
    {results : List (Except ToolException ToolExecResult)} {msgs : List LlmMessage} :
    collect readFloat canvas session results = .ok msgs ↔
      ∃ rs : List ToolExecResult, results = rs.map .ok ∧ msgs = rs.map (toolMessage readFloat) ∧
        ∀ r ∈ rs, Succeeds (present readFloat canvas session (toolMessage readFloat r)) := by
  induction results generalizing msgs with
  | nil =>
    constructor
    · intro h
      obtain rfl := Except.ok.inj h
      exact ⟨[], rfl, rfl, by simp⟩
    · rintro ⟨rs, hrs, rfl, -⟩
      obtain rfl := List.map_eq_nil_iff.mp hrs.symm
      rfl
  | cons x results ih =>
    cases x with
    | error e =>
      constructor
      · intro h
        cases h
      · rintro ⟨rs, hrs, -⟩
        cases rs <;> simp at hrs
    | ok r =>
      cases hp : present readFloat canvas session (toolMessage readFloat r) with
      | error e =>
        constructor
        · intro h
          rw [collect, hp] at h
          cases h
        · rintro ⟨rs, hrs, -, hall⟩
          cases rs with
          | nil => simp at hrs
          | cons r' rs =>
            obtain ⟨rfl, -⟩ : r = r' ∧ _ := by simpa using hrs
            have := hall r (by simp)
            rw [hp] at this
            exact absurd this (succeeds_error e)
      | ok u =>
        constructor
        · intro h
          rw [collect, hp] at h
          cases hc : collect readFloat canvas session results with
          | error e =>
            rw [hc] at h
            cases h
          | ok ms =>
            rw [hc] at h
            obtain rfl := Except.ok.inj h
            obtain ⟨rs, rfl, rfl, hall⟩ := ih.mp hc
            refine ⟨r :: rs, rfl, rfl, ?_⟩
            intro r' hr'
            rcases List.mem_cons.mp hr' with rfl | hr'
            · exact ⟨u, hp⟩
            · exact hall r' hr'
        · rintro ⟨rs, hrs, rfl, hall⟩
          cases rs with
          | nil => simp at hrs
          | cons r' rs =>
            obtain ⟨rfl, htail⟩ : r = r' ∧ results = rs.map .ok := by simpa using hrs
            rw [collect, hp, ih.mpr ⟨rs, htail, rfl, fun q hq => hall q (by simp [hq])⟩]
            rfl

theorem succeeds_signature (msgs : List LlmMessage) :
    Succeeds (signature msgs) ↔ ∀ msg ∈ msgs, msg.toolResult.utf8 = true := by
  induction msgs with
  | nil => simp [signature]
  | cons msg msgs ih =>
    rw [signature, succeeds_bind, List.forall_mem_cons, ← ih]
    simp only [succeeds_map, exists_and_right]
    refine and_congr_left' ?_
    split_ifs with hn
    · simp [utf8_of_isNull hn]
    · exact succeeds_dump msg.toolResult

/-- What the claim asks of a round: a tool message for each call, with its id and in its place,
and an end without an exception. -/
structure Complete (calls : List LlmToolCall) (round : Round) : Prop where
  one_each : round.appended.map (fun msg => (msg.role, msg.toolCallId)) =
    calls.map fun tc => (Role.tool, tc.id)
  no_exception : ∀ e, round.ending ≠ .threw e

/-- A call whose task returns, with a text that the serializers take. -/
def Returns (cfg : Config) (canvas : Option Canvas) (session : Bytes) (x : LlmToolCall × Seen) :
    Prop :=
  ∃ r, toolTask cfg session x.1 x.2 = .ok r ∧ Utf8.valid r.output = true ∧
    (Shown canvas → Named session r.name)

/-- A round that would be the third with the same signature is saved before the prompt ends. -/
def StopsIdle (readFloat : Bytes → Option NumberText) (idle : List Bytes)
    (results : List (Except ToolException ToolExecResult)) : Prop :=
  ∃ rs : List ToolExecResult, results = rs.map .ok ∧
    ∃ sig, signature (rs.map (toolMessage readFloat)) = .ok sig ∧
      (checkIdleProgress idle sig).1 = true

theorem toolTask_mem {cfg : Config} {session : Bytes} {calls : List (LlmToolCall × Seen)}
    {rs : List ToolExecResult}
    (h : (calls.map fun x => toolTask cfg session x.1 x.2) = rs.map .ok) :
    rs.map (fun r => (Role.tool, r.id)) = calls.map fun x => (Role.tool, x.1.id) := by
  induction calls generalizing rs with
  | nil =>
    obtain rfl := List.map_eq_nil_iff.mp h.symm
    rfl
  | cons x calls ih =>
    cases rs with
    | nil => simp at h
    | cons r rs =>
      obtain ⟨hx, hrest⟩ : toolTask cfg session x.1 x.2 = .ok r ∧
          (calls.map fun x => toolTask cfg session x.1 x.2) = rs.map .ok := by simpa using h
      rw [List.map_cons, List.map_cons, ih hrest, toolTask_id hx]

theorem exists_results {α : Type} {f : α → Except ToolException ToolExecResult}
    {P : ToolExecResult → Prop} {l : List α} (h : ∀ x ∈ l, ∃ r, f x = .ok r ∧ P r) :
    ∃ rs : List ToolExecResult, l.map f = rs.map .ok ∧ ∀ r ∈ rs, P r := by
  induction l with
  | nil => exact ⟨[], rfl, by simp⟩
  | cons x l ih =>
    obtain ⟨r, hr, hP⟩ := h x (by simp)
    obtain ⟨rs, hrs, hall⟩ := ih fun y hy => h y (by simp [hy])
    refine ⟨r :: rs, by simp [hr, hrs], ?_⟩
    intro q hq
    rcases List.mem_cons.mp hq with rfl | hq
    · exact hP
    · exact hall q hq

theorem result_of_call {α : Type} {f : α → Except ToolException ToolExecResult} {l : List α}
    {rs : List ToolExecResult} (h : l.map f = rs.map .ok) {x : α} (hx : x ∈ l) :
    ∃ r ∈ rs, f x = .ok r := by
  have hm : f x ∈ rs.map (.ok : ToolExecResult → Except ToolException ToolExecResult) :=
    h ▸ List.mem_map_of_mem hx
  obtain ⟨r, hr, he⟩ := List.mem_map.mp hm
  exact ⟨r, hr, he.symm⟩

section Main

variable (cfg : Config) (canvas : Option Canvas) (stamp : Timestamp) (session : Bytes)
  (idle : List Bytes) (saved : List LlmMessage) (calls : List (LlmToolCall × Seen))

/-- The futures of the round. -/
def futures : List (Except ToolException ToolExecResult) :=
  calls.map fun x => toolTask cfg session x.1 x.2

/-- A round that throws nothing has collected everything and could serialize it. -/
theorem toolRound_returns {results : List (Except ToolException ToolExecResult)}
    (h : ∀ e, (toolRound readFloat canvas stamp session idle saved results).ending ≠ .threw e) :
    ∃ rs : List ToolExecResult, results = rs.map .ok ∧
      (toolRound readFloat canvas stamp session idle saved results).appended =
        rs.map (toolMessage readFloat) ∧
      (∀ r ∈ rs, Utf8.valid r.output = true ∧ (Shown canvas → Named session r.name)) ∧
      (StopsIdle readFloat idle results → ∀ msg ∈ saved, Writable msg) := by
  unfold toolRound at h ⊢
  cases hc : collect readFloat canvas session results with
  | error e => simp [hc] at h
  | ok msgs =>
    obtain ⟨rs, rfl, rfl, hall⟩ := collect_ok_iff.mp hc
    cases hs : signature (rs.map (toolMessage readFloat)) with
    | error e => simp [hc, hs] at h
    | ok sig =>
      have hvalid := (succeeds_signature _).mp ⟨sig, hs⟩
      refine ⟨rs, rfl, ?_, fun r hr => ⟨?_, fun hsh => ?_⟩, ?_⟩
      · simp only [hs]
        split_ifs
        · split <;> rfl
        · rfl
      · rw [← wrapResult_utf8]
        exact hvalid _ (List.mem_map_of_mem hr)
      · exact ((succeeds_present canvas session _).mp (hall r hr) hsh).1
      · rintro ⟨rs', hrs', sig', hsig', hidle⟩
        obtain rfl : rs = rs' :=
          List.map_injective_iff.mpr (fun _ _ h => Except.ok.inj h) hrs'
        obtain rfl : sig = sig' := Except.ok.inj (hs.symm.trans hsig')
        rw [← succeeds_saveSession stamp]
        cases hsave : saveSession stamp saved with
        | error e => simp [hc, hs, hidle, hsave] at h
        | ok f => exact succeeds_ok f

theorem toolRound_of_returns {rs : List ToolExecResult}
    (hrs : ∀ r ∈ rs, Utf8.valid r.output = true ∧ (Shown canvas → Named session r.name))
    (hidle : StopsIdle readFloat idle (rs.map .ok) → ∀ msg ∈ saved, Writable msg) :
    (toolRound readFloat canvas stamp session idle saved (rs.map .ok)).appended =
      rs.map (toolMessage readFloat) ∧
    ∀ e, (toolRound readFloat canvas stamp session idle saved (rs.map .ok)).ending ≠ .threw e := by
  have hvalid : ∀ msg ∈ rs.map (toolMessage readFloat), msg.toolResult.utf8 = true := by
    intro msg hm
    obtain ⟨r, hr, rfl⟩ := List.mem_map.mp hm
    rw [toolMessage, wrapResult_utf8]
    exact (hrs r hr).1
  have hc : collect readFloat canvas session (rs.map .ok) =
      .ok (rs.map (toolMessage readFloat)) :=
    collect_ok_iff.mpr ⟨rs, rfl, rfl, fun r hr => (succeeds_present canvas session _).mpr
      fun hsh => ⟨(hrs r hr).2 hsh, hvalid _ (List.mem_map_of_mem hr)⟩⟩
  obtain ⟨sig, hs⟩ := (succeeds_signature _).mpr hvalid
  unfold toolRound
  simp only [hc, hs]
  split_ifs with hi
  · obtain ⟨f, hf⟩ := (succeeds_saveSession stamp saved).mpr (hidle ⟨rs, rfl, sig, hs, hi⟩)
    simp [hf]
  · simp

end Main

/-- In a run of the agent the results a round is collected from are task bodies applied to what
the tasks saw. -/
theorem roundResults_explained {cfg : Config} {start s : AgentMachine.State}
    {tr : List (AgentMachine.State × AgentMachine.Event)} {ids : List ℕ}
    {results : List (Except ToolException ToolExecResult)}
    (h : TransitionSystem.Run (AgentMachine.agent cfg readFloat start) tr s)
    (hr : AgentMachine.roundResults s ids = some results) :
    ∀ result ∈ results, ∃ t ∈ s.tasks, ∃ seen : Seen,
      result = toolTask cfg t.session t.call seen := by
  induction ids generalizing results with
  | nil =>
    obtain rfl := Option.some.inj hr
    simp
  | cons i ids ih =>
    simp only [AgentMachine.roundResults, List.mapM_cons, Option.pure_def, Option.bind_eq_bind,
      Option.bind_eq_some_iff] at hr
    obtain ⟨x, ⟨t, ht, hx⟩, xs, hxs, hr⟩ := hr
    obtain rfl := Option.some.inj hr
    intro result hm
    rcases List.mem_cons.mp hm with rfl | hm
    · have hmem := List.mem_of_getElem? ht
      have he := GateDomination.tasks_explained h t hmem
      unfold AgentMachine.returnedResult at hx
      split at hx
      · rename_i result' hp
        obtain rfl := Option.some.inj hx
        simp only [GateDomination.Explained, hp] at he
        obtain ⟨seen, rfl⟩ := he
        exact ⟨t, hmem, seen, rfl⟩
      · cases hx
    · exact ih hxs result hm

namespace Counterexample

open GateDomination.Counterexample

def stamp : Timestamp := ⟨bytes "2026-01-01T00:00:00+0000", by decide⟩

/-- A user id that is a number. -/
def call : LlmToolCall := ⟨bytes "call_1", bytes "switch_user", .obj [(bytes "user_id", .int 5)]⟩

def handled (args : Json) : Except ToolException Bytes :=
  match switchUser args with
  | .ok (output, _) => .ok output
  | .error e => .error (.json e)

def seen : Seen where
  callHistory := fun _ _ => 0
  role := .admin
  rateHistory := fun _ => []
  now := 0
  router := ToolRouting.ToolRouter.empty
  outcome := handled call.args

end Counterexample

end ExchangeCompleteness
