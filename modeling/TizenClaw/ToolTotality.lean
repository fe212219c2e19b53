import TizenClaw.ToolExecutor

/-! Which requests the tool executor answers, for every payload of a client and every output of the
programs that it runs. -/
namespace ToolTotality

open ByteString JsonValue JsonDump JsonParse JsonParseUtf8 IpcRequest JsonRpc TryBlock
  SkillManifest ToolExecutor
open IpcHandler (Thrown caught)
open PipelineExecutor (getInt)

section Conditions

variable {σ : Type} (sys : System σ) (readFloat : Bytes → Option NumberText)
  (truncate : NumberText → ℤ) (what : Bytes → Bytes)

/-- What is kept of the output is UTF-8. A failure keeps the first bytes, wherever they end. -/
def CleanOutput (output : Bytes) (code : ℤ) : Prop :=
  if code = 0 then Utf8.valid (extractJsonOutput output) = true
  else Utf8.valid (output.take 500) = true

def CodeClean : CodeRun → Prop
  | .inProcess output rc => CleanOutput output rc
  | .script raw status => CleanOutput (readPipe raw) status
  | _ => True

/-- An output that is JSON is an object or null, another output is UTF-8. -/
def CliClean (output : Bytes) : Prop :=
  match parse readFloat output with
  | .ok j => j = .null ∨ ∃ m, j = .obj m
  | .error _ => Utf8.valid output = true

def CliRunClean : CliRun → Prop
  | .ran raw _ => CliClean readFloat (trimRight [newline] (readPipe raw))
  | _ => True

/-- A manifest that names its runtime and its entry point by strings. -/
def TypedManifest (j : Json) : Prop :=
  (∃ m, j = .obj m) ∧ (∀ v ∈ j.member? (bytes "runtime"), ∃ s, v = .str s) ∧
    ∀ v ∈ (j.member? (bytes "entry_point")).or (j.member? (bytes "entrypoint")), ∃ s, v = .str s

def ToolClean : ToolRun → Prop
  | .ran run => CleanOutput run.result.1 run.result.2
  | _ => True

/-- The output of the tool, run as its manifest says. -/
def ToolReturns (toolName argsStr : Bytes) (s : σ) : Prop :=
  let found := findManifest sys readFloat toolName kToolSearchPaths s
  match found.1 with
  | none => ToolClean
      (runTool sys toolName argsStr (bytes "python") (toolName ++ bytes ".py") found.2).1
  | some j => TypedManifest j ∧ ∀ d, readRuntime toolName j = .ok d →
      ToolClean (runTool sys toolName argsStr d.1 d.2 found.2).1

/-- The fields that the command reads have the types it reads them as, and what it hands on of the
outputs of other programs is clean. -/
def Accepts (command : Bytes) (req : Json) (s : σ) : Prop :=
  if command = bytes "diag" then True
  else if command = bytes "execute_code" then
    ∃ code, req.valueString (bytes "code") [] = .ok code ∧
      ∃ timeout, req.value (getInt truncate) (bytes "timeout") kCodeExecTimeout = .ok timeout ∧
        (code ≠ [] →
          Returns (handleExecuteCode sys readFloat code timeout) (fun run _ => CodeClean run) s)
  else if command = bytes "install_package" then
    Succeeds (req.valueString (bytes "type") (bytes "pip")) ∧
      Succeeds (req.valueString (bytes "name") [])
  else if command = bytes "execute_cli" then
    ∃ cliTool, req.valueString (bytes "tool_name") [] = .ok cliTool ∧
      ∃ cliArgs, req.valueString (bytes "arguments") [] = .ok cliArgs ∧
        Succeeds (req.value (getInt truncate) (bytes "timeout") 10) ∧
          (cliTool ≠ [] → CliRunClean readFloat (runCli sys cliTool cliArgs s).1)
  else if command = bytes "execute_cli_session" then
    Succeeds (req.valueString (bytes "tool_name") []) ∧
      Succeeds (req.valueString (bytes "arguments") []) ∧
        Succeeds (req.valueString (bytes "mode") (bytes "interactive")) ∧
          Succeeds (req.value (getInt truncate) (bytes "timeout") 60)
  else if command = bytes "cli_session_send" then
    ∃ sid, req.valueString (bytes "session_id") [] = .ok sid ∧
      ∃ input, req.valueString (bytes "input") [] = .ok input ∧
        ∃ timeout, req.value (getInt truncate) (bytes "read_timeout_ms") 2000 = .ok timeout ∧
          Utf8.valid (sys.sendInput sid input timeout s).1 = true
  else if command = bytes "cli_session_read" then
    ∃ sid, req.valueString (bytes "session_id") [] = .ok sid ∧
      ∃ timeout, req.value (getInt truncate) (bytes "read_timeout_ms") 1000 = .ok timeout ∧
        Utf8.valid (sys.readOutput sid timeout s).1 = true
  else if command = bytes "cli_session_close" then
    Succeeds (req.valueString (bytes "session_id") [])
  else if command = bytes "cli_session_list" then True
  else
    ∃ tool, req.valueString (bytes "tool") [] = .ok tool ∧
      ∃ args, req.valueString (bytes "args") (bytes "\x7b\x7d") = .ok args ∧
        (tool ≠ [] → ToolReturns sys readFloat tool args s)

/-- A payload that is no JSON is answered with the message of the parser, any other by its
command. -/
def Acceptable (raw : Bytes) (s : σ) : Prop :=
  match parse readFloat raw with
  | .error _ => Utf8.valid (what raw) = true
  | .ok req => ∃ command, req.valueString (bytes "command") [] = .ok command ∧
      Accepts sys readFloat truncate command req s

/-- Each payload is acceptable, as the payloads before it have left the system. -/
def Accepted : List Bytes → σ → Prop
  | [], _ => True
  | raw :: payloads, s =>
    Acceptable sys readFloat truncate what raw s ∧
      Accepted payloads ((respond sys readFloat truncate what raw).run s).2

end Conditions

section Responses

theorem response_utf8 {status : Bytes} (h : Utf8.valid status = true) (output : Bytes) :
    (response status output).utf8 = true ↔ Utf8.valid output = true := by
  rw [response, utf8_object [bytes "status", bytes "output"] rfl (by decide)]
  simp [utf8Members, Json.utf8, h, show Utf8.valid (bytes "status") = true by decide,
    show Utf8.valid (bytes "output") = true by decide]

theorem okResponse_utf8 (output : Bytes) :
    (okResponse output).utf8 = true ↔ Utf8.valid output = true := response_utf8 (by decide) output

theorem errorResponse_utf8 (output : Bytes) :
    (errorResponse output).utf8 = true ↔ Utf8.valid output = true :=
  response_utf8 (by decide) output

theorem decimalInt_valid (i : ℤ) : Utf8.valid (decimalInt i) = true :=
  Utf8.valid_ascii (decimalInt_ascii i)

/-- The message of a command that failed. -/
theorem exitResponse_utf8 (code : ℤ) (output : Bytes) :
    (errorResponse (bytes "exit " ++ decimalInt code ++ bytes ": " ++ output)).utf8 = true ↔
      Utf8.valid output = true := by
  rw [errorResponse_utf8, List.append_assoc, List.append_assoc, Utf8.valid_append (by decide),
    Utf8.valid_append (decimalInt_valid code), Utf8.valid_append (by decide)]

/-- What does not come from a program that ran here is UTF-8. -/
def Sound : CodeRun → Prop
  | .sandbox reply => reply.utf8 = true
  | .failed message => Utf8.valid message = true
  | _ => True

theorem codeResponse_utf8 {run : CodeRun} (h : Sound run) :
    run.response.utf8 = true ↔ CodeClean run := by
  cases run with
  | sandbox reply => exact iff_of_true h trivial
  | inProcess output rc =>
    rw [CodeRun.response, CodeClean, CleanOutput]
    by_cases hrc : rc = 0
    · rw [if_neg fun h => h.1 hrc, if_neg (not_not_intro hrc), if_pos hrc]
      exact okResponse_utf8 _
    · rw [if_neg hrc]
      by_cases ho : output = []
      · rw [if_pos ⟨hrc, ho⟩, errorResponse_utf8, ho]
        refine iff_of_true ?_ rfl
        rw [List.append_assoc, Utf8.valid_append (by decide),
          Utf8.valid_append (decimalInt_valid rc)]
        decide
      · rw [if_neg fun h => ho h.2, if_pos hrc]
        exact errorResponse_utf8 _
  | script raw status =>
    rw [CodeRun.response, CodeClean, CleanOutput]
    by_cases hs : status = 0
    · rw [if_neg (not_not_intro hs), if_pos hs]
      exact okResponse_utf8 _
    · rw [if_pos hs, if_neg hs]
      exact exitResponse_utf8 status _
  | failed message =>
    exact iff_of_true ((errorResponse_utf8 message).mpr h) trivial

theorem toolResponse_utf8 {toolName : Bytes} (h : Utf8.valid toolName = true) (run : ToolRun) :
    (run.response toolName).utf8 = true ↔ ToolClean run := by
  cases run with
  | noEntry =>
    refine iff_of_true ((errorResponse_utf8 _).mpr ?_) trivial
    rw [Utf8.valid_append (by decide)]
    exact h
  | noPython => exact iff_of_true ((errorResponse_utf8 _).mpr (by decide)) trivial
  | ran run =>
    rw [ToolRun.response, ToolClean, CleanOutput]
    by_cases hrc : run.result.2 = 0
    · rw [if_neg (not_not_intro hrc), if_pos hrc]
      exact okResponse_utf8 _
    · rw [if_pos hrc, if_neg hrc]
      exact exitResponse_utf8 _ _

end Responses

section Calls

variable {σ : Type} {sys : System σ} {readFloat : Bytes → Option NumberText}
  {truncate : NumberText → ℤ} {what : Bytes → Bytes} {s : σ}

theorem returns_call {α : Type} (x : StateM σ α) (good : α → σ → Prop) :
    Returns (call x) good s ↔ good (x s).1 (x s).2 := Iff.rfl

/-- The proxy answers with a value that can be written, or with null. -/
theorem returns_forwardRequest {req : Json} (h : req.utf8 = true) :
    Returns (forwardRequest sys readFloat req) (fun reply _ => reply.utf8 = true) s := by
  obtain ⟨payload, hp⟩ := (succeeds_dump req).mpr h
  rw [forwardRequest, returns_bind, returns_call]
  by_cases hc : (sys.connectToSandbox s).1 = true
  · rw [if_pos hc, returns_ok hp, returns_bind, returns_call]
    split
    · rfl
    · next text _ =>
      split
      · next j hj => exact (parse_utf8 hj).2
      · rfl
  · rw [if_neg hc]
    rfl

theorem codeRequest_utf8 {code : Bytes} (h : Utf8.valid code = true) (timeout : ℤ) :
    (codeRequest code timeout).utf8 = true := by
  rw [codeRequest, utf8_object [bytes "command", bytes "code", bytes "timeout"] rfl (by decide)]
  simp [utf8Members, Json.utf8, h, show Utf8.valid (bytes "command") = true by decide,
    show Utf8.valid (bytes "code") = true by decide,
    show Utf8.valid (bytes "timeout") = true by decide,
    show Utf8.valid (bytes "execute_code") = true by decide]

theorem packageRequest_utf8 {type name : Bytes} (ht : Utf8.valid type = true)
    (hn : Utf8.valid name = true) : (packageRequest type name).utf8 = true := by
  rw [packageRequest, utf8_object [bytes "command", bytes "type", bytes "name"] rfl (by decide)]
  simp [utf8Members, Json.utf8, ht, hn, show Utf8.valid (bytes "command") = true by decide,
    show Utf8.valid (bytes "type") = true by decide,
    show Utf8.valid (bytes "name") = true by decide,
    show Utf8.valid (bytes "install_package") = true by decide]

/-- From every state the result is good. -/
def Always {α : Type} (good : α → Prop) (x : StateM σ α) : Prop := ∀ s, good (x s).1

theorem always_pure {α : Type} {good : α → Prop} {a : α} (h : good a) :
    Always good (pure a : StateM σ α) := fun _ => h

theorem always_bind {α β : Type} {good : β → Prop} {x : StateM σ α} {f : α → StateM σ β}
    (h : ∀ a, Always good (f a)) : Always good (x >>= f) := fun s => h (x s).1 (x s).2

theorem runScript_sound (code : Bytes) : Always Sound (runScript sys code) := by
  apply always_bind
  intro python
  by_cases hp : python = []
  · rw [if_pos hp]
    exact always_pure (show Utf8.valid _ = true by decide)
  · rw [if_neg hp]
    apply always_bind
    intro path
    cases path with
    | none => exact always_pure (show Utf8.valid _ = true by decide)
    | some path =>
      apply always_bind
      intro _
      apply always_bind
      intro ran
      apply always_bind
      intro _
      cases ran with
      | none => exact always_pure (show Utf8.valid _ = true by decide)
      | some ran => exact always_pure trivial

theorem runLocally_sound (code : Bytes) : Always Sound (runLocally sys code) := by
  apply always_bind
  intro initialized
  cases initialized with
  | false => exact runScript_sound code
  | true =>
    apply always_bind
    intro ran
    exact always_pure trivial

theorem returns_executeCode {code : Bytes} (h : Utf8.valid code = true) (timeout : ℤ) :
    Returns (handleExecuteCode sys readFloat code timeout)
        (fun run _ => run.response.utf8 = true) s ↔
      Returns (handleExecuteCode sys readFloat code timeout) (fun run _ => CodeClean run) s := by
  rw [handleExecuteCode, returns_bind, returns_bind]
  apply returns_congr_of (returns_forwardRequest (codeRequest_utf8 h timeout))
  intro reply t hreply
  by_cases he : reply.empty = true
  · rw [if_pos he]
    exact codeResponse_utf8 (runLocally_sound code t)
  · rw [if_neg he]
    exact codeResponse_utf8 hreply

theorem returns_installPackage {type name : Bytes} (ht : Utf8.valid type = true)
    (hn : Utf8.valid name = true) :
    Returns (handleInstallPackage sys readFloat type name) (fun r _ => r.utf8 = true) s := by
  rw [handleInstallPackage, returns_bind]
  refine (returns_congr_of (returns_forwardRequest (packageRequest_utf8 ht hn)) ?_).mpr
    (returns_forwardRequest (packageRequest_utf8 ht hn))
  intro reply t hreply
  refine iff_of_true ?_ hreply
  by_cases he : reply.empty = true
  · rw [if_pos he]
    exact (errorResponse_utf8 _).mpr (by decide)
  · rw [if_neg he]
    exact hreply

theorem cliResult_iff {cliTool : Bytes} (h : Utf8.valid cliTool = true) (output : Bytes)
    (code : ℤ) :
    (∃ result, cliResult readFloat cliTool output code = .ok result ∧ result.utf8 = true) ↔
      CliClean readFloat output := by
  rw [cliResult, CliClean]
  have hkeys : Utf8.valid (bytes "exit_code") = true ∧ Utf8.valid (bytes "tool") = true ∧
      Utf8.valid (bytes "output") = true := by decide
  cases hp : parse readFloat output with
  | error e =>
    have htool : bytes "tool" ∉ [(bytes "exit_code", Json.int code)].map Prod.fst := by
      rw [List.map_singleton, List.mem_singleton]
      exact show bytes "tool" ≠ bytes "exit_code" by decide
    have hnew : bytes "output" ∉ (insertMember (bytes "tool") (.str cliTool)
        [(bytes "exit_code", Json.int code)]).map Prod.fst := by
      rw [insertMember_keys]
      simp only [List.map_cons, List.map_nil, List.mem_singleton]
      decide
    have hmembers : utf8Members (insertMember (bytes "output") (.str output)
        (insertMember (bytes "tool") (.str cliTool) [(bytes "exit_code", .int code)])) =
          Utf8.valid output := by
      rw [utf8Members_insert_new hnew, utf8Members, utf8Members_insert_new htool]
      simp [utf8Members, Json.utf8, h, hkeys]
    rw [← hmembers]
    constructor
    · rintro ⟨result, hr, hu⟩
      obtain rfl := Except.ok.inj hr
      exact hu
    · exact fun hu => ⟨_, rfl, hu⟩
  | ok parsed =>
    have hu := (parse_utf8 hp).2
    cases parsed with
    | null =>
      refine iff_of_true ⟨_, rfl, ?_⟩ (.inl rfl)
      simp [utf8Members, Json.utf8, hkeys]
    | obj m =>
      refine iff_of_true ⟨_, rfl, ?_⟩ (.inr ⟨m, rfl⟩)
      exact utf8Members_insert hkeys.1 rfl hu
    | _ =>
      -- the handler does again what has just thrown
      refine iff_of_false ?_ (by simp)
      rintro ⟨result, hr, -⟩
      cases hr

/-- The response of a command is there and can be written exactly if the output is clean. -/
theorem cliResponse_iff {cliTool : Bytes} (h : Utf8.valid cliTool = true) {run : CliRun}
    (hpath : ∀ path, run = .notFound path → Utf8.valid path = true) :
    (∃ r, run.response readFloat cliTool = .ok r ∧ r.utf8 = true) ↔ CliRunClean readFloat run := by
  cases run with
  | notFound path =>
    refine iff_of_true ⟨_, rfl, (errorResponse_utf8 _).mpr ?_⟩ trivial
    rw [Utf8.valid_append (by decide)]
    exact hpath path rfl
  | noPipe =>
    refine iff_of_true ⟨_, rfl, (errorResponse_utf8 _).mpr ?_⟩ trivial
    rw [Utf8.valid_append (by decide)]
    exact h
  | ran raw status =>
    rw [CliRunClean, ← cliResult_iff h _ (exitCode status), CliRun.response]
    constructor
    · rintro ⟨r, hr, -⟩
      obtain ⟨t, ht, -⟩ := map_eq_ok.mp hr
      obtain ⟨result, hresult, hdump⟩ := bind_eq_ok.mp ht
      exact ⟨result, hresult, (succeeds_dump result).mp ⟨t, hdump⟩⟩
    · rintro ⟨result, hresult, hu⟩
      obtain ⟨t, ht⟩ := (succeeds_dump result).mpr hu
      exact ⟨okResponse t, map_eq_ok.mpr ⟨t, bind_eq_ok.mpr ⟨result, hresult, ht⟩, rfl⟩,
        (okResponse_utf8 t).mpr (dump_valid ht)⟩

theorem binPath_valid {cliTool : Bytes} (h : Utf8.valid cliTool = true) :
    Utf8.valid (binPath cliTool) = true := by
  rw [binPath]
  split_ifs
  · exact h
  · rw [Utf8.valid_append (by decide)]
    exact h

theorem runCli_path {cliTool : Bytes} (h : Utf8.valid cliTool = true) (cliArgs : Bytes) :
    Always (fun run => ∀ path, run = .notFound path → Utf8.valid path = true)
      (runCli sys cliTool cliArgs) := by
  apply always_bind
  intro there
  cases there with
  | false =>
    apply always_pure
    rintro path ⟨⟩
    exact binPath_valid h
  | true =>
    apply always_bind
    intro ran
    cases ran with
    | none => exact always_pure nofun
    | some ran => exact always_pure nofun

theorem returns_cli {cliTool : Bytes} (h : Utf8.valid cliTool = true) (cliArgs : Bytes) :
    Returns (do
        let run ← call (runCli sys cliTool cliArgs)
        liftM (caught (run.response readFloat cliTool))) (fun r _ => r.utf8 = true) s ↔
      CliRunClean readFloat (runCli sys cliTool cliArgs s).1 := by
  rw [returns_bind, returns_call, returns_lift]
  exact cliResponse_iff h (runCli_path h cliArgs s)

theorem succeeds_getString (j : Json) : Succeeds j.getString ↔ ∃ t, j = .str t := by
  cases j <;> simp [Json.getString]

/-- A manifest can be read exactly if it is typed. -/
theorem succeeds_readRuntime (toolName : Bytes) (j : Json) :
    Succeeds (readRuntime toolName j) ↔ TypedManifest j := by
  have hentry : Succeeds (entryText j) ↔ ∀ v ∈ (j.member? (bytes "entry_point")).or
      (j.member? (bytes "entrypoint")), ∃ t, v = .str t := by
    rw [entryText]
    cases j.member? (bytes "entry_point") with
    | some v =>
      rw [Option.some_or, succeeds_getString]
      simp
    | none =>
      rw [Option.none_or]
      cases j.member? (bytes "entrypoint") with
      | some v => simp [succeeds_getString]
      | none => simp
  rw [readRuntime, succeeds_bind, TypedManifest, ← hentry]
  cases j with
  | obj m =>
    rw [Json.valueString, Json.value, Json.member?]
    cases m.lookup (bytes "runtime") with
    | none => simp
    | some v => cases v <;> simp [Json.getString]
  | _ => exact iff_of_false (by simp [Json.valueString, Json.value]) (by simp)

theorem returns_tool {toolName : Bytes} (h : Utf8.valid toolName = true) (argsStr : Bytes) :
    Returns (handleTool sys readFloat toolName argsStr) (fun r _ => r.utf8 = true) s ↔
      ToolReturns sys readFloat toolName argsStr s := by
  rw [handleTool, detectRuntime, returns_bind, returns_bind, returns_call, ToolReturns]
  rcases findManifest sys readFloat toolName kToolSearchPaths s with ⟨found, t⟩
  cases found with
  | none =>
    dsimp only
    rw [returns_pure, returns_bind, returns_call]
    exact toolResponse_utf8 h _
  | some j =>
    dsimp only
    rw [returns_lift, ← succeeds_readRuntime toolName]
    simp only [returns_bind, returns_call, returns_pure, toolResponse_utf8 h]
    constructor
    · rintro ⟨d, hd, hclean⟩
      refine ⟨⟨d, hd⟩, ?_⟩
      intro d' hd'
      obtain rfl := Except.ok.inj (hd.symm.trans hd')
      exact hclean
    · rintro ⟨⟨d, hd⟩, hclean⟩
      exact ⟨d, hd, hclean d hd⟩

theorem startSession_utf8 {mode : Bytes} (h : Utf8.valid mode = true) (cliTool cliArgs : Bytes)
    (timeout : ℤ) :
    Always (fun r => r.utf8 = true) (startSession sys cliTool cliArgs mode timeout) := by
  apply always_bind
  intro created
  cases created with
  | none => exact always_pure ((errorResponse_utf8 _).mpr (by decide))
  | some id =>
    apply always_pure
    have hid : Utf8.valid (sessionId id.1 id.2) = true := by
      rw [sessionId, List.append_assoc, List.append_assoc, Utf8.valid_append (by decide),
        Utf8.valid_append (decimalInt_valid _), Utf8.valid_append (by decide)]
      exact decimalInt_valid _
    rw [utf8_object [bytes "status", bytes "session_id", bytes "mode"] rfl (by decide)]
    simp [utf8Members, Json.utf8, h, hid, show Utf8.valid (bytes "status") = true by decide,
      show Utf8.valid (bytes "ok") = true by decide,
      show Utf8.valid (bytes "session_id") = true by decide,
      show Utf8.valid (bytes "mode") = true by decide]

theorem sendToSession_utf8 {sid : Bytes} (h : Utf8.valid sid = true) (input : Bytes)
    (timeout : ℤ) : (sendToSession sys sid input timeout s).1.utf8 = true ↔
      Utf8.valid (sys.sendInput sid input timeout s).1 = true := by
  change (Json.object [(bytes "status", .str (bytes "ok")), (bytes "session_id", .str sid),
    (bytes "output", .str (sys.sendInput sid input timeout s).1)]).utf8 = true ↔ _
  rw [utf8_object [bytes "status", bytes "session_id", bytes "output"] rfl (by decide)]
  simp [utf8Members, Json.utf8, h, show Utf8.valid (bytes "status") = true by decide,
    show Utf8.valid (bytes "ok") = true by decide,
    show Utf8.valid (bytes "session_id") = true by decide,
    show Utf8.valid (bytes "output") = true by decide]

theorem readSession_utf8 {sid : Bytes} (h : Utf8.valid sid = true) (timeout : ℤ) :
    (readSession sys sid timeout s).1.utf8 = true ↔
      Utf8.valid (sys.readOutput sid timeout s).1 = true := by
  change (Json.object [(bytes "status", .str (bytes "ok")), (bytes "session_id", .str sid),
    (bytes "output", .str (sys.readOutput sid timeout s).1), (bytes "active", .bool _)]).utf8 =
      true ↔ _
  rw [utf8_object [bytes "status", bytes "session_id", bytes "output", bytes "active"] rfl
    (by decide)]
  simp [utf8Members, Json.utf8, h, show Utf8.valid (bytes "status") = true by decide,
    show Utf8.valid (bytes "ok") = true by decide,
    show Utf8.valid (bytes "session_id") = true by decide,
    show Utf8.valid (bytes "output") = true by decide,
    show Utf8.valid (bytes "active") = true by decide]

theorem session_utf8 (x : Session) : x.json.utf8 = true := by
  rw [Session.json, utf8_object [bytes "id", bytes "tool", bytes "active"] rfl (by decide)]
  simp [utf8Members, Json.utf8, x.utf8, show Utf8.valid (bytes "id") = true by decide,
    show Utf8.valid (bytes "tool") = true by decide,
    show Utf8.valid (bytes "active") = true by decide]

theorem listOfSessions_utf8 : Always (fun r => r.utf8 = true) (listOfSessions sys) := by
  apply always_bind
  intro sessions
  apply always_pure
  have hlist : utf8List (sessions.map Session.json) = true := by
    rw [utf8List_iff]
    intro j hj
    obtain ⟨x, -, rfl⟩ := List.mem_map.mp hj
    exact session_utf8 x
  rw [utf8_object [bytes "status", bytes "sessions"] rfl (by decide)]
  simp [utf8Members, Json.utf8, hlist, show Utf8.valid (bytes "status") = true by decide,
    show Utf8.valid (bytes "ok") = true by decide,
    show Utf8.valid (bytes "sessions") = true by decide]

end Calls

section Answers

variable {σ : Type} {sys : System σ} {readFloat : Bytes → Option NumberText}
  {truncate : NumberText → ℤ} {what : Bytes → Bytes} {s : σ}

theorem returns_text {β : Type} {req : Json} {key default : Bytes} {f : Bytes → Action Thrown σ β}
    {good : β → σ → Prop} : Returns (text req key default >>= f) good s ↔
      ∃ t, req.valueString key default = .ok t ∧ Returns (f t) good s := by
  rw [text, returns_bind, returns_lift]

theorem returns_integer {β : Type} {req : Json} {key : Bytes} {default : ℤ}
    {f : ℤ → Action Thrown σ β} {good : β → σ → Prop} :
    Returns (integer truncate req key default >>= f) good s ↔
      ∃ i, req.value (getInt truncate) key default = .ok i ∧ Returns (f i) good s := by
  rw [integer, returns_bind, returns_lift]

/-- A branch that refuses an empty text. -/
theorem returns_unless {t message : Bytes} (hm : Utf8.valid message = true)
    {x : Action Thrown σ Json} {accepted : Prop}
    (hx : Returns x (fun r _ => r.utf8 = true) s ↔ accepted) :
    Returns (if t = [] then pure (errorResponse message) else x) (fun r _ => r.utf8 = true) s ↔
      (t ≠ [] → accepted) := by
  by_cases ht : t = []
  · rw [if_pos ht]
    exact iff_of_true ((errorResponse_utf8 message).mpr hm) fun h => absurd ht h
  · rw [if_neg ht, hx]
    exact ⟨fun h _ => h, fun h => h ht⟩

variable {req : Json}

theorem returns_codeCommand (h : req.utf8 = true) :
    Returns (do
        let code ← text req (bytes "code") []
        let timeout ← integer truncate req (bytes "timeout") kCodeExecTimeout
        if code = [] then pure (errorResponse (bytes "No code provided"))
        else
          let run ← handleExecuteCode sys readFloat code timeout
          pure run.response) (fun r _ => r.utf8 = true) s ↔
      ∃ code, req.valueString (bytes "code") [] = .ok code ∧
        ∃ timeout, req.value (getInt truncate) (bytes "timeout") kCodeExecTimeout = .ok timeout ∧
          (code ≠ [] →
            Returns (handleExecuteCode sys readFloat code timeout) (fun run _ => CodeClean run)
              s) := by
  rw [returns_text]
  apply exists_congr
  intro code
  apply and_congr_right
  intro hcode
  rw [returns_integer]
  apply exists_congr
  intro timeout
  apply and_congr_right
  intro _
  apply returns_unless (by decide)
  rw [returns_bind]
  exact returns_executeCode (valueString_utf8 h (by decide) hcode) timeout

theorem returns_packageCommand (h : req.utf8 = true) :
    Returns (do
        let type ← text req (bytes "type") (bytes "pip")
        let name ← text req (bytes "name") []
        if name = [] then pure (errorResponse (bytes "No package name"))
        else handleInstallPackage sys readFloat type name) (fun r _ => r.utf8 = true) s ↔
      Succeeds (req.valueString (bytes "type") (bytes "pip")) ∧
        Succeeds (req.valueString (bytes "name") []) := by
  rw [returns_text, Succeeds, ← exists_and_right]
  apply exists_congr
  intro type
  apply and_congr_right
  intro htype
  rw [returns_text]
  apply exists_congr
  intro name
  constructor
  · exact fun hn => hn.1
  · intro hname
    refine ⟨hname, (returns_unless (by decide) (iff_true_intro ?_)).mpr fun _ => trivial⟩
    exact returns_installPackage (valueString_utf8 h (by decide) htype)
      (valueString_utf8 h (by decide) hname)

theorem returns_cliCommand (h : req.utf8 = true) :
    Returns (do
        let cliTool ← text req (bytes "tool_name") []
        let cliArgs ← text req (bytes "arguments") []
        let _ ← integer truncate req (bytes "timeout") 10
        if cliTool = [] then pure (errorResponse (bytes "No tool_name"))
        else
          let run ← call (runCli sys cliTool cliArgs)
          liftM (caught (run.response readFloat cliTool))) (fun r _ => r.utf8 = true) s ↔
      ∃ cliTool, req.valueString (bytes "tool_name") [] = .ok cliTool ∧
        ∃ cliArgs, req.valueString (bytes "arguments") [] = .ok cliArgs ∧
          Succeeds (req.value (getInt truncate) (bytes "timeout") 10) ∧
            (cliTool ≠ [] → CliRunClean readFloat (runCli sys cliTool cliArgs s).1) := by
  rw [returns_text]
  apply exists_congr
  intro cliTool
  apply and_congr_right
  intro htool
  rw [returns_text]
  apply exists_congr
  intro cliArgs
  apply and_congr_right
  intro _
  rw [returns_integer, Succeeds, ← exists_and_right]
  apply exists_congr
  intro timeout
  apply and_congr_right
  intro _
  exact returns_unless (by decide) (returns_cli (valueString_utf8 h (by decide) htool) cliArgs)

theorem returns_sessionCommand (h : req.utf8 = true) :
    Returns (do
        let cliTool ← text req (bytes "tool_name") []
        let cliArgs ← text req (bytes "arguments") []
        let mode ← text req (bytes "mode") (bytes "interactive")
        let timeout ← integer truncate req (bytes "timeout") 60
        call (startSession sys cliTool cliArgs mode timeout)) (fun r _ => r.utf8 = true) s ↔
      Succeeds (req.valueString (bytes "tool_name") []) ∧
        Succeeds (req.valueString (bytes "arguments") []) ∧
          Succeeds (req.valueString (bytes "mode") (bytes "interactive")) ∧
            Succeeds (req.value (getInt truncate) (bytes "timeout") 60) := by
  simp only [returns_text, returns_integer, Succeeds]
  constructor
  · rintro ⟨cliTool, ht, cliArgs, ha, mode, hm, timeout, hi, -⟩
    exact ⟨⟨cliTool, ht⟩, ⟨cliArgs, ha⟩, ⟨mode, hm⟩, ⟨timeout, hi⟩⟩
  · rintro ⟨⟨cliTool, ht⟩, ⟨cliArgs, ha⟩, ⟨mode, hm⟩, ⟨timeout, hi⟩⟩
    exact ⟨cliTool, ht, cliArgs, ha, mode, hm, timeout, hi,
      startSession_utf8 (valueString_utf8 h (by decide) hm) cliTool cliArgs timeout s⟩

theorem returns_sendCommand (h : req.utf8 = true) :
    Returns (do
        let sid ← text req (bytes "session_id") []
        let input ← text req (bytes "input") []
        let timeout ← integer truncate req (bytes "read_timeout_ms") 2000
        call (sendToSession sys sid input timeout)) (fun r _ => r.utf8 = true) s ↔
      ∃ sid, req.valueString (bytes "session_id") [] = .ok sid ∧
        ∃ input, req.valueString (bytes "input") [] = .ok input ∧
          ∃ timeout, req.value (getInt truncate) (bytes "read_timeout_ms") 2000 = .ok timeout ∧
            Utf8.valid (sys.sendInput sid input timeout s).1 = true := by
  rw [returns_text]
  apply exists_congr
  intro sid
  apply and_congr_right
  intro hsid
  have hvalid := valueString_utf8 h (by decide) hsid
  simp only [returns_text, returns_integer, returns_call, sendToSession_utf8 hvalid]

theorem returns_readCommand (h : req.utf8 = true) :
    Returns (do
        let sid ← text req (bytes "session_id") []
        let timeout ← integer truncate req (bytes "read_timeout_ms") 1000
        call (readSession sys sid timeout)) (fun r _ => r.utf8 = true) s ↔
      ∃ sid, req.valueString (bytes "session_id") [] = .ok sid ∧
        ∃ timeout, req.value (getInt truncate) (bytes "read_timeout_ms") 1000 = .ok timeout ∧
          Utf8.valid (sys.readOutput sid timeout s).1 = true := by
  rw [returns_text]
  apply exists_congr
  intro sid
  apply and_congr_right
  intro hsid
  have hvalid := valueString_utf8 h (by decide) hsid
  simp only [returns_integer, returns_call, readSession_utf8 hvalid]

theorem returns_toolCommand (h : req.utf8 = true) :
    Returns (do
        let tool ← text req (bytes "tool") []
        let args ← text req (bytes "args") (bytes "\x7b\x7d")
        if tool = [] then pure (errorResponse (bytes "No tool specified"))
        else handleTool sys readFloat tool args) (fun r _ => r.utf8 = true) s ↔
      ∃ tool, req.valueString (bytes "tool") [] = .ok tool ∧
        ∃ args, req.valueString (bytes "args") (bytes "\x7b\x7d") = .ok args ∧
          (tool ≠ [] → ToolReturns sys readFloat tool args s) := by
  rw [returns_text]
  apply exists_congr
  intro tool
  apply and_congr_right
  intro htool
  rw [returns_text]
  apply exists_congr
  intro args
  apply and_congr_right
  intro _
  exact returns_unless (by decide) (returns_tool (valueString_utf8 h (by decide) htool) args)

theorem returns_handle (h : req.utf8 = true) :
    Returns (handle sys readFloat truncate req) (fun r _ => r.utf8 = true) s ↔
      ∃ command, req.valueString (bytes "command") [] = .ok command ∧
        Accepts sys readFloat truncate command req s := by
  rw [handle, returns_text]
  apply exists_congr
  intro command
  apply and_congr_right
  intro _
  rw [Accepts]
  by_cases hdiag : command = bytes "diag"
  · rw [if_pos hdiag, if_pos hdiag]
    refine iff_of_true ((okResponse_utf8 _).mpr ?_) trivial
    rw [Utf8.valid_append (by decide)]
    exact decimalInt_valid _
  rw [if_neg hdiag, if_neg hdiag]
  by_cases hcode : command = bytes "execute_code"
  · rw [if_pos hcode, if_pos hcode]
    exact returns_codeCommand h
  rw [if_neg hcode, if_neg hcode]
  by_cases hpackage : command = bytes "install_package"
  · rw [if_pos hpackage, if_pos hpackage]
    exact returns_packageCommand h
  rw [if_neg hpackage, if_neg hpackage]
  by_cases hcli : command = bytes "execute_cli"
  · rw [if_pos hcli, if_pos hcli]
    exact returns_cliCommand h
  rw [if_neg hcli, if_neg hcli]
  by_cases hsession : command = bytes "execute_cli_session"
  · rw [if_pos hsession, if_pos hsession]
    exact returns_sessionCommand h
  rw [if_neg hsession, if_neg hsession]
  by_cases hsend : command = bytes "cli_session_send"
  · rw [if_pos hsend, if_pos hsend]
    exact returns_sendCommand h
  rw [if_neg hsend, if_neg hsend]
  by_cases hread : command = bytes "cli_session_read"
  · rw [if_pos hread, if_pos hread]
    exact returns_readCommand h
  rw [if_neg hread, if_neg hread]
  by_cases hclose : command = bytes "cli_session_close"
  · rw [if_pos hclose, if_pos hclose, returns_text]
    apply exists_congr
    intro sid
    have hu : (Json.object [(bytes "status", .str (bytes "ok"))]).utf8 = true := by decide
    exact ⟨fun hs => hs.1, fun hs => ⟨hs, hu⟩⟩
  rw [if_neg hclose, if_neg hclose]
  by_cases hlist : command = bytes "cli_session_list"
  · rw [if_pos hlist, if_pos hlist]
    exact iff_of_true (listOfSessions_utf8 s) trivial
  rw [if_neg hlist, if_neg hlist]
  exact returns_toolCommand h

/-- A payload is answered exactly if it is acceptable. -/
theorem returns_respond {raw : Bytes} :
    Returns (respond sys readFloat truncate what raw) (fun _ _ => True) s ↔
      Acceptable sys readFloat truncate what raw s := by
  rw [respond, Acceptable]
  cases hp : parse readFloat raw with
  | error e =>
    dsimp only
    have hbad : Utf8.valid (bytes "Bad JSON: " ++ what raw) = Utf8.valid (what raw) :=
      Utf8.valid_append (by decide) _
    rw [returns_lift, ← hbad, ← errorResponse_utf8, ← succeeds_dump]
    exact exists_congr fun t => and_iff_left trivial
  | ok req =>
    dsimp only
    rw [returns_bind, ← returns_handle (parse_utf8 hp).2]
    apply returns_congr
    intro resp t
    rw [returns_lift, ← succeeds_dump]
    exact exists_congr fun text => and_iff_left trivial

end Answers

namespace Counterexample

/-- A system without a sandbox and without Python, whose commands write the same bytes. -/
def writing (output : Bytes) : System Unit where
  pid := 1
  connectToSandbox := pure false
  exchange _ := pure none
  isInitialized := pure false
  runCode _ := pure ([], 0)
  findPython3 := pure []
  mkstemps := pure none
  writeFile _ _ := pure ()
  unlink _ := pure ()
  popen _ := pure (some (output, 0))
  fileExists _ := pure true
  readable _ := pure true
  skillFiles _ := pure ⟨[], none, none⟩
  runCommand _ := pure (.ended output 0)
  createSession _ _ _ _ := pure none
  sendInput _ _ _ := pure output
  readOutput _ _ := pure output
  isActive _ := pure none
  closeSession _ := pure ()
  listSessions := pure []

end Counterexample

end ToolTotality
