import TizenClaw.ByteLines
import TizenClaw.OrderedMap
import TizenClaw.ShellReader
import TizenClaw.ToolRuns

/-! The command lines that the system commands of a whitelist are run with, and what a shell runs
for them. -/
namespace SystemCli

open ByteString ByteLines JsonValue JsonDump TryBlock OrderedMap ShellReader ToolExecutor ToolRuns
open StreamDecoders (cString cString_of_nul_free)
open IpcHandler (Thrown caught)
open JsonParse (InRange)
open JsonRoundTrip (Storable)

section Adapter

structure SystemCliToolConfig where
  binaryPath : Bytes
  blockedArgs : List Bytes := []
  timeoutSeconds : Int32 := 10
  deriving DecidableEq

/-- `tools_` of the adapter. -/
abbrev Whitelist := Map Bytes SystemCliToolConfig

variable (tools : Whitelist)

def hasTool (name : Bytes) : Bool := tools.contains name

def resolve (name : Bytes) : Bytes :=
  match tools.get name with
  | none => []
  | some config => config.binaryPath

/-- The first pattern that appears in the arguments blocks them. -/
def validateArguments (name arguments : Bytes) : Bytes :=
  match tools.get name with
  | none => bytes "Tool not found: " ++ name
  | some config =>
    match config.blockedArgs.find? fun blocked => (find blocked arguments).isSome with
    | some blocked => bytes "Blocked argument '" ++ blocked ++
        bytes "' is not allowed for tool '" ++ name ++ bytes "'"
    | none => []

def getTimeout (name : Bytes) : Int32 :=
  match tools.get name with
  | none => 10
  | some config => config.timeoutSeconds

/-- The host of an agent with this whitelist. -/
def onHost (host : Host) : Host :=
  { host with
    hasTool := hasTool tools
    validateArguments := validateArguments tools
    getTimeout := getTimeout tools
    resolve := resolve tools }

end Adapter

section Lines

variable {σ α : Type}

/-- A call of the system, with the command lines that it hands to a shell. -/
def noting (x : StateM σ α) (lines : α → List Bytes) : StateM (σ × List Bytes) α := fun t =>
  let y := x t.1
  (y.1, (y.2, t.2 ++ lines y.1))

/-- The system of the executor with a list of the command lines that a shell was started for. -/
def noted (sys : System σ) : System (σ × List Bytes) where
  pid := sys.pid
  connectToSandbox := noting sys.connectToSandbox fun _ => []
  exchange payload := noting (sys.exchange payload) fun _ => []
  isInitialized := noting sys.isInitialized fun _ => []
  runCode code := noting (sys.runCode code) fun _ => []
  findPython3 := noting sys.findPython3 fun _ => []
  mkstemps := noting sys.mkstemps fun _ => []
  writeFile path s := noting (sys.writeFile path s) fun _ => []
  unlink path := noting (sys.unlink path) fun _ => []
  popen cmd := noting (sys.popen cmd) fun ran => if ran.isSome then [cmd] else []
  fileExists path := noting (sys.fileExists path) fun _ => []
  readable path := noting (sys.readable path) fun _ => []
  skillFiles dir := noting (sys.skillFiles dir) fun _ => []
  runCommand cmd := noting (sys.runCommand cmd) fun run => if run = .refused then [] else [cmd]
  createSession path args mode timeout :=
    noting (sys.createSession path args mode timeout) fun _ => []
  sendInput sid input timeout := noting (sys.sendInput sid input timeout) fun _ => []
  readOutput sid timeout := noting (sys.readOutput sid timeout) fun _ => []
  isActive sid := noting (sys.isActive sid) fun _ => []
  closeSession sid := noting (sys.closeSession sid) fun _ => []
  listSessions := noting sys.listSessions fun _ => []

def cliLine (path arguments : Bytes) : Bytes := path ++ [space] ++ arguments ++ bytes " 2>&1"

variable (sys : System σ) (readFloat : Bytes → Option NumberText) (truncate : NumberText → ℤ)
  (what : Bytes → Bytes) (host : Host) (delivery : Delivery)

/-- The lines that `ExecuteCli` hands to a shell: those on the list of the executor, and that of the
host for each run that is counted besides. -/
def handed (noPipe toolName arguments : Bytes) (s : σ) : List Bytes :=
  let t := ((executeCli (counted (noted sys) (fun _ _ => false) fun _ _ => false) readFloat truncate
    what host delivery noPipe toolName arguments).run ((s, []), 0)).2
  t.1.2 ++ List.replicate (t.2 - t.1.2.length) (cliLine (host.resolve toolName) arguments)

/-- The executor serves the request, has the binary, and starts the command. -/
def ExecutorRuns (toolName arguments : Bytes) (s : σ) : Prop :=
  host.initialized = true ∧
    delivery.serves (cliRequest toolName arguments (host.getTimeout toolName).toInt) = true ∧
    (sys.fileExists (binPath toolName) s).1 = true ∧
    (sys.popen (cliLine (binPath toolName) arguments)
      (sys.fileExists (binPath toolName) s).2).1.isSome = true

/-- Nothing that the agent can use comes back for a request, which the executor would answer with
this response. -/
def Unanswered (req : Json) (resp : Except Thrown Json) : Prop :=
  match delivery with
  | .notConnected => True
  | .notSent => req.utf8 = true
  | .sent false answer => req.utf8 = true ∧ ∀ text, answer = .garbled text →
      readAnswer readFloat req text = [] ∨ readAnswer readFloat req text = emptyObject
  | .sent true answer => req.utf8 = true ∧
      Unheard readFloat (fun result => result = [] ∨ result = emptyObject) req
        (if delivery.serves req = true then resp
          else .ok (errorResponse (bytes "Payload too large"))) answer

/-- The agent has nothing that it can use from the executor, and the host starts the command. -/
def HostRuns (toolName arguments : Bytes) (s : σ) : Prop :=
  (host.initialized = true →
    Unanswered readFloat delivery (cliRequest toolName arguments (host.getTimeout toolName).toInt)
      (caught ((runCli sys toolName arguments s).1.response readFloat toolName))) ∧
  (host.popen (cliLine (host.resolve toolName) arguments)).isSome = true

end Lines

section Specification

/-- A shell reads the line as one command with this full path for a name. -/
def RunsOnly (path line : Bytes) : Prop :=
  path.head? = some 0x2F ∧ ∃ ts c v args, tokens (cString line) = some ts ∧ commands ts = [c] ∧
    c.argv = v :: args ∧ v.literal = some path

/-- At most one line, and nothing but the binary is run for it. -/
def Confined (path : Bytes) (lines : List Bytes) : Prop :=
  lines.length ≤ 1 ∧ ∀ line ∈ lines, RunsOnly path line

/-- The line starts with a word for the path. Behind it no quote is left open, no command is
substituted, and behind an operator stands no name. -/
def Names (path line : Bytes) : Prop :=
  path.head? = some 0x2F ∧ ∃ w ts, tokens (cString line) = some (.word w :: ts) ∧
    Word.literal w = some path ∧ harmless ts = true

end Specification

section Reading

variable {path line : Bytes}

/-- A word with a slash in front is no assignment. -/
theorem isAssignment_slash (w : Word) : Word.isAssignment (.plain 0x2F :: w) = false := rfl

theorem runsOnly_iff {line : Bytes} (h : line.head? = some 0x2F) :
    RunsOnly path line ↔ Names path line := by
  obtain ⟨rest, rfl⟩ : ∃ rest, line = 0x2F :: rest := by
    cases line with
    | nil => cases h
    | cons b rest => exact ⟨rest, congrArg (· :: rest) (Option.some.inj h)⟩
  have hcut : cString (0x2F :: rest) = 0x2F :: cString rest := rfl
  have hfirst : ∀ {ts}, tokens (cString (0x2F :: rest)) = some ts →
      ∃ w ts', ts = .word (.plain 0x2F :: w) :: ts' := by
    intro ts hts
    rw [hcut] at hts
    exact tokens_first (by decide) (by decide) hts
  constructor
  · rintro ⟨hpath, ts, c, v, args, hts, hc, hargv, hv⟩
    obtain ⟨w, ts', rfl⟩ := hfirst hts
    have hsole := (sole_command_iff (isAssignment_slash w) ts').mp ⟨c, v, args, hc, hargv, hv⟩
    exact ⟨hpath, _, ts', hts, hsole.1, hsole.2⟩
  · rintro ⟨hpath, w, ts, hts, hw, hharmless⟩
    obtain ⟨v, ts', he⟩ := hfirst hts
    obtain ⟨hword, rfl⟩ := List.cons.inj he
    obtain rfl := Token.word.inj hword
    obtain ⟨c, u, args, hc, hargv, hu⟩ :=
      (sole_command_iff (isAssignment_slash v) ts).mpr ⟨hw, hharmless⟩
    exact ⟨hpath, _, c, u, args, hts, hc, hargv, hu⟩

/-- Behind a word of ordinary bytes the rest of the line is read on its own. -/
theorem names_ordinary_iff {p arguments : Bytes} (hp : ∀ b ∈ p, b ∉ reserved)
    (hslash : p.head? = some 0x2F) :
    Names path (cliLine p arguments) ↔
      p = path ∧ ∃ ts, tokens (cString (arguments ++ bytes " 2>&1")) = some ts ∧
        harmless ts = true := by
  have hne : p ≠ [] := by
    rintro rfl
    cases hslash
  have hzero : ∀ b ∈ p ++ [space], decide (b ≠ 0) = true := by
    have hreserved : (0 : UInt8) ∈ reserved := by decide
    rw [List.forall_mem_append, List.forall_mem_singleton]
    exact ⟨fun b hb => decide_eq_true fun hz => hp b hb (hz ▸ hreserved), by decide⟩
  have hcut : cString (cliLine p arguments) =
      p ++ space :: cString (arguments ++ bytes " 2>&1") := by
    rw [cliLine, List.append_assoc (p ++ [space]), cString,
      List.takeWhile_append_of_pos hzero, List.append_assoc]
    rfl
  have hline : tokens (cString (cliLine p arguments)) =
      (tokens (cString (arguments ++ bytes " 2>&1"))).map (.word (p.map .plain) :: ·) := by
    have hread : read start p = some (ready ⟨[], some (p.map .plain)⟩) :=
      @read_ordinary {} p hne hp
    rw [hcut, tokens, read_append, hread, Option.bind_some, tokens_word]
  have hliteral : Word.literal (p.map .plain) = some p := literal_plain hp
  rw [Names, hline]
  constructor
  · rintro ⟨-, w, ts, hts, hw, hharmless⟩
    obtain ⟨ts', hts', he⟩ := Option.map_eq_some_iff.mp hts
    obtain ⟨hword, rfl⟩ := List.cons.inj he
    obtain rfl := Token.word.inj hword
    exact ⟨Option.some.inj (hliteral.symm.trans hw), ts', hts', hharmless⟩
  · rintro ⟨rfl, ts, hts, hharmless⟩
    exact ⟨hslash, _, ts, by rw [hts]; rfl, hliteral, hharmless⟩

end Reading

section Handing

variable {σ : Type} {sys : System σ} {readFloat : Bytes → Option NumberText}
  {truncate : NumberText → ℤ} {what : Bytes → Bytes} {host : Host} {delivery : Delivery}
  {req : Json} {toolName arguments noPipe : Bytes} {s : σ}

/-- The lines that the executor hands over for a command. -/
def ranLines (line : Bytes) : CliRun → List Bytes
  | .ran _ _ => [line]
  | _ => []

/-- A result that the agent cannot use, where there is one. -/
def Fruitless (r : Except Thrown Bytes) : Prop :=
  ∃ result, r = .ok result ∧ (result = [] ∨ result = emptyObject)

@[simp] theorem fruitless_ok {result : Bytes} :
    Fruitless (.ok result) ↔ result = [] ∨ result = emptyObject := by
  simp [Fruitless]

theorem not_fruitless_error (e : Thrown) : ¬ Fruitless (.error e) := by
  rintro ⟨result, h, -⟩
  cases h

theorem run_undumped {e : JsonException} (hd : dump req = .error e) (resp : Except Thrown Json) :
    ∃ r, (executeToolExecutorCommand sys readFloat truncate what delivery req).run s = (r, s) ∧
      (Fruitless r ↔ Unanswered readFloat delivery req resp) := by
  have hutf8 : ¬ req.utf8 = true := by
    rw [← succeeds_dump, hd]
    exact succeeds_error e
  have hthrown := not_fruitless_error (.json e)
  cases delivery with
  | notConnected => exact ⟨.ok emptyObject, rfl, iff_of_true (fruitless_ok.mpr (.inr rfl)) trivial⟩
  | notSent =>
    refine ⟨.error (.json e), ?_, iff_of_false hthrown hutf8⟩
    rw [executeToolExecutorCommand, exchange, hd]
    rfl
  | sent served answer =>
    refine ⟨.error (.json e), ?_, iff_of_false hthrown fun h => ?_⟩
    · rw [executeToolExecutorCommand, exchange, hd]
      rfl
    · cases served with
      | false => exact hutf8 h.1
      | true => exact hutf8 h.1

theorem run_unserved {payload : Bytes} (hd : dump req = .ok payload)
    (hserves : ¬ delivery.serves req = true) (resp : Except Thrown Json) :
    ∃ r, (executeToolExecutorCommand sys readFloat truncate what delivery req).run s = (r, s) ∧
      (Fruitless r ↔ Unanswered readFloat delivery req resp) := by
  have hutf8 : req.utf8 = true := (succeeds_dump req).mp ⟨payload, hd⟩
  have hempty : Fruitless (.ok emptyObject) := fruitless_ok.mpr (.inr rfl)
  cases delivery with
  | notConnected => exact ⟨.ok emptyObject, rfl, iff_of_true hempty trivial⟩
  | notSent =>
    refine ⟨.ok emptyObject, ?_, iff_of_true hempty hutf8⟩
    rw [executeToolExecutorCommand, exchange, hd]
    rfl
  | sent served answer =>
    cases served with
    | false =>
      have hexchange : (exchange sys readFloat truncate what (.sent false answer) req).run s =
          (.ok (received answer none), s) := by
        rw [exchange, hd]
        rfl
      refine ⟨_, run_bind hexchange, ?_⟩
      rw [Unanswered, and_iff_right hutf8]
      cases answer with
      | lost => exact iff_of_true hempty fun _ h => by cases h
      | whole => exact iff_of_true hempty fun _ h => by cases h
      | garbled text =>
        refine fruitless_ok.trans ⟨fun h _ htext => ?_, fun h => h text rfl⟩
        exact Answer.garbled.inj htext ▸ h
    | true =>
      have hlong : payload.length > kMaxPayload := by
        simpa [Delivery.serves, hd] using hserves
      have hpayload : (liftM (caught (dump req)) : Action Thrown σ Bytes).run s =
          (.ok payload, s) := by
        rw [hd]
        rfl
      have hserve : (call (serve sys readFloat truncate what payload).run :
          Action Thrown σ _).run s =
            (.ok (caught (dump (errorResponse (bytes "Payload too large")))), s) := by
        rw [run_call, serve, if_pos hlong, run_liftM]
      have hexchange : (exchange sys readFloat truncate what (.sent true answer) req).run s =
          (.ok (received answer
            (some (caught (dump (errorResponse (bytes "Payload too large")))))), s) :=
        (run_bind hpayload).trans (run_bind hserve)
      refine ⟨_, run_bind hexchange, fruitless_ok.trans ?_⟩
      rw [Unanswered, and_iff_right hutf8, if_neg hserves]
      exact @unusable_iff_unheard readFloat req (fun result => result = [] ∨ result = emptyObject)
        (.inr rfl) (.ok (errorResponse (bytes "Payload too large"))) answer

/-- The executor keeps its state unless it serves a request, and the agent has nothing that it can
use exactly if the request is unanswered. -/
theorem run_request {resp : Except Thrown Json} {t : σ}
    (hs : req.utf8 = true → Storable readFloat req)
    (h : (handle sys readFloat truncate req).run s = (resp, t)) :
    ∃ r, (executeToolExecutorCommand sys readFloat truncate what delivery req).run s =
        (r, if delivery.serves req = true then t else s) ∧
      (Fruitless r ↔ Unanswered readFloat delivery req resp) := by
  by_cases hserves : delivery.serves req = true
  · obtain ⟨result, hrun, hresult⟩ := @run_executeToolExecutorCommand σ sys readFloat truncate what
      req delivery (fun result => result = [] ∨ result = emptyObject) s t resp hs hserves
      (.inr rfl) h
    refine ⟨.ok result, by rw [hrun, if_pos hserves], fruitless_ok.trans (hresult.trans ?_)⟩
    obtain ⟨answer, payload, rfl, hd, -⟩ := serves_iff.mp hserves
    rw [Unanswered, and_iff_right ((succeeds_dump req).mp ⟨payload, hd⟩), if_pos hserves]
    rfl
  · rw [if_neg hserves]
    cases hd : dump req with
    | error e => exact run_undumped hd resp
    | ok payload => exact run_unserved hd hserves resp

theorem runCli_eq {τ : Type} (sys : System τ) (t : τ) :
    runCli sys toolName arguments t =
      match sys.fileExists (binPath toolName) t with
      | (false, u) => (.notFound (binPath toolName), u)
      | (true, u) => match sys.popen (cliLine (binPath toolName) arguments) u with
        | (none, v) => (.noPipe, v)
        | (some (raw, status), v) => (.ran raw status, v) := by
  have hbind : ∀ {β γ : Type} (x : StateM τ β) (f : β → StateM τ γ) (t : τ),
      (x >>= f) t = f (x t).1 (x t).2 := fun _ _ _ => rfl
  rw [runCli, hbind]
  rcases sys.fileExists (binPath toolName) t with ⟨found, u⟩
  cases found with
  | false => rfl
  | true =>
    change (sys.popen (cliLine (binPath toolName) arguments) >>= _) u = _
    rw [hbind]
    dsimp only
    rcases sys.popen (cliLine (binPath toolName) arguments) u with ⟨_ | ran, v⟩
    · rfl
    · rfl

theorem ranLines_runCli :
    ranLines (cliLine (binPath toolName) arguments) (runCli sys toolName arguments s).1 =
      if (sys.fileExists (binPath toolName) s).1 = true ∧
          (sys.popen (cliLine (binPath toolName) arguments)
            (sys.fileExists (binPath toolName) s).2).1.isSome = true then
        [cliLine (binPath toolName) arguments]
      else [] := by
  rw [runCli_eq]
  rcases sys.fileExists (binPath toolName) s with ⟨_ | _, u⟩
  · rfl
  · dsimp only
    rcases sys.popen (cliLine (binPath toolName) arguments) u with ⟨_ | ran, v⟩
    · rfl
    · rfl

theorem runCli_noted (sandboxRuns pythonRuns : Bytes → σ × List Bytes → Bool) :
    runCli (counted (noted sys) sandboxRuns pythonRuns) toolName arguments ((s, []), 0) =
      ((runCli sys toolName arguments s).1, (((runCli sys toolName arguments s).2,
        ranLines (cliLine (binPath toolName) arguments) (runCli sys toolName arguments s).1),
        (ranLines (cliLine (binPath toolName) arguments)
          (runCli sys toolName arguments s).1).length)) := by
  have hexists : (counted (noted sys) sandboxRuns pythonRuns).fileExists (binPath toolName)
      ((s, []), 0) = ((sys.fileExists (binPath toolName) s).1,
        (((sys.fileExists (binPath toolName) s).2, []), 0)) := rfl
  have hpopen : ∀ u, (counted (noted sys) sandboxRuns pythonRuns).popen
        (cliLine (binPath toolName) arguments) ((u, []), 0) =
      ((sys.popen (cliLine (binPath toolName) arguments) u).1,
        (((sys.popen (cliLine (binPath toolName) arguments) u).2,
          if (sys.popen (cliLine (binPath toolName) arguments) u).1.isSome then
            [cliLine (binPath toolName) arguments] else []),
          0 + if (sys.popen (cliLine (binPath toolName) arguments) u).1.isSome then 1 else 0)) :=
    fun _ => rfl
  rw [runCli_eq, runCli_eq, hexists]
  rcases sys.fileExists (binPath toolName) s with ⟨_ | _, u⟩
  · rfl
  · dsimp only
    rw [hpopen]
    rcases sys.popen (cliLine (binPath toolName) arguments) u with ⟨_ | ran, v⟩
    · rfl
    · rfl

/-- What the executor hands over, and when the agent gets nothing that it can use. -/
theorem run_executeCliTool (hname : toolName ≠ []) {timeout : ℤ} (ht : InRange timeout)
    (sandboxRuns pythonRuns : Bytes → σ × List Bytes → Bool) :
    ∃ r u lines,
      (executeCliTool (counted (noted sys) sandboxRuns pythonRuns) readFloat truncate what host
        delivery toolName arguments timeout).run ((s, []), 0) = (r, ((u, lines), lines.length)) ∧
      lines = (if host.initialized = true ∧
          delivery.serves (cliRequest toolName arguments timeout) = true then
        ranLines (cliLine (binPath toolName) arguments) (runCli sys toolName arguments s).1
        else []) ∧
      (Fruitless r ↔ (host.initialized = true →
        Unanswered readFloat delivery (cliRequest toolName arguments timeout)
          (caught ((runCli sys toolName arguments s).1.response readFloat toolName)))) := by
  unfold executeCliTool
  by_cases hinit : host.initialized = true
  · have hs : (cliRequest toolName arguments timeout).utf8 = true → Storable readFloat _ :=
      storable_cliRequest toolName arguments ht
    let lines := ranLines (cliLine (binPath toolName) arguments) (runCli sys toolName arguments s).1
    have hhandle : (handle (counted (noted sys) sandboxRuns pythonRuns) readFloat truncate
          (cliRequest toolName arguments timeout)).run ((s, []), 0) =
        (caught ((runCli sys toolName arguments s).1.response readFloat toolName),
          (((runCli sys toolName arguments s).2, lines), lines.length)) := by
      rw [handle_cliRequest, if_neg hname, run_bind (run_call _ _), run_liftM, runCli_noted]
    obtain ⟨r, hrun, hfruitless⟩ := @run_request _ (counted (noted sys) sandboxRuns pythonRuns)
      readFloat truncate what delivery _ ((s, []), 0) _ _ hs hhandle
    rw [if_pos hinit, hrun, forall_prop_of_true hinit]
    split_ifs with hserves hboth hboth
    · exact ⟨r, _, _, rfl, rfl, hfruitless⟩
    · exact absurd ⟨hinit, hserves⟩ hboth
    · exact absurd hboth.2 hserves
    · exact ⟨r, s, [], rfl, rfl, hfruitless⟩
  · rw [if_neg hinit]
    refine ⟨.ok emptyObject, s, [], rfl, by simp [hinit], ?_⟩
    exact iff_of_true (fruitless_ok.mpr (.inr rfl)) fun h => absurd h hinit

theorem run_hostCli {path : Bytes} (wrap : ℤ → Bytes → List (Bytes × Json)) (t : σ × ℕ) :
    ((hostCli readFloat host path arguments noPipe wrap : Action Thrown (σ × ℕ) Bytes).run t).2 =
      (t.1, t.2 + if (host.popen (cliLine path arguments)).isSome then 1 else 0) := by
  have hline : path ++ [space] ++ arguments ++ bytes " 2>&1" = cliLine path arguments := rfl
  rw [hostCli, hline]
  cases host.popen (cliLine path arguments) with
  | none => rfl
  | some ran =>
    have hrun : (hostRun : Action Thrown (σ × ℕ) Unit).run t = (.ok (), (t.1, t.2 + 1)) := rfl
    dsimp only
    rw [run_bind hrun]
    split
    · rfl
    · rw [errorObject, run_liftM]
      rfl

/-- A command that is let through is handed over by the executor and by the host, as each runs
it. -/
theorem handed_eq (htool : host.hasTool toolName = true) (hname : toolName ≠ [])
    (hvalid : host.validateArguments toolName arguments = []) :
    ∃ a b, handed sys readFloat truncate what host delivery noPipe toolName arguments s = a ++ b ∧
      (ExecutorRuns sys host delivery toolName arguments s ∧
          a = [cliLine (binPath toolName) arguments] ∨
        ¬ ExecutorRuns sys host delivery toolName arguments s ∧ a = []) ∧
      (HostRuns sys readFloat host delivery toolName arguments s ∧
          b = [cliLine (host.resolve toolName) arguments] ∨
        ¬ HostRuns sys readFloat host delivery toolName arguments s ∧ b = []) := by
  have hlow := (host.getTimeout toolName).le_toInt
  have hhigh := (host.getTimeout toolName).toInt_lt
  have ht : InRange (host.getTimeout toolName).toInt := ⟨by omega, by omega⟩
  obtain ⟨r, u, lines, hrun, hlines, hfruitless⟩ := @run_executeCliTool σ sys readFloat truncate
    what host delivery toolName arguments s hname _ ht (fun _ _ => false) fun _ _ => false
  have hexecutor : ExecutorRuns sys host delivery toolName arguments s ∧
        lines = [cliLine (binPath toolName) arguments] ∨
      ¬ ExecutorRuns sys host delivery toolName arguments s ∧ lines = [] := by
    rw [hlines, ranLines_runCli, ExecutorRuns]
    split_ifs with hserves hran
    · exact .inl ⟨⟨hserves.1, hserves.2, hran⟩, rfl⟩
    · exact .inr ⟨fun h => hran h.2.2, rfl⟩
    · exact .inr ⟨fun h => hserves ⟨h.1, h.2.1⟩, rfl⟩
  -- The runs that are counted besides those of the executor are the ones of the host.
  have hhanded : ∀ k : ℕ,
      ((executeCli (counted (noted sys) (fun _ _ => false) fun _ _ => false) readFloat truncate
        what host delivery noPipe toolName arguments).run ((s, []), 0)).2 =
          ((u, lines), lines.length + k) →
      handed sys readFloat truncate what host delivery noPipe toolName arguments s =
        lines ++ List.replicate k (cliLine (host.resolve toolName) arguments) := by
    intro k hk
    rw [handed, hk]
    simp
  rw [executeCli, if_neg hname, if_pos htool, if_neg (not_not.mpr hvalid), cliWithFallback]
    at hhanded
  cases r with
  | error e =>
    rw [run_bind_error hrun] at hhanded
    refine ⟨lines, [], hhanded 0 rfl, hexecutor, .inr ⟨fun h => ?_, rfl⟩⟩
    exact not_fruitless_error e (hfruitless.mpr h.1)
  | ok result =>
    rw [run_bind hrun] at hhanded
    by_cases hresult : result = [] ∨ result = emptyObject
    · rw [if_pos hresult, run_hostCli] at hhanded
      refine ⟨lines, _, hhanded _ rfl, hexecutor, ?_⟩
      have hunanswered := hfruitless.mp (fruitless_ok.mpr hresult)
      split_ifs with hpopen
      · exact .inl ⟨⟨hunanswered, hpopen⟩, rfl⟩
      · exact .inr ⟨fun h => hpopen h.2, rfl⟩
    · rw [if_neg hresult] at hhanded
      refine ⟨lines, [], hhanded 0 rfl, hexecutor, .inr ⟨fun h => ?_, rfl⟩⟩
      exact hresult (fruitless_ok.mp (hfruitless.mpr h.1))

theorem handed_blocked (htool : host.hasTool toolName = true)
    (h : toolName = [] ∨ host.validateArguments toolName arguments ≠ []) :
    handed sys readFloat truncate what host delivery noPipe toolName arguments s = [] := by
  have hkept : ((executeCli (counted (noted sys) (fun _ _ => false) fun _ _ => false) readFloat
      truncate what host delivery noPipe toolName arguments).run ((s, []), 0)).2 =
        ((s, []), 0) := by
    by_cases hname : toolName = []
    · rw [executeCli, if_pos hname]
      rfl
    · rw [executeCli, if_neg hname, if_pos htool, if_pos (h.resolve_left hname), errorObject,
        run_liftM]
  rw [handed, hkept]
  rfl

end Handing

section Confinement

variable {σ : Type} {sys : System σ} {readFloat : Bytes → Option NumberText}
  {truncate : NumberText → ℤ} {what : Bytes → Bytes} {delivery : Delivery}
  {tools : Whitelist} {toolName arguments noPipe : Bytes} {s : σ}

theorem binPath_head (toolName : Bytes) : (binPath toolName).head? = some 0x2F := by
  rw [binPath]
  split_ifs with h
  · exact h
  · rfl

theorem head_cliLine {path : Bytes} (h : path.head? = some 0x2F) (arguments : Bytes) :
    (cliLine path arguments).head? = some 0x2F := by
  cases path with
  | nil => cases h
  | cons b path => exact h

end Confinement

section DenyList

variable {tools : Whitelist} {config : SystemCliToolConfig} {toolName arguments path : Bytes}

/-- Arguments of ordinary bytes and spaces only. -/
theorem names_of_ordinary (hpath : ∀ b ∈ path, b ∉ reserved) (hslash : path.head? = some 0x2F)
    (harguments : ∀ b ∈ arguments, b ∉ reserved ∨ b = space) :
    Names path (cliLine path arguments) := by
  have hzero : (0 : UInt8) ∉ arguments ++ bytes " 2>&1" := by
    rw [List.mem_append, not_or]
    refine ⟨fun hz => ?_, by decide⟩
    rcases harguments 0 hz with hb | hb
    · exact hb (by decide)
    · exact absurd hb (by decide)
  obtain ⟨c, hread, hwords⟩ :=
    @read_words {} arguments harguments fun _ h => absurd h List.not_mem_nil
  have hlast : bytes " 2>&1" = space :: bytes "2>&1" := by decide
  have hredirect : ∀ done, read (ready ⟨done, none⟩) (bytes "2>&1") =
      some (ready ⟨done ++ [.redirect], some [.plain 0x31]⟩) := fun _ => rfl
  have hended : c.endWord = ⟨c.endWord.done, none⟩ := by rw [← endWord_word c]
  have htokens : tokens (arguments ++ bytes " 2>&1") =
      some (c.endWord.done ++ [.redirect, .word [.plain 0x31]]) := by
    have hstart : start = ready {} := rfl
    rw [tokens, read_append, hstart, hread, Option.bind_some, hlast, read_cons, next_blank,
      Option.bind_some, hended, hredirect, Option.bind_some, finish_ready]
    simp [Content.endWord]
  rw [names_ordinary_iff hpath hslash, cString_of_nul_free hzero, htokens]
  exact ⟨rfl, _, rfl, harmless_words hwords⟩

/-- A list of patterns with every reserved byte but the space leaves nothing but ordinary arguments
through. -/
theorem names_of_blocked (hconfig : tools.get toolName = some config)
    (hblocked : ∀ b ∈ reserved, b ≠ space → [b] ∈ config.blockedArgs)
    (hpath : ∀ b ∈ config.binaryPath, b ∉ reserved)
    (hslash : config.binaryPath.head? = some 0x2F)
    (hvalid : validateArguments tools toolName arguments = []) :
    Names config.binaryPath (cliLine config.binaryPath arguments) := by
  refine names_of_ordinary hpath hslash fun b hb => ?_
  by_contra hno
  rw [not_or, not_not] at hno
  have hfound :
      (config.blockedArgs.find? fun blocked => (find blocked arguments).isSome).isSome := by
    rw [List.find?_isSome]
    obtain ⟨l, t, -, -, hfind⟩ := find_byte_some hb
    exact ⟨[b], hblocked b hno.1 hno.2, by rw [hfind]; rfl⟩
  obtain ⟨blocked, hfind⟩ := Option.isSome_iff_exists.mp hfound
  rw [validateArguments, hconfig] at hvalid
  have hmessage : bytes "Blocked argument '" ≠ [] := by decide
  simp [hfind, hmessage] at hvalid

end DenyList

namespace Counterexample

open ToolRuns.Counterexample (executor host)

def date : SystemCliToolConfig :=
  { binaryPath := bytes "/usr/bin/date", blockedArgs := [bytes "--set"] }

def tools : Whitelist := ⟨[(bytes "date", date)], by decide⟩

end Counterexample

end SystemCli
