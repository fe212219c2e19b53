import TizenClaw.ShellReader
import TizenClaw.ToolRuns

/-! The command lines that are built from escaped arguments, and how a shell reads them. -/
namespace ShellQuoting

open ByteString ShellReader StreamDecoders ToolExecutor ToolRuns

section Specification

/-- A part of a word in a command line: text as it is, or an escaped argument. -/
inductive Part where
  | text (t : Bytes)
  | arg (s : Bytes)
  deriving DecidableEq, Repr

namespace Part

def spell : Part → Bytes
  | .text t => t
  | .arg s => escapeShellArg s

def value : Part → Bytes
  | .text t | .arg t => t

def pieces : Part → Word
  | .text t => t.map .plain
  | .arg s => s.map .quoted

/-- Text that the shell takes as it is, and arguments that a C string can hold. -/
def Fits : Part → Prop
  | .text t => ∀ b ∈ t, b ∉ reserved
  | .arg s => (0 : UInt8) ∉ s

end Part

abbrev Template := List Part

namespace Template

def spell (w : Template) : Bytes := w.flatMap Part.spell

def value (w : Template) : Bytes := w.flatMap Part.value

def pieces (w : Template) : Word := w.flatMap Part.pieces

structure Fits (w : Template) : Prop where
  nonempty : w.spell ≠ []
  parts : ∀ p ∈ w, p.Fits

end Template

def commandLine (ws : List Template) : Bytes := [space].intercalate (ws.map Template.spell)

/-- What a command is run with. -/
structure Invocation where
  environment : List Bytes
  argv : List Bytes
  deriving DecidableEq, Repr

def wordOf : Token → Option Word
  | .word w => some w
  | _ => none

/-- How a line is read that is one command, without redirections and expansions. -/
def invocation (line : Bytes) : Option Invocation := do
  let words ← (← tokens (cString line)).mapM wordOf
  let environment ← (words.takeWhile Word.isAssignment).mapM Word.literal
  let argv ← (words.dropWhile Word.isAssignment).mapM Word.literal
  pure ⟨environment, argv⟩

end Specification

section Lines

variable {w : Template} {ws vs : List Template}

theorem commandLine_singleton (w : Template) : commandLine [w] = w.spell :=
  List.intercalate_singleton

theorem commandLine_cons (h : ws ≠ []) :
    commandLine (w :: ws) = w.spell ++ space :: commandLine ws := by
  have hne : ws.map Template.spell ≠ [] := fun hnil => h (List.map_eq_nil_iff.mp hnil)
  rw [commandLine, List.map_cons, List.intercalate_cons_of_ne_nil hne]
  simp [commandLine]

theorem commandLine_append (hw : ws ≠ []) (hv : vs ≠ []) :
    commandLine (ws ++ vs) = commandLine ws ++ space :: commandLine vs := by
  induction ws with
  | nil => exact absurd rfl hw
  | cons w ws ih =>
    by_cases hws : ws = []
    · rw [hws, List.singleton_append, commandLine_cons hv, commandLine_singleton]
    · have hne : ws ++ vs ≠ [] := List.append_ne_nil_of_left_ne_nil hws vs
      rw [List.cons_append, commandLine_cons hne, ih hws, commandLine_cons hws]
      simp

end Lines

section Reading

theorem read_quoted (done : List Token) (w : Word) (s : Bytes) :
    read (quoting done w) (s.flatMap fun b => if b = 0x27 then [0x27, 0x5C, 0x27, 0x27] else [b]) =
      some (quoting done (w ++ s.map .quoted)) := by
  induction s generalizing w with
  | nil => rw [List.flatMap_nil, read_nil, List.map_nil, List.append_nil]
  | cons b s ih =>
    have hb : read (quoting done w) (if b = 0x27 then [0x27, 0x5C, 0x27, 0x27] else [b]) =
        some (quoting done (w ++ [.quoted b])) := by
      split_ifs with hb
      · rw [hb]
        rfl
      · rw [read_cons, next_quoting hb]
        rfl
    rw [List.flatMap_cons, read_append, hb, Option.bind_some, ih]
    simp

/-- Outside of quotes an escaped argument is a part of a word. -/
theorem read_escapeShellArg (c : Content) (s : Bytes) :
    read (ready c) (escapeShellArg s) = some (ready (c.extend (s.map .quoted))) := by
  rw [escapeShellArg, List.cons_append, read_cons, next_open, Option.bind_some, read_append,
    read_quoted, Option.bind_some, read_cons, next_close]
  rfl

theorem extend_extend (c : Content) (v w : Word) : (c.extend v).extend w = c.extend (v ++ w) := by
  simp [Content.extend]

theorem escapeShellArg_ne_nil (s : Bytes) : escapeShellArg s ≠ [] := List.cons_ne_nil _ _

theorem read_part {p : Part} (h : p.Fits) (hne : p.spell ≠ []) (c : Content) :
    read (ready c) p.spell = some (ready (c.extend p.pieces)) := by
  cases p with
  | text t => exact read_ordinary hne h
  | arg s => exact read_escapeShellArg c s

/-- A part without bytes is a text. -/
theorem pieces_eq_nil {p : Part} (h : p.spell = []) : p.pieces = [] := by
  cases p with
  | text t => exact congrArg (List.map Piece.plain) h
  | arg s => exact absurd h (escapeShellArg_ne_nil s)

/-- The parts of a word are read as its pieces. -/
theorem read_template {w : Template} (h : w.Fits) (c : Content) :
    read (ready c) w.spell = some (ready (c.extend w.pieces)) := by
  obtain ⟨hne, hparts⟩ := h
  induction w generalizing c with
  | nil => exact absurd rfl hne
  | cons p w ih =>
    have hspell : Template.spell (p :: w) = p.spell ++ Template.spell w := List.flatMap_cons
    have hpieces : Template.pieces (p :: w) = p.pieces ++ Template.pieces w := List.flatMap_cons
    rw [List.forall_mem_cons] at hparts
    rw [hspell] at hne ⊢
    rw [hpieces]
    by_cases hp : p.spell = []
    · rw [hp, List.nil_append] at hne ⊢
      rw [pieces_eq_nil hp, List.nil_append]
      exact ih c hne hparts.2
    · rw [read_append, read_part hparts.1 hp, Option.bind_some]
      by_cases hw : Template.spell w = []
      · have hnone : Template.pieces w = [] := by
          rw [Template.spell, List.flatMap_eq_nil_iff] at hw
          rw [Template.pieces, List.flatMap_eq_nil_iff]
          exact fun q hq => pieces_eq_nil (hw q hq)
        rw [hw, read_nil, hnone, List.append_nil]
      · rw [ih _ hw hparts.2, extend_extend]

/-- Words with spaces between them are read one by one. -/
theorem tokens_commandLine {ws : List Template} (h : ∀ w ∈ ws, w.Fits) :
    tokens (commandLine ws) = some (ws.map fun w => .word w.pieces) := by
  have hread : ∀ {w : Template}, w.Fits → read start w.spell = some (ready ⟨[], some w.pieces⟩) :=
    fun hw => read_template hw {}
  induction ws with
  | nil => rfl
  | cons w ws ih =>
    rw [List.forall_mem_cons] at h
    by_cases hws : ws = []
    · rw [hws, commandLine_singleton, tokens, hread h.1]
      rfl
    · have hrest : tokens (commandLine (w :: ws)) =
          (read (ready ⟨[], some w.pieces⟩) (space :: commandLine ws)).bind finish := by
        rw [commandLine_cons hws, tokens, read_append, hread h.1, Option.bind_some]
      rw [hrest, tokens_word, ih h.2]
      rfl

theorem zero_not_mem_part {p : Part} (h : p.Fits) : (0 : UInt8) ∉ p.spell := by
  have hreserved : (0 : UInt8) ∈ reserved := by decide
  cases p with
  | text t => exact fun hz => h 0 hz hreserved
  | arg s =>
    have hs : (0 : UInt8) ∉ s := h
    simp only [Part.spell, escapeShellArg, List.mem_append, List.mem_cons, List.mem_flatMap,
      List.not_mem_nil, or_false, not_or, not_exists, not_and]
    refine ⟨⟨by decide, fun b hb => ?_⟩, by decide⟩
    split_ifs
    · decide
    · rw [List.mem_singleton]
      exact fun hz => hs (hz ▸ hb)

theorem zero_not_mem_commandLine {ws : List Template} (h : ∀ w ∈ ws, w.Fits) :
    (0 : UInt8) ∉ commandLine ws := by
  have hword : ∀ {w : Template}, w.Fits → (0 : UInt8) ∉ w.spell := by
    intro w hw hz
    obtain ⟨p, hp, hz⟩ := List.mem_flatMap.mp hz
    exact zero_not_mem_part (hw.parts p hp) hz
  induction ws with
  | nil => exact List.not_mem_nil
  | cons w ws ih =>
    rw [List.forall_mem_cons] at h
    by_cases hws : ws = []
    · rw [hws, commandLine_singleton]
      exact hword h.1
    · rw [commandLine_cons hws, List.mem_append, List.mem_cons, not_or, not_or]
      exact ⟨hword h.1, by decide, ih h.2⟩

theorem plain_mem_pieces {w : Template} (h : w.Fits) {b : UInt8} (hb : .plain b ∈ w.pieces) :
    b ∉ reserved := by
  obtain ⟨p, hp, hb⟩ := List.mem_flatMap.mp hb
  have hfits := h.parts p hp
  cases p with
  | text t =>
    obtain ⟨b', hb', he⟩ := List.mem_map.mp hb
    obtain rfl := Piece.plain.inj he
    exact hfits b' hb'
  | arg s =>
    obtain ⟨b', -, he⟩ := List.mem_map.mp hb
    cases he

/-- Nothing in the word of a template is expanded. -/
theorem literal_pieces {w : Template} (h : w.Fits) : Word.literal w.pieces = some w.value := by
  have hbytes : ∀ w : Template, w.pieces.mapM Word.byte = some w.value := by
    intro w
    induction w with
    | nil => rfl
    | cons p w ih =>
      have hp : p.pieces.mapM Word.byte = some p.value := by
        cases p with
        | text t => exact mapM_byte (fun _ => rfl) t
        | arg s => exact mapM_byte (fun _ => rfl) s
      have hpieces : Template.pieces (p :: w) = p.pieces ++ Template.pieces w := List.flatMap_cons
      rw [hpieces, List.mapM_append, hp, ih]
      rfl
  rw [literal_of_ordinary fun b hb => plain_mem_pieces h hb, hbytes]

/-- The words of a line are the assignments that are meant for it, its name and its arguments. -/
theorem invocation_commandLine {environment argv : List Template}
    (h : ∀ w ∈ environment ++ argv, w.Fits)
    (he : ∀ w ∈ environment, Word.isAssignment w.pieces = true)
    (ha : ∀ w ∈ argv.head?, Word.isAssignment w.pieces = false) :
    invocation (commandLine (environment ++ argv)) =
      some ⟨environment.map Template.value, argv.map Template.value⟩ := by
  have hwords : ((environment ++ argv).map fun w => Token.word w.pieces).mapM wordOf =
      some ((environment ++ argv).map Template.pieces) :=
    List.mapM_map.trans List.mapM_pure
  have hassign : ∀ w ∈ environment.map Template.pieces, Word.isAssignment w = true :=
    List.forall_mem_map.mpr he
  have hstop : (argv.map Template.pieces).takeWhile Word.isAssignment = [] ∧
      (argv.map Template.pieces).dropWhile Word.isAssignment = argv.map Template.pieces := by
    cases argv with
    | nil => exact ⟨rfl, rfl⟩
    | cons w ws =>
      have hw : ¬ Word.isAssignment w.pieces = true := Bool.not_eq_true _ ▸ ha w rfl
      exact ⟨List.takeWhile_cons_of_neg hw, List.dropWhile_cons_of_neg hw⟩
  have htake : ((environment ++ argv).map Template.pieces).takeWhile Word.isAssignment =
      environment.map Template.pieces := by
    rw [List.map_append, List.takeWhile_append_of_pos hassign, hstop.1, List.append_nil]
  have hdrop : ((environment ++ argv).map Template.pieces).dropWhile Word.isAssignment =
      argv.map Template.pieces := by
    rw [List.map_append, List.dropWhile_append_of_pos hassign, hstop.2]
  have hliteral : ∀ {ws : List Template}, (∀ w ∈ ws, w.Fits) →
      (ws.map Template.pieces).mapM Word.literal = some (ws.map Template.value) := by
    intro ws hws
    induction ws with
    | nil => rfl
    | cons w ws ih =>
      rw [List.forall_mem_cons] at hws
      rw [List.map_cons, List.mapM_cons, literal_pieces hws.1, ih hws.2]
      rfl
  rw [List.forall_mem_append] at h
  rw [invocation, cString_of_nul_free (zero_not_mem_commandLine (List.forall_mem_append.mpr h)),
    tokens_commandLine (List.forall_mem_append.mpr h)]
  simp only [Option.bind_eq_bind, Option.bind_some, hwords, htake, hdrop, hliteral h.1,
    hliteral h.2]
  rfl

/-- An escaped argument is one word, the words of a line are its arguments, and between any other
text outside of quotes it adds its bytes, quoted, to a word. -/
theorem escaped_arguments :
    (∀ s, (0 : UInt8) ∉ s → invocation (escapeShellArg s) = some ⟨[], [s]⟩) ∧
    (∀ args : List Bytes, (∀ s ∈ args, (0 : UInt8) ∉ s) →
      invocation ([space].intercalate (args.map escapeShellArg)) = some ⟨[], args⟩) ∧
    (∀ before s after c, read start before = some (ready c) →
      tokens (before ++ escapeShellArg s ++ after) =
        (read (ready (c.extend (s.map .quoted))) after).bind finish) ∧
    ∀ environment argv : List Template, (∀ w ∈ environment ++ argv, w.Fits) →
      (∀ w ∈ environment, Word.isAssignment w.pieces = true) →
      (∀ w ∈ argv.head?, Word.isAssignment w.pieces = false) →
        invocation (commandLine (environment ++ argv)) =
          some ⟨environment.map Template.value, argv.map Template.value⟩ := by
  have hargs : ∀ args : List Bytes, (∀ s ∈ args, (0 : UInt8) ∉ s) →
      invocation ([space].intercalate (args.map escapeShellArg)) = some ⟨[], args⟩ := by
    intro args hargs
    let argv : List Template := args.map fun s => [.arg s]
    have hfits : ∀ w ∈ [] ++ argv, w.Fits := by
      rw [List.nil_append, List.forall_mem_map]
      refine fun s hs => ⟨List.cons_ne_nil _ _, ?_⟩
      rw [List.forall_mem_singleton]
      exact hargs s hs
    have hname : ∀ w ∈ argv.head?, Word.isAssignment w.pieces = false := by
      intro w hw
      obtain ⟨s, -, rfl⟩ := List.mem_map.mp (List.mem_of_mem_head? hw)
      cases s with
      | nil => rfl
      | cons b s => rfl
    have hline : commandLine ([] ++ argv) = [space].intercalate (args.map escapeShellArg) := by
      have hspell : ∀ s, Template.spell [.arg s] = escapeShellArg s := fun s => List.append_nil _
      simp [commandLine, argv, Function.comp_def, hspell]
    have hvalue : argv.map Template.value = args := by
      have hself : ∀ s, Template.value [.arg s] = s := fun s => List.append_nil s
      simp [argv, Function.comp_def, hself]
    rw [← hline, invocation_commandLine hfits (fun w hw => absurd hw List.not_mem_nil) hname,
      hvalue]
    rfl
  refine ⟨fun s hs => ?_, hargs, ?_, fun environment argv h he ha => invocation_commandLine h he ha⟩
  · have hone := hargs [s] (by rwa [List.forall_mem_singleton])
    simpa using hone
  · intro before s after c h
    rw [tokens, read_append, read_append, h, Option.bind_some, read_escapeShellArg,
      Option.bind_some]

/-- A quote, operators, and an argument without bytes. -/
theorem escaped_quote :
    invocation (escapeShellArg (bytes "it's")) = some ⟨[], [bytes "it's"]⟩ ∧
    invocation (escapeShellArg (bytes "a;b") ++ [space] ++ escapeShellArg []) =
      some ⟨[], [bytes "a;b", []]⟩ ∧
    invocation (commandLine ([[.text (bytes "A="), .arg (bytes "$(x)")]] ++
      [[.text (bytes "/usr/bin/node")]])) = some ⟨[bytes "A=$(x)"], [bytes "/usr/bin/node"]⟩ := by
  refine ⟨escaped_arguments.1 _ (by decide),
    escaped_arguments.2.1 [bytes "a;b", []] (by decide), ?_⟩
  have htext : ∀ b ∈ bytes "A=", b ∉ reserved := by decide
  have hnode : ∀ b ∈ bytes "/usr/bin/node", b ∉ reserved := by decide
  have hzero : (0 : UInt8) ∉ bytes "$(x)" := by decide
  refine escaped_arguments.2.2.2 _ _ ?_ ?_ ?_
  · rw [List.singleton_append, List.forall_mem_cons, List.forall_mem_singleton]
    refine ⟨⟨by decide, ?_⟩, by decide, List.forall_mem_singleton.mpr hnode⟩
    rw [List.forall_mem_cons, List.forall_mem_singleton]
    exact ⟨htext, hzero⟩
  · decide
  · decide

end Reading

section Callers

variable {runtime path argStr cmd : Bytes}

def clawArgs (argStr : Bytes) : Template := [.text (bytes "CLAW_ARGS="), .arg argStr]

def libraryPath : Template := [.text (bytes "LD_LIBRARY_PATH=/usr/lib:/usr/lib64:/lib:/lib64")]

theorem fits_text {t : Bytes} (hne : t ≠ []) (h : ∀ b ∈ t, b ∉ reserved) :
    Template.Fits [.text t] := by
  refine ⟨?_, List.forall_mem_singleton.mpr h⟩
  rwa [Template.spell, List.flatMap_singleton]

theorem fits_arg {s : Bytes} (h : (0 : UInt8) ∉ s) : Template.Fits [.arg s] :=
  ⟨List.cons_ne_nil _ _, List.forall_mem_singleton.mpr h⟩

theorem fits_clawArgs (h : (0 : UInt8) ∉ argStr) : (clawArgs argStr).Fits := by
  refine ⟨List.cons_ne_nil _ _, ?_⟩
  have htext : ∀ b ∈ bytes "CLAW_ARGS=", b ∉ reserved := by decide
  rw [clawArgs, List.forall_mem_cons, List.forall_mem_singleton]
  exact ⟨htext, h⟩

theorem isAssignment_clawArgs (argStr : Bytes) :
    Word.isAssignment (clawArgs argStr).pieces = true := by
  rfl

theorem isAssignment_arg (s : Bytes) : Word.isAssignment (Template.pieces [.arg s]) = false := by
  cases s with
  | nil => rfl
  | cons b s => rfl

/-- The assignments in front of the command of a skill, and what runs its file. -/
def skillEnvironment (runtime argStr : Bytes) : List Template :=
  clawArgs argStr :: if runtime = bytes "python" then [libraryPath] else []

def interpreter (python : List Template) (runtime : Bytes) : List Template :=
  if runtime = bytes "python" then python
  else if runtime = bytes "node" then [[.text (bytes "/usr/bin/node")]]
  else []

theorem skillCommand_line {host : Host} {python : List Template}
    (hpython : host.python = commandLine python)
    (h : skillCommand host runtime path argStr = some cmd) :
    cmd = commandLine (skillEnvironment runtime argStr ++
      (interpreter python runtime ++ [[Part.arg path]])) := by
  have hclaw : (clawArgs argStr).spell = bytes "CLAW_ARGS=" ++ escapeShellArg argStr := by
    simp [clawArgs, Template.spell, Part.spell]
  have hown : Template.spell [.arg path] = escapeShellArg path := List.append_nil _
  unfold skillCommand at h
  rw [skillEnvironment, interpreter]
  split_ifs at h ⊢ with hpy hnone hnode
  · have hne : python ≠ [] := fun hnil => hnone (by rw [hpython, hnil]; rfl)
    have hlib : bytes " LD_LIBRARY_PATH=/usr/lib:/usr/lib64:/lib:/lib64 " =
        space :: (libraryPath.spell ++ [space]) := by decide
    rw [commandLine_append (List.cons_ne_nil _ _) (List.append_ne_nil_of_left_ne_nil hne _),
      commandLine_append hne (List.cons_ne_nil _ _), commandLine_cons (List.cons_ne_nil _ _),
      commandLine_singleton, commandLine_singleton, ← Option.some.inj h, hpython, hclaw, hown,
      hlib]
    simp
  · have hbin : bytes " /usr/bin/node " =
        space :: (Template.spell [.text (bytes "/usr/bin/node")] ++ [space]) := by decide
    rw [List.singleton_append, List.singleton_append, commandLine_cons (List.cons_ne_nil _ _),
      commandLine_cons (List.cons_ne_nil _ _), commandLine_singleton, ← Option.some.inj h, hclaw,
      hown, hbin]
    simp
  · rw [List.nil_append, List.singleton_append, commandLine_cons (List.cons_ne_nil _ _),
      commandLine_singleton, ← Option.some.inj h, hclaw, hown]
    simp

theorem skillEnvironment_fits (h : (0 : UInt8) ∉ argStr) : ∀ w ∈ skillEnvironment runtime argStr,
    w.Fits ∧ Word.isAssignment w.pieces = true := by
  have hlib : libraryPath.Fits ∧ Word.isAssignment libraryPath.pieces = true :=
    ⟨fits_text (by decide) (by decide), by decide⟩
  rw [skillEnvironment, List.forall_mem_cons]
  refine ⟨⟨fits_clawArgs h, isAssignment_clawArgs argStr⟩, ?_⟩
  split_ifs
  · rwa [List.forall_mem_singleton]
  · exact fun w hw => absurd hw List.not_mem_nil

theorem interpreter_fits {python : List Template} (hfits : ∀ w ∈ python, w.Fits)
    (hname : ∀ w ∈ python.head?, Word.isAssignment w.pieces = false) :
    (∀ w ∈ interpreter python runtime, w.Fits) ∧
      ∀ w ∈ (interpreter python runtime ++ [[Part.arg path]]).head?,
        Word.isAssignment w.pieces = false := by
  have hfirst : ∀ {ws : List Template}, (∀ w ∈ ws.head?, Word.isAssignment w.pieces = false) →
      ∀ w ∈ (ws ++ [[Part.arg path]]).head?, Word.isAssignment w.pieces = false := by
    intro ws hws
    cases ws with
    | nil =>
      intro w hw
      obtain rfl := Option.some.inj hw
      exact isAssignment_arg path
    | cons w ws => exact hws
  rw [interpreter]
  split_ifs
  · exact ⟨hfits, hfirst hname⟩
  · rw [List.forall_mem_singleton]
    refine ⟨fits_text (by decide) (by decide), fun w hw => ?_⟩
    obtain rfl := Option.some.inj hw
    decide
  · exact ⟨fun w hw => absurd hw List.not_mem_nil, hfirst fun w hw => nomatch hw⟩

/-- The host runs the interpreter of a skill with its file as the last argument. -/
theorem skillCommand_invocation {host : Host} {python : List Template}
    (hpython : host.python = commandLine python) (hfits : ∀ w ∈ python, w.Fits)
    (hname : ∀ w ∈ python.head?, Word.isAssignment w.pieces = false)
    (hargs : (0 : UInt8) ∉ argStr) (hpath : (0 : UInt8) ∉ path)
    (h : skillCommand host runtime path argStr = some cmd) :
    invocation cmd = some ⟨(skillEnvironment runtime argStr).map Template.value,
      (interpreter python runtime).map Template.value ++ [path]⟩ := by
  obtain ⟨hinterpreter, hfirst⟩ :=
    @interpreter_fits runtime path python hfits hname
  have hall : ∀ w ∈ skillEnvironment runtime argStr ++
      (interpreter python runtime ++ [[Part.arg path]]), w.Fits := by
    rw [List.forall_mem_append, List.forall_mem_append, List.forall_mem_singleton]
    exact ⟨fun w hw => (skillEnvironment_fits hargs w hw).1, hinterpreter, fits_arg hpath⟩
  have hvalue : Template.value [.arg path] = path := List.append_nil path
  rw [skillCommand_line hpython h, invocation_commandLine hall
    (fun w hw => (skillEnvironment_fits hargs w hw).2) hfirst, List.map_append,
    List.map_singleton, hvalue]

end Callers

end ShellQuoting
