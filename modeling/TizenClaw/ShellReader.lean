import TizenClaw.ByteString

/-! How a shell reads a command line: the words of a text with their quoting, the operators and
redirections between them, and the commands that they make. The reading ends at a command
substitution, and a here-document is read like the lines of commands. -/
namespace ShellReader

open ByteString

section Model

/-- A byte of a word, open to expansion or quoted, or what a parameter or an expression stands
for. -/
inductive Piece where
  | plain (b : UInt8)
  | quoted (b : UInt8)
  | expansion
  deriving DecidableEq, Repr

abbrev Word := List Piece

inductive Token where
  | word (w : Word)
  | redirect
  | operator
  deriving DecidableEq, Repr

/-- A quote or an expansion that is open. Braces and expressions may stand inside of double
quotes. -/
inductive Context where
  | single
  | dollarSingle
  | double
  | brace (inDouble : Bool)
  | arithmetic (depth : ℕ)
  deriving DecidableEq, Repr

/-- What was read that the next byte may go on with: `$`, `$(`, the first `)` at the end of an
expression, `<`, `<<` or `>`. -/
inductive Ahead where
  | nothing
  | dollar
  | paren
  | closing
  | less
  | lessLess
  | greater
  deriving DecidableEq, Repr

structure Mode where
  stack : List Context := []
  ahead : Ahead := .nothing
  escape : Bool := false
  comment : Bool := false
  deriving DecidableEq, Repr

namespace Mode

def push (c : Context) (m : Mode) : Mode := { m with stack := c :: m.stack, ahead := .nothing }

def pop (m : Mode) : Mode := { m with stack := m.stack.tail, ahead := .nothing }

/-- Where a single quote quotes. -/
def unquoted (m : Mode) : Bool := m.stack.head? = none || m.stack.head? = some (.brace false)

end Mode

/-- The tokens so far, and the word that is being read. -/
structure Content where
  done : List Token := []
  word : Option Word := none
  deriving DecidableEq, Repr

inductive Edit where
  | begin
  | piece (p : Piece)
  | blank
  | redirect
  | operator
  deriving DecidableEq, Repr

def isDigit (b : UInt8) : Bool := 0x30 ≤ b && b ≤ 0x39

def isNameByte (b : UInt8) : Bool :=
  0x41 ≤ b && b ≤ 0x5A || 0x61 ≤ b && b ≤ 0x7A || b = 0x5F || isDigit b

def Piece.isDigit : Piece → Bool
  | .plain b => ShellReader.isDigit b
  | _ => false

namespace Content

def endWord (c : Content) : Content :=
  match c.word with
  | none => c
  | some w => ⟨c.done ++ [.word w], none⟩

/-- A number in front of a redirection belongs to it. -/
def apply (c : Content) : Edit → Content
  | .begin => { c with word := some (c.word.getD []) }
  | .piece p => { c with word := some (c.word.getD [] ++ [p]) }
  | .blank => c.endWord
  | .redirect =>
    if (c.word.getD []).all Piece.isDigit then ⟨c.done ++ [.redirect], none⟩
    else ⟨c.endWord.done ++ [.redirect], none⟩
  | .operator => ⟨c.endWord.done ++ [.operator], none⟩

end Content

structure State where
  mode : Mode
  content : Content
  deriving DecidableEq, Repr

def start : State := ⟨{}, {}⟩

/-- Nothing goes on with what was read. Behind `$(`, or behind a lone `)`, a command is
substituted. -/
def settle (m : Mode) : Option (Mode × List Edit) :=
  match m.ahead with
  | .dollar => some ({ m with ahead := .nothing },
      [.piece (if m.unquoted then .plain 0x24 else .quoted 0x24)])
  | .paren | .closing => none
  | _ => some ({ m with ahead := .nothing }, [])

/-- The parameters of one byte, and the first bytes of names. -/
def isParameter (b : UInt8) : Bool := isNameByte b || b ∈ bytes "*@#?-$!"

/-- A byte that goes on with what was read. -/
def continued (m : Mode) (b : UInt8) : Option (Mode × List Edit) :=
  match m.ahead with
  | .dollar =>
    if b = 0x28 then some ({ m with ahead := .paren }, [])
    else if b = 0x7B then some (m.push (.brace (!m.unquoted)), [.piece .expansion])
    else if b = 0x27 ∧ m.unquoted then some (m.push .dollarSingle, [.piece .expansion])
    else if isParameter b then some ({ m with ahead := .nothing }, [.piece .expansion])
    else none
  | .paren => if b = 0x28 then some (m.push (.arithmetic 0), [.piece .expansion]) else none
  | .closing => if b = 0x29 then some (m.pop, []) else none
  | .less =>
    if b = 0x3C then some ({ m with ahead := .lessLess }, [])
    else if b = 0x26 ∨ b = 0x3E then some ({ m with ahead := .nothing }, [])
    else none
  | .lessLess => if b = 0x2D then some ({ m with ahead := .nothing }, []) else none
  | .greater =>
    if b = 0x3E ∨ b = 0x26 ∨ b = 0x7C then some ({ m with ahead := .nothing }, []) else none
  | .nothing => none

def isOperator (b : UInt8) : Bool := b ∈ bytes "\n;&|()"

/-- A byte outside of quotes and expansions. -/
def outer (m : Mode) (inWord : Bool) (b : UInt8) : Option (Mode × List Edit) :=
  if b = 0x23 ∧ inWord = false then some ({ m with comment := true }, [])
  else if b = 0x20 ∨ b = 0x09 then some (m, [.blank])
  else if isOperator b then some (m, [.operator])
  else if b = 0x3C then some ({ m with ahead := .less }, [.redirect])
  else if b = 0x3E then some ({ m with ahead := .greater }, [.redirect])
  else if b = 0x27 then some (m.push .single, [.begin])
  else if b = 0x22 then some (m.push .double, [.begin])
  else if b = 0x24 then some ({ m with ahead := .dollar }, [])
  else if b = 0x60 then none
  else some (m, [.piece (.plain b)])

def inner (m : Mode) (b : UInt8) : Context → Option (Mode × List Edit)
  | .single => if b = 0x27 then some (m.pop, []) else some (m, [.piece (.quoted b)])
  | .dollarSingle => if b = 0x27 then some (m.pop, []) else some (m, [])
  | .double =>
    if b = 0x22 then some (m.pop, [])
    else if b = 0x24 then some ({ m with ahead := .dollar }, [])
    else if b = 0x60 then none
    else some (m, [.piece (.quoted b)])
  | .brace inDouble =>
    if b = 0x7D then some (m.pop, [])
    else if b = 0x27 ∧ inDouble = false then some (m.push .single, [])
    else if b = 0x22 then some (m.push .double, [])
    else if b = 0x24 then some ({ m with ahead := .dollar }, [])
    else if b = 0x60 then none
    else some (m, [])
  | .arithmetic depth =>
    if b = 0x28 then some (m.pop.push (.arithmetic (depth + 1)), [])
    else if b = 0x29 then
      if depth = 0 then some ({ m with ahead := .closing }, [])
      else some (m.pop.push (.arithmetic (depth - 1)), [])
    else if b = 0x24 then some ({ m with ahead := .dollar }, [])
    else if b = 0x60 then none
    else some (m, [])

/-- A byte behind a backslash. -/
def escaped (m : Mode) (b : UInt8) : List Edit :=
  match m.stack.head? with
  | none => [.piece (.quoted b)]
  | some .double =>
    if b ∈ bytes "$\"\\" ∨ b = 0x60 then [.piece (.quoted b)]
    else [.piece (.quoted 0x5C), .piece (.quoted b)]
  | some _ => []

/-- A byte that nothing was kept ahead of. -/
def settled (m : Mode) (inWord : Bool) (b : UInt8) : Option (Mode × List Edit) :=
  match m.stack.head? with
  | none => outer m inWord b
  | some c => inner m b c

/-- A newline behind a backslash is taken out of the text, and what was kept ahead stays. -/
def step (m : Mode) (inWord : Bool) (b : UInt8) : Option (Mode × List Edit) :=
  if m.comment then
    if b = newline then some ({ m with comment := false }, [.operator]) else some (m, [])
  else if m.escape then
    if b = newline then some ({ m with escape := false }, [])
    else (settle { m with escape := false }).map fun r => (r.1, r.2 ++ escaped m b)
  else if b = 0x5C ∧ m.stack.head? ≠ some .single then some ({ m with escape := true }, [])
  else (continued m b).or ((settle m).bind fun r =>
    (settled r.1 (inWord || r.2 ≠ []) b).map fun r' => (r'.1, r.2 ++ r'.2))

def next (s : State) (b : UInt8) : Option State :=
  (step s.mode s.content.word.isSome b).map fun r => ⟨r.1, r.2.foldl Content.apply s.content⟩

def read (s : State) (text : Bytes) : Option State := text.foldlM next s

/-- The end of the text. A backslash there stands for itself. -/
def finish (s : State) : Option (List Token) :=
  (settle { s.mode with escape := false }).bind fun r =>
    if r.1.stack ≠ [] then none
    else
      let last := if s.mode.escape then [.piece (.quoted 0x5C)] else []
      some ((r.2 ++ last).foldl Content.apply s.content).endWord.done

/-- The tokens of a text, unless a quote is left open in it or a command is substituted. -/
def tokens (text : Bytes) : Option (List Token) := (read start text).bind finish

end Model

section Commands

namespace Word

/-- `NAME=` in front of the value. -/
def isAssignment (w : Word) : Bool :=
  let name := w.takeWhile fun p => match p with
    | .plain b => isNameByte b
    | _ => false
  name ≠ [] && !(name.head?.any Piece.isDigit) && w[name.length]? = some (.plain 0x3D)

/-- A byte of a pattern for the names of files. -/
def isPattern : Piece → Bool
  | .plain b => b = 0x2A || b = 0x3F || b = 0x5B
  | _ => false

def byte : Piece → Option UInt8
  | .plain b | .quoted b => some b
  | .expansion => none

/-- The text that a word stands for, where nothing in it is expanded. -/
def literal (w : Word) : Option Bytes :=
  if w.any isPattern ∨ w.head? = some (.plain 0x7E) then none else w.mapM byte

end Word

/-- The words of a command. The word behind a redirection belongs to it. -/
def arguments : List Token → List Word
  | [] => []
  | .word w :: ts => w :: arguments ts
  | .redirect :: .word _ :: ts => arguments ts
  | .redirect :: ts => arguments ts
  | .operator :: ts => arguments ts

/-- A command: the assignments in front, and the name with its arguments. -/
structure Command where
  assignments : List Word
  argv : List Word
  deriving DecidableEq, Repr

def command (ts : List Token) : Command where
  assignments := (arguments ts).takeWhile Word.isAssignment
  argv := (arguments ts).dropWhile Word.isAssignment

/-- The commands between the operators. One without a name runs nothing. -/
def commands (ts : List Token) : List Command :=
  ((ts.splitOnP (· = .operator)).map command).filter fun c => c.argv ≠ []

/-- Tokens without the name of a command. -/
def idle : List Token → Bool
  | [] => true
  | .operator :: ts => idle ts
  | .redirect :: .word _ :: ts => idle ts
  | .redirect :: ts => idle ts
  | .word w :: ts => Word.isAssignment w && idle ts

/-- Tokens behind the name of a command, without the name of another one. -/
def harmless : List Token → Bool
  | [] => true
  | .operator :: ts => idle ts
  | _ :: ts => harmless ts

variable {ts seg : List Token} {segs : List (List Token)} {t : Token} {w : Word} {q : Bytes}

theorem exists_segments (ts : List Token) : ∃ seg segs, ts.splitOnP (· = .operator) = seg :: segs :=
  List.exists_cons_of_ne_nil (List.splitOnP_ne_nil _ _)

theorem segments_operator (ts : List Token) :
    (Token.operator :: ts).splitOnP (· = .operator) = [] :: ts.splitOnP (· = .operator) := by
  rw [List.splitOnP_cons_eq_if_modifyHead, if_pos (decide_eq_true rfl)]

theorem segments_cons (ht : t ≠ .operator) (h : ts.splitOnP (· = .operator) = seg :: segs) :
    (t :: ts).splitOnP (· = .operator) = (t :: seg) :: segs := by
  rw [List.splitOnP_cons_eq_if_modifyHead, if_neg (by simpa using ht), h]
  rfl

theorem segments_word (w : Word) (h : ts.splitOnP (· = .operator) = seg :: segs) :
    (Token.word w :: ts).splitOnP (· = .operator) = (.word w :: seg) :: segs :=
  segments_cons (fun he => nomatch he) h

theorem segments_redirect (h : ts.splitOnP (· = .operator) = seg :: segs) :
    (Token.redirect :: ts).splitOnP (· = .operator) = (.redirect :: seg) :: segs :=
  segments_cons (fun he => nomatch he) h

theorem commands_eq_nil_iff :
    commands ts = [] ↔ ∀ seg ∈ ts.splitOnP (· = .operator), (command seg).argv = [] := by
  simp [commands, List.filter_eq_nil_iff]

theorem command_word (w : Word) (seg : List Token) :
    (command (.word w :: seg)).argv =
      if w.isAssignment = true then (command seg).argv else w :: arguments seg :=
  List.dropWhile_cons

/-- Without a name there is no command. -/
theorem idle_iff (ts : List Token) : idle ts = true ↔ commands ts = [] := by
  rw [commands_eq_nil_iff]
  induction ts using idle.induct with
  | case1 => exact iff_of_true rfl (by simp [command, arguments])
  | case2 ts ih =>
    rw [segments_operator, List.forall_mem_cons, ← ih]
    exact ⟨fun h => ⟨rfl, h⟩, And.right⟩
  | case3 w ts ih =>
    obtain ⟨seg, segs, h⟩ := exists_segments ts
    rw [h, List.forall_mem_cons] at ih
    rw [segments_redirect (segments_word w h), List.forall_mem_cons]
    exact ih
  | case4 ts hword ih =>
    obtain ⟨seg, segs, h⟩ := exists_segments ts
    have hseg : (command (.redirect :: seg)).argv = (command seg).argv := by
      have hno : ∀ w rest, seg ≠ .word w :: rest := by
        rintro w rest rfl
        cases ts with
        | nil => cases h
        | cons t ts =>
          cases t with
          | word w' => exact hword w' ts rfl
          | redirect =>
            obtain ⟨seg', segs', h'⟩ := exists_segments ts
            rw [segments_redirect h'] at h
            cases h
          | operator =>
            rw [segments_operator] at h
            cases h
      rw [command, command, arguments]
      exact hno
    rw [h, List.forall_mem_cons] at ih
    rw [segments_redirect h, List.forall_mem_cons, hseg, ← ih, idle]
    exact hword
  | case5 w ts ih =>
    obtain ⟨seg, segs, h⟩ := exists_segments ts
    rw [h, List.forall_mem_cons] at ih
    rw [segments_word w h, List.forall_mem_cons, command_word, idle, Bool.and_eq_true, ih]
    split_ifs with hw
    · simp [hw]
    · simp [hw]

theorem harmless_segments (ts : List Token) :
    harmless ts = true ↔ ∀ seg ∈ (ts.splitOnP (· = .operator)).tail, (command seg).argv = [] := by
  induction ts using harmless.induct with
  | case1 => exact iff_of_true rfl (by simp)
  | case2 ts =>
    rw [segments_operator, List.tail_cons, ← commands_eq_nil_iff, ← idle_iff]
    rfl
  | case3 t ts ht ih =>
    obtain ⟨seg, segs, h⟩ := exists_segments ts
    rw [h, List.tail_cons] at ih
    rw [segments_cons ht h, List.tail_cons, ← ih]
    cases t with
    | word w => rfl
    | redirect => rfl
    | operator => exact absurd rfl ht

theorem commands_word (hw : w.isAssignment = false)
    (h : ts.splitOnP (· = .operator) = seg :: segs) :
    commands (.word w :: ts) =
      ⟨[], w :: arguments seg⟩ :: (segs.map command).filter fun c => c.argv ≠ [] := by
  have hcommand : command (.word w :: seg) = ⟨[], w :: arguments seg⟩ := by
    simp [command, arguments, hw]
  rw [commands, segments_word w h, List.map_cons, hcommand]
  exact List.filter_cons_of_pos (by simp)

/-- A word in front that is no assignment is the name of a command, and it is the only one just when
the rest is harmless. -/
theorem sole_command_iff (hw : w.isAssignment = false) (ts : List Token) :
    (∃ c v args, commands (.word w :: ts) = [c] ∧ c.argv = v :: args ∧ v.literal = some q) ↔
      w.literal = some q ∧ harmless ts = true := by
  obtain ⟨seg, segs, h⟩ := exists_segments ts
  have hnil : (segs.map command).filter (fun c => c.argv ≠ []) = [] ↔ harmless ts = true := by
    rw [harmless_segments, h, List.tail_cons]
    simp [List.filter_eq_nil_iff]
  rw [commands_word hw h, ← hnil]
  constructor
  · rintro ⟨c, v, args, hc, hargv, hv⟩
    obtain ⟨rfl, hrest⟩ := List.cons.inj hc
    obtain ⟨rfl, -⟩ := List.cons.inj hargv
    exact ⟨hv, hrest⟩
  · rintro ⟨hv, hrest⟩
    rw [hrest]
    exact ⟨_, w, _, rfl, rfl, hv⟩

end Commands

section Frame

variable {c : Content} {s t : State} {ts : List Token}

def Content.behind (ts : List Token) (c : Content) : Content := { c with done := ts ++ c.done }

def State.behind (ts : List Token) (s : State) : State := { s with content := s.content.behind ts }

theorem Content.endWord_behind (ts : List Token) (c : Content) :
    (c.behind ts).endWord = c.endWord.behind ts := by
  rcases c with ⟨done, _ | w⟩
  · rfl
  · simp [endWord, behind]

theorem Content.apply_behind (ts : List Token) (c : Content) (e : Edit) :
    (c.behind ts).apply e = (c.apply e).behind ts := by
  cases e with
  | begin => rfl
  | piece p => rfl
  | blank => exact endWord_behind ts c
  | redirect =>
    have hword : (c.behind ts).word = c.word := rfl
    rw [apply, apply, endWord_behind, hword]
    split_ifs
    · simp [behind]
    · simp [behind]
  | operator =>
    rw [apply, apply, endWord_behind]
    simp [behind]

theorem Content.foldl_behind (ts : List Token) (es : List Edit) (c : Content) :
    es.foldl apply (c.behind ts) = (es.foldl apply c).behind ts := by
  induction es generalizing c with
  | nil => rfl
  | cons e es ih => rw [List.foldl_cons, List.foldl_cons, apply_behind, ih]

theorem next_behind (ts : List Token) (s : State) (b : UInt8) :
    next (s.behind ts) b = (next s b).map (State.behind ts) := by
  have hstep : next (s.behind ts) b = (step s.mode s.content.word.isSome b).map fun r =>
      ⟨r.1, r.2.foldl Content.apply (s.content.behind ts)⟩ := rfl
  rw [hstep, next, Option.map_map]
  congr 1
  funext r
  rw [Content.foldl_behind]
  rfl

theorem read_nil (s : State) : read s [] = some s := rfl

theorem read_cons (s : State) (b : UInt8) (text : Bytes) :
    read s (b :: text) = (next s b).bind fun t => read t text := rfl

theorem read_append (s : State) (text rest : Bytes) :
    read s (text ++ rest) = (read s text).bind fun t => read t rest :=
  List.foldlM_append

theorem read_behind (ts : List Token) (s : State) (text : Bytes) :
    read (s.behind ts) text = (read s text).map (State.behind ts) := by
  induction text generalizing s with
  | nil => rfl
  | cons b text ih =>
    rw [read_cons, read_cons, next_behind]
    cases next s b with
    | none => rfl
    | some t => exact ih t

theorem finish_behind (ts : List Token) (s : State) :
    finish (s.behind ts) = (finish s).map (ts ++ ·) := by
  have hmode : (s.behind ts).mode = s.mode := rfl
  have hcontent : (s.behind ts).content = s.content.behind ts := rfl
  rw [finish, finish, hmode, hcontent]
  cases settle { s.mode with escape := false } with
  | none => rfl
  | some r =>
    rw [Option.bind_some, Option.bind_some]
    by_cases hopen : r.1.stack ≠ []
    · rw [if_pos hopen, if_pos hopen]
      rfl
    · rw [if_neg hopen, if_neg hopen]
      dsimp only
      rw [Content.foldl_behind, Content.endWord_behind]
      rfl

/-- What was read before does not change how the rest is read. -/
theorem tokens_behind (ts : List Token) (text : Bytes) :
    (read (start.behind ts) text).bind finish = (tokens text).map (ts ++ ·) := by
  rw [read_behind, tokens]
  cases read start text with
  | none => rfl
  | some t => exact finish_behind ts t

end Frame

section Reading

/-- Outside of quotes, with nothing kept ahead. -/
def ready (c : Content) : State := ⟨{}, c⟩

/-- The bytes that a shell does not read as they are everywhere in a word. -/
def reserved : Bytes := bytes "\x00\t\n \"#$&'()*;<>?[\\`|~"

variable {c : Content} {b : UInt8} {t : Bytes}

theorem next_ordinary (h : b ∉ reserved) :
    next (ready c) b = some (ready (c.apply (.piece (.plain b)))) := by
  have hreserved : reserved = [0, 9, 10, 32, 34, 35, 36, 38, 39, 40, 41, 42, 59, 60, 62, 63, 91, 92,
    96, 124, 126] := by decide
  have hoperators : bytes "\n;&|()" = [10, 59, 38, 124, 40, 41] := by decide
  rw [hreserved] at h
  simp only [List.mem_cons, List.not_mem_nil, or_false, not_or] at h
  simp [next, ready, step, continued, settle, settled, outer, isOperator, hoperators, h]

theorem next_blank (c : Content) : next (ready c) space = some (ready c.endWord) := by
  rfl

/-- The word with more pieces. -/
def Content.extend (ps : List Piece) (c : Content) : Content :=
  { c with word := some (c.word.getD [] ++ ps) }

theorem read_ordinary (hne : t ≠ []) (h : ∀ b ∈ t, b ∉ reserved) :
    read (ready c) t = some (ready (c.extend (t.map .plain))) := by
  induction t generalizing c with
  | nil => exact absurd rfl hne
  | cons b t ih =>
    rw [List.forall_mem_cons] at h
    rw [read_cons, next_ordinary h.1, Option.bind_some]
    by_cases ht : t = []
    · rw [ht]
      rfl
    · rw [ih ht h.2]
      simp [Content.apply, Content.extend]

/-- Inside of single quotes. -/
def quoting (done : List Token) (w : Word) : State := ⟨({} : Mode).push .single, ⟨done, some w⟩⟩

theorem next_open (c : Content) : next (ready c) 0x27 = some (quoting c.done (c.word.getD [])) :=
  rfl

theorem next_close (done : List Token) (w : Word) :
    next (quoting done w) 0x27 = some (ready ⟨done, some w⟩) := rfl

theorem next_quoting (hb : b ≠ 0x27) (done : List Token) (w : Word) :
    next (quoting done w) b = some (quoting done (w ++ [.quoted b])) := by
  simp [quoting, next, Mode.push, step, continued, settle, settled, ShellReader.inner, hb,
    Content.apply]

theorem finish_ready (c : Content) : finish (ready c) = some c.endWord.done := rfl

theorem mapM_byte {f : UInt8 → Piece} (hf : ∀ b, Word.byte (f b) = some b) (t : Bytes) :
    (t.map f).mapM Word.byte = some t := by
  induction t with
  | nil => rfl
  | cons b t ih =>
    rw [List.map_cons, List.mapM_cons, hf, ih]
    rfl

/-- A word stands for its bytes if those that are not quoted are ordinary. -/
theorem literal_of_ordinary {w : Word} (h : ∀ b, .plain b ∈ w → b ∉ reserved) :
    Word.literal w = w.mapM Word.byte := by
  have hpattern : w.any Word.isPattern = false := by
    rw [List.any_eq_false]
    rintro (b | b | _) hp
    · have hreserved : ∀ b ∈ ([0x2A, 0x3F, 0x5B] : Bytes), b ∈ reserved := by decide
      simp only [Word.isPattern, Bool.or_eq_true, decide_eq_true_eq]
      exact fun he => h b hp (hreserved b (by simpa [or_assoc] using he))
    · exact Bool.false_ne_true
    · exact Bool.false_ne_true
  have htilde : w.head? ≠ some (.plain 0x7E) := by
    intro he
    exact h _ (List.mem_of_mem_head? he) (by decide)
  rw [Word.literal, hpattern, if_neg (by simp [htilde])]

theorem literal_plain (h : ∀ b ∈ t, b ∉ reserved) : Word.literal (t.map .plain) = some t := by
  rw [literal_of_ordinary, mapM_byte fun _ => rfl]
  intro b hb
  obtain ⟨b', hb', he⟩ := List.mem_map.mp hb
  obtain rfl := Piece.plain.inj he
  exact h b' hb'

theorem endWord_word (c : Content) : c.endWord.word = none := by
  rcases c with ⟨done, _ | w⟩
  · rfl
  · rfl

/-- Ordinary bytes and spaces make words only. -/
theorem read_words (ht : ∀ b ∈ t, b ∉ reserved ∨ b = space)
    (hc : ∀ k ∈ c.done, ∃ w, k = .word w) :
    ∃ d, read (ready c) t = some (ready d) ∧ ∀ k ∈ d.endWord.done, ∃ w, k = .word w := by
  have hend : ∀ {c : Content}, (∀ k ∈ c.done, ∃ w, k = .word w) →
      ∀ k ∈ c.endWord.done, ∃ w, k = .word w := by
    rintro ⟨done, _ | w⟩ hc
    · exact hc
    · exact List.forall_mem_append.mpr ⟨hc, List.forall_mem_singleton.mpr ⟨w, rfl⟩⟩
  induction t generalizing c with
  | nil => exact ⟨c, rfl, hend hc⟩
  | cons b t ih =>
    rw [List.forall_mem_cons] at ht
    rcases ht.1 with hb | rfl
    · obtain ⟨d, hd, hwords⟩ := @ih (c.apply (.piece (.plain b))) ht.2 hc
      exact ⟨d, by rw [read_cons, next_ordinary hb]; exact hd, hwords⟩
    · obtain ⟨d, hd, hwords⟩ := @ih c.endWord ht.2 (hend hc)
      exact ⟨d, by rw [read_cons, next_blank]; exact hd, hwords⟩

theorem harmless_words {l ts : List Token} (h : ∀ k ∈ l, ∃ w, k = .word w) :
    harmless (l ++ ts) = harmless ts := by
  induction l with
  | nil => rfl
  | cons k l ih =>
    rw [List.forall_mem_cons] at h
    obtain ⟨⟨w, rfl⟩, hl⟩ := h
    exact ih hl

/-- Behind a word that ended the rest is read on its own. -/
theorem tokens_word (w : Word) (text : Bytes) :
    (read (ready ⟨[], some w⟩) (space :: text)).bind finish =
      (tokens text).map (.word w :: ·) := by
  have hbehind : ready (Content.endWord ⟨[], some w⟩) = start.behind [.word w] := rfl
  rw [read_cons, next_blank, Option.bind_some, hbehind, tokens_behind]
  rfl

end Reading

section FirstWord

variable {c : Content} {s t : State} {p : Piece} {b : UInt8}

/-- The first token is, or becomes, a word with this piece in front. -/
def Content.Leads (p : Piece) (c : Content) : Prop :=
  (c.done = [] ∧ ∃ w, c.word = some (p :: w)) ∨ ∃ w ts, c.done = .word (p :: w) :: ts

theorem Content.endWord_leads (h : c.Leads p) :
    ∃ w ts, c.endWord.done = .word (p :: w) :: ts := by
  rcases c with ⟨done, word⟩
  rcases h with ⟨rfl, w, rfl⟩ | ⟨w, ts, rfl⟩
  · exact ⟨w, [], rfl⟩
  · cases word with
    | none => exact ⟨w, ts, rfl⟩
    | some v => exact ⟨w, ts ++ [.word v], rfl⟩

/-- A token goes behind the first word, which has ended by then. -/
theorem Content.leads_push {word : Option Word} (h : c.Leads p) (t : Token) :
    (⟨c.endWord.done ++ [t], word⟩ : Content).Leads p := by
  obtain ⟨w, ts, hdone⟩ := endWord_leads h
  exact .inr ⟨w, ts ++ [t], by rw [hdone]; rfl⟩

theorem Content.leads_apply (hp : p.isDigit = false) (h : c.Leads p) (e : Edit) :
    (c.apply e).Leads p := by
  cases e with
  | begin =>
    rcases h with ⟨hdone, w, hw⟩ | hdone
    · exact .inl ⟨hdone, w, by simp [apply, hw]⟩
    · exact .inr hdone
  | piece q =>
    rcases h with ⟨hdone, w, hw⟩ | hdone
    · exact .inl ⟨hdone, w ++ [q], by simp [apply, hw]⟩
    · exact .inr hdone
  | blank => exact .inr (endWord_leads h)
  | redirect =>
    rw [apply]
    split_ifs with hdigits
    · rcases h with ⟨-, w, hw⟩ | ⟨w, ts, hdone⟩
      · rw [hw, Option.getD_some, List.all_cons, hp] at hdigits
        cases hdigits
      · exact .inr ⟨w, ts ++ [.redirect], by rw [hdone]; rfl⟩
    · exact leads_push h _
  | operator => exact leads_push h _

theorem Content.leads_foldl (hp : p.isDigit = false) (es : List Edit) (h : c.Leads p) :
    (es.foldl apply c).Leads p := by
  induction es generalizing c with
  | nil => exact h
  | cons e es ih => exact ih (leads_apply hp h e)

theorem leads_next (hp : p.isDigit = false) (h : s.content.Leads p) (ht : next s b = some t) :
    t.content.Leads p := by
  obtain ⟨r, -, rfl⟩ := Option.map_eq_some_iff.mp ht
  exact Content.leads_foldl hp r.2 h

theorem leads_read (hp : p.isDigit = false) {text : Bytes} (h : s.content.Leads p)
    (ht : read s text = some t) : t.content.Leads p := by
  induction text generalizing s with
  | nil =>
    obtain rfl := Option.some.inj ht
    exact h
  | cons b text ih =>
    rw [read_cons] at ht
    obtain ⟨u, hu, ht⟩ := Option.bind_eq_some_iff.mp ht
    exact ih (leads_next hp h hu) ht

theorem leads_finish (hp : p.isDigit = false) {ts : List Token} (h : s.content.Leads p)
    (ht : finish s = some ts) : ∃ w rest, ts = .word (p :: w) :: rest := by
  obtain ⟨r, -, ht⟩ := Option.bind_eq_some_iff.mp ht
  dsimp only at ht
  split_ifs at ht
  · rw [← Option.some.inj ht]
    exact Content.endWord_leads (Content.leads_foldl hp _ h)
  · rw [← Option.some.inj ht]
    exact Content.endWord_leads (Content.leads_foldl hp _ h)

/-- A text that starts with an ordinary byte starts with a word. -/
theorem tokens_first (hb : b ∉ reserved) (hd : isDigit b = false) {text : Bytes} {ts : List Token}
    (h : tokens (b :: text) = some ts) : ∃ w rest, ts = .word (.plain b :: w) :: rest := by
  obtain ⟨t, ht, hts⟩ := Option.bind_eq_some_iff.mp h
  have hfirst : start = ready {} := rfl
  rw [hfirst, read_cons, next_ordinary hb, Option.bind_some] at ht
  have hp : (Piece.plain b).isDigit = false := hd
  have hleads : (Content.apply {} (.piece (.plain b))).Leads (.plain b) := .inl ⟨rfl, [], rfl⟩
  exact leads_finish hp (leads_read hp hleads ht) hts

end FirstWord

end ShellReader
