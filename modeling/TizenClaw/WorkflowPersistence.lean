import TizenClaw.ByteLines
import TizenClaw.JsonFailure
import TizenClaw.TaskRoundTrip
import TizenClaw.WorkflowEngine

/-! Workflows as Markdown: the parser, and the files that keep the text behind a comment with the
id. The loader takes the comment out by its pattern, wherever the pattern matches. -/
namespace WorkflowPersistence

open ByteString ByteLines JsonValue JsonFailure TaskSchedule PipelineExecutor WorkflowEngine

variable (readFloat : Bytes → Option NumberText)

section Lines

def blank : Bytes := bytes " \t\r\n"

def extractMetaValue (line key : Bytes) : Bytes :=
  let pattern := bytes "- " ++ key ++ bytes ":"
  match find pattern line with
  | none => []
  | some pos => trim blank (line.drop (pos + pattern.length))

def stringToStepType (s : Bytes) : WorkflowStepType := if s = bytes "tool" then .tool else .prompt

/-- The keys and values before anything is read from them; without any the object is null. -/
def parseFrontmatter (yamlBlock : Bytes) : Json :=
  let addLine (m : List (Bytes × Json)) (line : Bytes) : List (Bytes × Json) :=
    match find [0x3A] (trim blank line) with
    | none => m
    | some colon =>
      let key := trim blank ((trim blank line).take colon)
      let value := trim blank ((trim blank line).drop (colon + 1))
      if key ≠ [] ∧ value ≠ [] then insertMember key (.str value) m else m
  match (lines yamlBlock).foldl addLine [] with
  | [] => .null
  | m => .obj m

/-- A step with the lines of its instruction, when these are being collected. -/
structure StepReader where
  step : WorkflowStep
  multiline : Option Bytes := none

/-- A line with a key. A key without a value is no key. -/
def readMeta (step : WorkflowStep) (trimmed : Bytes) : StepReader :=
  let type := extractMetaValue trimmed (bytes "type")
  let instruction := extractMetaValue trimmed (bytes "instruction")
  let toolName := extractMetaValue trimmed (bytes "tool_name")
  let outputVar := extractMetaValue trimmed (bytes "output_var")
  let skipOnFailure := extractMetaValue trimmed (bytes "skip_on_failure")
  let maxRetries := extractMetaValue trimmed (bytes "max_retries")
  let args := extractMetaValue trimmed (bytes "args")
  if type ≠ [] then ⟨{ step with type := stringToStepType type }, none⟩
  else if instruction = bytes "|" then ⟨step, some []⟩
  else if instruction ≠ [] then ⟨{ step with instruction := instruction }, none⟩
  else if toolName ≠ [] then ⟨{ step with toolName := toolName }, none⟩
  else if outputVar ≠ [] then ⟨{ step with outputVar := outputVar }, none⟩
  else if skipOnFailure ≠ [] then
    ⟨{ step with skipOnFailure := skipOnFailure = bytes "true" }, none⟩
  else if maxRetries ≠ [] then ⟨{ step with maxRetries := (stoi maxRetries).getD 0 }, none⟩
  else if args ≠ [] then
    match parseText readFloat args with
    | .ok j => ⟨{ step with args := j }, none⟩
    | .error _ => ⟨{ step with args := .obj [] }, none⟩
  else ⟨step, none⟩

/-- A line of a step. A line with another key ends a collected instruction. -/
def readStepLine (r : StepReader) (line : Bytes) : StepReader :=
  let trimmed := trim blank line
  match r.multiline with
  | none => readMeta readFloat r.step trimmed
  | some text =>
    if bytes "- " <+: trimmed ∧ 0x3A ∈ trimmed then
      readMeta readFloat { r.step with instruction := trim blank text } trimmed
    else { r with multiline := some (text ++ line ++ [newline]) }

def parseStepBlock (id body : Bytes) : WorkflowStep :=
  let r := (lines body).foldl (readStepLine readFloat) ⟨{ id := id }, none⟩
  let step := match r.multiline with
    | none => r.step
    | some text => { r.step with instruction := trim blank text }
  if step.outputVar = [] then { step with outputVar := step.id } else step

end Lines

section Patterns

/-- What is left behind a literal. -/
def after (literal s : Bytes) : Option Bytes :=
  if literal <+: s then some (s.drop literal.length) else none

def dropSpace (s : Bytes) : Bytes := s.dropWhile isSpace

/-- A match, with the text behind it. -/
structure Match where
  groups : List Bytes
  rest : Bytes
  deriving DecidableEq, Repr

/-- The matches of a pattern in a text, each with the text it starts at. Those inside of a match, as
long as the text is not past its end, are left out. -/
def occurrences (pattern : Bytes → Option Match) : ℕ → Bytes → List (Bytes × Match)
  | _, [] => []
  | 0, c :: s =>
    match pattern (c :: s) with
    | none => occurrences pattern 0 s
    | some m => (c :: s, m) :: occurrences pattern (s.length - m.rest.length) s
  | skip + 1, _ :: s => occurrences pattern skip s

/-- `regex_replace` with nothing. -/
def erase (pattern : Bytes → Option Match) : ℕ → Bytes → Bytes
  | _, [] => []
  | 0, c :: s =>
    match pattern (c :: s) with
    | none => c :: erase pattern 0 s
    | some m => erase pattern (s.length - m.rest.length) s
  | skip + 1, _ :: s => erase pattern skip s

/-- `##\s+Step\s+(\d+)\s*:\s*(.*)` in any case. The last white space takes line ends too. -/
def stepHeading (s : Bytes) : Option Match := do
  let s ← after (bytes "##") s
  if dropSpace s = s then none
  let s := dropSpace s
  if (s.take 4).map toLower ≠ bytes "step" then none
  let s := s.drop 4
  if dropSpace s = s then none
  let s := dropSpace s
  let number := s.takeWhile isDigit
  if number = [] then none
  let s ← after (bytes ":") (dropSpace (s.dropWhile isDigit))
  let s := dropSpace s
  let title := s.takeWhile fun b => b ≠ newline ∧ b ≠ 0x0D
  some ⟨[number, title], s.drop title.length⟩

/-- The last `-->` of a word that is not at its start. -/
def lastClose (word : Bytes) : Option ℕ :=
  (List.range word.length).reverse.find? fun k => 0 < k ∧ bytes "-->" <+: word.drop k

/-- `<!--\s*id:\s*(\S+)\s*-->`. The id is the whole word if the comment ends behind it, and else as
much of the word as has an end of the comment behind it. -/
def idComment (s : Bytes) : Option Match := do
  let s ← after (bytes "<!--") s
  let s ← after (bytes "id:") (dropSpace s)
  let s := dropSpace s
  let word := s.takeWhile (! isSpace ·)
  let tail := s.dropWhile (! isSpace ·)
  if word = [] then none
  match after (bytes "-->") (dropSpace tail) with
  | some rest => some ⟨[word], rest⟩
  | none => (lastClose word).map fun k => ⟨[word.take k], word.drop (k + 3) ++ tail⟩

end Patterns

section Parser

/-- The block of a step goes up to the next heading. -/
def stepBlocks : List (Bytes × Match) → List WorkflowStep
  | [] => []
  | (_, m) :: later =>
    let next := match later with
      | [] => 0
      | (start, _) :: _ => start.length
    parseStepBlock readFloat (bytes "step_" ++ m.groups.headD [])
      (m.rest.take (m.rest.length - next)) :: stepBlocks later

def stepsOf (body : Bytes) : List WorkflowStep :=
  stepBlocks readFloat (occurrences stepHeading 0 body)

/-- Without an entry in the frontmatter the default value of a missing one cannot be asked for. -/
def parseMarkdown (id markdown : Bytes) : Except JsonException Workflow :=
  let text := trim blank markdown
  let second := if bytes "---" <+: text then find (bytes "---") (text.drop 3) else none
  match second with
  | none => .ok ⟨id, [], [], [], stepsOf readFloat markdown⟩
  | some length => do
    let fm := parseFrontmatter ((text.drop 3).take length)
    let name ← fm.valueString (bytes "name") []
    let description ← fm.valueString (bytes "description") []
    let trigger ← fm.valueString (bytes "trigger") (bytes "manual")
    .ok ⟨id, name, description, trigger, stepsOf readFloat (text.drop (3 + length + 3))⟩

end Parser

section Files

/-- The workflows in memory, and the files of their directory under their names. -/
structure Engine where
  workflows : Bytes → Option Workflow
  files : Bytes → Option Bytes
  counter : ℕ

inductive LoadError where
  | cannotOpen
  | json (e : JsonException)
  deriving DecidableEq, Repr

def workflowId (millis : ℤ) (seq : ℕ) : Bytes :=
  bytes "wf-" ++ hex (millis % 2 ^ 64).toNat ++ bytes "-" ++ hex seq

def savedText (id markdown : Bytes) : Bytes := bytes "<!-- id: " ++ id ++ bytes " -->\n" ++ markdown

def fileName (id : Bytes) : Bytes := id ++ bytes ".md"

/-- The file is written under another name and renamed, if it can be opened. -/
def saveWorkflow (opened : Bool) (id markdown : Bytes) (e : Engine) : Engine :=
  if opened then
    { e with files := Function.update e.files (fileName id) (some (savedText id markdown)) }
  else e

/-- `CreateWorkflow` at a time. Its answer is empty for a text that it does not accept. -/
def createWorkflow (millis : ℤ) (opened : Bool) (markdown : Bytes) (e : Engine) :
    Except JsonException (Bytes × Engine) := do
  let id := workflowId millis e.counter
  let wf ← parseMarkdown readFloat id markdown
  if wf.name = [] ∨ wf.steps = [] then .ok ([], e)
  else .ok (id, saveWorkflow opened id markdown
    { e with workflows := Function.update e.workflows id (some wf), counter := e.counter + 1 })

def searchId (content : Bytes) : Option Bytes :=
  (occurrences idComment 0 content).head?.map fun x => x.2.groups.headD []

/-- `LoadWorkflowFile` of a text: the id of the first comment, and the text without the comments. -/
def loadText (content : Bytes) : Except JsonException Workflow :=
  parseMarkdown readFloat ((searchId content).getD []) (erase idComment 0 content)

def loadWorkflowFile (name : Bytes) (e : Engine) : Except LoadError Workflow :=
  match e.files name with
  | none => .error .cannotOpen
  | some content => (loadText readFloat content).mapError .json

end Files

section Scanning

variable {pattern : Bytes → Option Match}

/-- A text without a match loses nothing. -/
theorem erase_of_no_match {s : Bytes} (h : occurrences pattern 0 s = []) :
    erase pattern 0 s = s := by
  induction s with
  | nil => rfl
  | cons c s ih =>
    rw [occurrences] at h
    rw [erase]
    cases hp : pattern (c :: s) with
    | none =>
      rw [hp] at h
      exact congrArg (c :: ·) (ih h)
    | some m =>
      rw [hp] at h
      cases h

theorem occurrences_skip (u s : Bytes) :
    occurrences pattern u.length (u ++ s) = occurrences pattern 0 s := by
  induction u with
  | nil => rfl
  | cons c u ih => exact ih

theorem erase_skip (u s : Bytes) : erase pattern u.length (u ++ s) = erase pattern 0 s := by
  induction u with
  | nil => rfl
  | cons c u ih => exact ih

/-- A text that starts with a match. -/
theorem match_first {u s : Bytes} (hu : u ≠ []) {groups : List Bytes}
    (h : pattern (u ++ s) = some ⟨groups, s⟩) :
    occurrences pattern 0 (u ++ s) = (u ++ s, ⟨groups, s⟩) :: occurrences pattern 0 s ∧
      erase pattern 0 (u ++ s) = erase pattern 0 s := by
  cases u with
  | nil => exact absurd rfl hu
  | cons c u =>
    rw [List.cons_append] at h ⊢
    have hlen : (u ++ s).length - s.length = u.length := by
      rw [List.length_append, Nat.add_sub_cancel]
    rw [occurrences, erase, h]
    dsimp only
    rw [hlen, occurrences_skip, erase_skip]
    exact ⟨rfl, rfl⟩

theorem after_append (literal s : Bytes) : after literal (literal ++ s) = some s := by
  rw [after, if_pos (List.prefix_append _ _), List.drop_left]

/-- The comment that a file starts with. -/
theorem idComment_saved {id : Bytes} (hne : id ≠ []) (hid : ∀ b ∈ id, isSpace b = false)
    (s : Bytes) :
    idComment (bytes "<!-- id: " ++ id ++ bytes " -->" ++ s) = some ⟨[id], s⟩ := by
  have hopen : bytes "<!-- id: " = bytes "<!--" ++ (space :: bytes "id: ") := by decide
  have hclose : bytes " -->" = space :: bytes "-->" := by decide
  have hkey : ∀ t, after (bytes "id:") (dropSpace (space :: (bytes "id: " ++ t))) =
      some (space :: t) := fun t => after_append (bytes "id:") (space :: t)
  have harrow : after (bytes "-->") (dropSpace (space :: (bytes "-->" ++ s))) = some s :=
    after_append (bytes "-->") s
  have hword : ∀ b ∈ id, (! isSpace b) = true := fun b hb => by rw [hid b hb]; rfl
  have htake : (id ++ (space :: (bytes "-->" ++ s))).takeWhile (! isSpace ·) = id := by
    rw [List.takeWhile_append_of_pos hword, List.takeWhile_cons_of_neg (by decide), List.append_nil]
  have hdrop : (id ++ (space :: (bytes "-->" ++ s))).dropWhile (! isSpace ·) =
      space :: (bytes "-->" ++ s) := by
    rw [List.dropWhile_append_of_pos hword, List.dropWhile_cons_of_neg (by decide)]
  have hstart : dropSpace (id ++ (space :: (bytes "-->" ++ s))) =
      id ++ (space :: (bytes "-->" ++ s)) := by
    cases id with
    | nil => exact absurd rfl hne
    | cons b id =>
      rw [List.cons_append, dropSpace, List.dropWhile_cons_of_neg]
      rw [hid b List.mem_cons_self]
      decide
  have hskip : dropSpace (space :: (id ++ (space :: (bytes "-->" ++ s)))) =
      id ++ (space :: (bytes "-->" ++ s)) := hstart
  have htext : bytes "<!-- id: " ++ id ++ bytes " -->" ++ s = bytes "<!--" ++
      (space :: (bytes "id: " ++ (id ++ (space :: (bytes "-->" ++ s))))) := by
    rw [hopen, hclose]
    simp
  rw [htext, idComment, after_append, Option.bind_eq_bind, Option.bind_some, hkey,
    Option.bind_eq_bind, Option.bind_some, hskip]
  dsimp only
  rw [htake, hdrop, if_neg hne, harrow]

end Scanning

section Persistence

variable {readFloat : Bytes → Option NumberText}

theorem parseMarkdown_newline {id markdown : Bytes} {wf : Workflow}
    (h : parseMarkdown readFloat id markdown = .ok wf) (hname : wf.name ≠ []) :
    parseMarkdown readFloat id (newline :: markdown) = .ok wf := by
  have htrim : trim blank (newline :: markdown) = trim blank markdown :=
    trim_white_append (w := [newline]) (forall_of_all (by decide)) markdown
  unfold parseMarkdown at h ⊢
  rw [htrim]
  dsimp only at h ⊢
  split at h
  · cases h
    exact absurd rfl hname
  · exact h

theorem parseMarkdown_id {id markdown : Bytes} {wf : Workflow}
    (h : parseMarkdown readFloat id markdown = .ok wf) : wf.id = id := by
  unfold parseMarkdown at h
  dsimp only at h
  split at h
  · cases h
    rfl
  · obtain ⟨name, -, h⟩ := bind_eq_ok.mp h
    obtain ⟨description, -, h⟩ := bind_eq_ok.mp h
    obtain ⟨trigger, -, h⟩ := bind_eq_ok.mp h
    cases h
    rfl

theorem isSpace_workflowId (millis : ℤ) (seq : ℕ) :
    ∀ b ∈ workflowId millis seq, isSpace b = false := by
  have hhex : ∀ n, ∀ b ∈ hex n, isSpace b = false := by
    intro n b hb
    have hall : ∀ b ∈ bytes "0123456789abcdef", isSpace b = false := forall_of_all (by decide)
    exact hall b (TaskRoundTrip.mem_hex n b hb)
  intro b hb
  simp only [workflowId, List.mem_append] at hb
  rcases hb with ((hb | hb) | hb) | hb
  · have hall : ∀ b ∈ bytes "wf-", isSpace b = false := forall_of_all (by decide)
    exact hall b hb
  · exact hhex _ b hb
  · have hall : ∀ b ∈ bytes "-", isSpace b = false := forall_of_all (by decide)
    exact hall b hb
  · exact hhex _ b hb

/-- The id that is read from a file, and the text that is left of it. -/
theorem saved_text (millis : ℤ) (seq : ℕ) (markdown : Bytes) :
    searchId (savedText (workflowId millis seq) markdown) = some (workflowId millis seq) ∧
      erase idComment 0 (savedText (workflowId millis seq) markdown) =
        newline :: erase idComment 0 markdown := by
  let id := workflowId millis seq
  have hne : id ≠ [] := by simp [id, workflowId, bytes]
  have htext : savedText id markdown =
      (bytes "<!-- id: " ++ id ++ bytes " -->") ++ newline :: markdown := by
    have hend : bytes " -->\n" = bytes " -->" ++ [newline] := by decide
    rw [savedText, hend]
    simp
  have hmatch := idComment_saved hne (isSpace_workflowId millis seq) (newline :: markdown)
  obtain ⟨hocc, herase⟩ := match_first (by simp [bytes]) hmatch
  have hline : idComment (newline :: markdown) = none := rfl
  constructor
  · rw [htext, searchId, hocc]
    rfl
  · rw [htext, herase, erase, hline]

/-- A text without an id comment is loaded as the workflow that was created from it. -/
theorem persisted {markdown id : Bytes} {millis : ℤ} {e e' : Engine}
    (h : createWorkflow readFloat millis true markdown e = .ok (id, e')) (hid : id ≠ [])
    (hno : searchId markdown = none) :
    ∃ wf, e'.workflows id = some wf ∧ wf.id = id ∧
      loadWorkflowFile readFloat (fileName id) e' = .ok wf := by
  have hocc : occurrences idComment 0 markdown = [] := by
    rw [searchId, Option.map_eq_none_iff] at hno
    exact List.head?_eq_none_iff.mp hno
  obtain ⟨wf, hparse, hcreate⟩ := bind_eq_ok.mp h
  split_ifs at hcreate with hempty
  · obtain ⟨rfl, -⟩ := Prod.mk.inj (Except.ok.inj hcreate)
    exact absurd rfl hid
  obtain ⟨rfl, rfl⟩ := Prod.mk.inj (Except.ok.inj hcreate)
  rw [not_or] at hempty
  obtain ⟨hsearch, herase⟩ := saved_text millis e.counter markdown
  refine ⟨wf, Function.update_self _ _ _, parseMarkdown_id hparse, ?_⟩
  have hfile : (saveWorkflow true (workflowId millis e.counter) markdown
      { e with
        workflows := Function.update e.workflows (workflowId millis e.counter) (some wf)
        counter := e.counter + 1 }).files (fileName (workflowId millis e.counter)) =
      some (savedText (workflowId millis e.counter) markdown) := Function.update_self _ _ _
  have hload : loadText readFloat (savedText (workflowId millis e.counter) markdown) = .ok wf := by
    rw [loadText, hsearch, herase, erase_of_no_match hocc, Option.getD_some]
    exact parseMarkdown_newline hparse hempty.1
  rw [loadWorkflowFile, hfile]
  dsimp only
  rw [hload]
  rfl

end Persistence

namespace Counterexample

def noFloat : Bytes → Option NumberText := fun _ => none
def empty : Engine := ⟨fun _ => none, fun _ => none, 0⟩
def id : Bytes := workflowId 0 0

def plain : Bytes := bytes "---\nname:a\n---## Step 1:t"

theorem plain_loads : ∃ e' wf, createWorkflow noFloat 0 true plain empty = .ok (id, e') ∧
    e'.workflows id = some wf ∧ wf.id = id ∧
      loadWorkflowFile noFloat (fileName id) e' = .ok wf := by
  obtain ⟨e', he⟩ : ∃ e', createWorkflow noFloat 0 true plain empty = .ok (id, e') := ⟨_, rfl⟩
  obtain ⟨wf, h⟩ := persisted he (by decide) (by decide)
  exact ⟨e', wf, he, h⟩

/-- A name with an id comment in it. -/
def commented : Bytes := bytes "---\nname:a<!--id:b-->\n---## Step 1:t"

/-- The name that is loaded is not the one in memory. -/
theorem comment_lost : ∃ e' wf loaded,
    createWorkflow noFloat 0 true commented empty = .ok (id, e') ∧ e'.workflows id = some wf ∧
      loadWorkflowFile noFloat (fileName id) e' = .ok loaded ∧
      wf.name = bytes "a<!--id:b-->" ∧ loaded.name = bytes "a" :=
  ⟨_, _, _, rfl, rfl, rfl, rfl, rfl⟩

end Counterexample

end WorkflowPersistence
