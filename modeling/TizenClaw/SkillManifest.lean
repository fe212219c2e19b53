import TizenClaw.ByteLines
import TizenClaw.JsonStorable
import TizenClaw.McpServer

/-! Skill manifests: `SKILL.md` with its frontmatter and its block of parameters, as it is parsed and
as it is written, `manifest.json`, and which of the two a directory is loaded from. -/
namespace SkillManifest

open ByteString ByteLines JsonValue JsonDump JsonParse JsonRoundTrip JsonStorable McpServer

/-- What `Trim` removes. -/
def blanks : Bytes := bytes " \t\r\n"

/-- Surrounding quotes of either kind. -/
def Quoted (s : Bytes) : Prop :=
  2 ≤ s.length ∧ ((s.head? = some 0x22 ∧ s.getLast? = some 0x22) ∨
    (s.head? = some 0x27 ∧ s.getLast? = some 0x27))

instance (s : Bytes) : Decidable (Quoted s) := inferInstanceAs (Decidable (_ ∧ _))

def stripQuotes (s : Bytes) : Bytes := if Quoted s then (s.drop 1).take (s.length - 2) else s

/-- What a line of the frontmatter sets. A value that is empty without its quotes sets nothing. -/
def readField (line : Bytes) : Option (Bytes × Bytes) :=
  let line := trim blanks line
  match find (bytes ":") line with
  | none => none
  | some colon =>
    let key := trim blanks (line.take colon)
    let value := stripQuotes (trim blanks (line.drop (colon + 1)))
    if key = [] ∨ value = [] then none else some (key, value)

def fields (yaml : Bytes) : List (Bytes × Bytes) := (lines yaml).filterMap readField

/-- The members of the result; it is null while it has none. -/
def parseFrontmatter (yaml : Bytes) : List (Bytes × Json) :=
  ofMembers ((fields yaml).map fun f => (f.1, .str f.2))

def rule : Bytes := bytes "---"
def fence : Bytes := bytes "\x60\x60\x60"
def marker : Bytes := bytes "\x60\x60\x60json:parameters"

/-- The text of the block between the line of its marker and the next fence. -/
def blockText (body : Bytes) : Option Bytes :=
  (find marker body).bind fun start =>
  (find [newline] (body.drop start)).bind fun eol =>
  let block := body.drop (start + eol + 1)
  (find fence block).map fun stop => trim blanks (block.take stop)

/-- The frontmatter and the body: the second rule may stand anywhere. -/
def splitSkillMd (content : Bytes) : Option (Bytes × Bytes) :=
  let trimmed := trim blanks content
  if rule.isPrefixOf trimmed then
    (find rule (trimmed.drop 3)).map fun second =>
      ((trimmed.drop 3).take second, trimmed.drop (3 + second + 3))
  else none

def defaultParameters : Json := .object [(bytes "type", .str (bytes "object")),
  (bytes "properties", .obj []), (bytes "required", .arr [])]

section Parser

variable (readFloat : Bytes → Option NumberText)

def extractParametersBlock (body : Bytes) : Json :=
  match blockText body with
  | none => .obj []
  | some text => match parse readFloat text with
    | .ok j => j
    | .error _ => .obj []

def parseSkillMd (content : Bytes) : Json :=
  match splitSkillMd content with
  | none => .obj []
  | some (yaml, body) =>
    let result := parseFrontmatter yaml
    let params := extractParametersBlock readFloat body
    if params.empty = false then .obj (insertMember (bytes "parameters") params result)
    else if (result.lookup (bytes "parameters")).isSome then .obj result
    else .obj (insertMember (bytes "parameters") defaultParameters result)

def parseManifestJson (content : Bytes) : Json :=
  match readStream readFloat content with
  | .ok j => j
  | .error _ => .obj []

/-- A skill directory: its name and the metadata files it has. -/
structure SkillFiles where
  dirname : Bytes
  skillMd : Option Bytes
  manifestJson : Option Bytes

def loadManifestJson (d : SkillFiles) : Json :=
  match d.manifestJson with
  | none => .obj []
  | some content =>
    let result := parseManifestJson readFloat content
    if result.empty then .obj [] else result

/-- `Load`: a `SKILL.md` without a name does not count. -/
def load (d : SkillFiles) : Json :=
  match d.skillMd with
  | none => loadManifestJson readFloat d
  | some content =>
    let result := parseSkillMd readFloat content
    if result.empty = false ∧ result.contains (bytes "name") then result
    else loadManifestJson readFloat d

end Parser

section Writer

/-- The line of a text member, if the member is there. -/
def fieldLine (quotation key : Bytes) (manifest : Json) : Except JsonException Bytes :=
  match manifest.member? key with
  | none => .ok []
  | some v => v.getString.map fun value =>
    key ++ bytes ": " ++ (quotation ++ value ++ quotation) ++ [newline]

def verifiedLine (manifest : Json) : Except JsonException Bytes :=
  match manifest.member? (bytes "verified") with
  | none => .ok []
  | some v => (getBool v).map fun b =>
    bytes "verified" ++ bytes ": " ++ (if b then bytes "true" else bytes "false") ++ [newline]

def descriptionText (manifest : Json) : Except JsonException Bytes :=
  match manifest.member? (bytes "description") with
  | none => .ok []
  | some v => v.getString.map fun text => text ++ bytes "\n\n"

def parametersText (manifest : Json) : Except JsonException Bytes :=
  match manifest.member? (bytes "parameters") with
  | none => .ok []
  | some v => (dumpIndent 4 v).map fun text =>
    marker ++ [newline] ++ (text ++ [newline] ++ (fence ++ [newline]))

def generateSkillMd (manifest : Json) : Except JsonException Bytes :=
  (fieldLine [] (bytes "name") manifest).bind fun name =>
  (fieldLine [0x22] (bytes "description") manifest).bind fun description =>
  (fieldLine [] (bytes "category") manifest).bind fun category =>
  (fieldLine [] (bytes "risk_level") manifest).bind fun riskLevel =>
  (fieldLine [] (bytes "runtime") manifest).bind fun runtime =>
  (fieldLine [] (bytes "entry_point") manifest).bind fun entryPoint =>
  (fieldLine [] (bytes "language") manifest).bind fun language =>
  (verifiedLine manifest).bind fun verified =>
  (manifest.valueString (bytes "name") (bytes "Skill")).bind fun heading =>
  (descriptionText manifest).bind fun text =>
  (parametersText manifest).map fun parameters =>
    rule ++ [newline] ++
      (name ++ description ++ category ++ riskLevel ++ runtime ++ entryPoint ++ language ++
        verified) ++
      (rule ++ bytes "\n\n" ++ (bytes "# " ++ heading ++ bytes "\n\n") ++ (text ++ parameters))

end Writer

section Quotes

theorem stripQuotes_quoted (s : Bytes) : stripQuotes (0x22 :: (s ++ [0x22])) = s := by
  have hq : Quoted (0x22 :: (s ++ [0x22])) := by
    refine ⟨by simp, .inl ⟨rfl, ?_⟩⟩
    rw [← List.cons_append, List.getLast?_concat]
  rw [stripQuotes, if_pos hq]
  simp

theorem stripQuotes_isInfix (s : Bytes) : stripQuotes s <:+: s := by
  rw [stripQuotes]
  by_cases h : Quoted s
  · rw [if_pos h]
    exact (List.take_prefix _ _).isInfix.trans (List.drop_suffix 1 s).isInfix
  · rw [if_neg h]

/-- What is read of a text that stands bare behind its key. -/
def readBack (value : Bytes) : Option Bytes :=
  let text := stripQuotes (trim blanks value)
  if text = [] then none else some text

/-- A text that is read as it stands. -/
def Bare (value : Bytes) : Prop := value ≠ [] ∧ stripQuotes (trim blanks value) = value

instance (value : Bytes) : Decidable (Bare value) := inferInstanceAs (Decidable (_ ∧ _))

theorem readBack_eq_self_iff {value : Bytes} : readBack value = some value ↔ Bare value := by
  rw [readBack, Bare]
  by_cases h : stripQuotes (trim blanks value) = []
  · rw [if_pos h, h]
    simp [eq_comm]
  · rw [if_neg h, Option.some.injEq]
    constructor
    · intro he
      rw [he] at h
      exact ⟨h, he⟩
    · exact fun he => he.2

end Quotes

section Fields

/-- Words that can be keys: no colon and no blank in them. -/
def Word (key : Bytes) : Prop := key ≠ [] ∧ ∀ b ∈ key, b ≠ 0x3A ∧ blanks.contains b = false

theorem trim_field {key : Bytes} (hk : Word key) (value : Bytes) :
    trim blanks (key ++ bytes ": " ++ value) = key ++ 0x3A :: trimRight blanks (0x20 :: value) := by
  have hsplit : key ++ bytes ": " ++ value = key ++ 0x3A :: 0x20 :: value := by
    rw [List.append_assoc]
    rfl
  have hleft : trimLeft blanks (key ++ 0x3A :: 0x20 :: value) = key ++ 0x3A :: 0x20 :: value := by
    cases key with
    | nil => exact absurd rfl hk.1
    | cons b key => exact trimLeft_head (hk.2 b List.mem_cons_self).2 _
  rw [hsplit, trim, hleft, trimRight_append key (by decide)]

theorem readField_line {key : Bytes} (hk : Word key) (value : Bytes) :
    readField (key ++ bytes ": " ++ value) = (readBack value).map fun v => (key, v) := by
  have hcolon : (0x3A : UInt8) ∉ key := fun h => (hk.2 _ h).1 rfl
  have hkey : trim blanks key = key := trim_of_not_mem fun b hb => (hk.2 b hb).2
  have hfind : ∀ rest, find (bytes ":") (key ++ 0x3A :: rest) = some key.length := find_byte hcolon
  have hvalue : trim blanks (trimRight blanks (0x20 :: value)) = trim blanks value := by
    have hspace : ∀ b ∈ ([0x20] : Bytes), blanks.contains b = true :=
      List.all_eq_true.mp (by decide)
    rw [trim_trimRight]
    exact trim_white_append hspace value
  rw [readField, trim_field hk]
  simp only [hfind, List.take_left, List.drop_length_add_append, List.drop_succ_cons, List.drop_zero,
    hkey, hk.1, false_or, hvalue, readBack]
  by_cases h : stripQuotes (trim blanks value) = []
  · rw [if_pos h, if_pos h]
    rfl
  · rw [if_neg h, if_neg h]
    rfl

/-- A quoted text is read as it is. -/
theorem readBack_quoted {value : Bytes} (h : value ≠ []) :
    readBack (0x22 :: (value ++ [0x22])) = some value := by
  have htrim : trim blanks (0x22 :: (value ++ [0x22])) = 0x22 :: (value ++ [0x22]) := by
    rw [trim, trimLeft_head (by decide), ← List.cons_append, trimRight_last _ (by decide)]
  rw [readBack, htrim, stripQuotes_quoted, if_neg h]

/-- What a line sets is a part of it. -/
theorem readField_isInfix {line key value : Bytes} (h : readField line = some (key, value)) :
    value ≠ [] ∧ value <:+: line := by
  unfold readField at h
  dsimp only at h
  split at h
  · cases h
  · split_ifs at h with hne
    obtain ⟨-, rfl⟩ := Prod.mk.inj (Option.some.inj h)
    rw [not_or] at hne
    refine ⟨hne.2, (stripQuotes_isInfix _).trans ((trim_isInfix _).trans ?_)⟩
    exact (List.drop_suffix _ _).isInfix.trans (trim_isInfix line)

/-- The text that stays under a key. -/
def fieldValue (yaml key : Bytes) : Option Bytes := (fields yaml).reverse.lookup key

theorem lookup_texts (l : List (Bytes × Bytes)) (key : Bytes) :
    (l.map fun f => (f.1, Json.str f.2)).lookup key = (l.lookup key).map Json.str := by
  induction l with
  | nil => rfl
  | cons f l ih =>
    rw [List.map_cons, List.lookup_cons, List.lookup_cons, ih]
    cases key == f.1 <;> rfl

theorem lookup_parseFrontmatter (yaml key : Bytes) :
    (parseFrontmatter yaml).lookup key = (fieldValue yaml key).map Json.str := by
  rw [parseFrontmatter, lookup_ofMembers, ← List.map_reverse, lookup_texts, fieldValue]

theorem fieldValue_mem {yaml key value : Bytes} (h : fieldValue yaml key = some value) :
    ∃ line ∈ lines yaml, readField line = some (key, value) := by
  have hmem : (key, value) ∈ (fields yaml).reverse := OrderedMap.mem_of_lookup h
  exact List.mem_filterMap.mp (List.mem_reverse.mp hmem)

/-- A field is a text of one line. -/
theorem fieldValue_line {yaml key value : Bytes} (h : fieldValue yaml key = some value) :
    value ≠ [] ∧ newline ∉ value := by
  obtain ⟨line, hline, hread⟩ := fieldValue_mem h
  obtain ⟨hne, hsub⟩ := readField_isInfix hread
  exact ⟨hne, fun hn => newline_not_mem_lines yaml line hline (hsub.subset hn)⟩

theorem find_fieldValue {p yaml key value : Bytes} (hp : p ≠ []) (hn : newline ∉ p)
    (hyaml : find p yaml = none) (h : fieldValue yaml key = some value) : find p value = none := by
  obtain ⟨line, hline, hread⟩ := fieldValue_mem h
  exact find_none_of_infix hp (readField_isInfix hread).2 (find_mem_lines_none hp hn hyaml hline)

end Fields

section Split

theorem splitSkillMd_rule {content yaml body : Bytes}
    (h : splitSkillMd content = some (yaml, body)) : find rule yaml = none := by
  unfold splitSkillMd at h
  dsimp only at h
  split_ifs at h
  obtain ⟨second, hsecond, he⟩ := Option.map_eq_some_iff.mp h
  obtain ⟨rfl, -⟩ := Prod.mk.inj he
  exact find_take_none (by decide) hsecond

/-- A written text is split where its header ends. -/
theorem splitSkillMd_written {ls : List Bytes} (hrule : ∀ l ∈ ls, find rule l = none)
    {body : Bytes} (hbody : ∀ b ∈ body.getLast?, blanks.contains b = false) :
    splitSkillMd (rule ++ [newline] ++ unlines ls ++ (rule ++ (body ++ [newline]))) =
      some (newline :: unlines ls, body) := by
  have hne : rule ≠ [] := by decide
  have hnl : newline ∉ rule := by decide
  have hshape : rule ++ [newline] ++ unlines ls ++ (rule ++ (body ++ [newline])) =
      rule ++ (newline :: unlines ls ++ (rule ++ body)) ++ [newline] := by simp
  have htrim : trim blanks (rule ++ (newline :: unlines ls ++ (rule ++ body)) ++ [newline]) =
      rule ++ (newline :: unlines ls ++ (rule ++ body)) := by
    have hwhite : ∀ b ∈ [newline], blanks.contains b = true := List.all_eq_true.mp (by decide)
    rw [trim_append_white _ hwhite, trim]
    have hhead : rule ++ (newline :: unlines ls ++ (rule ++ body)) =
        0x2D :: ([0x2D, 0x2D] ++ (newline :: unlines ls ++ (rule ++ body))) := rfl
    rw [hhead, trimLeft_head (by decide), ← hhead]
    rcases List.eq_nil_or_concat body with rfl | ⟨s, b, rfl⟩
    · have hlast : rule ++ (newline :: unlines ls ++ (rule ++ [])) =
          rule ++ (newline :: unlines ls ++ [0x2D, 0x2D]) ++ [0x2D] := by
        rw [List.append_nil, List.append_assoc, List.append_assoc]
        rfl
      rw [hlast, trimRight_last _ (by decide)]
    · have hb : blanks.contains b = false := hbody b (by simp)
      have hlast : rule ++ (newline :: unlines ls ++ (rule ++ s.concat b)) =
          rule ++ (newline :: unlines ls ++ (rule ++ s)) ++ [b] := by simp
      rw [hlast, trimRight_last _ hb]
  have hfind : find rule (newline :: unlines ls ++ (rule ++ body)) =
      some (newline :: unlines ls).length := by
    have hcons : ∀ m ∈ [] :: ls, find rule m = none := List.forall_mem_cons.mpr ⟨by decide, hrule⟩
    have := find_lines_none hne hnl hcons (rule ++ body)
    rw [find_self hne, Option.map_some, Nat.zero_add, unlines_cons, List.nil_append] at this
    exact this
  have hpre : rule.isPrefixOf (rule ++ (newline :: unlines ls ++ (rule ++ body))) = true :=
    isPrefixOf_append_self _ _
  have hdrop : (rule ++ (newline :: unlines ls ++ (rule ++ body))).drop 3 =
      newline :: unlines ls ++ (rule ++ body) := rfl
  rw [hshape, splitSkillMd, htrim]
  simp only [hpre, if_true, hdrop, hfind, Option.map_some, List.take_left]
  rw [Nat.add_assoc, ← List.drop_drop, hdrop, List.drop_length_add_append]
  rfl

end Split

section Parsed

variable {readFloat : Bytes → Option NumberText} {content yaml body : Bytes}

/-- The parameters of a parsed file: those of the block, else what the frontmatter has for them. -/
def parametersOf (readFloat : Bytes → Option NumberText) (yaml body : Bytes) : Json :=
  if (extractParametersBlock readFloat body).empty = false then extractParametersBlock readFloat body
  else ((fieldValue yaml (bytes "parameters")).map Json.str).getD defaultParameters

theorem parseSkillMd_unsplit (h : splitSkillMd content = none) :
    parseSkillMd readFloat content = .obj [] := by
  rw [parseSkillMd, h]

variable (readFloat) in
/-- A file with a frontmatter has its fields and its parameters for members. -/
theorem parseSkillMd_split (h : splitSkillMd content = some (yaml, body)) :
    ∃ m, parseSkillMd readFloat content = .obj m ∧
      (∀ key, key ≠ bytes "parameters" → m.lookup key = (fieldValue yaml key).map Json.str) ∧
      m.lookup (bytes "parameters") = some (parametersOf readFloat yaml body) := by
  rw [parseSkillMd, h]
  dsimp only
  rw [parametersOf]
  by_cases hp : (extractParametersBlock readFloat body).empty = false
  · rw [if_pos hp, if_pos hp]
    refine ⟨_, rfl, fun key hkey => ?_, ?_⟩
    · rw [lookup_insertMember, if_neg hkey, lookup_parseFrontmatter]
    · rw [lookup_insertMember, if_pos rfl]
  · rw [if_neg hp, if_neg hp]
    have hfield := lookup_parseFrontmatter yaml (bytes "parameters")
    cases hv : fieldValue yaml (bytes "parameters") with
    | none =>
      rw [hv] at hfield
      rw [hfield]
      refine ⟨_, rfl, fun key hkey => ?_, ?_⟩
      · rw [lookup_insertMember, if_neg hkey, lookup_parseFrontmatter]
      · rw [lookup_insertMember, if_pos rfl]
        rfl
    | some v =>
      rw [hv] at hfield
      rw [hfield]
      exact ⟨_, rfl, fun key _ => lookup_parseFrontmatter yaml key, hfield⟩

theorem extractParametersBlock_utf8 (body : Bytes) :
    (extractParametersBlock readFloat body).utf8 = true := by
  unfold extractParametersBlock
  split
  · rfl
  · split
    next j hj => exact (JsonParseUtf8.parse_utf8 hj).2
    · rfl

end Parsed

section Generated

def textKeys : List Bytes := [bytes "name", bytes "description", bytes "category",
  bytes "risk_level", bytes "runtime", bytes "entry_point", bytes "language"]

/-- The keys of the header, in the order they are written. -/
def headerKeys : List Bytes := textKeys ++ [bytes "verified"]

def headerText (key value : Bytes) : Bytes :=
  if key = bytes "description" then 0x22 :: (value ++ [0x22]) else value

def headerLine (key value : Bytes) : Bytes := key ++ bytes ": " ++ headerText key value

def headerLines (texts : Bytes → Option Bytes) : List Bytes :=
  headerKeys.filterMap fun key => (texts key).map (headerLine key)

def bodyText (texts : Bytes → Option Bytes) (parameters : Bytes) : Bytes :=
  bytes "\n\n" ++ (bytes "# " ++ (texts (bytes "name")).getD (bytes "Skill") ++ bytes "\n\n") ++
    (((texts (bytes "description")).map (· ++ bytes "\n\n")).getD [] ++
      (marker ++ [newline] ++ (parameters ++ [newline] ++ fence)))

/-- What is written of the texts of a manifest and of its parameters. -/
def written (texts : Bytes → Option Bytes) (parameters : Bytes) : Bytes :=
  rule ++ [newline] ++ unlines (headerLines texts) ++
    (rule ++ (bodyText texts parameters ++ [newline]))

/-- The members of a manifest that the header takes. -/
structure Texts (manifest : Json) (texts : Bytes → Option Bytes) : Prop where
  object : ∃ m, manifest = .obj m
  member : ∀ key ∈ textKeys, manifest.member? key = (texts key).map Json.str
  verified : ∃ b : Option Bool, manifest.member? (bytes "verified") = b.map Json.bool ∧
    texts (bytes "verified") = b.map fun v => if v then bytes "true" else bytes "false"

theorem fieldLine_eq {manifest : Json} {key : Bytes} {value : Option Bytes} (quotation : Bytes)
    (h : manifest.member? key = value.map Json.str) :
    fieldLine quotation key manifest = .ok (unlines
      (value.map fun v => key ++ bytes ": " ++ (quotation ++ v ++ quotation)).toList) := by
  cases value with
  | none => rw [fieldLine, h]; rfl
  | some v => simp [fieldLine, h, Json.getString, Except.map]

theorem unlines_filterMap {α : Type} (f : α → Option Bytes) (l : List α) :
    unlines (l.filterMap f) = l.flatMap fun a => unlines (f a).toList := by
  induction l with
  | nil => rfl
  | cons a l ih => cases h : f a <;> simp [h, ih]

theorem generateSkillMd_eq {manifest p : Json} {texts : Bytes → Option Bytes}
    (h : Texts manifest texts) (hp : manifest.member? (bytes "parameters") = some p) :
    generateSkillMd manifest = (dumpIndent 4 p).map (written texts) := by
  obtain ⟨b, hb, hverified⟩ := h.verified
  have hline : ∀ key ∈ textKeys, key ≠ bytes "description" → fieldLine [] key manifest =
      .ok (unlines ((texts key).map (headerLine key)).toList) := by
    intro key hkey hne
    rw [fieldLine_eq [] (h.member key hkey)]
    cases texts key <;> simp [headerLine, headerText, hne]
  have hdescription : fieldLine [0x22] (bytes "description") manifest =
      .ok (unlines ((texts (bytes "description")).map (headerLine (bytes "description"))).toList) := by
    rw [fieldLine_eq [0x22] (h.member _ (by decide))]
    cases texts (bytes "description") <;> simp [headerLine, headerText]
  have hverifiedLine : verifiedLine manifest =
      .ok (unlines ((texts (bytes "verified")).map (headerLine (bytes "verified"))).toList) := by
    have hne : bytes "verified" ≠ bytes "description" := by decide
    rw [verifiedLine, hb, hverified]
    cases b with
    | none => rfl
    | some v => simp [getBool, Except.map, headerLine, headerText, hne]
  have hheading : manifest.valueString (bytes "name") (bytes "Skill") =
      .ok ((texts (bytes "name")).getD (bytes "Skill")) := by
    have hname := h.member (bytes "name") (by decide)
    obtain ⟨m, rfl⟩ := h.object
    rw [Json.member?] at hname
    simp only [Json.valueString, Json.value, hname]
    cases texts (bytes "name") <;> rfl
  have htext : descriptionText manifest =
      .ok (((texts (bytes "description")).map (· ++ bytes "\n\n")).getD []) := by
    rw [descriptionText, h.member _ (by decide)]
    cases texts (bytes "description") <;> rfl
  have hparameters : parametersText manifest = (dumpIndent 4 p).map fun text =>
      marker ++ [newline] ++ (text ++ [newline] ++ (fence ++ [newline])) := by
    rw [parametersText, hp]
  rw [generateSkillMd, hline _ (by decide) (by decide), hdescription,
    hline _ (by decide) (by decide), hline _ (by decide) (by decide),
    hline _ (by decide) (by decide), hline _ (by decide) (by decide),
    hline _ (by decide) (by decide), hverifiedLine, hheading, htext, hparameters]
  simp only [Except.bind]
  cases dumpIndent 4 p with
  | error e => rfl
  | ok text =>
    simp only [Except.map, written, headerLines, unlines_filterMap, headerKeys, textKeys, bodyText,
      List.cons_append, List.nil_append, List.flatMap_cons, List.flatMap_nil, List.append_nil,
      List.append_assoc]

/-- The text of a header key can be written on its line, and the header ends behind it. -/
def Clean (texts : Bytes → Option Bytes) : Prop :=
  ∀ key ∈ headerKeys, ∀ v ∈ texts key, newline ∉ v ∧ find rule v = none

theorem headerKey_word {key : Bytes} (h : key ∈ headerKeys) :
    Word key ∧ newline ∉ key ∧ (0x2D : UInt8) ∉ key := by
  have hall : (headerKeys.all fun key => key ≠ [] ∧ newline ∉ key ∧ (0x2D : UInt8) ∉ key ∧
      key.all fun b => b ≠ 0x3A ∧ blanks.contains b = false) = true := by decide
  have := List.all_eq_true.mp hall key h
  simp only [decide_eq_true_eq, List.all_eq_true] at this
  exact ⟨⟨this.1, this.2.2.2⟩, this.2.1, this.2.2.1⟩

theorem headerText_clean (key : Bytes) {v : Bytes} (hn : newline ∉ v) (hr : find rule v = none) :
    newline ∉ headerText key v ∧ find rule (headerText key v) = none := by
  rw [headerText]
  by_cases hk : key = bytes "description"
  · rw [if_pos hk]
    have hquote : newline ≠ 0x22 := by decide
    have hend := find_over (p := rule) (d := 0x22) (by decide) (by decide) hr []
    constructor
    · rw [List.mem_cons, List.mem_append, List.mem_singleton]
      simp [hquote, hn]
    · rw [find_cons_of_ne (by decide) (by decide), hend]
      rfl
  · rw [if_neg hk]
    exact ⟨hn, hr⟩

theorem headerLine_clean {texts : Bytes → Option Bytes} (h : Clean texts) :
    ∀ l ∈ headerLines texts, newline ∉ l ∧ find rule l = none := by
  intro l hl
  obtain ⟨key, hkey, hl⟩ := List.mem_filterMap.mp hl
  obtain ⟨v, hv, rfl⟩ := Option.map_eq_some_iff.mp hl
  obtain ⟨hn, hr⟩ := h key hkey v hv
  obtain ⟨-, hkn, hkd⟩ := headerKey_word hkey
  obtain ⟨hn', hr'⟩ := headerText_clean key hn hr
  constructor
  · rw [headerLine]
    simp only [List.mem_append, not_or]
    exact ⟨⟨hkn, by decide⟩, hn'⟩
  · have hdash : (0x2D : UInt8) ∉ key ++ bytes ": " := by
      rw [List.mem_append, not_or]
      exact ⟨hkd, by decide⟩
    have hskip := find_skip (p := [0x2D, 0x2D]) hdash (headerText key v)
    have hfind : find [0x2D, 0x2D, 0x2D] (headerText key v) = none := hr'
    rw [hfind, Option.map_none] at hskip
    exact hskip

/-- A header of clean texts ends where it is meant to. -/
theorem splitSkillMd_generated {texts : Bytes → Option Bytes} (h : Clean texts) (p : Bytes) :
    splitSkillMd (written texts p) = some (newline :: unlines (headerLines texts), bodyText texts p) := by
  apply splitSkillMd_written
  · exact fun l hl => (headerLine_clean h l hl).2
  · intro b hb
    have hlast : (bodyText texts p).getLast? = some 0x60 := by
      have hfence : fence = [0x60, 0x60] ++ [0x60] := by decide
      rw [bodyText, hfence]
      simp only [← List.append_assoc, List.getLast?_concat]
    rw [hlast] at hb
    obtain rfl := Option.some.inj hb
    decide

/-- What is read under a key of a header. -/
def reading (texts : Bytes → Option Bytes) (key : Bytes) : Option Bytes :=
  (texts key).bind fun v => readBack (headerText key v)

theorem lookup_keys {R : Bytes → Option Bytes} {keys : List Bytes} (hn : keys.Nodup) (key : Bytes) :
    (keys.filterMap fun k => (R k).map fun v => (k, v)).reverse.lookup key =
      if key ∈ keys then R key else none := by
  induction keys with
  | nil => rfl
  | cons k keys ih =>
    rw [List.nodup_cons] at hn
    have ih := ih hn.2
    by_cases hk : key = k
    · subst hk
      rw [if_neg hn.1] at ih
      cases hR : R key with
      | none => simp [hR, ih]
      | some v => simp [hR, List.lookup_append, ih]
    · have hne : (key == k) = false := beq_false_of_ne hk
      cases hR : R k with
      | none => simp [hR, ih, hk]
      | some v => simp [hR, List.lookup_append, ih, hk, hne]

theorem fieldValue_generated {texts : Bytes → Option Bytes} (h : Clean texts) (key : Bytes) :
    fieldValue (newline :: unlines (headerLines texts)) key =
      if key ∈ headerKeys then reading texts key else none := by
  have hlines : lines (newline :: unlines (headerLines texts)) = [] :: headerLines texts := by
    rw [lines, if_pos rfl, lines_unlines fun l hl => (headerLine_clean h l hl).1]
  have hnil : readField [] = none := by decide
  have hfields : fields (newline :: unlines (headerLines texts)) =
      headerKeys.filterMap fun k => (reading texts k).map fun v => (k, v) := by
    rw [fields, hlines, List.filterMap_cons_none hnil, headerLines, List.filterMap_filterMap]
    apply List.filterMap_congr
    intro k hk
    rw [reading]
    cases texts k with
    | none => rfl
    | some v => exact readField_line (headerKey_word hk).1 (headerText k v)
  rw [fieldValue, hfields, lookup_keys (by decide)]

/-- A text that can stand bare is read back, and any text that is not empty between quotes. -/
theorem reading_eq_self_iff {texts : Bytes → Option Bytes} {key v : Bytes} (hv : texts key = some v) :
    reading texts key = some v ↔
      if key = bytes "description" then v ≠ [] else Bare v := by
  rw [reading, hv, Option.bind_some, headerText]
  by_cases hk : key = bytes "description"
  · rw [if_pos hk, if_pos hk]
    constructor
    · rintro h rfl
      revert h
      decide
    · exact readBack_quoted
  · rw [if_neg hk, if_neg hk]
    exact readBack_eq_self_iff

end Generated

end SkillManifest
