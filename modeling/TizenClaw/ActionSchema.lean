import TizenClaw.JsonFailure
import TizenClaw.JsonLines

/-! The Markdown files that action schemas are cached in: a readable part, and the schema itself
between fences, by which it is found again. -/
namespace ActionSchema

open ByteString ByteLines JsonValue JsonDump JsonParse JsonParseUtf8 JsonRoundTrip JsonStorable
open JsonFailure

section Model

inductive SyncException where
  | json (e : JsonException)
  | invalidIterator (id : ℕ)
  deriving DecidableEq, Repr

structure Row where
  name : Bytes
  type : Bytes
  required : Bool
  description : Bytes
  deriving DecidableEq, Repr

/-- The parts of a schema that are shown before it. -/
structure Shown where
  description : Bytes
  category : Bytes
  parameters : Option (List Row)
  privileges : List Bytes
  deriving DecidableEq, Repr

def readRow (required : List Bytes) (param : Bytes × Json) : Except JsonException Row :=
  (param.2.valueString (bytes "type") (bytes "string")).bind fun ptype =>
  (param.2.valueString (bytes "description") []).map fun pdesc =>
    ⟨param.1, ptype, required.contains param.1, pdesc⟩

/-- An iterator has a key only in an object. -/
def readRows (required : List Bytes) : Json → Except SyncException (List Row)
  | .obj m => (m.mapM (readRow required)).mapError .json
  | .null | .arr [] => .ok []
  | _ => .error (.invalidIterator 207)

/-- The strings of an array; another value, or none, has no strings. -/
def readStrings : Option Json → Except JsonException (List Bytes)
  | some (.arr l) => l.mapM Json.getString
  | _ => .ok []

def readParameters (schema : Json) : Except SyncException (Option (List Row)) :=
  match schema.member? (bytes "inputSchema") with
  | none => .ok none
  | some input => match input.member? (bytes "properties") with
    | none => .ok none
    | some props =>
      ((readStrings (input.member? (bytes "required"))).mapError .json).bind fun required =>
        (readRows required props).map some

/-- What `WriteActionMd` reads of a schema, in its order: an exception drops the text that is begun,
so that all of it is read before the text is built. -/
def readShown (schema : Json) : Except SyncException Shown :=
  ((schema.valueString (bytes "description") []).mapError .json).bind fun desc =>
  ((schema.valueString (bytes "category") []).mapError .json).bind fun category =>
  (readParameters schema).bind fun params =>
  ((readStrings (schema.member? (bytes "requiredPrivileges"))).mapError .json).map fun privileges =>
    ⟨desc, category, params, privileges⟩

def titleText (name : Bytes) : Bytes := bytes "# " ++ (name ++ bytes "\n\n")

def descriptionText (desc : Bytes) : Bytes := if desc = [] then [] else desc ++ bytes "\n\n"

def categoryText (category : Bytes) : Bytes :=
  if category = [] then [] else bytes "**Category**: " ++ (category ++ bytes "\n\n")

def rowText (row : Row) : Bytes :=
  bytes "| " ++ (row.name ++ (bytes " | " ++ (row.type ++ (bytes " | " ++
    ((if row.required then bytes "yes" else bytes "no") ++ (bytes " | " ++
      (row.description ++ bytes " |\n")))))))

def tableHead : Bytes :=
  bytes "## Parameters\n\n| Name | Type | Required | Description |\n" ++
    bytes "|------|------|----------|-------------|\n"

def parametersText : Option (List Row) → Bytes
  | none => []
  | some rows => tableHead ++ (rows.flatMap rowText ++ bytes "\n")

def privilegesText (privileges : List Bytes) : Bytes :=
  if privileges = [] then []
  else bytes "## Privileges\n\n" ++
    (privileges.flatMap (fun priv => bytes "- " ++ (priv ++ bytes "\n")) ++ bytes "\n")

/-- The Markdown before the schema. -/
def front (name : Bytes) (shown : Shown) : Bytes :=
  titleText name ++ (descriptionText shown.description ++ (categoryText shown.category ++
    (parametersText shown.parameters ++ privilegesText shown.privileges)))

def heading : Bytes := bytes "## Schema\n\n"

/-- "```json" and a newline -/
def fence : Bytes := bytes "\x60\x60\x60json\n"

def closing : Bytes := bytes "\n\x60\x60\x60"

def document (name : Bytes) (shown : Shown) (json : Bytes) : Bytes :=
  front name shown ++ (heading ++ (fence ++ (json ++ (closing ++ bytes "\n"))))

/-- The text that `WriteActionMd` writes. -/
def actionMd (name : Bytes) (schema : Json) : Except SyncException Bytes :=
  (readShown schema).bind fun shown =>
    ((dumpIndent 2 schema).mapError .json).map (document name shown)

/-- `rfind`: the position of the last occurrence of a pattern. -/
def rfind (pat : Bytes) : Bytes → Option ℕ
  | [] => if pat = [] then some 0 else none
  | c :: s => match rfind pat s with
    | some k => some (k + 1)
    | none => if pat.isPrefixOf (c :: s) then some 0 else none

/-- What stands between the first opening fence and the last closing one. -/
def fenced (content : Bytes) : Option Bytes :=
  match find fence content, rfind closing content with
  | some start, some finish =>
    if finish ≤ start + 8 then none
    else some ((content.drop (start + 8)).take (finish - (start + 8)))
  | _, _ => none

/-- What `LoadCachedActions` takes from a file. -/
def loadContent (readFloat : Bytes → Option NumberText) (content : Bytes) : Option Json :=
  (fenced content).bind fun text => (parseText readFloat text).toOption

end Model

section Fields

def IsText (schema : Json) (key : Bytes) : Prop :=
  ∀ v, schema.member? key = some v → ∃ s, v = .str s

def AreTexts (v : Option Json) : Prop := ∀ l, v = some (.arr l) → ∀ j ∈ l, ∃ s, j = .str s

/-- Parameters under their names, with texts for their types and descriptions. -/
def ParametersTyped : Json → Prop
  | .obj m => ∀ e ∈ m, (∃ fields, e.2 = .obj fields) ∧ IsText e.2 (bytes "type") ∧
      IsText e.2 (bytes "description")
  | j => j = .null ∨ j = .arr []

/-- A schema whose fields have the types that they are shown with. -/
structure WellTyped (schema : Json) : Prop where
  object : ∃ m, schema = .obj m
  description : IsText schema (bytes "description")
  category : IsText schema (bytes "category")
  parameters : ∀ input props, schema.member? (bytes "inputSchema") = some input →
    input.member? (bytes "properties") = some props →
      AreTexts (input.member? (bytes "required")) ∧ ParametersTyped props
  privileges : AreTexts (schema.member? (bytes "requiredPrivileges"))

theorem succeeds_getString (j : Json) : Succeeds j.getString ↔ ∃ s, j = .str s := by
  cases j <;> simp [Json.getString]

theorem succeeds_mapError {ε ε' α : Type} (f : ε → ε') (x : Except ε α) :
    Succeeds (x.mapError f) ↔ Succeeds x := by
  cases x <;> simp [Except.mapError]

/-- A continuation that succeeds or not whatever it is given. -/
theorem succeeds_bind_and {ε α β : Type} {x : Except ε α} {f : α → Except ε β} {P : Prop}
    (h : ∀ a, Succeeds (f a) ↔ P) : Succeeds (x.bind f) ↔ Succeeds x ∧ P := by
  rw [succeeds_bind]
  simp only [h, exists_and_right]
  rfl

theorem succeeds_valueString {schema : Json} {key default : Bytes} :
    Succeeds (schema.valueString key default) ↔ (∃ m, schema = .obj m) ∧ IsText schema key := by
  cases schema with
  | obj m =>
    rw [Json.valueString, Json.value, IsText, Json.member?]
    cases h : m.lookup key with
    | none => simp
    | some v => simp [succeeds_getString]
  | _ => simp [Json.valueString, Json.value]

theorem succeeds_readStrings (v : Option Json) : Succeeds (readStrings v) ↔ AreTexts v := by
  unfold AreTexts
  match v with
  | some (.arr l) => simp [readStrings, succeeds_mapM, succeeds_getString]
  | none | some .null | some (.bool _) | some (.int _) | some (.float _) | some (.str _)
  | some (.obj _) => simp [readStrings]

theorem succeeds_readRow (required : List Bytes) (param : Bytes × Json) :
    Succeeds (readRow required param) ↔ (∃ fields, param.2 = .obj fields) ∧
      IsText param.2 (bytes "type") ∧ IsText param.2 (bytes "description") := by
  rw [readRow, succeeds_bind_and fun _ => succeeds_map _ _, succeeds_valueString,
    succeeds_valueString]
  tauto

theorem succeeds_readRows (required : List Bytes) (props : Json) :
    Succeeds (readRows required props) ↔ ParametersTyped props := by
  match props with
  | .obj m => simp only [readRows, succeeds_mapError, succeeds_mapM, succeeds_readRow,
      ParametersTyped]
  | .arr (_ :: _) | .null | .arr [] | .bool _ | .int _ | .float _ | .str _ =>
    simp [readRows, ParametersTyped]

theorem succeeds_readParameters (schema : Json) : Succeeds (readParameters schema) ↔
    ∀ input props, schema.member? (bytes "inputSchema") = some input →
      input.member? (bytes "properties") = some props →
        AreTexts (input.member? (bytes "required")) ∧ ParametersTyped props := by
  rw [readParameters]
  cases schema.member? (bytes "inputSchema") with
  | none => simp
  | some input =>
    dsimp only
    cases hp : input.member? (bytes "properties") with
    | none =>
      refine iff_of_true (succeeds_ok _) ?_
      rintro _ props hinput hprops
      obtain rfl := Option.some.inj hinput
      rw [hp] at hprops
      cases hprops
    | some props =>
      dsimp only
      rw [succeeds_bind_and fun required =>
        (succeeds_map _ _).trans (succeeds_readRows required props), succeeds_mapError,
        succeeds_readStrings]
      constructor
      · rintro h _ _ hinput hprops
        obtain rfl := Option.some.inj hinput
        obtain rfl := Option.some.inj (hp.symm.trans hprops)
        exact h
      · exact fun h => h input props rfl hp

/-- `WriteActionMd` reads the fields of these schemas and of no others. -/
theorem succeeds_readShown (schema : Json) : Succeeds (readShown schema) ↔ WellTyped schema := by
  rw [readShown, succeeds_bind_and fun _ => succeeds_bind_and fun _ => succeeds_bind_and fun _ =>
      succeeds_map _ _]
  simp only [succeeds_mapError, succeeds_valueString, succeeds_readParameters,
    succeeds_readStrings]
  constructor
  · rintro ⟨⟨hobj, hdesc⟩, ⟨-, hcategory⟩, hparams, hprivileges⟩
    exact ⟨hobj, hdesc, hcategory, hparams, hprivileges⟩
  · rintro ⟨hobj, hdesc, hcategory, hparams, hprivileges⟩
    exact ⟨⟨hobj, hdesc⟩, ⟨hobj, hcategory⟩, hparams, hprivileges⟩

instance (schema : Json) : Decidable (WellTyped schema) :=
  match h : readShown schema with
  | .ok _ => .isTrue ((succeeds_readShown schema).mp ⟨_, h⟩)
  | .error _ => .isFalse fun hw => by
    obtain ⟨shown, hs⟩ := (succeeds_readShown schema).mpr hw
    rw [h] at hs
    cases hs

end Fields

section Fences

/-- A text without an opening fence. -/
abbrev Clear (s : Bytes) : Prop := find fence s = none

theorem clear_part {l s : Bytes} (hl : l <:+: s) (h : Clear s) : Clear l :=
  find_none_of_infix (by decide) hl h

/-- A fence lies on one side of a byte that it does not have. -/
theorem clear_over {d : UInt8} (hd : d ∉ fence) (l s : Bytes) :
    Clear (l ++ d :: s) ↔ Clear l ∧ Clear s := by
  constructor
  · intro h
    exact ⟨clear_part (List.infix_append [] l (d :: s)) h,
      clear_part (List.suffix_append_of_suffix (List.suffix_cons d s)).isInfix h⟩
  · rintro ⟨hl, hs⟩
    rw [Clear, find_over (by decide) hd hl, hs, Option.map_none]

/-- A fence ends its line. -/
theorem clear_line (l s : Bytes) :
    Clear (l ++ newline :: s) ↔ Clear (l ++ [newline]) ∧ Clear s := by
  constructor
  · intro h
    refine ⟨clear_part ⟨[], s, by simp⟩ h, ?_⟩
    exact clear_part (List.suffix_append_of_suffix (List.suffix_cons newline s)).isInfix h
  · rintro ⟨hl, hs⟩
    induction l with
    | nil => rwa [List.nil_append, Clear, find_cons_of_ne (by decide) (by decide),
        Option.map_eq_none_iff]
    | cons c l ih =>
      rw [Clear, List.cons_append, find] at hl
      split_ifs at hl with hc
      have hno : ¬ fence.isPrefixOf (c :: (l ++ newline :: s)) = true := by
        intro hpre
        rw [List.isPrefixOf_iff_prefix] at hpre hc
        have hline : c :: (l ++ [newline]) <+: c :: (l ++ newline :: s) := ⟨s, by simp⟩
        rcases List.prefix_or_prefix_of_prefix hpre hline with h | h
        · exact hc h
        · have hshort : ∀ n < fence.length, newline ∉ fence.take n := by decide
          have hmem : newline ∈ fence.take (c :: (l ++ [newline])).length := by
            rw [← List.prefix_iff_eq_take.mp h]
            simp
          have hlen : fence.length ≤ (c :: (l ++ [newline])).length := by
            by_contra hlt
            exact hshort _ (Nat.lt_of_not_le hlt) hmem
          rw [List.IsPrefix.eq_of_length_le h hlen] at hc
          exact hc (List.prefix_refl fence)
      rw [Clear, List.cons_append, find, if_neg hno, ih (Option.map_eq_none_iff.mp hl),
        Option.map_none]

theorem clear_literal {l : Bytes} (h : 0x60 ∉ l) (s : Bytes) : Clear (l ++ s) ↔ Clear s := by
  have hfence : fence = 0x60 :: fence.tail := by decide
  rw [Clear, hfence, find_skip h, Option.map_eq_none_iff, ← hfence]

theorem clear_field (t s : Bytes) :
    Clear (t ++ (bytes "\n\n" ++ s)) ↔ Clear (t ++ [newline]) ∧ Clear s := by
  have hend : bytes "\n\n" ++ s = newline :: ([newline] ++ s) := rfl
  have hline : 0x60 ∉ [newline] := by decide
  rw [hend, clear_line t ([newline] ++ s), clear_literal hline]

theorem clear_cell (t s : Bytes) : Clear (t ++ (bytes " | " ++ s)) ↔ Clear t ∧ Clear s := by
  have hbar : bytes " | " ++ s = space :: (bytes "| " ++ s) := rfl
  rw [hbar, clear_over (by decide), clear_literal (by decide)]

theorem clear_nil : Clear [] := by decide

theorem clear_title (name s : Bytes) :
    Clear (titleText name ++ s) ↔ Clear (name ++ [newline]) ∧ Clear s := by
  rw [titleText, List.append_assoc, List.append_assoc, clear_literal (by decide), clear_field]

theorem clear_description (desc s : Bytes) :
    Clear (descriptionText desc ++ s) ↔ Clear (desc ++ [newline]) ∧ Clear s := by
  rw [descriptionText]
  split_ifs with h
  · rw [h]
    exact (and_iff_right (by decide)).symm
  · rw [List.append_assoc, clear_field]

theorem clear_category (category s : Bytes) :
    Clear (categoryText category ++ s) ↔ Clear (category ++ [newline]) ∧ Clear s := by
  rw [categoryText]
  split_ifs with h
  · rw [h]
    exact (and_iff_right (by decide)).symm
  · rw [List.append_assoc, List.append_assoc, clear_literal (by decide), clear_field]

def cells (row : Row) : List Bytes := [row.name, row.type, row.description]

theorem clear_row (row : Row) (s : Bytes) :
    Clear (rowText row ++ s) ↔ (∀ t ∈ cells row, Clear t) ∧ Clear s := by
  have hend : bytes " |\n" ++ s = space :: (bytes "|\n" ++ s) := rfl
  have hmark : 0x60 ∉ (if row.required then bytes "yes" else bytes "no") := by
    split_ifs <;> decide
  simp only [rowText, List.append_assoc]
  rw [clear_literal (by decide), clear_cell, clear_cell, clear_literal hmark,
    clear_literal (by decide), hend, clear_over (by decide), clear_literal (by decide)]
  simp [cells, and_assoc]

theorem clear_rows (rows : List Row) (s : Bytes) :
    Clear (rows.flatMap rowText ++ s) ↔ (∀ t ∈ rows.flatMap cells, Clear t) ∧ Clear s := by
  induction rows with
  | nil => simp
  | cons row rows ih =>
    rw [List.flatMap_cons, List.append_assoc, clear_row, ih, List.flatMap_cons,
      List.forall_mem_append, and_assoc]

theorem clear_parameters (params : Option (List Row)) (s : Bytes) :
    Clear (parametersText params ++ s) ↔
      (∀ t ∈ (params.getD []).flatMap cells, Clear t) ∧ Clear s := by
  cases params with
  | none => simp [parametersText]
  | some rows =>
    rw [parametersText, List.append_assoc, List.append_assoc, clear_literal (by decide),
      clear_rows, clear_literal (by decide), Option.getD_some]

theorem clear_items (privileges : List Bytes) (s : Bytes) :
    Clear (privileges.flatMap (fun priv => bytes "- " ++ (priv ++ bytes "\n")) ++ s) ↔
      (∀ t ∈ privileges, Clear (t ++ [newline])) ∧ Clear s := by
  induction privileges with
  | nil => simp
  | cons priv privileges ih =>
    have hend : ∀ s, bytes "\n" ++ s = newline :: s := fun _ => rfl
    rw [List.flatMap_cons, List.append_assoc, List.append_assoc, List.append_assoc,
      clear_literal (by decide), hend, clear_line, ih, List.forall_mem_cons, and_assoc]

theorem clear_privileges (privileges : List Bytes) (s : Bytes) :
    Clear (privilegesText privileges ++ s) ↔
      (∀ t ∈ privileges, Clear (t ++ [newline])) ∧ Clear s := by
  rw [privilegesText]
  split_ifs with h
  · simp [h]
  · rw [List.append_assoc, List.append_assoc, clear_literal (by decide), clear_items,
      clear_literal (by decide)]

/-- The texts that are shown at the end of a line. -/
def lineTexts (name : Bytes) (shown : Shown) : List Bytes :=
  name :: shown.description :: shown.category :: shown.privileges

/-- No text that is shown opens a fence: none of the lines that it ends or consists of, and no line
within a cell of the table. -/
structure FenceFree (name : Bytes) (shown : Shown) : Prop where
  lines : ∀ t ∈ lineTexts name shown, Clear (t ++ [newline])
  cells : ∀ t ∈ (shown.parameters.getD []).flatMap cells, Clear t

theorem clear_front (name : Bytes) (shown : Shown) :
    Clear (front name shown) ↔ FenceFree name shown := by
  have hfront : front name shown = titleText name ++ (descriptionText shown.description ++
      (categoryText shown.category ++ (parametersText shown.parameters ++
        (privilegesText shown.privileges ++ [])))) := by rw [List.append_nil, front]
  rw [hfront, clear_title, clear_description, clear_category, clear_parameters, clear_privileges]
  constructor
  · rintro ⟨hname, hdesc, hcategory, hcells, hprivileges, -⟩
    refine ⟨?_, hcells⟩
    rw [lineTexts, List.forall_mem_cons, List.forall_mem_cons, List.forall_mem_cons]
    exact ⟨hname, hdesc, hcategory, hprivileges⟩
  · rintro ⟨hlines, hcells⟩
    rw [lineTexts, List.forall_mem_cons, List.forall_mem_cons, List.forall_mem_cons] at hlines
    exact ⟨hlines.1, hlines.2.1, hlines.2.2.1, hcells, hlines.2.2.2, clear_nil⟩

instance (name : Bytes) (shown : Shown) : Decidable (FenceFree name shown) :=
  decidable_of_iff _ (clear_front name shown)

end Fences

section Loading

variable {readFloat : Bytes → Option NumberText}

theorem rfind_append {pat s : Bytes} {k : ℕ} (h : rfind pat s = some k) (l : Bytes) :
    rfind pat (l ++ s) = some (l.length + k) := by
  induction l with
  | nil => simpa using h
  | cons c l ih =>
    rw [List.cons_append, rfind, ih, List.length_cons]
    simp only [Option.some.injEq]
    omega

/-- The text between an opening fence and the end of the file. -/
theorem fenced_between {pre mid : Bytes} {start : ℕ}
    (hs : find fence (pre ++ (mid ++ (closing ++ bytes "\n"))) = some start)
    (hpre : start + 8 = pre.length) (hmid : mid ≠ []) :
    fenced (pre ++ (mid ++ (closing ++ bytes "\n"))) = some mid := by
  have hend : rfind closing (closing ++ bytes "\n") = some 0 := by decide
  have hlast := rfind_append hend (pre ++ mid)
  rw [List.append_assoc, Nat.add_zero, List.length_append] at hlast
  have hpos := List.length_pos_iff.mpr hmid
  have hsome : ¬ pre.length + mid.length ≤ start + 8 := by omega
  have hlen : pre.length + mid.length - (start + 8) = mid.length := by omega
  rw [fenced, hs, hlast]
  dsimp only
  rw [if_neg hsome, hlen, hpre, List.drop_left, List.take_left]

theorem render_ne_nil {schema : Json} (hs : Storable readFloat schema) :
    render id (indented 2) 0 schema ≠ [] := by
  intro hnil
  have hparse := parseText_render (whiteLayout_indented 2) hs
  rw [hnil] at hparse
  cases hparse

theorem find_front {name : Bytes} {shown : Shown} (h : Clear (front name shown)) (s : Bytes) :
    find fence (front name shown ++ (heading ++ (fence ++ s))) =
      some ((front name shown).length + heading.length) := by
  have hhead : heading ++ (fence ++ s) = 0x23 :: (heading.tail ++ (fence ++ s)) := rfl
  have hfence : fence = 0x60 :: fence.tail := by decide
  have htail : find fence (heading.tail ++ (fence ++ s)) = some heading.tail.length := by
    have hskip := find_skip (c := 0x60) (p := fence.tail) (l := heading.tail) (by decide)
      (fence ++ s)
    rw [← hfence, find_self (by decide), Option.map_some, Nat.zero_add] at hskip
    exact hskip
  have hlen : heading.tail.length + 1 = heading.length := by decide
  rw [hhead, find_over (by decide) (by decide) h, htail, Option.map_some, ← hlen]
  congr 1
  omega

/-- A schema is read back from its file when nothing shown before it opens a fence. -/
theorem loadContent_clear {name : Bytes} {shown : Shown} {schema : Json}
    (h : Clear (front name shown)) (hs : Storable readFloat schema) :
    loadContent readFloat (document name shown (render id (indented 2) 0 schema)) =
      some schema := by
  have hassoc : ∀ s, document name shown s = (front name shown ++ (heading ++ fence)) ++
      (s ++ (closing ++ bytes "\n")) := fun s => by simp only [document, List.append_assoc]
  have hfind : find fence ((front name shown ++ (heading ++ fence)) ++
      (render id (indented 2) 0 schema ++ (closing ++ bytes "\n"))) =
        some ((front name shown).length + heading.length) := by
    simp only [List.append_assoc]
    exact find_front h _
  have hlen : (front name shown).length + heading.length + 8 =
      (front name shown ++ (heading ++ fence)).length := by
    rw [List.length_append, List.length_append, Nat.add_assoc]
    rfl
  rw [loadContent, hassoc, fenced_between hfind hlen (render_ne_nil hs), Option.bind_some,
    parseText_render (whiteLayout_indented 2) hs]
  rfl

/-- What is loaded in place of the schema where a text opens a fence. The parser takes a NUL byte
for the end of the text: before one, a part of what is shown may be JSON by itself. -/
def earlyReading (readFloat : Bytes → Option NumberText) (name : Bytes) (shown : Shown) :
    Option Json :=
  (find fence (front name shown)).bind fun k =>
    let text := (front name shown).drop (k + 8)
    if 0 ∈ text then (parseText readFloat text).toOption else none

theorem takeWhile_zero {t : Bytes} (h : 0 ∈ t) (s : Bytes) :
    (t ++ s).takeWhile (· ≠ 0) = t.takeWhile (· ≠ 0) := by
  rw [List.takeWhile_append, if_neg]
  intro hlen
  have hall := List.takeWhile_eq_self_iff.mp (List.takeWhile_sublist _ |>.eq_of_length hlen)
  simpa using hall 0 h

/-- The heading of the schema is no JSON. -/
theorem parseText_heading {t : Bytes} (h : 0 ∉ t) (s : Bytes) (j : Json) :
    parseText readFloat (t ++ (heading ++ s)) ≠ .ok j := by
  have hhead : ∀ s, heading ++ s = 0x23 :: (bytes "# Schema" ++ newline :: (newline :: s)) :=
    fun _ => rfl
  have hzero : (t ++ (heading ++ s)).takeWhile (· ≠ 0) =
      t ++ (heading ++ s.takeWhile (· ≠ 0)) := by
    have hclean : ∀ b ∈ t ++ heading, decide (b ≠ 0) = true := by
      intro b hb
      rw [decide_eq_true_iff]
      rintro rfl
      rcases List.mem_append.mp hb with hb | hb
      · exact h hb
      · exact absurd hb (by decide)
    rw [← List.append_assoc, List.takeWhile_append_of_pos hclean, List.append_assoc]
  have hno : ∀ j, parse readFloat (t ++ 0x23 ::
      (bytes "# Schema" ++ newline :: (newline :: s.takeWhile (· ≠ 0)))) ≠ .ok j :=
    not_parse (by decide) (by decide) (by decide) (by decide) t _
  rw [parseText, hzero, hhead]
  split
  next j' hj => exact absurd hj (hno j')
  next => exact fun h => by cases h

theorem loadContent_found {name : Bytes} {shown : Shown} {json : Bytes} {k : ℕ}
    (h : find fence (front name shown) = some k) :
    loadContent readFloat (document name shown json) = earlyReading readFloat name shown := by
  have hlen : k + 8 ≤ (front name shown).length := find_length_le h
  have hassoc : document name shown json = (front name shown).take (k + 8) ++
      (((front name shown).drop (k + 8) ++ (heading ++ (fence ++ json))) ++
        (closing ++ bytes "\n")) := by
    have hsplit := List.take_append_drop (k + 8) (front name shown)
    rw [document]
    nth_rewrite 1 [← hsplit]
    simp only [List.append_assoc]
  have hfind := find_append_left h (heading ++ (fence ++ (json ++ (closing ++ bytes "\n"))))
  rw [← document, hassoc] at hfind
  have hmid : (front name shown).drop (k + 8) ++ (heading ++ (fence ++ json)) ≠ [] := by
    have hne : heading ≠ [] := by decide
    simp [hne]
  have htake : k + 8 = ((front name shown).take (k + 8)).length := by
    rw [List.length_take]
    omega
  rw [loadContent, hassoc, fenced_between hfind htake hmid, Option.bind_some, earlyReading, h,
    Option.bind_some]
  dsimp only
  split_ifs with hz
  · rw [parseText, parseText, takeWhile_zero hz]
  · cases hp : parseText readFloat
        ((front name shown).drop (k + 8) ++ (heading ++ (fence ++ json))) with
    | error e => rfl
    | ok j => exact absurd hp (parseText_heading hz _ j)

end Loading

end ActionSchema
