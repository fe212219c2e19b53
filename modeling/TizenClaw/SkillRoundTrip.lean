import TizenClaw.SkillManifest

/-! The skills the agent writes for itself, and which of them are read back from their `SKILL.md`. -/
namespace SkillRoundTrip

open ByteString ByteLines JsonValue JsonDump JsonParse JsonTokens JsonScan JsonRoundTrip JsonStorable
open SkillManifest

section Model

/-- The arguments of the tool for custom skills. -/
structure SkillArgs where
  operation : Bytes
  name : Bytes
  desc : Bytes
  code : Bytes
  runtime : Bytes
  language : Bytes
  risk : Bytes
  category : Bytes
  paramsSchema : Json

def readArgs (args : Json) : Except JsonException SkillArgs :=
  (args.valueString (bytes "operation") []).bind fun operation =>
  (args.valueString (bytes "skill_name") []).bind fun name =>
  (args.valueString (bytes "description") []).bind fun desc =>
  (args.valueString (bytes "code") []).bind fun code =>
  (if code = [] then args.valueString (bytes "python_code") [] else .ok code).bind fun code =>
  (args.valueString (bytes "runtime") (bytes "python")).bind fun runtime =>
  (args.valueString (bytes "language") []).bind fun language =>
  (args.valueString (bytes "risk_level") (bytes "low")).bind fun risk =>
  (args.valueString (bytes "category") (bytes "Uncategorized")).bind fun category =>
  (args.value .ok (bytes "parameters_schema") (.obj [])).map fun paramsSchema =>
    ⟨operation, name, desc, code, runtime, language, risk, category, paramsSchema⟩

def isAlnum (b : UInt8) : Bool :=
  isDigit b ∨ (0x41 ≤ b ∧ b ≤ 0x5A) ∨ (0x61 ≤ b ∧ b ≤ 0x7A)

def parametersSchema (a : SkillArgs) : Json :=
  if a.paramsSchema.empty ∨ a.paramsSchema.contains (bytes "type") = false then defaultParameters
  else a.paramsSchema

def entryPoint (a : SkillArgs) : Bytes :=
  a.name ++ if a.runtime = bytes "python" then bytes ".py"
    else if a.runtime = bytes "node" then bytes ".js" else []

/-- The members in the order of the source; a native skill may have its language. -/
def members (a : SkillArgs) : List (Bytes × Json) :=
  [(bytes "name", .str a.name), (bytes "runtime", .str a.runtime),
    (bytes "category", .str a.category), (bytes "risk_level", .str a.risk),
    (bytes "description", .str a.desc), (bytes "entry_point", .str (entryPoint a)),
    (bytes "parameters", parametersSchema a)] ++
  if a.runtime = bytes "native" ∧ a.language ≠ [] then [(bytes "language", .str a.language)] else []

/-- What an operation on a custom skill leads to. -/
inductive SkillOp where
  | list
  | refuse (text : Bytes)
  | write (manifest : Json)
  | delete

def errorText (text : Bytes) : Bytes := bytes "\x7b\"error\": \"" ++ text ++ bytes "\"\x7d"

/-- `ExecuteCustomSkillOp`, up to what is done in the file system. -/
def executeCustomSkillOp (a : SkillArgs) (isDirectory : Bool) : SkillOp :=
  if a.operation = bytes "list" then .list
  else if a.name = [] then .refuse (errorText (bytes "skill_name is required"))
  else if a.name.all (fun c => isAlnum c ∨ c = 0x5F) = false then
    .refuse (errorText (bytes "skill_name must be alphanumeric + underscore"))
  else if a.operation = bytes "create" ∨ a.operation = bytes "update" then
    if a.desc = [] ∨ a.code = [] then
      .refuse (errorText (bytes "description and code are required for create/update"))
    else if a.runtime ≠ bytes "python" ∧ a.runtime ≠ bytes "node" ∧ a.runtime ≠ bytes "native" then
      .refuse (errorText (bytes "Invalid runtime: " ++ a.runtime ++
        bytes ". Must be python, node, or native"))
    else if a.operation = bytes "create" ∧ isDirectory then
      .refuse (errorText (bytes "Skill already exists: " ++ a.name))
    else .write (.object (members a))
  else if a.operation = bytes "delete" then
    if isDirectory then .delete else .refuse (errorText (bytes "Skill not found: " ++ a.name))
  else .refuse (errorText (bytes "Unknown operation: " ++ a.operation))

variable (readFloat : Bytes → Option NumberText)

/-- The `SKILL.md` of a manifest is read as that manifest. -/
def RoundTrips (manifest : Json) : Prop :=
  ∃ text, generateSkillMd manifest = .ok text ∧
    ∀ key, (parseSkillMd readFloat text).member? key = manifest.member? key

/-- Text that neither ends a line nor the header. -/
def OneLine (s : Bytes) : Prop := newline ∉ s ∧ find rule s = none

/-- The header values that stand on one line, bare but for the description, and a block of parameters
that no text opens early and no fence closes early. -/
structure Survives (a : SkillArgs) : Prop where
  desc : OneLine a.desc
  category : OneLine a.category ∧ Bare a.category
  risk : OneLine a.risk ∧ Bare a.risk
  language : a.runtime = bytes "native" → a.language ≠ [] → OneLine a.language ∧ Bare a.language
  parameters : parametersSchema a = defaultParameters ∨ find marker a.desc = none ∧
    find fence (render id (indented 4) 0 (parametersSchema a)) = none

end Model

section Texts

/-- The members that are texts. -/
def textMembers (a : SkillArgs) : List (Bytes × Bytes) :=
  [(bytes "name", a.name), (bytes "runtime", a.runtime), (bytes "category", a.category),
    (bytes "risk_level", a.risk), (bytes "description", a.desc),
    (bytes "entry_point", entryPoint a)] ++
  if a.runtime = bytes "native" ∧ a.language ≠ [] then [(bytes "language", a.language)] else []

def texts (a : SkillArgs) (key : Bytes) : Option Bytes := (textMembers a).lookup key

def memberKeys : List Bytes := [bytes "name", bytes "runtime", bytes "category",
  bytes "risk_level", bytes "description", bytes "entry_point", bytes "language"]

theorem textMembers_keys (a : SkillArgs) : (textMembers a).map Prod.fst <+: memberKeys := by
  rw [textMembers]
  split_ifs
  · exact ⟨[], rfl⟩
  · exact ⟨[bytes "language"], rfl⟩

theorem members_perm (a : SkillArgs) : (members a).Perm
    ((bytes "parameters", parametersSchema a) ::
      (textMembers a).map fun f => (f.1, Json.str f.2)) := by
  rw [members, textMembers]
  split_ifs
  · exact @List.perm_middle _ _ [_, _, _, _, _, _] _
  · exact @List.perm_middle _ _ [_, _, _, _, _, _] _

theorem members_keys (a : SkillArgs) : ((members a).map Prod.fst).Nodup := by
  have hpre := textMembers_keys a
  have hn : ((textMembers a).map Prod.fst).Nodup := hpre.sublist.nodup (by decide)
  have hp : bytes "parameters" ∉ (textMembers a).map Prod.fst := by
    intro h
    exact absurd (hpre.subset h) (by decide)
  apply ((members_perm a).map Prod.fst).nodup_iff.mpr
  rw [List.map_cons, List.map_map]
  exact List.nodup_cons.mpr ⟨hp, hn⟩

theorem member_text (a : SkillArgs) {key : Bytes} (hkey : key ≠ bytes "parameters") :
    (Json.object (members a)).member? key = (texts a key).map Json.str := by
  have hne : (key == bytes "parameters") = false := beq_false_of_ne hkey
  rw [member_object (members_keys a), ← OrderedMap.lookup_perm (members_keys a) (members_perm a), texts,
    ← lookup_texts, List.lookup_cons, hne]

theorem member_parameters (a : SkillArgs) :
    (Json.object (members a)).member? (bytes "parameters") = some (parametersSchema a) := by
  rw [member_object (members_keys a), ← OrderedMap.lookup_perm (members_keys a) (members_perm a),
    List.lookup_cons, beq_self_eq_true]

theorem texts_of_mem {a : SkillArgs} {key v : Bytes} (h : (key, v) ∈ textMembers a) :
    texts a key = some v :=
  OrderedMap.lookup_of_mem ((textMembers_keys a).sublist.nodup (by decide)) h

theorem texts_none (a : SkillArgs) {key : Bytes} (h : key ∉ memberKeys) : texts a key = none := by
  rw [texts, List.lookup_eq_none_iff]
  intro f hf
  rw [bne_iff_ne]
  rintro rfl
  exact h ((textMembers_keys a).subset (List.mem_map_of_mem hf))

theorem texts_header (a : SkillArgs) : Texts (.object (members a)) (texts a) := by
  refine ⟨⟨_, rfl⟩, fun key hkey => member_text a ?_, none, ?_, texts_none a (by decide)⟩
  · rintro rfl
    exact absurd hkey (by decide)
  · rw [member_text a (by decide), texts_none a (by decide)]
    rfl

/-- The bytes of names, of file names and of the names of the runtimes. -/
def isWordByte (b : UInt8) : Bool := isAlnum b ∨ b = 0x5F ∨ b = 0x2E

theorem isWordByte_ne {b : UInt8} (h : isWordByte b = true) :
    b ∉ [newline, 0x2D, 0x22, 0x27, 0x60] ∧ blanks.contains b = false := by
  have hall : ∀ n < 256, isWordByte (UInt8.ofNat n) = true →
      UInt8.ofNat n ∉ [newline, 0x2D, 0x22, 0x27, 0x60] ∧
        blanks.contains (UInt8.ofNat n) = false := by decide +kernel
  have := hall b.toNat b.toNat_lt
  rw [UInt8.ofNat_toNat] at this
  exact this h

theorem word_survives {s : Bytes} (hne : s ≠ []) (h : ∀ b ∈ s, isWordByte b = true) :
    OneLine s ∧ Bare s := by
  have hnot : ∀ c ∈ [newline, 0x2D, 0x22, 0x27, 0x60], c ∉ s := by
    intro c hc hmem
    exact (isWordByte_ne (h c hmem)).1 hc
  have htrim : trim blanks s = s := trim_of_not_mem fun b hb => (isWordByte_ne (h b hb)).2
  refine ⟨⟨hnot _ (by decide), find_none (hnot 0x2D (by decide))⟩, hne, ?_⟩
  rw [htrim, stripQuotes, if_neg]
  rintro ⟨-, ⟨hq, -⟩ | ⟨hq, -⟩⟩
  · exact hnot 0x22 (by decide) (List.mem_of_mem_head? hq)
  · exact hnot 0x27 (by decide) (List.mem_of_mem_head? hq)

end Texts

section Block

/-- What is read from the line of a marker on. -/
def blockAt (s : Bytes) : Option Bytes :=
  (find [newline] s).bind fun eol =>
  (find fence (s.drop (eol + 1))).map fun stop => trim blanks ((s.drop (eol + 1)).take stop)

theorem blockText_eq {s : Bytes} {k : ℕ} (h : find marker s = some k) :
    blockText s = blockAt (s.drop k) := by
  rw [blockText, h, Option.bind_some, blockAt]
  simp only [List.drop_drop, Nat.add_assoc]

/-- The marker on the line of the description opens a block with nothing in it. -/
theorem blockAt_early {l : Bytes} (hl : newline ∉ l) (s : Bytes) :
    blockAt (l ++ newline :: newline :: (marker ++ s)) = some [] := by
  have hmarker : marker = fence ++ bytes "json:parameters" := by decide
  have hfence : find fence (newline :: (marker ++ s)) = some 1 := by
    rw [hmarker, List.append_assoc, find_cons_of_ne (by decide) (by decide),
      find_self (by decide)]
    rfl
  have hdrop : (l ++ newline :: newline :: (marker ++ s)).drop (l.length + 1) =
      newline :: (marker ++ s) := by
    rw [List.drop_length_add_append]
    rfl
  rw [blockAt, find_byte hl, Option.bind_some, hdrop, hfence, Option.map_some]
  have hblank : trim blanks [newline] = [] := by decide
  rw [List.take_succ_cons, List.take_zero, hblank]

theorem blockAt_marker (p s : Bytes) :
    blockAt (marker ++ newline :: (p ++ s)) =
      (find fence (p ++ s)).map fun stop => trim blanks ((p ++ s).take stop) := by
  have hdrop : (marker ++ newline :: (p ++ s)).drop (marker.length + 1) = p ++ s := by
    rw [List.drop_length_add_append]
    rfl
  rw [blockAt, find_byte (by decide), Option.bind_some, hdrop]

theorem render_braces {m : List (Bytes × Json)} (hm : m ≠ []) :
    ∃ s, render id (indented 4) 0 (.obj m) = 0x7B :: (s ++ [0x7D]) := by
  cases m with
  | nil => exact absurd rfl hm
  | cons x m =>
    rw [render]
    simp only [← List.append_assoc]
    exact ⟨_, rfl⟩

variable {readFloat : Bytes → Option NumberText} {m : List (Bytes × Json)}

/-- The text of a whole block is read as the value it was written for. -/
theorem parse_block (hm : m ≠ []) (hs : Storable readFloat (.obj m)) :
    parse readFloat (trim blanks (render id (indented 4) 0 (.obj m) ++ [newline])) =
      .ok (.obj m) := by
  obtain ⟨s, hrender⟩ := render_braces hm
  have hwhite : ∀ b ∈ [newline], blanks.contains b = true := List.all_eq_true.mp (by decide)
  have htrim : trim blanks (render id (indented 4) 0 (.obj m)) =
      render id (indented 4) 0 (.obj m) := by
    rw [hrender, trim, trimLeft_head (by decide), ← List.cons_append, trimRight_last _ (by decide)]
  have hparse := parse_render (whiteLayout_indented 4) hs 0 white_nil white_nil
  rw [List.append_nil, List.nil_append] at hparse
  rw [trim_append_white _ hwhite, htrim, hparse]

/-- A fence inside of a block stands in a string, and a block that ends there is no value. -/
theorem not_parse_truncated (hm : m ≠ []) (hs : Storable readFloat (.obj m)) {k : ℕ}
    (hk : find fence (render id (indented 4) 0 (.obj m)) = some k) (j : Json) :
    parse readFloat (trim blanks ((render id (indented 4) 0 (.obj m)).take k)) ≠ .ok j := by
  intro hj
  obtain ⟨s, hrender⟩ := render_braces hm
  have hparse := parse_render (whiteLayout_indented 4) hs 0 white_nil white_nil
  rw [List.append_nil, List.nil_append] at hparse
  obtain ⟨t, ht⟩ := find_eq_some hk
  rw [hrender] at hk hj hparse ht
  obtain ⟨j', -, hj'⟩ : ∃ j', find fence (s ++ [0x7D]) = some j' ∧ j' + 1 = k := by
    rw [find_cons_of_ne (by decide) (by decide)] at hk
    exact Option.map_eq_some_iff.mp hk
  subst hj'
  rw [List.take_succ_cons] at hj ht
  have hwhole : trimRight blanks (0x7B :: (s ++ [0x7D]).take j') =
      0x7B :: trimRight blanks ((s ++ [0x7D]).take j') := trimRight_append [] (by decide) _
  rw [trim, trimLeft_head (by decide), hwhole] at hj
  -- the scanner stands outside of strings where the block was cut
  obtain ⟨ks, hcut, -⟩ := parse_scan_head (by decide) hj
  rw [← hwhole] at hcut
  have hrest : ∃ w, 0x7B :: (s ++ [0x7D]).take j' =
      trimRight blanks (0x7B :: (s ++ [0x7D]).take j') ++ w ∧ ∀ b ∈ w, isPlain b = true := by
    refine ⟨_, (List.rdropWhile_append_rtakeWhile).symm, fun b hb => ?_⟩
    have hall : ∀ b ∈ blanks, isPlain b = true := List.all_eq_true.mp (by decide)
    exact hall b (List.contains_iff_mem.mp (List.mem_rtakeWhile_imp hb))
  obtain ⟨w, hsplit, hplain⟩ := hrest
  obtain ⟨ks', hscan, -⟩ := parse_scan_head (by decide) hparse
  have hfence : fence = 0x60 :: [0x60, 0x60] := by decide
  rw [ht] at hscan
  obtain ⟨xs, p, ys, hleft, hright, -⟩ := scan_append_eq.mp hscan
  rw [hfence, List.cons_append] at hright
  have hleft' : scan .outside (0x7B :: (s ++ [0x7D]).take j') = some (ks ++ [], .outside) := by
    rw [hsplit]
    exact scan_append_eq.mpr ⟨ks, .outside, [], hcut, scan_plain hplain, rfl⟩
  rw [hleft] at hleft'
  obtain ⟨-, rfl⟩ := Prod.mk.inj (Option.some.inj hleft')
  obtain ⟨xs, p, ys, hstep, -⟩ := scan_cons_eq.mp hright
  have hno : scanStep .outside 0x60 = none := by decide
  rw [hno] at hstep
  cases hstep

end Block

section Parameters

variable {readFloat : Bytes → Option NumberText}

theorem parametersSchema_object (a : SkillArgs) :
    ∃ m, m ≠ [] ∧ parametersSchema a = .obj m := by
  rw [parametersSchema]
  by_cases h : a.paramsSchema.empty = true ∨ a.paramsSchema.contains (bytes "type") = false
  · rw [if_pos h]
    exact ⟨_, by decide, rfl⟩
  · rw [if_neg h]
    rw [not_or, Bool.not_eq_true, Bool.not_eq_false] at h
    cases hs : a.paramsSchema with
    | obj m =>
      rw [hs] at h
      refine ⟨m, ?_, rfl⟩
      rintro rfl
      exact absurd h.1 (by decide)
    | _ =>
      rw [hs] at h
      cases h.2

theorem storable_default : Storable readFloat defaultParameters := by
  have htext : Utf8.valid (bytes "object") = true := by decide
  apply storable_object
  exact ⟨by decide, htext, by decide, ⟨List.Pairwise.nil, trivial⟩, by decide, trivial, trivial⟩

theorem default_fence : find fence (render id (indented 4) 0 defaultParameters) = none := by
  decide

/-- What the block of a written file is read as. -/
theorem extract_written {a : SkillArgs} (hname : (0x60 : UInt8) ∉ a.name ∧ newline ∉ a.name)
    (hdesc : newline ∉ a.desc) (hs : Storable readFloat (parametersSchema a)) :
    extractParametersBlock readFloat
        (bodyText (texts a) (render id (indented 4) 0 (parametersSchema a))) =
      if find marker a.desc = none ∧
        find fence (render id (indented 4) 0 (parametersSchema a)) = none then parametersSchema a
      else .obj [] := by
  obtain ⟨m, hm, hschema⟩ := parametersSchema_object a
  rw [hschema] at hs
  rw [hschema]
  generalize hp : render id (indented 4) 0 (.obj m) = p
  have hne : marker ≠ [] := by decide
  have hnl : newline ∉ marker := by decide
  have hfence : fence ≠ [] := by decide
  have hheading : find marker (bytes "# " ++ a.name) = none := by
    have hmarker : marker = 0x60 :: (bytes "\x60\x60json:parameters") := by decide
    rw [hmarker]
    apply find_none
    rw [List.mem_append, not_or]
    exact ⟨by decide, hname.1⟩
  have hbody : bodyText (texts a) p = unlines [[], [], bytes "# " ++ a.name, []] ++
      (a.desc ++ newline :: newline :: (marker ++ newline :: (p ++ newline :: fence))) := by
    have hn : texts a (bytes "name") = some a.name := texts_of_mem (by simp [textMembers])
    have hd : texts a (bytes "description") = some a.desc := texts_of_mem (by simp [textMembers])
    have hrules : bytes "\n\n" = [newline, newline] := by decide
    rw [bodyText, hn, hd, hrules]
    simp
  have hempty : find marker [] = none := by decide
  rw [extractParametersBlock]
  cases hd : find marker a.desc with
  | some k =>
    -- the description opens a block of its own
    have hlines : ∀ l ∈ [[], [], bytes "# " ++ a.name, []], find marker l = none := by
      simp [hempty, hheading]
    obtain ⟨i, hfind, hdrop⟩ := find_lines hne hnl hlines hd
      (newline :: newline :: (marker ++ newline :: (p ++ newline :: fence)))
    have hkept : newline ∉ a.desc.drop k := fun h => hdesc (List.mem_of_mem_drop h)
    have hparse : ∃ e, parse readFloat [] = .error e := ⟨_, rfl⟩
    obtain ⟨e, he⟩ := hparse
    rw [hbody, blockText_eq hfind, hdrop, blockAt_early hkept, if_neg (by simp)]
    simp only [he]
  | none =>
    have hlines : ∀ l ∈ [[], [], bytes "# " ++ a.name, [], a.desc, []], find marker l = none := by
      simp [hempty, hheading, hd]
    have hself : find marker marker = some 0 := by decide
    obtain ⟨i, hfind, hdrop⟩ := find_lines hne hnl hlines hself (newline :: (p ++ newline :: fence))
    have hshape : bodyText (texts a) p = unlines [[], [], bytes "# " ++ a.name, [], a.desc, []] ++
        (marker ++ newline :: (p ++ newline :: fence)) := by
      rw [hbody]
      simp
    rw [hshape, blockText_eq hfind, hdrop, List.drop_zero, blockAt_marker]
    cases hf : find fence p with
    | none =>
      have hstop : find fence (p ++ newline :: fence) = some (p.length + 1) := by
        have hself : find fence fence = some 0 := by decide
        rw [find_line hfence (by decide) hf, hself, Option.map_some, Nat.zero_add]
      have htake : (p ++ newline :: fence).take (p.length + 1) = p ++ [newline] := by
        rw [List.take_length_add_append]
        rfl
      rw [hstop, Option.map_some, htake, if_pos ⟨rfl, rfl⟩, ← hp]
      simp only [parse_block hm hs]
    | some k =>
      have hk : k ≤ p.length := (Nat.le_add_right k _).trans (find_length_le hf)
      have hcut := not_parse_truncated hm hs (hp ▸ hf)
      rw [hp] at hcut
      rw [find_append_left hf, Option.map_some, List.take_append_of_le_length hk,
        if_neg (by simp)]
      dsimp only
      cases hparse : parse readFloat (trim blanks (p.take k)) with
      | ok j => exact absurd hparse (hcut j)
      | error e => rfl

theorem parametersOf_written {a : SkillArgs} (hclean : Clean (texts a))
    (hname : (0x60 : UInt8) ∉ a.name ∧ newline ∉ a.name) (hdesc : newline ∉ a.desc)
    (hs : Storable readFloat (parametersSchema a)) :
    parametersOf readFloat (newline :: unlines (headerLines (texts a)))
        (bodyText (texts a) (render id (indented 4) 0 (parametersSchema a))) =
      if find marker a.desc = none ∧
        find fence (render id (indented 4) 0 (parametersSchema a)) = none then parametersSchema a
      else defaultParameters := by
  have hfield := fieldValue_generated hclean (bytes "parameters")
  rw [if_neg (by decide)] at hfield
  rw [parametersOf, extract_written hname hdesc hs, hfield]
  split_ifs with h1 h2 h2
  · rfl
  · obtain ⟨m, hm, hschema⟩ := parametersSchema_object a
    rw [hschema] at h2
    cases m with
    | nil => exact absurd rfl hm
    | cons x m => exact absurd rfl h2
  · exact absurd h2 (by decide)
  · rfl

end Parameters

section RoundTrip

variable {readFloat : Bytes → Option NumberText} {a : SkillArgs}

/-- What the checks of the operation leave of the arguments. -/
structure Accepted (a : SkillArgs) : Prop where
  name : a.name ≠ [] ∧ ∀ b ∈ a.name, isWordByte b = true
  desc : a.desc ≠ []
  runtime : a.runtime ∈ [bytes "python", bytes "node", bytes "native"]

theorem write_accepted {isDirectory : Bool} {manifest : Json}
    (h : executeCustomSkillOp a isDirectory = .write manifest) :
    manifest = .object (members a) ∧ Accepted a := by
  unfold executeCustomSkillOp at h
  split_ifs at h with h1 h2 h3 h4 h5 h6 h7
  rw [not_or] at h5
  have hruntime : a.runtime ∈ [bytes "python", bytes "node", bytes "native"] := by
    by_contra hno
    apply h6
    simpa [not_or] using hno
  rw [Bool.not_eq_false, List.all_eq_true] at h3
  refine ⟨(SkillOp.write.inj h).symm, ⟨h2, fun b hb => ?_⟩, h5.1, hruntime⟩
  have := h3 b hb
  simp only [decide_eq_true_eq] at this
  rw [isWordByte, decide_eq_true_eq]
  rcases this with h | h
  · exact .inl h
  · exact .inr (.inl h)

theorem readArgs_storable {args : Json} (h : readArgs args = .ok a)
    (hs : Storable readFloat args) : Storable readFloat (parametersSchema a) := by
  have hparams : Storable readFloat a.paramsSchema := by
    unfold readArgs at h
    obtain ⟨_, -, h⟩ := bind_eq_ok.mp h
    obtain ⟨_, -, h⟩ := bind_eq_ok.mp h
    obtain ⟨_, -, h⟩ := bind_eq_ok.mp h
    obtain ⟨_, -, h⟩ := bind_eq_ok.mp h
    obtain ⟨_, -, h⟩ := bind_eq_ok.mp h
    obtain ⟨_, -, h⟩ := bind_eq_ok.mp h
    obtain ⟨_, -, h⟩ := bind_eq_ok.mp h
    obtain ⟨_, -, h⟩ := bind_eq_ok.mp h
    obtain ⟨_, -, h⟩ := bind_eq_ok.mp h
    obtain ⟨p, hp, rfl⟩ := map_eq_ok.mp h
    unfold Json.value at hp
    split at hp
    · split at hp
      · obtain rfl := Except.ok.inj hp
        exact ⟨List.Pairwise.nil, trivial⟩
      next v hv =>
        obtain rfl := Except.ok.inj hp
        exact Storable.member (j := .obj _) hs hv
    · cases hp
  rw [parametersSchema]
  split_ifs
  · exact storable_default
  · exact hparams

/-- A word, or one of the texts that are taken as they come. -/
theorem textMembers_cases (h : Accepted a) {key v : Bytes} (hm : (key, v) ∈ textMembers a) :
    (OneLine v ∧ Bare v) ∨ (key = bytes "category" ∧ v = a.category) ∨
      (key = bytes "risk_level" ∧ v = a.risk) ∨ (key = bytes "description" ∧ v = a.desc) ∨
      (key = bytes "language" ∧ v = a.language ∧ a.runtime = bytes "native" ∧ a.language ≠ []) := by
  have hruntime : a.runtime ≠ [] ∧ ∀ b ∈ a.runtime, isWordByte b = true := by
    have hall : ∀ r ∈ [bytes "python", bytes "node", bytes "native"],
        r ≠ [] ∧ (r.all fun b => isWordByte b) = true := by decide
    have := hall a.runtime h.runtime
    exact ⟨this.1, List.all_eq_true.mp this.2⟩
  have hentry : entryPoint a ≠ [] ∧ ∀ b ∈ entryPoint a, isWordByte b = true := by
    have hpy : (bytes ".py").all isWordByte = true := by decide
    have hjs : (bytes ".js").all isWordByte = true := by decide
    refine ⟨by simp [entryPoint, h.name.1], fun b hb => ?_⟩
    rw [entryPoint, List.mem_append] at hb
    rcases hb with hb | hb
    · exact h.name.2 b hb
    · split_ifs at hb
      · exact List.all_eq_true.mp hpy b hb
      · exact List.all_eq_true.mp hjs b hb
      · cases hb
  rw [textMembers, List.mem_append] at hm
  rcases hm with hm | hm
  · simp only [List.mem_cons, Prod.mk.injEq, List.not_mem_nil, or_false] at hm
    rcases hm with ⟨-, rfl⟩ | ⟨-, rfl⟩ | hm | hm | hm | ⟨-, rfl⟩
    · exact .inl (word_survives h.name.1 h.name.2)
    · exact .inl (word_survives hruntime.1 hruntime.2)
    · exact .inr (.inl hm)
    · exact .inr (.inr (.inl hm))
    · exact .inr (.inr (.inr (.inl hm)))
    · exact .inl (word_survives hentry.1 hentry.2)
  · split_ifs at hm with hl
    · obtain ⟨rfl, rfl⟩ := Prod.mk.inj (List.mem_singleton.mp hm)
      exact .inr (.inr (.inr (.inr ⟨rfl, rfl, hl⟩)))
    · cases hm

theorem clean_of_oneLine (h : ∀ key v, (key, v) ∈ textMembers a → OneLine v) :
    Clean (texts a) := by
  intro key _ v hv
  exact h key v (OrderedMap.mem_of_lookup hv)

/-- A text that is read from a file is one line of it. -/
theorem oneLine_of_member {content key v : Bytes} (hkey : key ≠ bytes "parameters")
    (h : (parseSkillMd readFloat content).member? key = some (.str v)) : OneLine v := by
  cases hs : splitSkillMd content with
  | none =>
    rw [parseSkillMd_unsplit hs] at h
    cases h
  | some x =>
    obtain ⟨yaml, body⟩ := x
    obtain ⟨m, hm, hfields, -⟩ := parseSkillMd_split readFloat hs
    rw [hm, Json.member?, hfields key hkey] at h
    obtain ⟨w, hw, he⟩ := Option.map_eq_some_iff.mp h
    obtain rfl := Json.str.inj he
    refine ⟨(fieldValue_line hw).2, ?_⟩
    exact find_fieldValue (by decide) (by decide) (splitSkillMd_rule hs) hw

theorem texts_parameters {key v : Bytes} (hm : (key, v) ∈ textMembers a) :
    key ≠ bytes "parameters" ∧ key ∈ headerKeys := by
  have hkeys : ∀ k ∈ memberKeys, k ≠ bytes "parameters" ∧ k ∈ headerKeys := by decide
  exact hkeys key ((textMembers_keys a).subset (List.mem_map_of_mem (f := Prod.fst) hm))

variable (readFloat) in
/-- The members that are read of a written file whose header ends where it should. -/
theorem parse_written (hclean : Clean (texts a)) (p : Bytes) :
    ∃ m, parseSkillMd readFloat (written (texts a) p) = .obj m ∧
      (∀ key, key ≠ bytes "parameters" → m.lookup key =
        (if key ∈ headerKeys then reading (texts a) key else none).map Json.str) ∧
      m.lookup (bytes "parameters") = some (parametersOf readFloat
        (newline :: unlines (headerLines (texts a))) (bodyText (texts a) p)) := by
  obtain ⟨m, hm, hfields, hp⟩ :=
    parseSkillMd_split readFloat (splitSkillMd_generated hclean p)
  refine ⟨m, hm, fun key hkey => ?_, hp⟩
  rw [hfields key hkey, fieldValue_generated hclean]

theorem generate_members (hschema : Storable readFloat (parametersSchema a)) :
    generateSkillMd (.object (members a)) =
      .ok (written (texts a) (render id (indented 4) 0 (parametersSchema a))) := by
  rw [generateSkillMd_eq (texts_header a) (member_parameters a), dumpIndent,
    dumpWith_utf8 (indented 4) hschema.utf8]
  rfl

/-- An accepted name is not taken for a fence or for the end of a line. -/
theorem name_plain (hacc : Accepted a) : (0x60 : UInt8) ∉ a.name ∧ newline ∉ a.name := by
  constructor
  · exact fun h => (isWordByte_ne (hacc.name.2 _ h)).1 (by decide)
  · exact fun h => (isWordByte_ne (hacc.name.2 _ h)).1 (by decide)

/-- What is read back was written with texts that survive. -/
theorem survives_of_roundTrips (hacc : Accepted a)
    (hschema : Storable readFloat (parametersSchema a))
    (h : RoundTrips readFloat (.object (members a))) : Survives a := by
  have hcategory : (bytes "category", a.category) ∈ textMembers a := by simp [textMembers]
  have hrisk : (bytes "risk_level", a.risk) ∈ textMembers a := by simp [textMembers]
  have hdesc : (bytes "description", a.desc) ∈ textMembers a := by simp [textMembers]
  obtain ⟨text, htext, hmembers⟩ := h
  rw [generate_members hschema] at htext
  obtain rfl := Except.ok.inj htext
  have hline : ∀ key v, (key, v) ∈ textMembers a → OneLine v := by
    intro key v hm
    have hne := (texts_parameters hm).1
    have hmember := hmembers key
    rw [member_text a hne, texts_of_mem hm] at hmember
    exact oneLine_of_member hne hmember
  have hclean := clean_of_oneLine hline
  obtain ⟨m, hm, hfields, hp⟩ := parse_written readFloat hclean
    (render id (indented 4) 0 (parametersSchema a))
  have hbare : ∀ key v, (key, v) ∈ textMembers a → key ≠ bytes "description" → Bare v := by
    intro key v hkv hd
    obtain ⟨hne, hmem⟩ := texts_parameters hkv
    have hmember := hmembers key
    rw [hm, Json.member?, hfields key hne, if_pos hmem, member_text a hne, texts_of_mem hkv]
      at hmember
    have hread : reading (texts a) key = some v :=
      Option.map_injective (fun _ _ => Json.str.inj) hmember
    have := (reading_eq_self_iff (texts_of_mem hkv)).mp hread
    rwa [if_neg hd] at this
  have hparameters := hmembers (bytes "parameters")
  rw [hm, Json.member?, hp, member_parameters, Option.some.injEq,
    parametersOf_written hclean (name_plain hacc) (hline _ _ hdesc).1 hschema] at hparameters
  refine ⟨hline _ _ hdesc, ⟨hline _ _ hcategory, hbare _ _ hcategory (by decide)⟩,
    ⟨hline _ _ hrisk, hbare _ _ hrisk (by decide)⟩, fun hn hl => ?_, ?_⟩
  · have hlanguage : (bytes "language", a.language) ∈ textMembers a := by
      simp [textMembers, hn, hl]
    exact ⟨hline _ _ hlanguage, hbare _ _ hlanguage (by decide)⟩
  · split_ifs at hparameters with hblock
    · exact .inr hblock
    · exact .inl hparameters.symm

/-- Every text of a skill that survives is one line that is read as it is. -/
theorem Survives.read_as_written (h : Survives a) (hacc : Accepted a) {key v : Bytes}
    (hm : (key, v) ∈ textMembers a) :
    OneLine v ∧ (if key = bytes "description" then v ≠ [] else Bare v) := by
  rcases textMembers_cases hacc hm with hw | ⟨rfl, rfl⟩ | ⟨rfl, rfl⟩ | ⟨rfl, rfl⟩ |
    ⟨rfl, rfl, hn, hl⟩
  · refine ⟨hw.1, ?_⟩
    split_ifs
    · exact hw.2.1
    · exact hw.2
  · exact h.category
  · exact h.risk
  · exact ⟨h.desc, hacc.desc⟩
  · exact h.language hn hl

theorem roundTrips_of_survives (hacc : Accepted a)
    (hschema : Storable readFloat (parametersSchema a)) (h : Survives a) :
    RoundTrips readFloat (.object (members a)) := by
  have hclean := clean_of_oneLine fun key v hm => (h.read_as_written hacc hm).1
  obtain ⟨m, hm, hfields, hp⟩ := parse_written readFloat hclean
    (render id (indented 4) 0 (parametersSchema a))
  refine ⟨_, generate_members hschema, fun key => ?_⟩
  rw [hm, Json.member?]
  by_cases hkey : key = bytes "parameters"
  · rw [hkey, hp, member_parameters,
      parametersOf_written hclean (name_plain hacc) h.desc.1 hschema]
    split_ifs with hblock
    · rfl
    · rw [h.parameters.resolve_right hblock]
  · rw [hfields key hkey, member_text a hkey]
    cases hv : texts a key with
    | none => rw [reading, hv, Option.bind_none, ite_self]
    | some v =>
      have hmem : (key, v) ∈ textMembers a := OrderedMap.mem_of_lookup hv
      rw [if_pos (texts_parameters hmem).2,
        (reading_eq_self_iff hv).mpr (h.read_as_written hacc hmem).2]

/-- The skills the agent writes that are read back as they were written. -/
theorem roundTrips_iff {args manifest : Json} {isDirectory : Bool}
    (hargs : readArgs args = .ok a) (hs : Storable readFloat args)
    (hop : executeCustomSkillOp a isDirectory = .write manifest) :
    RoundTrips readFloat manifest ↔ Survives a := by
  obtain ⟨rfl, hacc⟩ := write_accepted hop
  have hschema := readArgs_storable hargs hs
  constructor
  · exact survives_of_roundTrips hacc hschema
  · exact roundTrips_of_survives hacc hschema

end RoundTrip

namespace Counterexample

def noFloats : Bytes → Option NumberText := fun _ => none

/-- A skill with a heading rule in its description. -/
def ruled : Json := .object [(bytes "operation", .str (bytes "create")),
  (bytes "skill_name", .str (bytes "lights")), (bytes "code", .str (bytes "pass")),
  (bytes "description", .str (bytes "Lights --- all rooms"))]

def ruledArgs : SkillArgs where
  operation := bytes "create"
  name := bytes "lights"
  desc := bytes "Lights --- all rooms"
  code := bytes "pass"
  runtime := bytes "python"
  language := []
  risk := bytes "low"
  category := bytes "Uncategorized"
  paramsSchema := .obj []

/-- The header ends within the description, which is cut; all fields behind it are lost. -/
theorem read_back_changed : ∃ a manifest, readArgs ruled = .ok a ∧
    executeCustomSkillOp a false = .write manifest ∧ ¬ RoundTrips noFloats manifest := by
  have hread : (generateSkillMd (.object (members ruledArgs))).toOption.map
      (fun text => (parseSkillMd noFloats text).member? (bytes "description")) =
        some (some (.str (bytes "\"Lights"))) := by decide +kernel
  refine ⟨ruledArgs, .object (members ruledArgs), rfl, rfl, ?_⟩
  rintro ⟨text, htext, h⟩
  have hmember := h (bytes "description")
  rw [htext, Except.toOption, Option.map_some, hmember, Option.some.injEq] at hread
  exact absurd hread (by decide)

/-- A skill with a schema of its own and colons and quotes in its texts. -/
def plain : Json := .object [(bytes "operation", .str (bytes "create")),
  (bytes "skill_name", .str (bytes "lights")), (bytes "code", .str (bytes "pass")),
  (bytes "description", .str (bytes "Lights: \"on\" or 'off'")),
  (bytes "parameters_schema", .object [(bytes "type", .str (bytes "object"))])]

def plainArgs : SkillArgs :=
  { ruledArgs with
    desc := bytes "Lights: \"on\" or 'off'"
    paramsSchema := .object [(bytes "type", .str (bytes "object"))] }

theorem plain_read_back : RoundTrips noFloats (.object (members plainArgs)) := by
  have hargs : readArgs plain = .ok plainArgs := rfl
  have hop : executeCustomSkillOp plainArgs false = .write (.object (members plainArgs)) := rfl
  have hstorable : Storable noFloats plain := by
    have hvalid : ∀ s ∈ [bytes "create", bytes "lights", bytes "pass", bytes "object",
        bytes "Lights: \"on\" or 'off'"], Utf8.valid s = true := by decide
    apply storable_object
    refine ⟨by decide, hvalid _ (by decide), by decide, hvalid _ (by decide), by decide,
      hvalid _ (by decide), by decide, hvalid _ (by decide), by decide, ?_, trivial⟩
    apply storable_object
    exact ⟨by decide, hvalid _ (by decide), trivial⟩
  apply (roundTrips_iff hargs hstorable hop).mpr
  have hruntime : plainArgs.runtime ≠ bytes "native" := by decide
  refine ⟨⟨by decide, by decide⟩, ⟨⟨by decide, by decide⟩, by decide⟩,
    ⟨⟨by decide, by decide⟩, by decide⟩, fun h => absurd h hruntime, .inr ⟨by decide, ?_⟩⟩
  decide

end Counterexample

end SkillRoundTrip
