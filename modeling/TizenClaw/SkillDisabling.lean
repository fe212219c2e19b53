import TizenClaw.SkillManifest

/-! Disabling a skill in its metadata files, and the declarations loaded from them afterwards. -/
namespace SkillDisabling

open ByteString ByteLines JsonValue JsonDump JsonParse JsonRoundTrip JsonStorable McpServer
open SkillManifest

section Model

variable (readFloat : Bytes → Option NumberText)

/-- `manifest.json` is opened for writing once it has been parsed and changed. -/
def disableManifestJson (content : Bytes) : Bytes :=
  match (readStream readFloat content).bind fun j =>
    Json.assign (bytes "verified") (.bool false) j with
  | .error _ => content
  | .ok j => match dumpIndent 4 j with
    | .ok text => text ++ [newline]
    | .error _ => []

/-- `SKILL.md` is opened for writing before its text is generated, and nothing catches what the
generator throws. -/
def disableSkillMd (content : Bytes) : Bytes × Except JsonException Unit :=
  let j := parseSkillMd readFloat content
  if j.empty then (content, .ok ())
  else match Json.assign (bytes "verified") (.bool false) j with
    | .error e => (content, .error e)
    | .ok j => match generateSkillMd j with
      | .ok text => (text, .ok ())
      | .error e => ([], .error e)

def disableSkill (d : SkillFiles) : SkillFiles × Except JsonException Unit :=
  let d := { d with manifestJson := d.manifestJson.map (disableManifestJson readFloat) }
  match d.skillMd with
  | none => (d, .ok ())
  | some content =>
    ({ d with skillMd := some (disableSkillMd readFloat content).1 },
      (disableSkillMd readFloat content).2)

structure LlmToolDecl where
  name : Bytes
  description : Bytes
  parameters : Json

/-- What the scan of a tree makes of a directory. -/
def declaration (d : SkillFiles) : Option LlmToolDecl :=
  let j := load readFloat d
  if d.dirname.head? = some 0x2E ∨ j.empty then none
  else if disabled j then none
  else match j.member? (bytes "parameters") with
    | none => none
    | some parameters =>
      match j.valueString (bytes "name") d.dirname, j.valueString (bytes "description") [] with
      | .ok name, .ok description => some ⟨name, description, parameters⟩
      | _, _ => none

/-- `LoadSkillDeclarations` over the directories of both trees; the tools that are no skills come
behind them. -/
def loadSkillDeclarations (dirs : List SkillFiles) (others : List LlmToolDecl) : List LlmToolDecl :=
  dirs.filterMap (declaration readFloat) ++ others

/-- A directory that is entered under its name is declared under it. -/
theorem declaration_of_declare {d : SkillFiles} {name dirname : Bytes}
    (h : declare ⟨d.dirname, load readFloat d⟩ = some (name, dirname)) :
    ∃ t, declaration readFloat d = some t ∧ t.name = name ∧ dirname = d.dirname := by
  unfold declare at h
  dsimp only at h
  split_ifs at h with h1 h2 h3
  obtain ⟨p, hp⟩ := Option.isSome_iff_exists.mp h3
  split at h
  next n hn =>
    obtain ⟨rfl, rfl⟩ := Prod.mk.inj (Option.some.inj h)
    obtain ⟨name, hname, hn⟩ := bind_eq_ok.mp hn
    obtain ⟨description, hdescription, hn⟩ := bind_eq_ok.mp hn
    obtain ⟨-, -, hn⟩ := bind_eq_ok.mp hn
    obtain ⟨-, -, hn⟩ := bind_eq_ok.mp hn
    obtain ⟨-, -, hn⟩ := bind_eq_ok.mp hn
    obtain ⟨-, -, rfl⟩ := map_eq_ok.mp hn
    refine ⟨⟨name, description, p⟩, ?_, rfl, rfl⟩
    rw [declaration, if_neg h1, if_neg h2, hp]
    simp only [hname, hdescription]
  · cases h

end Model

section Files

variable (readFloat : Bytes → Option NumberText)

def manifestField (d : SkillFiles) (key : Bytes) : Option Json :=
  d.manifestJson.bind fun content => (parseManifestJson readFloat content).member? key

def headerField (d : SkillFiles) (key : Bytes) : Option Bytes :=
  (d.skillMd.bind splitSkillMd).bind fun x => fieldValue x.1 key

def bodyOf (d : SkillFiles) : Option Bytes := (d.skillMd.bind splitSkillMd).map Prod.snd

/-- The skill is no longer offered, all others are as before, and nothing but the mark has changed in
the files. -/
structure Effective (d : SkillFiles) : Prop where
  declarations : ∀ before after others,
    loadSkillDeclarations readFloat (before ++ (disableSkill readFloat d).1 :: after) others =
      loadSkillDeclarations readFloat (before ++ after) others
  manifestJson : ∀ key, key ≠ bytes "verified" →
    manifestField readFloat (disableSkill readFloat d).1 key = manifestField readFloat d key
  header : ∀ key, key ≠ bytes "verified" →
    headerField (disableSkill readFloat d).1 key = headerField d key
  body : bodyOf (disableSkill readFloat d).1 = bodyOf d

/-- A `SKILL.md` that counts for nothing in the directory and that the writer leaves as it is: all its
fields are the writer's own, none needs quotes but the description, and its body is the one written
for them. -/
def Unread (d : SkillFiles) (yaml body : Bytes) : Prop :=
  (d.dirname.head? = some 0x2E ∨ fieldValue yaml (bytes "name") = none) ∧
  (∀ key v, fieldValue yaml key = some v → key ∈ headerKeys ∧
    (key = bytes "description" ∨ key = bytes "verified" ∨ Bare v)) ∧
  body = bodyText (fieldValue yaml) (render id (indented 4) 0 (parametersOf readFloat yaml body))

end Files

variable {readFloat : Bytes → Option NumberText}

section ManifestJson

/-- The file keeps its other members, and what is read of it then declares nothing. -/
theorem parse_disabled (hf : ReadsBack readFloat) (content : Bytes) :
    (∀ key, key ≠ bytes "verified" →
      (parseManifestJson readFloat (disableManifestJson readFloat content)).member? key =
        (parseManifestJson readFloat content).member? key) ∧
    (disabled (parseManifestJson readFloat (disableManifestJson readFloat content)) = true ∨
      ∀ key, (parseManifestJson readFloat (disableManifestJson readFloat content)).member? key =
        none) := by
  cases hread : readStream readFloat content with
  | error e =>
    have hsame : disableManifestJson readFloat content = content := by
      rw [disableManifestJson, hread]
      rfl
    rw [hsame, parseManifestJson, hread]
    exact ⟨fun _ _ => rfl, .inr fun _ => rfl⟩
  | ok j =>
    have hold : parseManifestJson readFloat content = j := by rw [parseManifestJson, hread]
    rcases assign_cases (bytes "verified") (.bool false) j with
      ⟨m, hset, hmember, hstorable⟩ | ⟨⟨e, herror⟩, hmember⟩
    · have hm : Storable readFloat (.obj (insertMember (bytes "verified") (.bool false) m)) :=
        storable_insert (by decide) trivial (hstorable readFloat (storable_readStream hf hread))
      have hnew : parseManifestJson readFloat (disableManifestJson readFloat content) =
          .obj (insertMember (bytes "verified") (.bool false) m) := by
        have hwhite : White [newline] := white_singleton (by decide)
        have htext : disableManifestJson readFloat content = render id (indented 4) 0
            (.obj (insertMember (bytes "verified") (.bool false) m)) ++ [newline] := by
          rw [disableManifestJson, hread, Except.bind, hset]
          simp only [dumpIndent, dumpWith_utf8 (indented 4) hm.utf8]
        rw [htext, parseManifestJson, readStream_render (whiteLayout_indented 4) hm hwhite]
      rw [hnew, hold]
      constructor
      · intro key hkey
        rw [hmember, Json.member?, lookup_insertMember, if_neg hkey]
      · left
        rw [disabled, Json.member?, lookup_insertMember, if_pos rfl]
        decide
    · have hsame : disableManifestJson readFloat content = content := by
        rw [disableManifestJson, hread, Except.bind, herror]
      rw [hsame, hold]
      exact ⟨fun _ _ => rfl, .inr hmember⟩

theorem manifestField_disabled (hf : ReadsBack readFloat) (d : SkillFiles) (key : Bytes)
    (hkey : key ≠ bytes "verified") :
    manifestField readFloat (disableSkill readFloat d).1 key = manifestField readFloat d key := by
  have hfile : (disableSkill readFloat d).1.manifestJson =
      d.manifestJson.map (disableManifestJson readFloat) := by
    rw [disableSkill]
    cases d.skillMd <;> rfl
  rw [manifestField, manifestField, hfile]
  cases d.manifestJson with
  | none => rfl
  | some content => exact (parse_disabled hf content).1 key hkey

/-- A directory that is loaded from the disabled file declares nothing. -/
theorem declaration_of_manifestJson (hf : ReadsBack readFloat) {d d' : SkillFiles}
    (hfile : d'.manifestJson = d.manifestJson.map (disableManifestJson readFloat))
    (hload : load readFloat d' = loadManifestJson readFloat d') :
    declaration readFloat d' = none := by
  have hnone : loadManifestJson readFloat d' = .obj [] ∨
      disabled (loadManifestJson readFloat d') = true ∨
      ∀ key, (loadManifestJson readFloat d').member? key = none := by
    rw [loadManifestJson, hfile]
    cases d.manifestJson with
    | none => exact .inl rfl
    | some content =>
      dsimp only [Option.map_some]
      split_ifs
      · exact .inl rfl
      · exact .inr (parse_disabled hf content).2
  rw [declaration, hload]
  split_ifs with h1 h2
  · rfl
  · rfl
  · rcases hnone with h | h | h
    · rw [h] at h1
      simp [Json.empty] at h1
    · exact absurd h h2
    · rw [h]

end ManifestJson

section Header

/-- The texts that are written into the header of a skill being disabled. -/
def marked (yaml key : Bytes) : Option Bytes :=
  if key = bytes "verified" then some (bytes "false") else fieldValue yaml key

variable {content yaml body : Bytes}

theorem marked_clean (h : splitSkillMd content = some (yaml, body)) : Clean (marked yaml) := by
  intro key _ v hv
  rw [marked] at hv
  split_ifs at hv
  · obtain rfl := Option.some.inj hv
    decide
  · refine ⟨(fieldValue_line hv).2, ?_⟩
    exact find_fieldValue (by decide) (by decide) (splitSkillMd_rule h) hv

theorem bodyText_marked (yaml text : Bytes) :
    bodyText (marked yaml) text = bodyText (fieldValue yaml) text := by
  have hname : bytes "name" ≠ bytes "verified" := by decide
  have hdescription : bytes "description" ≠ bytes "verified" := by decide
  rw [bodyText, bodyText, marked, if_neg hname, marked, if_neg hdescription]

/-- A file with a frontmatter is written anew, or lost when its parameters cannot be dumped. -/
theorem disableSkillMd_split (h : splitSkillMd content = some (yaml, body)) :
    (disableSkillMd readFloat content).1 =
      if (parametersOf readFloat yaml body).utf8 = true then
        written (marked yaml) (render id (indented 4) 0 (parametersOf readFloat yaml body))
      else [] := by
  obtain ⟨m, hm, hfields, hparameters⟩ := parseSkillMd_split readFloat h
  have hne : m ≠ [] := by
    rintro rfl
    cases hparameters
  have hempty : ¬ Json.empty (.obj m) = true := by
    cases m with
    | nil => exact absurd rfl hne
    | cons x m => simp [Json.empty]
  have htexts : Texts (.obj (insertMember (bytes "verified") (.bool false) m)) (marked yaml) := by
    have hall : (textKeys.all fun key => key ≠ bytes "verified" ∧ key ≠ bytes "parameters") = true :=
      by decide
    refine ⟨⟨_, rfl⟩, fun key hkey => ?_, some false, ?_, ?_⟩
    · have hk := List.all_eq_true.mp hall key hkey
      rw [decide_eq_true_eq] at hk
      rw [Json.member?, lookup_insertMember, if_neg hk.1, marked, if_neg hk.1, hfields key hk.2]
    · rw [Json.member?, lookup_insertMember, if_pos rfl]
      rfl
    · rw [marked, if_pos rfl]
      rfl
  have hp : Json.member? (bytes "parameters")
      (.obj (insertMember (bytes "verified") (.bool false) m)) =
        some (parametersOf readFloat yaml body) := by
    have hne : bytes "parameters" ≠ bytes "verified" := by decide
    rw [Json.member?, lookup_insertMember, if_neg hne, hparameters]
  rw [disableSkillMd]
  simp only [hm, if_neg hempty, Json.assign, generateSkillMd_eq htexts hp, dumpIndent, dumpWith]
  by_cases hu : (parametersOf readFloat yaml body).utf8 = true
  · simp only [if_pos hu, Except.map]
  · simp only [if_neg hu, Except.map]

theorem disableSkillMd_unsplit (h : splitSkillMd content = none) :
    (disableSkillMd readFloat content).1 = content := by
  rw [disableSkillMd, parseSkillMd_unsplit h]
  rfl

/-- The header is kept when all its fields are the writer's, and read back as they are written. -/
theorem header_kept_iff {yaml : Bytes} :
    (∀ key, key ≠ bytes "verified" →
      (if key ∈ headerKeys then reading (marked yaml) key else none) = fieldValue yaml key) ↔
    ∀ key v, fieldValue yaml key = some v → key ∈ headerKeys ∧
      (key = bytes "description" ∨ key = bytes "verified" ∨ Bare v) := by
  have hmarked : ∀ key, key ≠ bytes "verified" → marked yaml key = fieldValue yaml key := by
    intro key hkey
    rw [marked, if_neg hkey]
  constructor
  · intro h key v hv
    by_cases hkey : key = bytes "verified"
    · exact ⟨by rw [hkey]; decide, .inr (.inl hkey)⟩
    · have hread := h key hkey
      rw [hv] at hread
      split_ifs at hread with hmem
      have hself := (reading_eq_self_iff ((hmarked key hkey).trans hv)).mp hread
      refine ⟨hmem, ?_⟩
      split_ifs at hself with hd
      · exact .inl hd
      · exact .inr (.inr hself)
  · intro h key hkey
    cases hv : fieldValue yaml key with
    | none =>
      have hnone := (hmarked key hkey).trans hv
      rw [reading, hnone, Option.bind_none, ite_self]
    | some v =>
      obtain ⟨hmem, hform⟩ := h key v hv
      rw [if_pos hmem]
      apply (reading_eq_self_iff ((hmarked key hkey).trans hv)).mpr
      split_ifs with hd
      · exact (fieldValue_line hv).1
      · exact (hform.resolve_left hd).resolve_left hkey

end Header

section Disabled

variable {d : SkillFiles} {content yaml body : Bytes}

theorem disableSkill_skillMd (d : SkillFiles) : (disableSkill readFloat d).1.skillMd =
    d.skillMd.map fun content => (disableSkillMd readFloat content).1 := by
  rw [disableSkill]
  cases d.skillMd <;> rfl

theorem disableSkill_manifestJson (d : SkillFiles) : (disableSkill readFloat d).1.manifestJson =
    d.manifestJson.map (disableManifestJson readFloat) := by
  rw [disableSkill]
  cases d.skillMd <;> rfl

theorem disableSkill_dirname (d : SkillFiles) :
    (disableSkill readFloat d).1.dirname = d.dirname := by
  rw [disableSkill]
  cases d.skillMd <;> rfl

/-- Only the declaration of the directory itself can be left. -/
theorem declarations_iff {d' : SkillFiles} :
    (∀ before after others, loadSkillDeclarations readFloat (before ++ d' :: after) others =
      loadSkillDeclarations readFloat (before ++ after) others) ↔ declaration readFloat d' = none := by
  constructor
  · intro h
    have := h [] [] []
    cases hd : declaration readFloat d' with
    | none => rfl
    | some t => simp [loadSkillDeclarations, hd] at this
  · intro h before after others
    simp [loadSkillDeclarations, h]

variable (readFloat) in
/-- A name that is read from `SKILL.md` is declared, with whatever mark it has in its header. -/
theorem declaration_of_named {yaml' body' v : Bytes} (hd : d.dirname.head? ≠ some 0x2E)
    (hfile : d.skillMd = some content) (h : splitSkillMd content = some (yaml', body'))
    (hname : fieldValue yaml' (bytes "name") = some v) : ∃ t, declaration readFloat d = some t := by
  obtain ⟨m, hm, hfields, hparameters⟩ := parseSkillMd_split readFloat h
  have hfield : ∀ key, key ≠ bytes "parameters" →
      Json.member? key (.obj m) = (fieldValue yaml' key).map Json.str := hfields
  have hnameField := hfield (bytes "name") (by decide)
  rw [hname, Option.map_some] at hnameField
  have hempty : Json.empty (.obj m) = false := by
    cases m with
    | nil => cases hparameters
    | cons x m => rfl
  have hload : load readFloat d = .obj m := by
    have hcontains : Json.contains (.obj m) (bytes "name") = true := by
      rw [Json.contains, hnameField]
      rfl
    rw [load, hfile]
    dsimp only
    rw [hm, if_pos ⟨hempty, hcontains⟩]
  have hdisabled : ¬ disabled (.obj m) = true := by
    rw [disabled, hfield _ (by decide), decide_eq_true_eq]
    cases fieldValue yaml' (bytes "verified") <;> simp
  have hdescription : ∃ s, Json.valueString (.obj m) (bytes "description") [] = .ok s := by
    have hm := hfield (bytes "description") (by decide)
    cases hv : fieldValue yaml' (bytes "description") with
    | none =>
      rw [hv, Json.member?] at hm
      exact ⟨[], by simp only [Json.valueString, Json.value, hm, Option.map_none]⟩
    | some s =>
      rw [hv] at hm
      exact ⟨s, valueString_of_member hm []⟩
  obtain ⟨s, hs⟩ := hdescription
  have hparam : Json.member? (bytes "parameters") (.obj m) =
      some (parametersOf readFloat yaml' body') := hparameters
  refine ⟨⟨v, s, parametersOf readFloat yaml' body'⟩, ?_⟩
  have hvisible : ¬ (d.dirname.head? = some 0x2E ∨ Json.empty (.obj m) = true) := by
    rw [hempty]
    simp [hd]
  rw [declaration, hload, if_neg hvisible, if_neg hdisabled, hparam]
  simp only [valueString_of_member hnameField, hs]

/-- Without a name in `SKILL.md` the directory is loaded from its other file. -/
theorem load_nameless (hname : ∀ content ∈ d.skillMd, ∀ x ∈ splitSkillMd content,
    fieldValue x.1 (bytes "name") = none) : load readFloat d = loadManifestJson readFloat d := by
  rw [load]
  cases hfile : d.skillMd with
  | none => rfl
  | some content =>
    have hname := hname content hfile
    dsimp only
    rw [if_neg]
    rintro ⟨hne, hcontains⟩
    cases hs : splitSkillMd content with
    | none =>
      rw [parseSkillMd_unsplit hs] at hne
      cases hne
    | some x =>
      obtain ⟨m, hm, hfields, -⟩ := parseSkillMd_split readFloat hs
      rw [hm, Json.contains, Json.member?, hfields _ (by decide), hname x hs] at hcontains
      cases hcontains

theorem parametersOf_utf8 (h : fieldValue yaml (bytes "parameters") = none) (body : Bytes) :
    (parametersOf readFloat yaml body).utf8 = true := by
  rw [parametersOf, h]
  split_ifs
  · exact extractParametersBlock_utf8 body
  · decide

/-- A skill that is disabled as it is meant to be had no say in its `SKILL.md`. -/
theorem unread_of_effective (h : Effective readFloat d) (hfile : d.skillMd = some content)
    (hs : splitSkillMd content = some (yaml, body)) : Unread readFloat d yaml body := by
  have hnew : (disableSkill readFloat d).1.skillMd = some (disableSkillMd readFloat content).1 := by
    rw [disableSkill_skillMd, hfile, Option.map_some]
  have hbody := h.body
  rw [bodyOf, bodyOf, hnew, hfile, Option.bind_some, Option.bind_some, hs, Option.map_some,
    disableSkillMd_split hs] at hbody
  -- a file that has been lost has no body
  have hu : (parametersOf readFloat yaml body).utf8 = true := by
    by_contra hu
    have hlost : splitSkillMd [] = none := by decide
    rw [if_neg hu, hlost] at hbody
    cases hbody
  have hsplit := splitSkillMd_generated (marked_clean hs)
    (render id (indented 4) 0 (parametersOf readFloat yaml body))
  rw [if_pos hu, hsplit, Option.map_some, Option.some.injEq, bodyText_marked] at hbody
  have hfields : ∀ key, key ≠ bytes "verified" →
      (if key ∈ headerKeys then reading (marked yaml) key else none) = fieldValue yaml key := by
    intro key hkey
    have hkept := h.header key hkey
    rw [headerField, headerField, hnew, hfile, Option.bind_some, Option.bind_some, hs,
      disableSkillMd_split hs, if_pos hu, hsplit, Option.bind_some, Option.bind_some] at hkept
    rw [← fieldValue_generated (marked_clean hs) key]
    exact hkept
  refine ⟨?_, header_kept_iff.mp hfields, hbody.symm⟩
  by_contra hname
  rw [not_or] at hname
  obtain ⟨v, hv⟩ := Option.ne_none_iff_exists'.mp hname.2
  have hread := hfields (bytes "name") (by decide)
  rw [← fieldValue_generated (marked_clean hs), hv] at hread
  have hdir : (disableSkill readFloat d).1.dirname.head? ≠ some 0x2E := by
    rw [disableSkill_dirname]
    exact hname.1
  rw [disableSkillMd_split hs, if_pos hu] at hnew
  obtain ⟨t, ht⟩ := declaration_of_named readFloat hdir hnew hsplit hread
  rw [declarations_iff.mp h.declarations] at ht
  cases ht

/-- What a header without a say is rewritten to, with the body as it was. -/
theorem split_disabled (h : Unread readFloat d yaml body)
    (hs : splitSkillMd content = some (yaml, body)) :
    splitSkillMd (disableSkillMd readFloat content).1 =
      some (newline :: unlines (headerLines (marked yaml)), body) := by
  obtain ⟨-, hfields, hbody⟩ := h
  have hu : (parametersOf readFloat yaml body).utf8 = true := by
    apply parametersOf_utf8
    by_contra hp
    obtain ⟨v, hv⟩ := Option.ne_none_iff_exists'.mp hp
    exact absurd (hfields _ v hv).1 (by decide)
  rw [disableSkillMd_split hs, if_pos hu, splitSkillMd_generated (marked_clean hs),
    bodyText_marked, ← hbody]

theorem field_disabled (h : Unread readFloat d yaml body)
    (hs : splitSkillMd content = some (yaml, body)) {key : Bytes} (hkey : key ≠ bytes "verified") :
    fieldValue (newline :: unlines (headerLines (marked yaml))) key = fieldValue yaml key := by
  rw [fieldValue_generated (marked_clean hs)]
  exact header_kept_iff.mpr h.2.1 key hkey

theorem load_disabled (h : ∀ content yaml body, d.skillMd = some content →
    splitSkillMd content = some (yaml, body) → Unread readFloat d yaml body)
    (hvisible : d.dirname.head? ≠ some 0x2E) :
    load readFloat (disableSkill readFloat d).1 =
      loadManifestJson readFloat (disableSkill readFloat d).1 := by
  apply load_nameless
  intro content' hfile' x hx
  rw [disableSkill_skillMd] at hfile'
  obtain ⟨content, hfile, rfl⟩ := Option.map_eq_some_iff.mp hfile'
  cases hs : splitSkillMd content with
  | none =>
    rw [disableSkillMd_unsplit hs, hs] at hx
    cases hx
  | some y =>
    obtain ⟨yaml, body⟩ := y
    have hunread := h content yaml body hfile hs
    rw [split_disabled hunread hs] at hx
    obtain rfl := Option.some.inj hx
    rw [field_disabled hunread hs (by decide)]
    exact hunread.1.resolve_left hvisible

theorem effective_of_unread (hf : ReadsBack readFloat) (h : ∀ content yaml body,
    d.skillMd = some content → splitSkillMd content = some (yaml, body) →
      Unread readFloat d yaml body) : Effective readFloat d := by
  refine ⟨declarations_iff.mpr ?_, manifestField_disabled hf d, fun key hkey => ?_, ?_⟩
  · by_cases hhidden : d.dirname.head? = some 0x2E
    · rw [declaration, disableSkill_dirname, if_pos (.inl hhidden)]
    · exact declaration_of_manifestJson hf (disableSkill_manifestJson d) (load_disabled h hhidden)
  · rw [headerField, headerField, disableSkill_skillMd]
    cases hfile : d.skillMd with
    | none => rfl
    | some content =>
      rw [Option.map_some, Option.bind_some, Option.bind_some]
      cases hs : splitSkillMd content with
      | none => rw [disableSkillMd_unsplit hs, hs]
      | some y =>
        obtain ⟨yaml, body⟩ := y
        have hunread := h content yaml body hfile hs
        rw [split_disabled hunread hs]
        exact field_disabled hunread hs hkey
  · rw [bodyOf, bodyOf, disableSkill_skillMd]
    cases hfile : d.skillMd with
    | none => rfl
    | some content =>
      rw [Option.map_some, Option.bind_some, Option.bind_some]
      cases hs : splitSkillMd content with
      | none => rw [disableSkillMd_unsplit hs, hs]
      | some y =>
        obtain ⟨yaml, body⟩ := y
        rw [split_disabled (h content yaml body hfile hs) hs]
        rfl

/-- Disabling a skill does what it is meant to exactly where `SKILL.md` has no say. -/
theorem effective_iff (hf : ReadsBack readFloat) (d : SkillFiles) :
    Effective readFloat d ↔ ∀ content yaml body, d.skillMd = some content →
      splitSkillMd content = some (yaml, body) → Unread readFloat d yaml body := by
  constructor
  · intro h content yaml body hfile hs
    exact unread_of_effective h hfile hs
  · intro h
    exact effective_of_unread hf h

end Disabled

namespace Counterexample

def noFloats : Bytes → Option NumberText := fun _ => none

theorem noFloats_readsBack : ReadsBack noFloats := by
  intro t x h
  cases h

/-- A skill as its author writes it, the way the loader prefers. -/
def written : SkillFiles where
  dirname := bytes "test_skill"
  skillMd := some (bytes "---\nname: test_skill\ndescription: \"Test\"\nverified: true\n---\n\nUse with care.\n\n\x60\x60\x60json:parameters\n\x7b\"type\": \"object\"\x7d\n\x60\x60\x60\n")
  manifestJson := none

/-- The mark is written, and the skill is offered as before. -/
theorem still_offered :
    headerField (disableSkill noFloats written).1 (bytes "verified") = some (bytes "false") ∧
      (loadSkillDeclarations noFloats [(disableSkill noFloats written).1] []).map (·.name) =
        [bytes "test_skill"] ∧ ¬ Effective noFloats written := by
  have hoffered : (loadSkillDeclarations noFloats [(disableSkill noFloats written).1] []).map
      (·.name) = [bytes "test_skill"] := by decide +kernel
  refine ⟨by decide +kernel, hoffered, fun h => ?_⟩
  have hgone := h.declarations [] [] []
  rw [List.nil_append, List.nil_append] at hgone
  rw [hgone] at hoffered
  cases hoffered

/-- A skill of the older format. -/
def legacy : SkillFiles where
  dirname := bytes "legacy"
  skillMd := none
  manifestJson := some (bytes "\x7b\"name\": \"legacy\", \"parameters\": \x7b\x7d\x7d")

theorem legacy_disabled : Effective noFloats legacy := by
  apply (effective_iff noFloats_readsBack legacy).mpr
  intro content yaml body hfile
  cases hfile

end Counterexample

end SkillDisabling
