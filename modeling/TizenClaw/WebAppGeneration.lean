import TizenClaw.SkillRoundTrip
import TizenClaw.WebAppStore

/-! The generation of a web app, step by step, as writes into the app's directory. -/
namespace WebAppGeneration

open ByteString ByteLines JsonValue JsonDump JsonParse JsonRoundTrip JsonStorable PathResolution
  PosixPath FileSystem WebFiles WebApps SkillRoundTrip

section Generation

structure AppArgs where
  appId : Bytes
  title : Bytes
  html : Bytes
  css : Bytes
  js : Bytes
  deriving DecidableEq, Repr

def readArgs (args : Json) : Except JsonException AppArgs := do
  let appId ← args.valueString (bytes "app_id") []
  let title ← args.valueString (bytes "title") []
  let html ← args.valueString (bytes "html") []
  let css ← args.valueString (bytes "css") []
  let js ← args.valueString (bytes "js") []
  pure ⟨appId, title, html, css, js⟩

structure Asset where
  url : Bytes
  filename : Bytes
  deriving DecidableEq, Repr

def readAsset (asset : Json) : Except JsonException Asset := do
  let url ← asset.valueString (bytes "url") []
  let filename ← asset.valueString (bytes "filename") []
  pure ⟨url, filename⟩

/-- What becomes of a download; what came of a failed one does not matter. -/
inductive Download where
  | noHandle
  | failed (text : Bytes)
  | done (data : Bytes)
  deriving DecidableEq, Repr

/-- What the `count` of seconds can be. -/
abbrev Seconds := { n : ℤ // InRange n }

inductive Reply where
  | refused (text : Bytes)
  | created (text : Bytes)
  deriving DecidableEq, Repr

def checkArgs (a : AppArgs) : Option Bytes :=
  if a.appId = [] ∨ 64 < a.appId.length then
    some (errorText (bytes "app_id is required (max 64 chars)"))
  else if a.appId.all (fun c => isAlnum c ∨ c = 0x5F) = false then
    some (errorText (bytes "app_id must be lowercase alphanumeric + underscore only"))
  else if a.html = [] then some (errorText (bytes "html is required"))
  else none

def appDir (appId : Bytes) : Bytes := appsDir ++ slash :: appId

def fileIn (appId name : Bytes) : Bytes := appDir appId ++ slash :: name

/-- A file is removed by its entry. -/
def removeFile (t : FileTree) (cwd : Place) (path : Bytes) : FileTree :=
  match locate t cwd (pathOf path) with
  | some p => if t.node p = some .dir then t else t.remove p
  | none => t

def writeOptional (t : FileTree) (cwd : Place) (path content : Bytes) : FileTree :=
  if content = [] then t else (writeFile t cwd path content).getD t

def unsafeName (filename : Bytes) : Bool :=
  hasParent filename ∨ slash ∈ filename ∨ 0x5C ∈ filename

def downloaded (filename : Bytes) : Json :=
  .object [(bytes "filename", .str filename), (bytes "status", .str (bytes "ok"))]

def notDownloaded (filename text : Bytes) : Json :=
  .object [(bytes "filename", .str filename), (bytes "status", .str (bytes "failed")),
    (bytes "error", .str text)]

/-- The file is opened, and so emptied, before anything is downloaded. -/
def fetchAsset (cwd : Place) (appId : Bytes) (download : Download) (asset : Asset)
    (x : FileTree × List Json) : FileTree × List Json :=
  if asset.url = [] ∨ asset.filename = [] then x
  else if unsafeName asset.filename then x
  else
    let path := fileIn appId asset.filename
    match download with
    | .noHandle => x
    | .done data => match writeFile x.1 cwd path data with
      | none => x
      | some t => (t, x.2 ++ [downloaded asset.filename])
    | .failed text => match writeFile x.1 cwd path [] with
      | none => x
      | some t => (removeFile t cwd path, x.2 ++ [notDownloaded asset.filename text])

variable (fetch : ℕ → Bytes → Download)

/-- An asset whose fields are no texts ends it with an exception. -/
def fetchAssets (cwd : Place) (appId : Bytes) :
    ℕ → List Json → FileTree × List Json → FileTree × Except JsonException (List Json)
  | _, [], x => (x.1, .ok x.2)
  | i, j :: js, x =>
    match readAsset j with
    | .error e => (x.1, .error e)
    | .ok asset =>
      fetchAssets cwd appId (i + 1) js (fetchAsset cwd appId (fetch i asset.url) asset x)

def listed (args : Json) (key : Bytes) : List Json :=
  match args.member? key with
  | some (.arr l) => l
  | _ => []

def manifestOf (a : AppArgs) (now : Seconds) (entries : List Json) (args : Json) : Json :=
  .object ([(bytes "app_id", .str a.appId), (bytes "title", .str a.title),
      (bytes "created_at", .int now.1), (bytes "has_css", .bool (a.css ≠ [])),
      (bytes "has_js", .bool (a.js ≠ [])), (bytes "assets", .arr entries)] ++
    match args.member? (bytes "allowed_tools") with
    | some (.arr l) => [(bytes "allowed_tools", .arr l)]
    | _ => [])

def replyOf (a : AppArgs) (launched : Bool) (entries : List Json) : Json :=
  .object ([(bytes "status", .str (bytes "ok")), (bytes "app_id", .str a.appId),
      (bytes "title", .str a.title), (bytes "url", .str (bytes "/apps/" ++ a.appId ++ bytes "/")),
      (bytes "webview_launched", .bool launched),
      (bytes "message", .str (bytes "Web app created. Access at http://localhost:9090/apps/" ++
        a.appId ++ bytes "/"))] ++
    if entries = [] then [] else [(bytes "assets", .arr entries)])

variable (launched : Bool) (now : Seconds) (reason : Bytes) (cwd : Place)

/-- The manifest comes last. It is dumped after its file has been opened, and not at all if that
fails. -/
def finish (a : AppArgs) (args : Json) (entries : List Json) (t : FileTree) :
    FileTree × Except JsonException Reply :=
  let manifest := dumpIndent 2 (manifestOf a now entries args)
  let reply := (dump (replyOf a launched entries)).map Reply.created
  match writeFile t cwd (fileIn a.appId (bytes "manifest.json")) (manifest.toOption.getD []) with
  | none => (t, reply)
  | some t' => (t', match manifest with
    | .error e => .error e
    | .ok _ => reply)

def writeApp (a : AppArgs) (args : Json) (t : FileTree) : FileTree × Except JsonException Reply :=
  match writeFile t cwd (fileIn a.appId (bytes "index.html")) a.html with
  | none => (t, .ok (.refused (errorText (bytes "Failed to write index.html"))))
  | some t =>
    let t := writeOptional t cwd (fileIn a.appId (bytes "style.css")) a.css
    let t := writeOptional t cwd (fileIn a.appId (bytes "app.js")) a.js
    match fetchAssets fetch cwd a.appId 0 (listed args (bytes "assets")) (t, []) with
    | (t, .error e) => (t, .error e)
    | (t, .ok entries) => finish launched now cwd a args entries t

/-- The reason is the text of the system's error. -/
def generateWebApp (args : Json) (t : FileTree) : FileTree × Except JsonException Reply :=
  match readArgs args with
  | .error e => (t, .error e)
  | .ok a => match checkArgs a with
    | some text => (t, .ok (.refused text))
    | none =>
      let t := createDirectories t cwd (appDir a.appId)
      if isDirectory t cwd (appDir a.appId) = false then
        (t, .ok (.refused (errorText (bytes "Failed to create app directory: " ++ reason))))
      else writeApp fetch launched now cwd a args t

end Generation

section Writes

/-- The name under which the system sees a file of an app. -/
def nameOf (filename : Bytes) : Option FileName :=
  match component (untilNul filename) with
  | .name n => some n
  | _ => none

/-- What is done to the files of an app's directory, one after the other: a file is written, or
taken away. -/
abbrev Writes := List (FileName × Option Bytes)

def writeNamed (filename : Bytes) (content : Option Bytes) : Writes :=
  ((nameOf filename).map fun n => (n, content)).toList

def assetWrites (download : Download) (asset : Asset) : Writes :=
  if asset.url = [] ∨ asset.filename = [] ∨ unsafeName asset.filename = true then []
  else match download with
    | .noHandle => []
    | .done data => writeNamed asset.filename (some data)
    | .failed _ => writeNamed asset.filename none

/-- The assets up to the first one that ends it. -/
def assetsWrites (fetch : ℕ → Bytes → Download) : ℕ → List Json → Writes
  | _, [] => []
  | i, j :: js =>
    match readAsset j with
    | .error _ => []
    | .ok asset => assetWrites (fetch i asset.url) asset ++ assetsWrites fetch (i + 1) js

def pageWrites (a : AppArgs) : Writes :=
  writeNamed (bytes "index.html") (some a.html) ++
    (if a.css = [] then [] else writeNamed (bytes "style.css") (some a.css)) ++
    if a.js = [] then [] else writeNamed (bytes "app.js") (some a.js)

/-- A write goes by where a directory has the name. -/
def applyWrite (dir : Place) (blocked : FileName → Prop) [DecidablePred blocked]
    (σ : Place → Option Bytes) (w : FileName × Option Bytes) : Place → Option Bytes :=
  if blocked w.1 then σ else Function.update σ (dir ++ [w.1]) w.2

def indexName : FileName := ⟨bytes "index.html", by decide⟩

def manifestName : FileName := ⟨bytes "manifest.json", by decide⟩

def lastWrite (n : FileName) (ws : Writes) : Option (Option Bytes) :=
  (ws.reverse.find? fun w => w.1 = n).map Prod.snd

end Writes

section Steps

variable {t : FileTree} {cwd : Place} {appId filename : Bytes} {n : FileName}

/-- The directory of an app is there, under an id that is one name. -/
structure Ready (t : FileTree) (appId : Bytes) : Prop where
  installed : Installed t
  isName : IsName appId
  dir : t.node (appPlace appId) = some .dir

theorem parent_not_mem_name (h : IsName appId) : .parent ∉ components appId := by
  rw [components_of_isName h, List.mem_singleton]
  intro he
  cases he

/-- A file's path leads to its name in the app's directory. -/
theorem Ready.resolve (h : Ready t appId) (hslash : slash ∉ filename)
    (hparent : hasParent filename = false) :
    resolve t cwd (pathOf (fileIn appId filename)) =
      lookup t (appPlace appId) [component (untilNul filename)] := by
  have hpath : fileIn appId filename = appsDir ++ slash :: (appId ++ slash :: filename) := by
    rw [fileIn, appDir, List.append_assoc]
    rfl
  have hp : .parent ∉ components (appId ++ slash :: filename) :=
    parent_not_mem_append (parent_not_mem_name h.isName) (parent_not_mem_of_hasParent hparent)
  rw [hpath, resolve_plain (by decide) (Or.inl apps_absolute) (h.installed.leadsTo cwd)
    h.installed.linkless hp, components_append h.isName.2.2.1, components_of_isName h.isName,
    components_of_slash_free hslash, List.singleton_append, lookup_name _ (List.cons_ne_nil _ _),
    appPlace_name h.isName]

theorem Ready.beneath (h : Ready t appId) (n : FileName) :
    Beneath appsPlace (appPlace appId ++ [n]) := by
  rw [appPlace_name h.isName, List.append_assoc]
  exact List.prefix_append _ _

theorem Ready.lookup_name (h : Ready t appId) (n : FileName) :
    lookup t (appPlace appId) [.name n] = .found (appPlace appId ++ [n]) ∨
      lookup t (appPlace appId) [.name n] = .missing (appPlace appId ++ [n]) ∧
        t.node (appPlace appId ++ [n]) = none := by
  have hends : endsInName [Component.name n] = true := rfl
  unfold lookup
  rw [hends, names, names, List.dropLast_concat]
  cases hn : t.node (appPlace appId ++ [n]) with
  | none => exact Or.inr ⟨if_pos ⟨rfl, h.dir⟩, rfl⟩
  | some entry =>
    cases entry with
    | dir => exact Or.inl rfl
    | file data => exact Or.inl rfl
    | link target => exact absurd hn (h.installed.linkless _ (h.beneath n) target)

theorem component_cases (hparent : hasParent filename = false) :
    (∃ n, nameOf filename = some n ∧ component (untilNul filename) = .name n) ∨
      nameOf filename = none ∧ component (untilNul filename) = .here := by
  unfold nameOf
  cases hc : component (untilNul filename) with
  | name n => exact Or.inl ⟨n, rfl, rfl⟩
  | here => exact Or.inr ⟨rfl, rfl⟩
  | parent =>
    have hdots : bytes ".." <+: filename := by
      have hp := untilNul_isPrefix filename
      rwa [component_parent.mp hc] at hp
    have hfind : find (bytes "..") filename = none := by simpa [hasParent] using hparent
    have hnone := find_none_of_infix (by decide) hdots.isInfix hfind
    have hself : find (bytes "..") (bytes "..") = some 0 := by decide
    rw [hself] at hnone
    cases hnone

/-- A write puts one file into the directory, if no directory has its name. -/
theorem Ready.writeFile (h : Ready t appId) (hslash : slash ∉ filename)
    (hparent : hasParent filename = false) (data : Bytes) :
    writeFile t cwd (fileIn appId filename) data = (nameOf filename).bind fun n =>
      if t.node (appPlace appId ++ [n]) = some .dir then none
      else some (t.put (appPlace appId ++ [n]) data) := by
  unfold FileSystem.writeFile
  rw [h.resolve hslash hparent]
  obtain ⟨n, hn, hc⟩ | ⟨hn, hc⟩ := component_cases hparent
  · rw [hn, hc, Option.bind_some]
    obtain hfound | ⟨hmissing, hnone⟩ := h.lookup_name n
    · rw [hfound]
    · rw [hmissing, if_neg (by rw [hnone]; simp)]
  · have hhere : lookup t (appPlace appId) [.here] = .found (appPlace appId) := by
      have hnames : names [(Component.here : Component FileName)] = [] := rfl
      unfold lookup
      rw [hnames, List.append_nil, h.dir]
    rw [hn, hc, hhere, Option.bind_none]
    exact if_pos h.dir

theorem dir_put_iff {p q : Place} {data : Bytes} :
    (t.put p data).node q = some .dir ↔ t.node q = some .dir := by
  obtain hsame | ⟨hp, hput⟩ := put_cases t p data
  · rw [hsame]
  · rw [hput]
    by_cases hq : q = p
    · subst hq
      rw [Function.update_self]
      exact iff_of_false (by simp) hp
    · rw [Function.update_of_ne hq]

theorem Ready.put (h : Ready t appId) (p : Place) (data : Bytes) : Ready (t.put p data) appId :=
  ⟨⟨dir_put h.installed.dir, linkless_put h.installed.linkless⟩, h.isName, dir_put h.dir⟩

theorem Ready.stored_put (h : Ready t appId) (hn : t.node (appPlace appId ++ [n]) ≠ some .dir)
    (data : Bytes) : stored (t.put (appPlace appId ++ [n]) data) =
      Function.update (stored t) (appPlace appId ++ [n]) (some data) := by
  refine FileSystem.stored_put ?_ (by simp) hn
  rw [List.dropLast_concat]
  exact h.dir

theorem fileIn_components (hid : IsName appId) (hslash : slash ∉ filename) :
    pathOf (fileIn appId filename) =
      ⟨true, components appsDir ++ [.name ⟨appId, hid⟩] ++ [component (untilNul filename)]⟩ := by
  have hpath : fileIn appId filename = appsDir ++ slash :: (appId ++ slash :: filename) := by
    rw [fileIn, appDir, List.append_assoc]
    rfl
  rw [hpath, pathOf_under (by decide), apps_absolute, components_append hid.2.2.1,
    components_of_isName hid, components_of_slash_free hslash, List.append_assoc]

theorem Ready.locate (h : Ready t appId) (hslash : slash ∉ filename)
    (hn : component (untilNul filename) = .name n) :
    locate t cwd (pathOf (fileIn appId filename)) = some (appPlace appId ++ [n]) := by
  have hplace : names (components appsDir ++ [.name ⟨appId, h.isName⟩]) = appPlace appId := by
    rw [names_append, appPlace_name h.isName]
    rfl
  have hparent : .parent ∉ components appsDir ++ [.name ⟨appId, h.isName⟩] := by
    rw [List.mem_append, not_or, List.mem_singleton]
    exact ⟨by decide, by simp⟩
  have hdir : PathResolution.resolve t cwd
      ⟨true, components appsDir ++ [.name ⟨appId, h.isName⟩]⟩ = .found (appPlace appId) := by
    rw [← hplace]
    exact walk_through (p := []) hparent (by rw [List.nil_append, hplace]; exact h.dir)
  unfold PathResolution.locate
  rw [fileIn_components h.isName hslash, hn, List.getLast?_concat, List.dropLast_concat]
  simp only [hdir, h.dir, if_true]

/-- A file that is there is taken away, and with it nothing else. -/
theorem stored_remove_file {p : Place} {data : Bytes} (hp : t.node p = some (.file data)) :
    stored (t.remove p) = Function.update (stored t) p none ∧
      ∀ q, (t.remove p).node q = some .dir ↔ t.node q = some .dir := by
  have hne : p ≠ [] := by
    rintro rfl
    rw [t.root] at hp
    cases hp
  have hnone : ∀ q, Beneath p q → q ≠ p → t.node q = none := by
    rintro q ⟨r, rfl⟩ hq
    refine t.none_of_not_dir (by rw [hp]; simp) ?_
    rintro rfl
    exact hq (List.append_nil p)
  constructor
  · funext q
    rw [stored_remove hne]
    by_cases hq : q = p
    · subst hq
      rw [Function.update_self]
      exact if_pos (List.prefix_refl q)
    · rw [Function.update_of_ne hq]
      refine ite_eq_right_iff.mpr fun hb => ?_
      rw [stored, hnone q hb hq]
  · intro q
    by_cases hb : Beneath p q
    · have hq : q ≠ [] := by
        rintro rfl
        exact hne (List.prefix_nil.mp hb)
      have hgone : (t.remove p).node q = none := if_pos ⟨hb, hq⟩
      rw [hgone]
      refine iff_of_false (by simp) ?_
      by_cases hqp : q = p
      · rw [hqp, hp]
        simp
      · rw [hnone q hb hqp]
        simp
    · rw [node_remove_of_not hb]

end Steps

section Stages

variable {t₀ t : FileTree} (cwd : Place) {appId filename : Bytes} {ws : Writes}

instance (t : FileTree) (p : Place) : DecidablePred fun n => t.node (p ++ [n]) = some .dir :=
  fun _ => inferInstance

/-- The files of a directory after some writes, of which the tree at the start tells the
directories. -/
def written (t₀ : FileTree) (appId : Bytes) (ws : Writes) : Place → Option Bytes :=
  ws.foldl (applyWrite (appPlace appId) fun n => t₀.node (appPlace appId ++ [n]) = some .dir)
    (stored t₀)

theorem written_append (ws ws' : Writes) : written t₀ appId (ws ++ ws') =
    ws'.foldl (applyWrite (appPlace appId) fun n => t₀.node (appPlace appId ++ [n]) = some .dir)
      (written t₀ appId ws) :=
  List.foldl_append

/-- A tree on the way from another one, to which some writes have been done. -/
structure Stage (t₀ t : FileTree) (appId : Bytes) (ws : Writes) : Prop where
  ready : Ready t appId
  dirs : ∀ q, t.node q = some .dir ↔ t₀.node q = some .dir
  stored : stored t = written t₀ appId ws

theorem Stage.unnamed (h : Stage t₀ t appId ws) (hf : nameOf filename = none)
    (content : Option Bytes) : Stage t₀ t appId (ws ++ writeNamed filename content) := by
  rw [writeNamed, hf, Option.map_none, Option.toList_none, List.append_nil]
  exact h

theorem Stage.blocked (h : Stage t₀ t appId ws) {n : FileName} (hf : nameOf filename = some n)
    (hd : t.node (appPlace appId ++ [n]) = some .dir) (content : Option Bytes) :
    Stage t₀ t appId (ws ++ writeNamed filename content) := by
  refine ⟨h.ready, h.dirs, ?_⟩
  rw [writeNamed, hf, Option.map_some, Option.toList_some, written_append, h.stored]
  exact (if_pos ((h.dirs _).mp hd)).symm

theorem Stage.put (h : Stage t₀ t appId ws) {n : FileName} (hf : nameOf filename = some n)
    (hd : t.node (appPlace appId ++ [n]) ≠ some .dir) (data : Bytes) :
    Stage t₀ (t.put (appPlace appId ++ [n]) data) appId
      (ws ++ writeNamed filename (some data)) := by
  refine ⟨h.ready.put _ data, fun q => dir_put_iff.trans (h.dirs q), ?_⟩
  rw [writeNamed, hf, Option.map_some, Option.toList_some, written_append, ← h.stored,
    h.ready.stored_put hd]
  exact (if_neg ((h.dirs _).not.mp hd)).symm

/-- Whether or not a file can be opened, what its write should do has been done. -/
theorem Stage.write (h : Stage t₀ t appId ws) (hslash : slash ∉ filename)
    (hparent : hasParent filename = false) (data : Bytes) :
    Stage t₀ ((writeFile t cwd (fileIn appId filename) data).getD t) appId
      (ws ++ writeNamed filename (some data)) := by
  rw [h.ready.writeFile hslash hparent]
  obtain ⟨n, hf, -⟩ | ⟨hf, -⟩ := component_cases hparent
  · rw [hf, Option.bind_some]
    split_ifs with hd
    · exact h.blocked hf hd _
    · exact h.put hf hd data
  · rw [hf, Option.bind_none]
    exact h.unnamed hf _

/-- The file of a failed download is taken away again, whatever it held before. -/
theorem Stage.fail (h : Stage t₀ t appId ws) (hslash : slash ∉ filename)
    (hparent : hasParent filename = false) :
    Stage t₀ (((writeFile t cwd (fileIn appId filename) []).map fun t =>
      removeFile t cwd (fileIn appId filename)).getD t) appId (ws ++ writeNamed filename none) := by
  rw [h.ready.writeFile hslash hparent]
  obtain ⟨n, hf, hc⟩ | ⟨hf, -⟩ := component_cases hparent
  · rw [hf, Option.bind_some]
    split_ifs with hd
    · exact h.blocked hf hd _
    · rw [Option.map_some, Option.getD_some]
      have hready := h.ready.put (appPlace appId ++ [n]) []
      have hnode : (t.put (appPlace appId ++ [n]) []).node (appPlace appId ++ [n]) =
          some (.file []) := by
        rw [← stored_eq_some, h.ready.stored_put hd, Function.update_self]
      have hentry : (t.put (appPlace appId ++ [n]) []).node (appPlace appId ++ [n]) ≠
          some .dir := by
        rw [hnode]
        simp
      obtain ⟨hstored, hdirs⟩ := stored_remove_file hnode
      have hbelow : ¬ Beneath (appPlace appId ++ [n]) (appPlace appId) := by
        intro hb
        have hlen := List.IsPrefix.length_le hb
        rw [List.length_append, List.length_singleton] at hlen
        omega
      have happs : ¬ Beneath (appPlace appId ++ [n]) appsPlace :=
        fun hb => hbelow (hb.trans (List.prefix_append _ _))
      unfold removeFile
      simp only [hready.locate hslash hc, if_neg hentry]
      refine ⟨⟨hready.installed.remove happs, h.ready.isName, ?_⟩, fun q => ?_, ?_⟩
      · exact (node_remove_of_not hbelow).trans hready.dir
      · exact (hdirs q).trans (dir_put_iff.trans (h.dirs q))
      · rw [hstored, h.ready.stored_put hd, Function.update_idem, writeNamed, hf, Option.map_some,
          Option.toList_some, written_append, ← h.stored]
        exact (if_neg ((h.dirs _).not.mp hd)).symm
  · rw [hf, Option.bind_none]
    exact h.unnamed hf _

theorem unsafeName_false (h : unsafeName filename = false) :
    hasParent filename = false ∧ slash ∉ filename := by
  simp only [unsafeName, decide_eq_false_iff_not, not_or, Bool.not_eq_true] at h
  exact ⟨h.1, h.2.1⟩

theorem Stage.fetchAsset (download : Download) (asset : Asset) {x : FileTree × List Json}
    (h : Stage t₀ x.1 appId ws) :
    Stage t₀ (fetchAsset cwd appId download asset x).1 appId
      (ws ++ assetWrites download asset) := by
  have hskip : Stage t₀ x.1 appId (ws ++ []) := by rwa [List.append_nil]
  unfold WebAppGeneration.fetchAsset assetWrites
  by_cases hempty : asset.url = [] ∨ asset.filename = []
  · rw [if_pos hempty, if_pos (or_assoc.mp (Or.inl hempty))]
    exact hskip
  rw [if_neg hempty]
  by_cases hunsafe : unsafeName asset.filename = true
  · rw [if_pos hunsafe, if_pos (Or.inr (Or.inr hunsafe))]
    exact hskip
  rw [if_neg hunsafe, if_neg fun ho => (or_assoc.mpr ho).elim hempty hunsafe]
  obtain ⟨hparent, hslash⟩ := unsafeName_false (Bool.not_eq_true _ ▸ hunsafe)
  cases download with
  | noHandle => exact hskip
  | done data =>
    have hwrite := h.write cwd hslash hparent data
    cases hw : writeFile x.1 cwd (fileIn appId asset.filename) data with
    | none => simpa only [hw, Option.getD_none] using hwrite
    | some t => simpa only [hw, Option.getD_some] using hwrite
  | failed text =>
    have hfail := h.fail cwd hslash hparent
    cases hw : writeFile x.1 cwd (fileIn appId asset.filename) [] with
    | none => simpa only [hw, Option.map_none, Option.getD_none] using hfail
    | some t => simpa only [hw, Option.map_some, Option.getD_some] using hfail

theorem Stage.fetchAssets (fetch : ℕ → Bytes → Download) (i : ℕ) (js : List Json)
    {x : FileTree × List Json} (h : Stage t₀ x.1 appId ws) :
    Stage t₀ (fetchAssets fetch cwd appId i js x).1 appId (ws ++ assetsWrites fetch i js) := by
  induction js generalizing i x ws with
  | nil =>
    rw [assetsWrites, List.append_nil]
    exact h
  | cons j js ih =>
    rw [WebAppGeneration.fetchAssets, assetsWrites]
    cases readAsset j with
    | error e =>
      rw [List.append_nil]
      exact h
    | ok asset =>
      rw [← List.append_assoc]
      exact ih (i + 1) (h.fetchAsset cwd (fetch i asset.url) asset)

theorem Stage.writeOptional (h : Stage t₀ t appId ws) (hslash : slash ∉ filename)
    (hparent : hasParent filename = false) (content : Bytes) :
    Stage t₀ (writeOptional t cwd (fileIn appId filename) content) appId
      (ws ++ if content = [] then [] else writeNamed filename (some content)) := by
  unfold WebAppGeneration.writeOptional
  split_ifs with hempty
  · rwa [List.append_nil]
  · exact h.write cwd hslash hparent content

end Stages

section Outcomes

variable {t : FileTree} {cwd : Place} {fetch : ℕ → Bytes → Download} {launched : Bool}
  {now : Seconds} {reason : Bytes} {args : Json} {a : AppArgs}

def manifestWrite (a : AppArgs) (now : Seconds) (entries : List Json) (args : Json) : Writes :=
  writeNamed (bytes "manifest.json")
    (some ((dumpIndent 2 (manifestOf a now entries args)).toOption.getD []))

/-- All that is done to the files of an app that is created. -/
def appWrites (fetch : ℕ → Bytes → Download) (a : AppArgs) (now : Seconds) (entries : List Json)
    (args : Json) : Writes :=
  pageWrites a ++ assetsWrites fetch 0 (listed args (bytes "assets")) ++
    manifestWrite a now entries args

/-- A record of the manifest about one asset: texts under keys. -/
def IsEntry (e : Json) : Prop :=
  ∃ m : List (Bytes × Bytes), (m.map Prod.fst).all Utf8.valid = true ∧
    e = .object (m.map fun x => (x.1, .str x.2))

/-- What is known of an app that is said to be created: its page and its manifest have been written,
as far as no directories have their names. -/
structure Created (t : FileTree) (a : AppArgs) (now : Seconds) (entries : List Json) (args : Json) :
    Prop where
  page : t.node (appPlace a.appId ++ [indexName]) ≠ some .dir
  records : ∀ e ∈ entries, IsEntry e
  manifest : t.node (appPlace a.appId ++ [manifestName]) ≠ some .dir →
    ∃ text, dumpIndent 2 (manifestOf a now entries args) = .ok text

variable (cwd fetch)

theorem isEntry_fetchAsset (appId : Bytes) (download : Download) (asset : Asset)
    {x : FileTree × List Json} (h : ∀ e ∈ x.2, IsEntry e) :
    ∀ e ∈ (fetchAsset cwd appId download asset x).2, IsEntry e := by
  have hadd : ∀ e, IsEntry e → ∀ e' ∈ x.2 ++ [e], IsEntry e' := by
    intro e he e' hm
    rcases List.mem_append.mp hm with hm | hm
    · exact h e' hm
    · exact List.mem_singleton.mp hm ▸ he
  unfold fetchAsset
  split_ifs
  · exact h
  · exact h
  · cases download with
    | noHandle => exact h
    | done data =>
      dsimp only
      split
      · exact h
      · exact hadd _ ⟨[(bytes "filename", asset.filename), (bytes "status", bytes "ok")],
          by rfl, rfl⟩
    | failed text =>
      dsimp only
      split
      · exact h
      · exact hadd _ ⟨[(bytes "filename", asset.filename), (bytes "status", bytes "failed"),
          (bytes "error", text)], by rfl, rfl⟩

theorem isEntry_fetchAssets (appId : Bytes) (i : ℕ) (js : List Json)
    {x : FileTree × List Json} (h : ∀ e ∈ x.2, IsEntry e) {entries : List Json}
    (hok : (fetchAssets fetch cwd appId i js x).2 = .ok entries) : ∀ e ∈ entries, IsEntry e := by
  induction js generalizing i x with
  | nil => exact Except.ok.inj hok ▸ h
  | cons j js ih =>
    rw [fetchAssets] at hok
    cases ha : readAsset j with
    | error e =>
      rw [ha] at hok
      cases hok
    | ok asset =>
      rw [ha] at hok
      exact ih (i + 1) (isEntry_fetchAsset cwd appId (fetch i asset.url) asset h) hok

variable (launched now args)

theorem finish_stage {t₀ : FileTree} {ws : Writes} (entries : List Json)
    (h : Stage t₀ t a.appId ws) : Stage t₀ (finish launched now cwd a args entries t).1 a.appId
      (ws ++ manifestWrite a now entries args) := by
  have hwrite := h.write cwd (by decide : slash ∉ bytes "manifest.json") (by decide)
    ((dumpIndent 2 (manifestOf a now entries args)).toOption.getD [])
  unfold finish manifestWrite
  cases hw : writeFile t cwd (fileIn a.appId (bytes "manifest.json"))
      ((dumpIndent 2 (manifestOf a now entries args)).toOption.getD []) with
  | none => simpa only [hw, Option.getD_none] using hwrite
  | some t' => simpa only [hw, Option.getD_some] using hwrite

/-- The manifest was dumped, if it could be opened. -/
theorem finish_created {entries : List Json} {text : Bytes} (h : Ready t a.appId)
    (hcreated : (finish launched now cwd a args entries t).2 = .ok (.created text))
    (hdir : t.node (appPlace a.appId ++ [manifestName]) ≠ some .dir) :
    ∃ text, dumpIndent 2 (manifestOf a now entries args) = .ok text := by
  have hname : nameOf (bytes "manifest.json") = some manifestName := by decide
  unfold finish at hcreated
  dsimp only at hcreated
  rw [h.writeFile (by decide) (by decide), hname, Option.bind_some, if_neg hdir] at hcreated
  cases hdump : dumpIndent 2 (manifestOf a now entries args) with
  | ok text => exact ⟨text, rfl⟩
  | error e =>
    rw [hdump] at hcreated
    cases hcreated

/-- However a generation ends, some writes have been done; and all of them when the app is said to
be created. -/
theorem writeApp_stage (h : Ready t a.appId) :
    ∃ ws, Stage t (writeApp fetch launched now cwd a args t).1 a.appId ws ∧
      ∀ text, (writeApp fetch launched now cwd a args t).2 = .ok (.created text) →
        ∃ entries, ws = appWrites fetch a now entries args ∧ Created t a now entries args := by
  have hstart : Stage t t a.appId [] := ⟨h, fun _ => Iff.rfl, rfl⟩
  have hindex := hstart.write cwd (by decide : slash ∉ bytes "index.html") (by decide) a.html
  rw [List.nil_append] at hindex
  unfold writeApp
  cases hw : writeFile t cwd (fileIn a.appId (bytes "index.html")) a.html with
  | none => exact ⟨[], hstart, fun text he => by cases he⟩
  | some t₁ =>
    have hpage : t.node (appPlace a.appId ++ [indexName]) ≠ some .dir := by
      intro hdir
      have hname : nameOf (bytes "index.html") = some indexName := by decide
      rw [h.writeFile (by decide) (by decide), hname, Option.bind_some, if_pos hdir] at hw
      cases hw
    rw [hw, Option.getD_some] at hindex
    have hcss := hindex.writeOptional cwd (by decide : slash ∉ bytes "style.css") (by decide) a.css
    have hjs := hcss.writeOptional cwd (by decide : slash ∉ bytes "app.js") (by decide) a.js
    dsimp only
    generalize writeOptional (writeOptional t₁ cwd (fileIn a.appId (bytes "style.css")) a.css) cwd
      (fileIn a.appId (bytes "app.js")) a.js = t₂ at hjs ⊢
    have hassets := Stage.fetchAssets cwd fetch 0 (listed args (bytes "assets"))
      (x := (t₂, [])) hjs
    cases hf : fetchAssets fetch cwd a.appId 0 (listed args (bytes "assets")) (t₂, []) with
    | mk t₃ r =>
      rw [hf] at hassets
      cases r with
      | error e => exact ⟨_, hassets, fun text he => by cases he⟩
      | ok entries =>
        have hentries := isEntry_fetchAssets cwd fetch a.appId 0 (listed args (bytes "assets"))
          (x := (t₂, [])) (fun e he => absurd he List.not_mem_nil) (by rw [hf])
        refine ⟨_, finish_stage cwd launched now args entries hassets, ?_⟩
        intro text he
        refine ⟨entries, rfl, hpage, hentries, ?_⟩
        intro hdir
        exact finish_created cwd launched now args hassets.ready he ((hassets.dirs _).not.mpr hdir)

end Outcomes

section Directory

variable {t : FileTree} {cwd : Place} {appId : Bytes}

/-- All that an app's directory takes to be there is to make it itself. -/
theorem createDirectories_app (h : Installed t) (hid : IsName appId) :
    createDirectories t cwd (appDir appId) = t.makeDir (appPlace appId) := by
  have hpath : pathOf (appDir appId) = ⟨true, components appsDir ++ [.name ⟨appId, hid⟩]⟩ := by
    rw [appDir, pathOf_under (by decide), apps_absolute, components_of_isName hid]
  have hcomponents : components (appDir appId) = components appsDir ++ [.name ⟨appId, hid⟩] :=
    congrArg Path.components hpath
  have happs : resolve t cwd ⟨true, components appsDir⟩ = .found appsPlace :=
    walk_through (p := []) (by decide) h.dir
  rw [createDirectories, hpath, hcomponents]
  rw [@createFrom_through t cwd [] _ _ (by decide) (by rw [List.nil_append]; exact h.dir),
    List.nil_append, createFrom, createFrom, makeAt, locate, List.getLast?_concat,
    List.dropLast_concat]
  simp only [happs, h.dir, if_true]
  rw [appPlace_name hid]

theorem isName_of_checkArgs {a : AppArgs} (h : checkArgs a = none) :
    IsName a.appId ∧ 0x2E ∉ a.appId := by
  unfold checkArgs at h
  split_ifs at h with hlen hword hhtml
  rw [Bool.not_eq_false, List.all_eq_true] at hword
  have hfree : ∀ b : UInt8, decide (isAlnum b ∨ b = 0x5F) = false → b ∉ a.appId := by
    intro b hb hm
    rw [hword b hm] at hb
    cases hb
  have hdot : 0x2E ∉ a.appId := hfree _ (by decide)
  have hdots : ∀ s : Bytes, 0x2E ∈ s → a.appId ≠ s := by
    rintro s hs rfl
    exact hdot hs
  exact ⟨⟨fun he => hlen (Or.inl he), hfree _ (by decide), hfree 0 (by decide),
    hdots _ (by decide), hdots _ (by decide)⟩, hdot⟩

theorem hasParent_dotless {s : Bytes} (h : 0x2E ∉ s) : hasParent s = false := by
  have hfind : find (bytes "..") s = none := find_none h
  rw [hasParent, hfind]
  rfl

theorem badName_dotless (hid : IsName appId) (hdot : 0x2E ∉ appId) : badName appId = false := by
  simp [badName, hid.1, hasParent_dotless hdot, hid.2.1]

theorem node_makeDir_file (t : FileTree) (p : Place) (n : FileName) :
    (t.makeDir p).node (p ++ [n]) = t.node (p ++ [n]) :=
  node_makeDir_of_ne (by simp)

theorem Created.of_makeDir {a : AppArgs} {now : Seconds} {entries : List Json} {args : Json}
    (h : Created (t.makeDir (appPlace a.appId)) a now entries args) :
    Created t a now entries args := by
  constructor
  · rw [← node_makeDir_file]
    exact h.page
  · exact h.records
  · rw [← node_makeDir_file]
    exact h.manifest

/-- A generation stops before it writes anything, or goes through its writes in the directory of the
app. -/
theorem generate_cases (fetch : ℕ → Bytes → Download) (launched : Bool) (now : Seconds)
    (reason : Bytes) (cwd : Place) (args : Json) (h : Installed t) :
    (Grown t (generateWebApp fetch launched now reason cwd args t).1 ∧
        ∀ text, (generateWebApp fetch launched now reason cwd args t).2 ≠ .ok (.created text)) ∨
      ∃ a ws, readArgs args = .ok a ∧ 0x2E ∉ a.appId ∧
        Stage (t.makeDir (appPlace a.appId))
          (generateWebApp fetch launched now reason cwd args t).1 a.appId ws ∧
        ∀ text, (generateWebApp fetch launched now reason cwd args t).2 = .ok (.created text) →
          ∃ entries, ws = appWrites fetch a now entries args ∧ Created t a now entries args := by
  unfold generateWebApp
  cases hargs : readArgs args with
  | error e => exact Or.inl ⟨Grown.refl t, fun text he => by cases he⟩
  | ok a =>
    cases hcheck : checkArgs a with
    | some refusal =>
      simp only [hcheck]
      exact Or.inl ⟨Grown.refl t, fun text he => by cases he⟩
    | none =>
      obtain ⟨hid, hdot⟩ := isName_of_checkArgs hcheck
      have hgrown := grown_makeDir t (appPlace a.appId)
      simp only [hcheck, createDirectories_app h hid]
      split_ifs with hdir
      · exact Or.inl ⟨hgrown, fun text he => by cases he⟩
      · have happ := (isDirectory_iff cwd (h.grown hgrown) (badName_dotless hid hdot)).mp
          (Bool.not_eq_false _ ▸ hdir)
        obtain ⟨ws, hstage, hcreated⟩ := writeApp_stage cwd fetch launched now args
          ⟨h.grown hgrown, hid, happ⟩
        refine Or.inr ⟨a, ws, rfl, hdot, hstage, fun text he => ?_⟩
        obtain ⟨entries, hws, hc⟩ := hcreated text he
        exact ⟨entries, hws, hc.of_makeDir⟩

end Directory

end WebAppGeneration
