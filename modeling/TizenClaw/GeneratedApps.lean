import TizenClaw.WebAppGeneration
import TizenClaw.WebBridge

/-! Generated apps: the files that a generation leaves, and what the dashboard and the bridge then
make of them. -/
namespace WebAppGeneration

open ByteString ByteLines JsonValue JsonDump JsonParse JsonRoundTrip JsonStorable PathResolution
  PosixPath FileSystem WebFiles WebApps SkillRoundTrip

section Written

variable {t₀ : FileTree} {appId : Bytes} {ws : Writes} {n : FileName}

theorem lastWrite_concat (ws : Writes) (w : FileName × Option Bytes) :
    lastWrite n (ws ++ [w]) = if w.1 = n then some w.2 else lastWrite n ws := by
  unfold lastWrite
  rw [List.reverse_append, List.reverse_singleton, List.singleton_append, List.find?_cons]
  by_cases h : w.1 = n
  · simp [h]
  · simp [h]

theorem lastWrite_append (ws ws' : Writes) :
    lastWrite n (ws ++ ws') = (lastWrite n ws').or (lastWrite n ws) := by
  unfold lastWrite
  rw [List.reverse_append, List.find?_append]
  cases ws'.reverse.find? fun w => w.1 = n with
  | none => rfl
  | some w => rfl

/-- The last write to a name decides what is there. -/
theorem written_apply (hn : t₀.node (appPlace appId ++ [n]) ≠ some .dir) :
    written t₀ appId ws (appPlace appId ++ [n]) =
      (lastWrite n ws).getD (stored t₀ (appPlace appId ++ [n])) := by
  induction ws using List.reverseRecOn with
  | nil => rfl
  | append_singleton ws w ih =>
    rw [written_append, lastWrite_concat, List.foldl_cons, List.foldl_nil, applyWrite]
    by_cases hw : w.1 = n
    · subst hw
      rw [if_neg hn, if_pos rfl, Function.update_self, Option.getD_some]
    · rw [if_neg hw, ← ih]
      split_ifs
      · rfl
      · refine Function.update_of_ne (fun he => hw ?_) _ _
        exact (List.singleton_inj.mp (List.append_cancel_left he)).symm

/-- Nothing is written anywhere else. -/
theorem written_other {q : Place} (hq : ∀ n, q ≠ appPlace appId ++ [n]) :
    written t₀ appId ws q = stored t₀ q := by
  induction ws using List.reverseRecOn with
  | nil => rfl
  | append_singleton ws w ih =>
    rw [written_append, List.foldl_cons, List.foldl_nil, applyWrite]
    split_ifs
    · exact ih
    · rw [Function.update_of_ne (hq w.1), ih]

end Written

section Files

variable {t : FileTree} {cwd : Place} {fetch : ℕ → Bytes → Download} {launched : Bool}
  {now : Seconds} {reason appId : Bytes} {args : Json} {a : AppArgs}

/-- A generation with one asset on a tree with the directory of the apps. -/
def sampleArgs : Json := .object
  [(bytes "app_id", .str (bytes "notes")), (bytes "html", .str (bytes "<p>")),
    (bytes "assets", .arr [.object
      [(bytes "url", .str (bytes "u")), (bytes "filename", .str (bytes "a.png"))]]),
    (bytes "allowed_tools", .arr [.str (bytes "clock")])]

def sampleApp : AppArgs :=
  { appId := bytes "notes", title := [], html := bytes "<p>", css := [], js := [] }

def sampleFetch (_ : ℕ) (_ : Bytes) : Download := .done (bytes "png")

def sampleNow : Seconds := ⟨0, by decide⟩

def sampleTree : FileTree := Tree.along appsPlace

def isCreated : Except JsonException Reply → Bool
  | .ok (.created _) => true
  | _ => false

def sampleResult : FileTree × Except JsonException Reply :=
  generateWebApp sampleFetch true sampleNow [] [] sampleArgs sampleTree

theorem sample_installed : Installed sampleTree := installed_along (List.prefix_refl appsPlace)

theorem sample_args : readArgs sampleArgs = .ok sampleApp := by decide +kernel

theorem sample_created : ∃ text, sampleResult.2 = .ok (.created text) := by
  have hcreated : isCreated sampleResult.2 = true := by decide +kernel
  revert hcreated
  cases sampleResult.2 with
  | error e =>
    intro h
    cases h
  | ok reply =>
    cases reply with
    | created text => exact fun _ => ⟨text, rfl⟩
    | _ =>
      intro h
      cases h

theorem generate_installed (h : Installed t) :
    Installed (generateWebApp fetch launched now reason cwd args t).1 := by
  obtain ⟨hgrown, -⟩ | ⟨a, ws, -, -, hstage, -⟩ :=
    generate_cases fetch launched now reason cwd args h
  · exact h.grown hgrown
  · exact hstage.ready.installed

theorem created_stage (h : Installed t) (ha : readArgs args = .ok a) {text : Bytes}
    (hcreated : (generateWebApp fetch launched now reason cwd args t).2 = .ok (.created text)) :
    0x2E ∉ a.appId ∧ ∃ entries, Created t a now entries args ∧
      Stage (t.makeDir (appPlace a.appId))
        (generateWebApp fetch launched now reason cwd args t).1 a.appId
        (appWrites fetch a now entries args) := by
  obtain ⟨-, hno⟩ | ⟨a', ws, ha', hdot, hstage, hws⟩ :=
    generate_cases fetch launched now reason cwd args h
  · exact absurd hcreated (hno text)
  · obtain rfl := Except.ok.inj (ha.symm.trans ha')
    obtain ⟨entries, rfl, hc⟩ := hws text hcreated
    exact ⟨hdot, entries, hc, hstage⟩

/-- What a file of the directory is opened as. -/
theorem Ready.openRead (cwd : Place) (h : Ready t appId) {filename : Bytes} {n : FileName}
    (hslash : slash ∉ filename) (hparent : hasParent filename = false)
    (hc : component (untilNul filename) = .name n)
    (hn : t.node (appPlace appId ++ [n]) ≠ some .dir) :
    openRead t cwd (fileIn appId filename) =
      ((stored t (appPlace appId ++ [n])).map Opened.file).getD .closed := by
  unfold FileSystem.openRead
  rw [h.resolve hslash hparent, hc]
  obtain hfound | ⟨hmissing, hnone⟩ := h.lookup_name n
  · rw [hfound, opened, stored]
    cases hnode : t.node (appPlace appId ++ [n]) with
    | none => rfl
    | some entry =>
      cases entry with
      | dir => exact absurd hnode hn
      | file data => rfl
      | link target => rfl
  · rw [hmissing, stored, hnone]
    rfl

theorem lastWrite_named_ne {filename : Bytes} {m n : FileName} (hf : nameOf filename = some m)
    (hne : m ≠ n) (content : Option Bytes) : lastWrite n (writeNamed filename content) = none := by
  rw [writeNamed, hf, lastWrite]
  simp [hne]

theorem lastWrite_named {filename : Bytes} {n : FileName} (hf : nameOf filename = some n)
    (content : Option Bytes) : lastWrite n (writeNamed filename content) = some content := by
  rw [writeNamed, hf, lastWrite]
  simp

theorem lastWrite_index (entries : List Json) : lastWrite indexName
    (appWrites fetch a now entries args) =
      some ((lastWrite indexName (assetsWrites fetch 0 (listed args (bytes "assets")))).getD
        (some a.html)) := by
  have hindex : nameOf (bytes "index.html") = some indexName := by decide
  have hmanifest : nameOf (bytes "manifest.json") = some manifestName := by decide
  have hstyle : nameOf (bytes "style.css") = some ⟨bytes "style.css", by decide⟩ := by decide
  have hscript : nameOf (bytes "app.js") = some ⟨bytes "app.js", by decide⟩ := by decide
  have hcss : lastWrite indexName
      (if a.css = [] then [] else writeNamed (bytes "style.css") (some a.css)) = none := by
    split_ifs
    · rfl
    · exact lastWrite_named_ne hstyle (by decide) _
  have hjs : lastWrite indexName
      (if a.js = [] then [] else writeNamed (bytes "app.js") (some a.js)) = none := by
    split_ifs
    · rfl
    · exact lastWrite_named_ne hscript (by decide) _
  rw [appWrites, manifestWrite, pageWrites, lastWrite_append, lastWrite_append, lastWrite_append,
    lastWrite_append, lastWrite_named_ne hmanifest (by decide), lastWrite_named hindex, hcss, hjs]
  cases lastWrite indexName (assetsWrites fetch 0 (listed args (bytes "assets"))) with
  | none => rfl
  | some content => rfl

/-- The page under which an app is shown. -/
def pagePath (appId : Bytes) : Bytes := bytes "/apps/" ++ (appId ++ [slash])

theorem rtakeWhile_dot (u : Bytes) {v : Bytes} (hv : 0x2E ∉ v) :
    (u ++ 0x2E :: v).rtakeWhile (· ≠ 0x2E) = v := by
  have hall : ∀ b ∈ v.reverse, decide (b ≠ 0x2E) = true := by
    intro b hb
    rw [decide_eq_true_iff]
    rintro rfl
    exact hv (List.mem_reverse.mp hb)
  rw [List.rtakeWhile, List.reverse_append, List.reverse_cons, List.append_assoc,
    List.takeWhile_append_of_pos hall, List.singleton_append,
    List.takeWhile_cons_of_neg (by simp), List.append_nil, List.reverse_reverse]

theorem serve_page (hdot : 0x2E ∉ appId) :
    (serveAppFile (pagePath appId)).file = .ok (fileIn appId (bytes "index.html")) ∧
      ∀ content, (serveAppFile (pagePath appId)).reply (.file content) =
        .ok { status := 200, contentType := bytes "text/html", body := content } := by
  have hdrop : (pagePath appId).drop 6 = appId ++ [slash] := List.drop_left' (by decide)
  have hparent : hasParent (appId ++ [slash]) = false := by
    apply hasParent_dotless
    rw [List.mem_append, not_or]
    exact ⟨hdot, by decide⟩
  have hpath : appFilePath (appId ++ [slash]) = fileIn appId (bytes "index.html") := by
    have hlast : (appId ++ [slash]).getLast? = some slash := List.getLast?_concat
    rw [appFilePath, if_pos (Or.inr hlast), fileIn, appDir]
    simp
  constructor
  · unfold serveAppFile
    rw [hdrop, hparent, hpath]
    rfl
  · intro content
    have hext : extension (fileIn appId (bytes "index.html")) = some (bytes ".html") := by
      have hsplit : fileIn appId (bytes "index.html") =
          (appDir appId ++ slash :: bytes "index") ++ 0x2E :: bytes "html" := by
        rw [fileIn, List.append_assoc]
        rfl
      rw [extension, hsplit, if_pos (by simp), rtakeWhile_dot _ (by decide)]
      rfl
    have hmime : appMimeTypes.lookup (bytes ".html") = none := by decide
    unfold serveAppFile
    rw [hdrop, hpath, hext, Option.bind_some, hmime, Option.getD_none]

end Files

section Tools

variable {readFloat : Bytes → Option NumberText} {t : FileTree} {cwd : Place}
  {fetch : ℕ → Bytes → Download} {launched : Bool} {now : Seconds} {reason appId : Bytes}
  {args : Json} {a : AppArgs} {entries : List Json}

/-- The tools that a generation lists for its app. -/
def toolNames (args : Json) : List Bytes :=
  (listed args (bytes "allowed_tools")).filterMap fun
    | .str name => some name
    | _ => none

/-- The files as the bridge finds them, by what comes behind the data directory. -/
def filesOf (t : FileTree) (cwd : Place) (path : Bytes) : Option Bytes :=
  match openRead t cwd (appDataDir ++ path) with
  | .file data => some data
  | _ => none

theorem member_manifest (key : Bytes) : (manifestOf a now entries args).member? key =
    ([(bytes "app_id", .str a.appId), (bytes "title", .str a.title),
      (bytes "created_at", .int now.1), (bytes "has_css", .bool (a.css ≠ [])),
      (bytes "has_js", .bool (a.js ≠ [])), (bytes "assets", .arr entries)] ++
    match args.member? (bytes "allowed_tools") with
    | some (.arr l) => [(bytes "allowed_tools", Json.arr l)]
    | _ => []).lookup key := by
  have hkeys : [bytes "app_id", bytes "title", bytes "created_at", bytes "has_css",
      bytes "has_js", bytes "assets", bytes "allowed_tools"].Nodup := by decide
  refine member_object ?_ key
  split
  · exact hkeys
  · exact hkeys.sublist (List.sublist_append_left _ [bytes "allowed_tools"])

theorem storable_texts {m : List (Bytes × Bytes)} (hm : (m.map Prod.fst).all Utf8.valid = true)
    (hu : (Json.object (m.map fun x => (x.1, .str x.2))).utf8 = true) :
    Storable readFloat (Json.object (m.map fun x => (x.1, .str x.2))) := by
  rw [Json.object, Json.utf8] at hu
  rw [Json.object, Storable, storableMembers_iff]
  refine ⟨keysSorted_ofMembers _, fun e he => ?_⟩
  have hv := utf8_of_mem hu e he
  obtain ⟨x, hx, rfl⟩ := List.mem_map.mp (JsonScan.mem_ofMembers he)
  rw [Json.utf8] at hv
  exact ⟨List.all_eq_true.mp hm x.1 (List.mem_map_of_mem hx), hv⟩

/-- What has been dumped can be read back. -/
theorem storable_manifest (hs : Storable readFloat args) (ha : readArgs args = .ok a)
    (hrecords : ∀ e ∈ entries, IsEntry e)
    (hu : (manifestOf a now entries args).utf8 = true) :
    Storable readFloat (manifestOf a now entries args) := by
  obtain ⟨appId, happ, ha⟩ := bind_eq_ok.mp ha
  obtain ⟨title, htitle, ha⟩ := bind_eq_ok.mp ha
  obtain ⟨html, -, ha⟩ := bind_eq_ok.mp ha
  obtain ⟨css, -, ha⟩ := bind_eq_ok.mp ha
  obtain ⟨js, -, ha⟩ := bind_eq_ok.mp ha
  obtain rfl := Except.ok.inj ha
  have hentries : Storable readFloat (.arr entries) := by
    have hassets : (manifestOf ⟨appId, title, html, css, js⟩ now entries args).member?
        (bytes "assets") = some (.arr entries) := by
      rw [member_manifest]
      rfl
    have hlist := IpcRequest.member_utf8 hu hassets
    rw [Json.utf8, utf8List_iff] at hlist
    rw [Storable, storableList_iff]
    intro e he
    obtain ⟨m, hm, rfl⟩ := hrecords e he
    exact storable_texts hm (hlist _ he)
  have hkeys : ∀ k ∈ [bytes "app_id", bytes "title", bytes "created_at", bytes "has_css",
      bytes "has_js", bytes "assets", bytes "allowed_tools"], Utf8.valid k = true := by decide
  refine storable_object (storableMembers_iff.mpr fun e he => ?_)
  rcases List.mem_append.mp he with he | he
  · simp only [List.mem_cons, List.not_mem_nil, or_false] at he
    rcases he with rfl | rfl | rfl | rfl | rfl | rfl
    · exact ⟨hkeys _ (by simp), IpcRequest.valueString_utf8 hs.utf8 rfl happ⟩
    · exact ⟨hkeys _ (by simp), IpcRequest.valueString_utf8 hs.utf8 rfl htitle⟩
    · exact ⟨hkeys _ (by simp), now.2⟩
    · exact ⟨hkeys _ (by simp), trivial⟩
    · exact ⟨hkeys _ (by simp), trivial⟩
    · exact ⟨hkeys _ (by simp), hentries⟩
  · split at he
    next l hl =>
      obtain rfl := List.mem_singleton.mp he
      exact ⟨hkeys _ (by simp), Storable.member hs hl⟩
    · cases he

/-- The tools that the bridge reads from a manifest are those of the generation. -/
theorem names_manifest : (match (manifestOf a now entries args).member? (bytes "allowed_tools") with
    | some (.arr l) => l.filterMap fun
      | .str name => some name
      | _ => none
    | _ => []) = toolNames args := by
  rw [member_manifest, toolNames, listed]
  cases args.member? (bytes "allowed_tools") with
  | none => rfl
  | some v =>
    cases v with
    | arr l => rfl
    | _ => rfl

theorem Ready.openRead_dir (h : Ready t appId) {filename : Bytes} {n : FileName}
    (hslash : slash ∉ filename) (hparent : hasParent filename = false)
    (hc : component (untilNul filename) = .name n)
    (hn : t.node (appPlace appId ++ [n]) = some .dir) :
    FileSystem.openRead t cwd (fileIn appId filename) = .directory := by
  unfold FileSystem.openRead
  rw [h.resolve hslash hparent, hc]
  obtain hfound | ⟨-, hnone⟩ := h.lookup_name n
  · rw [hfound, opened]
    simp only [hn]
  · rw [hn] at hnone
    cases hnone

end Tools

section Runs

/-- A generation, with what it finds in the world. -/
structure Generation where
  args : Json
  fetch : ℕ → Bytes → Download
  launched : Bool
  now : Seconds
  reason : Bytes

inductive AppStep where
  | request (r : AppRequest)
  | generate (g : Generation)

variable (readFloat : Bytes → Option NumberText) (dumpError : Json → Bytes) (cwd : Place)

def perform (t : FileTree) : AppStep → FileTree
  | .request r => (serve readFloat dumpError cwd t r).1
  | .generate g => (generateWebApp g.fetch g.launched g.now g.reason cwd g.args t).1

def performAll (t : FileTree) (steps : List AppStep) : FileTree :=
  steps.foldl (perform readFloat dumpError cwd) t

/-- A step that deletes the place of some data. -/
def Deletes (p : Place) : AppStep → Prop
  | .request (.delete other) => Targets readFloat p (.delete other)
  | _ => False

/-- A step that may replace some data by a post. -/
def Posts (p : Place) : AppStep → Prop
  | .request (.postData payload) => Targets readFloat p (.postData payload)
  | _ => False

variable {readFloat dumpError cwd} {t : FileTree} {appId key : CText} {content : Bytes}

/-- Data of an app lie deeper than the files of any. -/
theorem dataPlace_ne_file (hc : checkParameters appId.1 key.1 = none)
    (hid : names (components appId.1) ≠ []) {a : AppArgs} (ha : IsName a.appId) (n : FileName) :
    dataPlace appId.1 key.1 ≠ appPlace a.appId ++ [n] := by
  intro he
  have hlen := congrArg List.length he
  have hpos := List.length_pos_of_ne_nil hid
  rw [dataPlace_eq hc, appPlace_name ha, appPlace] at hlen
  simp only [List.length_append, List.length_cons, List.length_nil] at hlen
  omega

variable (dumpError cwd)

theorem perform_installed (h : Installed t) (step : AppStep) :
    Installed (perform readFloat dumpError cwd t step) := by
  cases step with
  | request r => exact (serve_step readFloat dumpError cwd h r).1
  | generate g => exact generate_installed h

/-- A generation does not touch the data, whatever becomes of it. -/
theorem perform_keeps (h : Installed t) (hc : checkParameters appId.1 key.1 = none)
    (hid : names (components appId.1) ≠ []) {step : AppStep}
    (hposts : ¬ Posts readFloat (dataPlace appId.1 key.1) step)
    (hdeletes : ¬ Deletes readFloat (dataPlace appId.1 key.1) step) :
    stored (perform readFloat dumpError cwd t step) (dataPlace appId.1 key.1) =
      stored t (dataPlace appId.1 key.1) := by
  cases step with
  | request r =>
    refine serve_keeps dumpError cwd h fun hr => ?_
    cases r with
    | getData a k => exact hr
    | postData payload => exact hposts hr
    | delete other => exact hdeletes hr
  | generate g =>
    obtain ⟨hgrown, -⟩ | ⟨a, ws, -, -, hstage, -⟩ :=
      generate_cases g.fetch g.launched g.now g.reason cwd g.args h
    · exact congrFun hgrown.stored _
    · rw [perform, hstage.stored,
        written_other fun n => dataPlace_ne_file hc hid hstage.ready.isName n,
        (grown_makeDir t _).stored]

theorem perform_deletes (h : Installed t) (hc : checkParameters appId.1 key.1 = none)
    {step : AppStep} (hdeletes : Deletes readFloat (dataPlace appId.1 key.1) step) :
    stored (perform readFloat dumpError cwd t step) (dataPlace appId.1 key.1) = none := by
  cases step with
  | generate g => exact hdeletes.elim
  | request r =>
    cases r with
    | getData a k => exact hdeletes.elim
    | postData payload => exact hdeletes.elim
    | delete other =>
      cases hs : stored t (dataPlace appId.1 key.1) with
      | none =>
        refine @serveAll_none readFloat dumpError cwd _ t h [.delete other] hs fun payload hm => ?_
        cases List.mem_singleton.mp hm
      | some content =>
        have hrem := removes_of_stored hdeletes.1 hdeletes.2
          (appPlace_ne_dataPlace hc hdeletes.1) hs
        obtain ⟨-, -, he⟩ := apiAppDelete_removes dumpError cwd h other.2 hrem
        rw [perform, serve, served, he]
        exact if_pos hdeletes.2

variable {dumpError cwd}

end Runs

end WebAppGeneration
