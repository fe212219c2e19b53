import TizenClaw.IpcRequest
import TizenClaw.JsonStorable
import TizenClaw.WebApps
import TizenClaw.WebFilesConfinement

/-! The apps' data as a store: what the requests do to the files by their places, and what the apps
read back. -/
namespace WebApps

open ByteString ByteLines JsonValue JsonDump JsonParse JsonRoundTrip JsonStorable PathResolution
  PosixPath FileSystem WebFiles

section Places

def appsPlace : Place := names (components appsDir)

/-- The directory of the apps is there, and no links are in it. -/
structure Installed (t : FileTree) : Prop where
  dir : t.node appsPlace = some .dir
  linkless : Linkless t appsPlace

def dataRel (appId key : Bytes) : Bytes :=
  appId ++ slash :: (bytes "data" ++ slash :: (key ++ bytes ".json"))

def dataPlace (appId key : Bytes) : Place := appsPlace ++ names (components (dataRel appId key))

def appPlace (appId : Bytes) : Place := appsPlace ++ names (components appId)

variable {t : FileTree} {cwd p : Place} {appId key : Bytes}

theorem dataPath_eq (appId key : Bytes) :
    dataPath appId key = appsDir ++ slash :: dataRel appId key := by
  have hdata : bytes "/data" = slash :: bytes "data" := rfl
  simp [dataPath, dataDir, dataRel, hdata]

theorem apps_absolute : (pathOf (appsDir ++ [slash])).absolute = true := by decide

theorem apps_components : components (appsDir ++ [slash]) = components appsDir ++ [.here] :=
  components_append (by decide) []

theorem Installed.leadsTo (h : Installed t) (cwd : Place) : LeadsTo t cwd appsDir appsPlace := by
  have hnames : names (components (appsDir ++ [slash])) = appsPlace := by decide
  have hp : .parent ∉ components (appsDir ++ [slash]) := by decide
  have hwalk := walk_through (t := t) (k := maxLinks) (p := []) hp
    (by rw [List.nil_append, hnames]; exact h.dir)
  rw [List.nil_append, hnames] at hwalk
  unfold LeadsTo resolve
  rw [apps_absolute, if_pos rfl]
  exact hwalk

theorem parent_not_mem_dataRel (h : checkParameters appId key = none) :
    .parent ∉ components (dataRel appId key) := by
  unfold checkParameters at h
  split_ifs at h with he hb
  simp only [badParameters, Bool.not_eq_true, decide_eq_false_iff_not, not_or] at hb
  obtain ⟨happ, hkey, hslash⟩ := hb
  apply parent_not_mem_append (parent_not_mem_of_hasParent (Bool.not_eq_true _ ▸ happ))
  apply parent_not_mem_append (by decide)
  exact parent_not_mem_ext (by decide) (by decide) hslash
    (parent_not_mem_of_hasParent (Bool.not_eq_true _ ▸ hkey))

theorem Installed.resolve_data (h : Installed t) (hc : checkParameters appId key = none) :
    resolve t cwd (pathOf (dataPath appId key)) =
      lookup t appsPlace (components (dataRel appId key)) := by
  rw [dataPath_eq]
  exact resolve_plain (by decide) (Or.inl apps_absolute) (h.leadsTo cwd) h.linkless
    (parent_not_mem_dataRel hc)

end Places

section Writes

variable (dumpError : Json → Bytes) (cwd : Place) {t : FileTree} {w : DataWrite}

theorem answerJson_ok {j : Json} (h : j.utf8 = true) :
    ∃ body, dump j = .ok body ∧ answerJson dumpError j = .ok (jsonBody body) := by
  obtain ⟨body, hb⟩ := (succeeds_dump j).mpr h
  exact ⟨body, hb, by rw [answerJson, hb]⟩

theorem Installed.grown {t' : FileTree} (h : Installed t) (hg : Grown t t') : Installed t' :=
  ⟨hg.dir h.dir, hg.linkless h.linkless⟩

theorem data_absolute (appId key : Bytes) : (pathOf (dataPath appId key)).absolute = true := by
  rw [dataPath_eq, pathOf_under (by decide)]
  exact apps_absolute

/-- A write answered with 200 replaces one file, and any other leaves all files as they are. -/
theorem writeData_spec (h : Installed t) (hc : checkParameters w.appId w.key = none)
    (hv : w.val.utf8 = true) (hk : Utf8.valid w.key = true) :
    Installed (writeData dumpError t cwd w).1 ∧
      stored (writeData dumpError t cwd w).1 =
        if (handled (writeData dumpError t cwd w).2).status = 200 then
          Function.update (stored t) (dataPlace w.appId w.key) (dump w.val).toOption
        else stored t := by
  have hg := grown_createDirectories t cwd (dataDir w.appId)
  have hi := h.grown hg
  obtain ⟨text, htext⟩ := (succeeds_dump w.val).mpr hv
  have hreply : (Json.object [(bytes "status", .str (bytes "ok")), (bytes "key", .str w.key)]).utf8 =
      true := by
    have hkey : bytes "key" < bytes "status" := by decide
    have hne : bytes "key" ≠ bytes "status" := by decide
    have hs : Utf8.valid (bytes "status") = true := by decide
    have hn : Utf8.valid (bytes "key") = true := by decide
    have hok : Utf8.valid (bytes "ok") = true := by decide
    simp [Json.object, ofMembers, insertMember, hkey, hne, Json.utf8, utf8Members, hs, hn, hok, hk]
  obtain ⟨body, -, hbody⟩ := answerJson_ok dumpError hreply
  unfold writeData
  rw [htext]
  cases hw : writeFile (createDirectories t cwd (dataDir w.appId)) cwd
      (dataPath w.appId w.key) text with
  | none =>
    simp only [Except.toOption, Option.getD_some, hw]
    exact ⟨hi, hg.stored⟩
  | some t' =>
    obtain ⟨p, hp, rfl, hs⟩ := writeFile_spec (Or.inl (data_absolute _ _)) hw
    rw [hi.resolve_data hc] at hp
    obtain rfl := lookup_place hp
    simp only [Except.toOption, Option.getD_some, hw, hbody]
    refine ⟨⟨dir_put hi.dir, linkless_put hi.linkless⟩, ?_⟩
    rw [hs, hg.stored]
    rfl

end Writes

section Removal

variable (dumpError : Json → Bytes) (cwd : Place) {t : FileTree} {appId : Bytes}

theorem appPath_resolve (h : Installed t) (hb : badName appId = false) :
    resolve t cwd (pathOf (appsDir ++ slash :: appId)) =
      lookup t appsPlace (components appId) :=
  resolve_plain (by decide) (Or.inl apps_absolute) (h.leadsTo cwd) h.linkless
    (parent_not_mem_of_badName hb).2

theorem appId_isName (h0 : 0 ∉ appId) (hb : badName appId = false) (hdot : appId ≠ bytes ".") :
    IsName appId := by
  obtain ⟨hp, hs⟩ := badName_false hb
  refine ⟨?_, hs, h0, hdot, ?_⟩
  · rintro rfl
    simp [badName] at hb
  · rintro rfl
    exact absurd hp (by decide)

theorem appPlace_name (h : IsName appId) : appPlace appId = appsPlace ++ [⟨appId, h⟩] := by
  rw [appPlace, components_of_isName h]
  rfl

/-- The entry of an app is its own, but for a dot. -/
theorem appPath_locate (h : Installed t) (h0 : 0 ∉ appId) (hb : badName appId = false) :
    locate t cwd (pathOf (appsDir ++ slash :: appId)) =
      if appId = bytes "." then none else some (appPlace appId) := by
  have hpath : pathOf (appsDir ++ slash :: appId) =
      ⟨true, components appsDir ++ components appId⟩ := by
    rw [pathOf_under (by decide), apps_absolute]
  have happs : resolve t cwd ⟨true, components appsDir⟩ = .found appsPlace :=
    walk_through (p := []) (by decide) h.dir
  unfold locate
  rw [hpath]
  split_ifs with hdot
  · subst hdot
    rfl
  · have hname := appId_isName h0 hb hdot
    rw [components_of_isName hname, List.getLast?_concat, List.dropLast_concat]
    simp only [happs, h.dir, if_true]
    rw [appPlace_name hname]

/-- The removal is carried out: the request passes the checks, and there is a directory. -/
def Removes (t : FileTree) (appId : Bytes) : Prop :=
  badName appId = false ∧ t.node (appPlace appId) = some .dir

theorem isDirectory_iff (h : Installed t) (hb : badName appId = false) :
    isDirectory t cwd (appsDir ++ slash :: appId) = true ↔ t.node (appPlace appId) = some .dir := by
  rw [isDirectory, decide_eq_true_iff, openRead, appPath_resolve cwd h hb]
  unfold lookup opened
  constructor
  · intro ho
    split at ho
    next p hp =>
      split at hp
      next hd => exact hd
      next data hd =>
        split_ifs at hp
        obtain rfl := Outcome.found.inj hp
        rw [hd] at ho
        cases ho
      · split_ifs at hp
    · cases ho
  · intro hd
    rw [appPlace] at hd
    simp only [hd]

theorem Installed.remove {p : Place} (h : Installed t) (hp : ¬ Beneath p appsPlace) :
    Installed (t.remove p) :=
  ⟨(node_remove_of_not hp).trans h.dir, linkless_remove h.linkless⟩

theorem Installed.clear (h : Installed t) : Installed (t.clear appsPlace) :=
  ⟨by simp [Tree.clear, h.dir], linkless_clear h.linkless⟩

theorem appPlace_dot : appPlace (bytes ".") = appsPlace := by
  have hnames : names (components (bytes ".")) = [] := by decide
  rw [appPlace, hnames, List.append_nil]

/-- A directory that passes the checks goes with all that lies in it, whatever the answer says. -/
theorem apiAppDelete_removes (h : Installed t) (h0 : 0 ∉ appId) (hr : Removes t appId) :
    Installed (apiAppDelete dumpError t cwd appId).1 ∧
      (handled (apiAppDelete dumpError t cwd appId).2).status ∈ [200, 500] ∧
      stored (apiAppDelete dumpError t cwd appId).1 =
        fun q => if Beneath (appPlace appId) q then none else stored t q := by
  obtain ⟨hb, hd⟩ := hr
  have hdir := (isDirectory_iff cwd h hb).mpr hd
  unfold apiAppDelete
  rw [if_neg (by simp [hb]), if_neg (by simp [hdir]), removeAll, appPath_locate cwd h h0 hb]
  by_cases hdot : appId = bytes "."
  · subst hdot
    have hres : resolve t cwd (pathOf (appsDir ++ slash :: bytes ".")) = .found appsPlace := by
      have hc : components (bytes ".") = [.here] := by decide
      rw [appPath_resolve cwd h hb, hc, lookup]
      simp [names, h.dir]
    rw [if_pos rfl, hres, appPlace_dot]
    exact ⟨h.clear, by simp [handled, answer], stored_clear h.dir⟩
  · rw [if_neg hdot, appPlace_name (appId_isName h0 hb hdot)]
    have hnot : ¬ Beneath (appsPlace ++ [⟨appId, appId_isName h0 hb hdot⟩]) appsPlace := by
      intro hp
      have hlen := List.IsPrefix.length_le hp
      rw [List.length_append, List.length_singleton] at hlen
      omega
    refine ⟨h.remove hnot, ?_, stored_remove (by simp)⟩
    rw [List.mem_cons, List.mem_singleton]
    exact handled_answerJson _

theorem apiAppDelete_refuses (h : Installed t) (hr : ¬ Removes t appId) :
    (apiAppDelete dumpError t cwd appId).1 = t ∧
      (handled (apiAppDelete dumpError t cwd appId).2).status ∈ [400, 404] := by
  unfold apiAppDelete
  by_cases hb : badName appId = true
  · rw [if_pos hb]
    exact ⟨rfl, List.mem_cons_self⟩
  · rw [Bool.not_eq_true] at hb
    have hdir : isDirectory t cwd (appsDir ++ slash :: appId) = false := by
      rw [← Bool.not_eq_true, isDirectory_iff cwd h hb]
      exact fun hd => hr ⟨hb, hd⟩
    rw [if_neg (by simp [hb]), if_pos hdir]
    exact ⟨rfl, List.mem_cons_of_mem _ (List.mem_singleton.mpr rfl)⟩

end Removal

section Store

variable {readFloat : Bytes → Option NumberText} {dumpError : Json → Bytes} {cwd : Place}
  {t : FileTree}

/-- What a request does to the store of files, given the status of its answer. -/
def effect (readFloat : Bytes → Option NumberText) (σ : Place → Option Bytes) (r : AppRequest)
    (status : ℕ) : Place → Option Bytes :=
  match r with
  | .getData _ _ => σ
  | .postData payload => match readWrite readFloat payload with
    | .ok w =>
      if status = 200 then Function.update σ (dataPlace w.appId w.key) (dump w.val).toOption else σ
    | .error _ => σ
  | .delete appId =>
    if status ∈ [400, 404] then σ else fun q => if Beneath (appPlace appId.1) q then none else σ q

theorem readWrite_utf8 {payload : Bytes} {w : DataWrite}
    (h : readWrite readFloat payload = .ok w) : w.val.utf8 = true ∧ Utf8.valid w.key = true := by
  obtain ⟨j, hj, h⟩ := bind_eq_ok.mp h
  obtain ⟨appId, -, h⟩ := bind_eq_ok.mp h
  obtain ⟨key, hkey, h⟩ := bind_eq_ok.mp h
  obtain rfl := Except.ok.inj h
  have hu := (JsonParseUtf8.parse_utf8 hj).2
  exact ⟨IpcRequest.getD_utf8 hu rfl, IpcRequest.valueString_utf8 hu rfl hkey⟩

theorem checkParameters_status {appId key : Bytes} {r : Response}
    (h : checkParameters appId key = some r) : r.status = 400 := by
  unfold checkParameters at h
  split_ifs at h
  · exact Option.some.inj h ▸ rfl
  · exact Option.some.inj h ▸ rfl

variable (readFloat dumpError cwd)

/-- A post is refused before anything is touched, or gets as far as the write. -/
theorem postData_cases (payload : Bytes) :
    (∃ r : Response, postData readFloat dumpError t cwd payload = (t, .ok r) ∧ r.status = 400) ∨
    ∃ w, readWrite readFloat payload = .ok w ∧ checkParameters w.appId w.key = none ∧
      postData readFloat dumpError t cwd payload = writeData dumpError t cwd w := by
  unfold postData
  split_ifs
  · exact Or.inl ⟨_, rfl, rfl⟩
  · cases readWrite readFloat payload with
    | error e => exact Or.inl ⟨_, rfl, rfl⟩
    | ok w =>
      cases hc : checkParameters w.appId w.key with
      | some r =>
        simp only [hc]
        exact Or.inl ⟨r, rfl, checkParameters_status hc⟩
      | none =>
        simp only [hc]
        exact Or.inr ⟨w, rfl, hc, rfl⟩

theorem effect_post_refused {payload : Bytes} {status : ℕ} (hs : status ≠ 200)
    (σ : Place → Option Bytes) : effect readFloat σ (.postData payload) status = σ := by
  rw [effect]
  split
  · rw [if_neg hs]
  · rfl

theorem serve_step (h : Installed t) (r : AppRequest) :
    Installed (serve readFloat dumpError cwd t r).1 ∧
      stored (serve readFloat dumpError cwd t r).1 =
        effect readFloat (stored t) r (serve readFloat dumpError cwd t r).2.status := by
  cases r with
  | getData appId key => exact ⟨h, rfl⟩
  | postData payload =>
    rw [serve, served]
    rcases postData_cases readFloat dumpError cwd (t := t) payload with ⟨r, he, hr⟩ | ⟨w, hw, hc, he⟩
    · rw [he]
      exact ⟨h, (effect_post_refused readFloat (by simp [handled, hr]) _).symm⟩
    · obtain ⟨hv, hk⟩ := readWrite_utf8 hw
      obtain ⟨hi, hs⟩ := writeData_spec dumpError cwd h hc hv hk
      rw [he, hs]
      refine ⟨hi, ?_⟩
      simp only [effect, hw]
  | delete appId =>
    rw [serve, served]
    by_cases hr : Removes t appId.1
    · obtain ⟨hi, hs, he⟩ := apiAppDelete_removes dumpError cwd h appId.2 hr
      have hno : (handled (apiAppDelete dumpError t cwd appId.1).2).status ∉ [400, 404] := by
        simp only [List.mem_cons, List.not_mem_nil, or_false] at hs ⊢
        omega
      simp only [effect, if_neg hno]
      exact ⟨hi, he⟩
    · obtain ⟨he, hs⟩ := apiAppDelete_refuses dumpError cwd h hr
      simp only [effect, if_pos hs]
      rw [he]
      exact ⟨h, rfl⟩

/-- Over any run of requests the files are those of the store that the answers tell of. -/
theorem serveAll_refines (h : Installed t) (rs : List AppRequest) :
    Installed (serveAll readFloat dumpError cwd t rs).1 ∧
      stored (serveAll readFloat dumpError cwd t rs).1 =
        (rs.zip ((serveAll readFloat dumpError cwd t rs).2.map Response.status)).foldl
          (fun σ x => effect readFloat σ x.1 x.2) (stored t) := by
  induction rs generalizing t with
  | nil => exact ⟨h, rfl⟩
  | cons r rs ih =>
    obtain ⟨hi, hs⟩ := serve_step readFloat dumpError cwd h r
    obtain ⟨hi', hs'⟩ := ih hi
    simp only [serveAll, List.map_cons, List.zip_cons_cons, List.foldl_cons]
    rw [← hs]
    exact ⟨hi', hs'⟩

theorem installed_along {p : Place} (h : appsPlace <+: p) : Installed (Tree.along p) :=
  ⟨if_pos h, linkless_along p _⟩

/-- A run on a tree with an app and some data. -/
theorem serveAll_refines_notes :
    stored (serveAll (fun _ => none) (fun _ => []) [] (Tree.along appsPlace)
        [.postData (bytes "\x7b\"app_id\":\"notes\",\"key\":\"k\",\"value\":[1]\x7d")]).1
        (dataPlace (bytes "notes") (bytes "k")) = some (bytes "[1]") := by
  rw [(serveAll_refines (fun _ => none) (fun _ => []) []
    (installed_along (List.prefix_refl appsPlace)) _).2]
  decide +kernel

end Store

section Reading

variable {readFloat : Bytes → Option NumberText} (dumpError : Json → Bytes) (cwd : Place)
  {p : Place} {t : FileTree} {content : Bytes}

/-- The file at a place is replaced or removed by the request, if that is carried out. -/
def Targets (readFloat : Bytes → Option NumberText) (p : Place) : AppRequest → Prop
  | .getData _ _ => False
  | .postData payload =>
    ∃ w, readWrite readFloat payload = .ok w ∧ dataPlace w.appId w.key = p
  | .delete appId => badName appId.1 = false ∧ Beneath (appPlace appId.1) p

/-- Requests for other apps and keys leave a file as it is. -/
theorem serve_keeps (h : Installed t) {r : AppRequest} (hr : ¬ Targets readFloat p r) :
    stored (serve readFloat dumpError cwd t r).1 p = stored t p := by
  cases r with
  | getData appId key => rfl
  | postData payload =>
    obtain ⟨-, hs⟩ := serve_step readFloat dumpError cwd h
      (.postData payload)
    rw [hs]
    by_cases h200 : (serve readFloat dumpError cwd t (.postData payload)).2.status = 200
    · cases hw : readWrite readFloat payload with
      | error e => simp only [effect, hw]
      | ok w =>
        simp only [effect, hw, if_pos h200]
        exact Function.update_of_ne (fun he => hr ⟨w, hw, he.symm⟩) _ _
    · rw [effect_post_refused readFloat h200]
  | delete appId =>
    rw [serve, served]
    by_cases hrem : Removes t appId.1
    · obtain ⟨-, -, he⟩ := apiAppDelete_removes dumpError cwd h appId.2 hrem
      rw [he]
      exact if_neg fun hb => hr ⟨hrem.1, hb⟩
    · rw [(apiAppDelete_refuses dumpError cwd h hrem).1]

theorem serveAll_keeps (h : Installed t) {rs : List AppRequest}
    (hr : ∀ r ∈ rs, ¬ Targets readFloat p r) :
    stored (serveAll readFloat dumpError cwd t rs).1 p = stored t p := by
  induction rs generalizing t with
  | nil => rfl
  | cons r rs ih =>
    obtain ⟨hi, -⟩ := serve_step readFloat dumpError cwd h r
    rw [serveAll]
    rw [ih hi fun x hx => hr x (List.mem_cons_of_mem r hx)]
    exact serve_keeps dumpError cwd h (hr r List.mem_cons_self)

/-- Only a post brings a file. -/
theorem serveAll_none (h : Installed t) {rs : List AppRequest} (hs : stored t p = none)
    (hposts : ∀ payload, .postData payload ∈ rs → ¬ Targets readFloat p (.postData payload)) :
    stored (serveAll readFloat dumpError cwd t rs).1 p = none := by
  induction rs generalizing t with
  | nil => exact hs
  | cons r rs ih =>
    obtain ⟨hi, hstep⟩ := serve_step readFloat dumpError cwd h r
    rw [serveAll]
    refine ih hi ?_ fun payload hm => hposts payload (List.mem_cons_of_mem r hm)
    cases r with
    | getData appId key => exact hs
    | postData payload =>
      exact (serve_keeps dumpError cwd h (hposts payload List.mem_cons_self)).trans hs
    | delete appId =>
      rw [hstep]
      simp only [effect]
      split_ifs
      · exact hs
      · exact (ite_eq_left_iff.mpr fun _ => hs)

/-- A place of data lies inside an app that is there as long as the data is. -/
theorem removes_of_stored {appId : Bytes} (hb : badName appId = false)
    (hbeneath : Beneath (appPlace appId) p) (hne : appPlace appId ≠ p)
    (hs : stored t p = some content) : Removes t appId := by
  obtain ⟨q, rfl⟩ := hbeneath
  have hq : q ≠ [] := by
    rintro rfl
    exact hne (List.append_nil _).symm
  exact ⟨hb, t.dir_of_prefix (by rw [stored_eq_some.mp hs]; rfl) hq⟩

variable {appId key : CText}

theorem key_isName (hc : checkParameters appId.1 key.1 = none) : IsName (key.1 ++ bytes ".json") := by
  unfold checkParameters at hc
  split_ifs at hc with he hb
  simp only [badParameters, decide_eq_true_eq, not_or] at hb
  have hlen : ∀ s : Bytes, s.length ≤ 2 → key.1 ++ bytes ".json" ≠ s := by
    rintro s hs rfl
    have hjson : (bytes ".json").length = 5 := by decide
    rw [List.length_append, hjson] at hs
    omega
  refine ⟨hlen [] (by decide), ?_, ?_, hlen _ (by decide), hlen _ (by decide)⟩
  · rw [List.mem_append]
    exact not_or.mpr ⟨hb.2.2, by decide⟩
  · rw [List.mem_append]
    exact not_or.mpr ⟨key.2, by decide⟩

theorem dataRel_components (hc : checkParameters appId.1 key.1 = none) :
    components (dataRel appId.1 key.1) = components appId.1 ++
      [.name ⟨bytes "data", by decide⟩, .name ⟨key.1 ++ bytes ".json", key_isName hc⟩] := by
  have hdata : components (bytes "data") = [.name ⟨bytes "data", by decide⟩] := by decide
  rw [dataRel, components_append appId.2, components_append (by decide), hdata,
    components_of_isName (key_isName hc)]
  rfl

theorem dataPlace_eq (hc : checkParameters appId.1 key.1 = none) :
    dataPlace appId.1 key.1 = appPlace appId.1 ++
      [⟨bytes "data", by decide⟩, ⟨key.1 ++ bytes ".json", key_isName hc⟩] := by
  rw [dataPlace, dataRel_components hc, names_append, ← List.append_assoc]
  rfl

/-- No app's own directory is a place of data. -/
theorem appPlace_ne_dataPlace (hc : checkParameters appId.1 key.1 = none) {other : CText}
    (hb : badName other.1 = false) : appPlace other.1 ≠ dataPlace appId.1 key.1 := by
  intro he
  have hlen := congrArg List.length he
  rw [dataPlace_eq hc, appPlace, appPlace, components_of_slash_free (badName_false hb).2] at hlen
  have hone : (names [component (untilNul other.1)]).length ≤ 1 := by
    cases component (untilNul other.1) <;> simp [names]
  simp only [List.length_append, List.length_cons, List.length_nil] at hlen
  omega

/-- Data that no post replaces is there after a run exactly if no removal that the run asks for is
of an app around it. -/
theorem data_survives_iff (h : Installed t) {rs : List AppRequest}
    (hc : checkParameters appId.1 key.1 = none)
    (hs : stored t (dataPlace appId.1 key.1) = some content)
    (hposts : ∀ payload, .postData payload ∈ rs →
      ¬ Targets readFloat (dataPlace appId.1 key.1) (.postData payload)) :
    stored (serveAll readFloat dumpError cwd t rs).1 (dataPlace appId.1 key.1) = some content ↔
      ∀ other, .delete other ∈ rs →
        ¬ Targets readFloat (dataPlace appId.1 key.1) (.delete other) := by
  induction rs generalizing t with
  | nil => simp [serveAll, hs]
  | cons r rs ih =>
    obtain ⟨hi, -⟩ := serve_step readFloat dumpError cwd h r
    have hposts' : ∀ payload, .postData payload ∈ rs →
        ¬ Targets readFloat (dataPlace appId.1 key.1) (.postData payload) :=
      fun payload hm => hposts payload (List.mem_cons_of_mem r hm)
    rw [serveAll]
    by_cases hr : Targets readFloat (dataPlace appId.1 key.1) r
    · cases r with
      | getData a k => exact hr.elim
      | postData payload => exact absurd hr (hposts payload List.mem_cons_self)
      | delete other =>
        have hrem := removes_of_stored hr.1 hr.2 (appPlace_ne_dataPlace hc hr.1) hs
        obtain ⟨-, -, he⟩ :=
          apiAppDelete_removes dumpError cwd h other.2 hrem
        have hgone : stored (serve readFloat dumpError cwd t (.delete other)).1
            (dataPlace appId.1 key.1) = none := by
          rw [serve, served, he]
          exact if_pos hr.2
        rw [serveAll_none dumpError cwd hi hgone hposts']
        exact iff_of_false nofun fun hall => hall other List.mem_cons_self hr
    · have hkeep := (serve_keeps dumpError cwd h hr).trans hs
      rw [ih hi hkeep hposts']
      constructor
      · intro hall other hm
        rcases List.mem_cons.mp hm with rfl | hm
        · exact hr
        · exact hall other hm
      · exact fun hall other hm => hall other (List.mem_cons_of_mem r hm)

theorem data_survives_notes :
    stored (serveAll (fun _ => none) (fun _ => []) []
        ((Tree.along (dataPlace (bytes "notes") (bytes "k")).dropLast).put
          (dataPlace (bytes "notes") (bytes "k")) (bytes "1"))
        [.delete ⟨bytes "note", by decide⟩]).1 (dataPlace (bytes "notes") (bytes "k")) =
      some (bytes "1") := by
  have hi : Installed (Tree.along (dataPlace (bytes "notes") (bytes "k")).dropLast) :=
    installed_along (by decide +kernel)
  let appId : CText := ⟨bytes "notes", by decide⟩
  let key : CText := ⟨bytes "k", by decide⟩
  refine (@data_survives_iff (fun _ => none) (fun _ => []) [] _ _ appId key
    ⟨dir_put hi.dir, linkless_put hi.linkless⟩ _ rfl (by decide +kernel) ?_).mpr ?_
  · simp
  · intro other hm
    obtain rfl := AppRequest.delete.inj (List.mem_singleton.mp hm)
    rintro ⟨-, hb⟩
    revert hb
    decide +kernel

/-- What a key holds is answered with. -/
theorem getData_stored (h : Installed t) (hc : checkParameters appId.1 key.1 = none)
    (hs : stored t (dataPlace appId.1 key.1) = some content) {v : Json}
    (hv : parse readFloat content = .ok v) :
    getData readFloat dumpError t cwd appId.1 key.1 =
      answerJson dumpError (.object [(bytes "key", .str key.1), (bytes "value", v)]) := by
  have hends : endsInName (components (dataRel appId.1 key.1)) = true := by
    rw [dataRel_components hc]
    exact endsInName_append _ rfl
  have hnode := stored_eq_some.mp hs
  have hopen : openRead t cwd (dataPath appId.1 key.1) = .file content := by
    rw [openRead, h.resolve_data hc, lookup]
    rw [dataPlace] at hnode
    simp only [hnode, hends, if_true, opened]
  simp only [getData, hc, hopen, hv]

theorem parse_dump {v : Json} (hv : Storable readFloat v) {text : Bytes} (h : dump v = .ok text) :
    parse readFloat text = .ok v := by
  rw [dump, dumpWith_utf8 compact hv.utf8] at h
  obtain rfl := Except.ok.inj h
  simpa using parse_render whiteLayout_compact hv 0 white_nil white_nil

theorem readWrite_storable (hf : ReadsBack readFloat) {payload : Bytes} {w : DataWrite}
    (h : readWrite readFloat payload = .ok w) : Storable readFloat w.val := by
  obtain ⟨j, hj, h⟩ := bind_eq_ok.mp h
  obtain ⟨appId, -, h⟩ := bind_eq_ok.mp h
  obtain ⟨key, -, h⟩ := bind_eq_ok.mp h
  obtain rfl := Except.ok.inj h
  cases hm : j.member? (bytes "value") with
  | none => exact trivial
  | some v => exact Storable.member (storable_parse hf hj) hm

/-- The value that a post has stored is what the key is answered with, whatever requests for other
places come in between. -/
theorem get_after_post (hf : ReadsBack readFloat) (h : Installed t) {payload : Bytes}
    {w : DataWrite} (hw : readWrite readFloat payload = .ok w)
    (hpost : (serve readFloat dumpError cwd t (.postData payload)).2.status = 200)
    {rs : List AppRequest} (hrs : ∀ r ∈ rs, ¬ Targets readFloat (dataPlace w.appId w.key) r)
    (hc : checkParameters appId.1 key.1 = none) (hkey : Utf8.valid key.1 = true)
    (hplace : dataPlace appId.1 key.1 = dataPlace w.appId w.key) :
    ∃ body, dump (.object [(bytes "key", .str key.1), (bytes "value", w.val)]) = .ok body ∧
      getData readFloat dumpError (serveAll readFloat dumpError cwd t (.postData payload :: rs)).1
        cwd appId.1 key.1 = .ok (jsonBody body) := by
  have hv := readWrite_storable hf hw
  obtain ⟨hi, hs⟩ := serve_step readFloat dumpError cwd h
    (.postData payload)
  obtain ⟨text, htext⟩ := (succeeds_dump w.val).mpr hv.utf8
  have hstored : stored (serve readFloat dumpError cwd t (.postData payload)).1
      (dataPlace w.appId w.key) = some text := by
    rw [hs]
    simp only [effect, hw, if_pos hpost, Function.update_self, htext, Except.toOption]
  have hafter := (serveAll_keeps dumpError cwd hi hrs).trans hstored
  have hrun := (serveAll_refines readFloat dumpError cwd h
    (.postData payload :: rs)).1
  rw [serveAll] at hrun ⊢
  rw [← hplace] at hafter
  rw [getData_stored dumpError cwd hrun hc hafter (parse_dump hv htext)]
  have hanswer : (Json.object [(bytes "key", .str key.1), (bytes "value", w.val)]).utf8 = true := by
    have hlt : ¬ bytes "value" < bytes "key" := by decide
    have hne : bytes "value" ≠ bytes "key" := by decide
    have hk : Utf8.valid (bytes "key") = true := by decide
    have hn : Utf8.valid (bytes "value") = true := by decide
    simp [Json.object, ofMembers, insertMember, hlt, hne, Json.utf8, utf8Members, hk, hn, hkey, hv.utf8]
  obtain ⟨body, hbody, he⟩ := answerJson_ok dumpError hanswer
  exact ⟨body, hbody, he⟩

theorem get_after_post_notes :
    ∃ body, dump (.object [(bytes "key", .str (bytes "k")), (bytes "value", .arr [.int 1])]) = .ok body ∧
      getData (fun _ => none) (fun _ => [])
        (serveAll (fun _ => none) (fun _ => []) [] (Tree.along appsPlace)
          [.postData (bytes "\x7b\"app_id\":\"notes\",\"key\":\"k\",\"value\":[1]\x7d"),
            .delete ⟨bytes "note", by decide⟩]).1
        [] (bytes "notes") (bytes "k") = .ok (jsonBody body) := by
  have hw : readWrite (fun _ => none)
      (bytes "\x7b\"app_id\":\"notes\",\"key\":\"k\",\"value\":[1]\x7d") =
        .ok ⟨bytes "notes", bytes "k", .arr [.int 1]⟩ := by decide +kernel
  let appId : CText := ⟨bytes "notes", by decide⟩
  let key : CText := ⟨bytes "k", by decide⟩
  refine @get_after_post (fun _ => none) (fun _ => []) [] _ appId key
    (fun _ _ h => by cases h) (installed_along (List.prefix_refl appsPlace)) _ _ hw
    (by decide +kernel) _ ?_ rfl (by decide) rfl
  intro r hr
  obtain rfl := List.mem_singleton.mp hr
  rintro ⟨-, hb⟩
  revert hb
  decide +kernel

end Reading

end WebApps
