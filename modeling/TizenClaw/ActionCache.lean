import TizenClaw.ActionSchema

/-! The directory of action schemas: a synchronisation writes a file for every action that the
framework reports and removes the files of all others, and the cache is what the files give back. -/
namespace ActionCache

open ByteString JsonValue JsonDump JsonRoundTrip JsonStorable JsonFailure ActionSchema
open OrderedMap (Map)

section Model

/-- The regular files of the directory, by their names. -/
abbrev Directory := Map Bytes Bytes

abbrev slash : UInt8 := 0x2F

def fileName (name : Bytes) : Bytes := name ++ bytes ".md"

/-- Which file of the directory is opened for a name, if any is: a path without further slashes
leads to the file of that name, another may lead anywhere. An open file is written as a whole. -/
structure FileSystem where
  entry : Bytes → Option Bytes
  own : ∀ name e, slash ∉ name → 0 ∉ name → entry name = some e → e = fileName name
  plain : ∀ name e, entry name = some e → slash ∉ e

/-- An action with its name and schema, both C strings. -/
structure Action where
  name : Bytes
  schema : Bytes
  name_ends : 0 ∉ name
  schema_ends : 0 ∉ schema
  deriving DecidableEq

variable (fs : FileSystem) (readFloat : Bytes → Option NumberText)

/-- The schema that is collected; a text that is no JSON is wrapped. -/
def Action.collected (a : Action) : Json :=
  match parseText readFloat a.schema with
  | .ok j => j
  | .error _ => .object [(bytes "name", .str a.name), (bytes "raw", .str a.schema)]

/-- A file that cannot be opened is left out without an exception. -/
def writeActionMd (d : Directory) (name : Bytes) (schema : Json) :
    Except SyncException Directory :=
  (actionMd name schema).map fun text =>
    match fs.entry name with
    | some e => d.insert e text
    | none => d

/-- The first loop of `DoSync`, with the exception that ends it early. -/
def writeActions : Directory → List (Bytes × Json) → Directory × Option SyncException
  | d, [] => (d, none)
  | d, x :: rest => match writeActionMd fs d x.1 x.2 with
    | .ok d' => writeActions d' rest
    | .error e => (d, some e)

/-- The stem of a path with the extension `.md`; a name that starts with its only dot has none. -/
def mdStem (e : Bytes) : Option Bytes :=
  if (bytes ".md").isSuffixOf e ∧ 3 < e.length then some (e.take (e.length - 3)) else none

/-- The second loop of `DoSync`. -/
def removeStale (names : List Bytes) (d : Directory) : Directory where
  entries := d.entries.filter fun e => (mdStem e.1).all fun stem => names.contains stem
  nodup := d.nodup.sublist (List.filter_sublist.map Prod.fst)

/-- An exception of the first loop leaves `DoSync`; else the number of actions is sent back. -/
def doSync (d : Directory) (actions : List Action) : Directory × Except SyncException ℕ :=
  let data := actions.map fun a => (a.name, a.collected readFloat)
  match writeActions fs d data with
  | (d', some e) => (d', .error e)
  | (d', none) => (removeStale (actions.map Action.name) d', .ok actions.length)

def loadCachedActions (d : Directory) : List Json :=
  d.entries.filterMap fun e => (mdStem e.1).bind fun _ => loadContent readFloat e.2

end Model

section Specification

variable (fs : FileSystem) (readFloat : Bytes → Option NumberText)

/-- Whatever the directory held, the schemas that are loaded behind a synchronisation are the
well-formed ones of the reported actions. -/
def Synchronised (actions : List Action) : Prop :=
  ∀ d : Directory, (loadCachedActions readFloat (doSync fs readFloat d actions).1).Perm
    ((actions.map fun a => a.collected readFloat).filter fun schema => WellTyped schema)

/-- A text that is shown opens a fence before the schema. -/
def Action.opensFence (a : Action) : Bool :=
  match readShown (a.collected readFloat) with
  | .ok shown => decide (¬ FenceFree a.name shown)
  | .error _ => false

/-- What is loaded from such a file. -/
def Action.early (a : Action) : Option Json :=
  match readShown (a.collected readFloat) with
  | .ok shown => earlyReading readFloat a.name shown
  | .error _ => none

/-- Schemas with texts where texts are shown, under distinct names that are names of files, and none
of whose texts opens a fence; but where a NUL byte follows a fence, what stands between them may be
the schema again. -/
structure Cacheable (actions : List Action) : Prop where
  typed : ∀ a ∈ actions, WellTyped (a.collected readFloat)
  distinct : (actions.map Action.name).Nodup
  named : ∀ a ∈ actions, a.name ≠ [] ∧ slash ∉ a.name ∧ (fs.entry a.name).isSome
  fences : ((actions.filter fun a => a.opensFence readFloat).filterMap
    fun a => a.early readFloat).Perm ((actions.filter fun a => a.opensFence readFloat).map
      fun a => a.collected readFloat)

end Specification

section Files

theorem mdStem_iff {e stem : Bytes} : mdStem e = some stem ↔ e = fileName stem ∧ stem ≠ [] := by
  have hlen : (bytes ".md").length = 3 := by decide
  unfold mdStem fileName
  constructor
  · intro h
    split_ifs at h with hc
    obtain ⟨hsuffix, hpos⟩ := hc
    obtain ⟨t, rfl⟩ := List.isSuffixOf_iff_suffix.mp hsuffix
    obtain rfl := Option.some.inj h
    rw [List.length_append, hlen] at hpos ⊢
    rw [Nat.add_sub_cancel, List.take_left]
    exact ⟨rfl, List.length_pos_iff.mp (by omega)⟩
  · rintro ⟨rfl, hne⟩
    have hpos := List.length_pos_iff.mpr hne
    have hc : (bytes ".md").isSuffixOf (stem ++ bytes ".md") = true ∧
        3 < (stem ++ bytes ".md").length := by
      refine ⟨List.isSuffixOf_iff_suffix.mpr (List.suffix_append stem _), ?_⟩
      rw [List.length_append, hlen]
      omega
    rw [if_pos hc, List.length_append, hlen, Nat.add_sub_cancel, List.take_left]

theorem fileName_injective {a b : Bytes} (h : fileName a = fileName b) : a = b :=
  List.append_cancel_right h

theorem slash_fileName {name : Bytes} (h : slash ∉ fileName name) : slash ∉ name :=
  fun hm => h (List.mem_append_left _ hm)

theorem mem_removeStale {names : List Bytes} {d : Directory} {e : Bytes × Bytes} :
    e ∈ (removeStale names d).entries ↔ e ∈ d.entries ∧ ∀ stem ∈ mdStem e.1, stem ∈ names := by
  simp [removeStale, Option.all_eq_true]

variable {fs : FileSystem} {data : List (Bytes × Json)}

/-- A file of the directory is one that was there or one that was opened. -/
theorem writeActions_mem {d : Directory} {e : Bytes × Bytes}
    (h : e ∈ (writeActions fs d data).1.entries) :
    (∃ x ∈ data, fs.entry x.1 = some e.1) ∨ e ∈ d.entries := by
  induction data generalizing d with
  | nil => exact .inr h
  | cons x data ih =>
    rw [writeActions, writeActionMd] at h
    cases ht : actionMd x.1 x.2 with
    | error err =>
      rw [ht] at h
      exact .inr h
    | ok text =>
      rw [ht] at h
      rcases ih h with ⟨y, hy, hentry⟩ | hd
      · exact .inl ⟨y, List.mem_cons_of_mem x hy, hentry⟩
      · cases hx : fs.entry x.1 with
        | none =>
          rw [hx] at hd
          exact .inr hd
        | some k =>
          rw [hx] at hd
          rcases OrderedMap.Map.mem_insert hd with rfl | ⟨-, hd⟩
          · exact .inl ⟨x, List.mem_cons_self, hx⟩
          · exact .inr hd

/-- A file that no name opens is left alone, also by a loop that ends early. -/
theorem writeActions_other {k : Bytes} (h : ∀ x ∈ data, fs.entry x.1 ≠ some k) (d : Directory) :
    (writeActions fs d data).1.get k = d.get k := by
  induction data generalizing d with
  | nil => rfl
  | cons x data ih =>
    rw [List.forall_mem_cons] at h
    rw [writeActions, writeActionMd]
    cases ht : actionMd x.1 x.2 with
    | error err => rfl
    | ok text =>
      refine (ih h.2 _).trans ?_
      cases hx : fs.entry x.1 with
      | none => rfl
      | some e =>
        have hne : k ≠ e := by
          rintro rfl
          exact h.1 hx
        exact OrderedMap.Map.get_insert_other hne text d

/-- The loop comes to its end unless the text of an action cannot be built. -/
theorem writeActions_done (fs : FileSystem) (d : Directory) (data : List (Bytes × Json)) :
    (writeActions fs d data).2 = none ↔ ∀ x ∈ data, Succeeds (actionMd x.1 x.2) := by
  induction data generalizing d with
  | nil => simp [writeActions]
  | cons x data ih =>
    rw [writeActions, writeActionMd, List.forall_mem_cons]
    cases ht : actionMd x.1 x.2 with
    | error err => simp [Except.map]
    | ok text => simp [Except.map, ih]

/-- Under distinct names every action has its own file. -/
theorem writeActions_get (hs : ∀ x ∈ data, Succeeds (actionMd x.1 x.2))
    (hn : (data.map Prod.fst).Nodup) (he : ∀ x ∈ data, fs.entry x.1 = some (fileName x.1))
    (d : Directory) :
    ∀ x ∈ data, (writeActions fs d data).1.get (fileName x.1) = (actionMd x.1 x.2).toOption := by
  induction data generalizing d with
  | nil => simp
  | cons x data ih =>
    rw [List.forall_mem_cons] at hs he ⊢
    rw [List.map_cons, List.nodup_cons] at hn
    obtain ⟨⟨text, ht⟩, hs⟩ := hs
    rw [writeActions, writeActionMd, ht, he.1]
    refine ⟨?_, ih hs hn.2 he.2 _⟩
    have hother : ∀ y ∈ data, fs.entry y.1 ≠ some (fileName x.1) := by
      intro y hy hentry
      rw [he.2 y hy, Option.some.injEq] at hentry
      apply hn.1
      rw [← fileName_injective hentry]
      exact List.mem_map_of_mem hy
    exact (writeActions_other hother _).trans (OrderedMap.Map.get_insert_self _ _ _)

end Files

section Loaded

variable {fs : FileSystem} {readFloat : Bytes → Option NumberText} {actions : List Action}

/-- The files that are in the directory when the loop has come to its end. -/
theorem doSync_done (hs : ∀ a ∈ actions, Succeeds (actionMd a.name (a.collected readFloat)))
    (d : Directory) : (doSync fs readFloat d actions).1 =
      removeStale (actions.map Action.name)
        (writeActions fs d (actions.map fun a => (a.name, a.collected readFloat))).1 := by
  have hdone := (writeActions_done fs d (actions.map fun a => (a.name, a.collected readFloat))).mpr
    (List.forall_mem_map.mpr hs)
  rw [doSync]
  split
  next heq =>
    rw [heq] at hdone
    cases hdone
  next heq => rw [heq]

/-- An exception leaves the files as they are, also those of other actions. -/
theorem doSync_failed (hs : ¬ ∀ a ∈ actions, Succeeds (actionMd a.name (a.collected readFloat)))
    (d : Directory) : (doSync fs readFloat d actions).1 =
      (writeActions fs d (actions.map fun a => (a.name, a.collected readFloat))).1 := by
  have hdone := (writeActions_done fs d
    (actions.map fun a => (a.name, a.collected readFloat))).not.mpr
      fun h => hs fun a ha => h _ (List.mem_map_of_mem ha)
  rw [doSync]
  split
  next heq => rw [heq]
  next heq =>
    rw [heq] at hdone
    exact absurd rfl hdone

section Text

variable {a : Action}

theorem collected_eq {j : Json} (h : parseText readFloat a.schema = .ok j) :
    a.collected readFloat = j := by rw [Action.collected, h]

theorem actionMd_ok {shown : Shown} (hs : Storable readFloat (a.collected readFloat))
    (h : readShown (a.collected readFloat) = .ok shown) :
    actionMd a.name (a.collected readFloat) =
      .ok (document a.name shown (render id (indented 2) 0 (a.collected readFloat))) := by
  rw [actionMd, h, dumpIndent, dumpWith_utf8 (indented 2) hs.utf8]
  rfl

/-- The text of an action can be built just when its schema is well-typed. -/
theorem succeeds_actionMd (hs : Storable readFloat (a.collected readFloat)) :
    Succeeds (actionMd a.name (a.collected readFloat)) ↔ WellTyped (a.collected readFloat) := by
  rw [← succeeds_readShown]
  constructor
  · rintro ⟨text, ht⟩
    obtain ⟨shown, hshown, -⟩ := bind_eq_ok.mp ht
    exact ⟨shown, hshown⟩
  · rintro ⟨shown, hshown⟩
    exact ⟨_, actionMd_ok hs hshown⟩

/-- What the file of a well-typed schema gives back. -/
theorem loadContent_text (hs : Storable readFloat (a.collected readFloat))
    (hw : WellTyped (a.collected readFloat)) :
    (actionMd a.name (a.collected readFloat)).toOption.bind (loadContent readFloat) =
      if a.opensFence readFloat then a.early readFloat else some (a.collected readFloat) := by
  obtain ⟨shown, hshown⟩ := (succeeds_readShown _).mpr hw
  rw [actionMd_ok hs hshown, Except.toOption, Option.bind_some, Action.opensFence, Action.early,
    hshown]
  dsimp only
  by_cases hfree : FenceFree a.name shown
  · rw [if_neg (by simpa using hfree)]
    exact loadContent_clear ((clear_front _ _).mpr hfree) hs
  · rw [if_pos (by simpa using hfree)]
    obtain ⟨k, hk⟩ := Option.ne_none_iff_exists'.mp ((clear_front _ _).not.mpr hfree)
    exact loadContent_found hk

end Text

/-- The order of a directory is of no matter to what is loaded from its files. -/
theorem loaded_perm (hs : ∀ a ∈ actions, Succeeds (actionMd a.name (a.collected readFloat)))
    (hn : (actions.map Action.name).Nodup)
    (he : ∀ a ∈ actions, a.name ≠ [] ∧ fs.entry a.name = some (fileName a.name))
    (d : Directory) : (loadCachedActions readFloat (doSync fs readFloat d actions).1).Perm
      (actions.filterMap fun a =>
        (actionMd a.name (a.collected readFloat)).toOption.bind (loadContent readFloat)) := by
  set W := (writeActions fs d (actions.map fun a => (a.name, a.collected readFloat))).1
  have hget : ∀ a ∈ actions,
      W.get (fileName a.name) = (actionMd a.name (a.collected readFloat)).toOption := by
    have hnames : ((actions.map fun a => (a.name, a.collected readFloat)).map Prod.fst).Nodup := by
      rwa [List.map_map]
    exact List.forall_mem_map.mp (writeActions_get (List.forall_mem_map.mpr hs) hnames
      (List.forall_mem_map.mpr fun a ha => (he a ha).2) d)
  let F := removeStale (actions.map Action.name) W
  let kept := F.entries.filter fun e => (mdStem e.1).isSome
  let text := fun a : Action => ((actionMd a.name (a.collected readFloat)).toOption).getD []
  have hkept : kept.Perm (actions.map fun a => (fileName a.name, text a)) := by
    rw [List.perm_ext_iff_of_nodup]
    · rintro ⟨k, v⟩
      rw [List.mem_filter, mem_removeStale, List.mem_map]
      constructor
      · rintro ⟨⟨hmem, hstem⟩, hsome⟩
        obtain ⟨stem, hk⟩ := Option.isSome_iff_exists.mp hsome
        obtain ⟨a, ha, rfl⟩ := List.mem_map.mp (hstem stem hk)
        obtain ⟨rfl, -⟩ := mdStem_iff.mp hk
        refine ⟨a, ha, ?_⟩
        have hv := hget a ha
        rw [OrderedMap.Map.mem_iff_get.mp hmem] at hv
        simp only [text, ← hv, Option.getD_some]
      · rintro ⟨a, ha, heq⟩
        obtain ⟨rfl, rfl⟩ := Prod.mk.inj heq
        have hk : mdStem (fileName a.name) = some a.name := mdStem_iff.mpr ⟨rfl, (he a ha).1⟩
        obtain ⟨t, ht⟩ := hs a ha
        have hv := hget a ha
        have htext : text a = t := by simp only [text, ht, Except.toOption, Option.getD_some]
        rw [ht] at hv
        rw [htext, hk]
        refine ⟨⟨OrderedMap.Map.mem_iff_get.mpr hv, ?_⟩, rfl⟩
        rintro stem hstem
        obtain rfl := Option.some.inj hstem
        exact List.mem_map_of_mem ha
    · exact (List.Nodup.of_map Prod.fst F.nodup).filter _
    · apply List.Nodup.of_map Prod.fst
      rw [List.map_map]
      have hfiles := hn.map fun _ _ h => fileName_injective h
      rwa [List.map_map] at hfiles
  have hload : loadCachedActions readFloat F =
      kept.filterMap fun e => loadContent readFloat e.2 := by
    rw [List.filterMap_filter]
    apply List.filterMap_congr
    intro e _
    cases mdStem e.1 <;> rfl
  rw [doSync_done hs, hload]
  refine (hkept.filterMap _).trans (List.Perm.of_eq ?_)
  rw [List.filterMap_map]
  apply List.filterMap_congr
  intro a ha
  obtain ⟨t, ht⟩ := hs a ha
  simp only [Function.comp_apply, text, ht, Except.toOption, Option.getD_some, Option.bind_some]

end Loaded

section Counting

variable {fs : FileSystem} {readFloat : Bytes → Option NumberText} {actions : List Action}

theorem length_filterMap_bind {α β γ : Type} (f : α → Option β) (g : α → Option γ) (l : List α) :
    (l.filterMap fun a => (f a).bind fun _ => g a).length ≤ (l.filterMap f).length := by
  induction l with
  | nil => rfl
  | cons a l ih =>
    rw [List.filterMap_cons, List.filterMap_cons]
    cases f a with
    | none => exact ih
    | some b =>
      rw [Option.bind_some]
      cases g a with
      | none => exact Nat.le_succ_of_le ih
      | some c => exact Nat.succ_le_succ ih

/-- Distinct members of a list that are as many as its members are all of it. -/
theorem filter_eq_self_of_nodup {l m : List Bytes} {p : Bytes → Bool} (hm : m.Nodup)
    (hsub : m ⊆ l.filter p) (hlen : l.length ≤ m.length) :
    (∀ a ∈ l, p a = true) ∧ l.Nodup ∧ l ⊆ m := by
  have hsubperm := hm.subperm hsub
  have hfilter : l.filter p = l := by
    apply (List.filter_sublist (p := p)).eq_of_length_le
    exact hlen.trans hsubperm.length_le
  rw [hfilter] at hsubperm
  have hperm := hsubperm.perm_of_length_le hlen
  exact ⟨List.filter_eq_self.mp hfilter, hperm.nodup_iff.mp hm, hperm.symm.subset⟩

/-- When as many schemas are loaded as were reported, every action has a file of its own. -/
theorem named_of_length (hs : ∀ a ∈ actions, Succeeds (actionMd a.name (a.collected readFloat)))
    (hlen : actions.length ≤
      (loadCachedActions readFloat (doSync fs readFloat Map.empty actions).1).length) :
    (actions.map Action.name).Nodup ∧ ∀ a ∈ actions,
      a.name ≠ [] ∧ slash ∉ a.name ∧ fs.entry a.name = some (fileName a.name) := by
  rw [doSync_done hs] at hlen
  set W := (writeActions fs Map.empty (actions.map fun a => (a.name, a.collected readFloat))).1
  let F := removeStale (actions.map Action.name) W
  let stems := F.entries.filterMap fun e => mdStem e.1
  have hstem : ∀ stem ∈ stems, stem ∈ actions.map Action.name ∧ stem ≠ [] ∧
      ∃ a ∈ actions, fs.entry a.name = some (fileName stem) := by
    intro stem hmem
    obtain ⟨e, he, hk⟩ := List.mem_filterMap.mp hmem
    obtain ⟨hW, hnames⟩ := mem_removeStale.mp he
    obtain ⟨hfile, hne⟩ := mdStem_iff.mp hk
    refine ⟨hnames stem hk, hne, ?_⟩
    rcases writeActions_mem hW with ⟨x, hx, hentry⟩ | hempty
    · obtain ⟨a, ha, rfl⟩ := List.mem_map.mp hx
      rw [hfile] at hentry
      exact ⟨a, ha, hentry⟩
    · cases hempty
  have hnodup : stems.Nodup := by
    have hkeys : stems = (F.entries.map Prod.fst).filterMap mdStem := by
      rw [List.filterMap_map]
      rfl
    rw [hkeys]
    apply F.nodup.filterMap
    intro k k' stem hk hk'
    rw [(mdStem_iff.mp hk).1, (mdStem_iff.mp hk').1]
  have hsub : stems ⊆ (actions.map Action.name).filter fun n => n ≠ [] ∧ slash ∉ n := by
    intro stem hmem
    obtain ⟨hname, hne, a, -, hentry⟩ := hstem stem hmem
    rw [List.mem_filter, decide_eq_true_iff]
    exact ⟨hname, hne, slash_fileName (fs.plain _ _ hentry)⟩
  have hcount : (actions.map Action.name).length ≤ stems.length := by
    rw [List.length_map]
    exact hlen.trans (length_filterMap_bind _ _ _)
  obtain ⟨hplain, hdistinct, hall⟩ := filter_eq_self_of_nodup hnodup hsub hcount
  have hplain : ∀ a ∈ actions, a.name ≠ [] ∧ slash ∉ a.name := fun a ha => by
    simpa using hplain a.name (List.mem_map_of_mem ha)
  refine ⟨hdistinct, fun a ha => ⟨(hplain a ha).1, (hplain a ha).2, ?_⟩⟩
  obtain ⟨-, -, b, hb, hentry⟩ := hstem a.name (hall (List.mem_map_of_mem ha))
  have hfile := fs.own b.name _ (hplain b hb).2 b.name_ends hentry
  rwa [fileName_injective hfile] at hentry ⊢

theorem exists_bound (l : List Bytes) : ∃ n, ∀ t ∈ l, t.length ≤ n := by
  induction l with
  | nil => exact ⟨0, by simp⟩
  | cons t l ih =>
    obtain ⟨n, hn⟩ := ih
    refine ⟨max t.length n, List.forall_mem_cons.mpr ⟨Nat.le_max_left _ _, fun u hu => ?_⟩⟩
    exact (hn u hu).trans (Nat.le_max_right _ _)

/-- What an earlier synchronisation left of an action that is reported no more. -/
def stale (n : ℕ) : Json := .obj [(bytes "x", .str (List.replicate n 0x61))]

theorem storable_stale (n : ℕ) : Storable readFloat (stale n) := by
  have hvalid : Utf8.valid (List.replicate n (0x61 : UInt8)) = true := by
    apply Utf8.valid_ascii
    intro b hb
    rw [List.eq_of_mem_replicate hb]
    decide
  refine ⟨List.pairwise_singleton _ _, ?_, hvalid, trivial⟩
  decide

/-- The file of an action that is reported no more is still loaded behind an exception. -/
theorem stale_loaded (fs : FileSystem)
    (hs : ¬ ∀ a ∈ actions, Succeeds (actionMd a.name (a.collected readFloat))) :
    ∃ d, ∃ schema ∈ loadCachedActions readFloat (doSync fs readFloat d actions).1,
      schema ∉ actions.map fun a => a.collected readFloat := by
  let texts := (actions.map fun a => a.collected readFloat).filterMap fun schema =>
    (schema.valueString (bytes "x") []).toOption
  obtain ⟨n, hn⟩ := exists_bound (texts ++ actions.filterMap fun a => fs.entry a.name)
  set name := List.replicate (n + 1) (0x61 : UInt8) with hname
  let shown : Shown := ⟨[], [], none, []⟩
  let text := document name shown (render id (indented 2) 0 (stale (n + 1)))
  let d : Directory := ⟨[(fileName name, text)], List.nodup_singleton _⟩
  refine ⟨d, stale (n + 1), ?_, ?_⟩
  · have hother : ∀ x ∈ actions.map fun a => (a.name, a.collected readFloat),
        fs.entry x.1 ≠ some (fileName name) := by
      rw [List.forall_mem_map]
      intro a ha hentry
      have hlen := hn (fileName name)
        (List.mem_append_right _ (List.mem_filterMap.mpr ⟨a, ha, hentry⟩))
      rw [fileName, List.length_append, hname, List.length_replicate] at hlen
      omega
    have hget := writeActions_other hother d
    have hd : d.get (fileName name) = some text :=
      OrderedMap.Map.mem_iff_get.mp List.mem_cons_self
    rw [hd] at hget
    have hstem : mdStem (fileName name) = some name := mdStem_iff.mpr ⟨rfl, by simp [hname]⟩
    have hclear : Clear (front name shown) := by
      have hfence : fence = 0x60 :: fence.tail := by decide
      have hno : (0x60 : UInt8) ∉ front name shown := by
        have hname : (0x60 : UInt8) ∉ name := fun hb => by
          exact absurd (List.eq_of_mem_replicate hb) (by decide)
        simp only [front, titleText, shown, List.mem_append, hname]
        decide
      rw [Clear, hfence, ByteLines.find_none hno]
    rw [doSync_failed hs]
    refine List.mem_filterMap.mpr ⟨_, OrderedMap.Map.mem_iff_get.mpr hget, ?_⟩
    rw [hstem, Option.bind_some]
    exact loadContent_clear hclear (storable_stale (n + 1))
  · intro hmem
    have htext : name ∈ texts := List.mem_filterMap.mpr ⟨_, hmem, rfl⟩
    have hlen := hn name (List.mem_append_left _ htext)
    rw [hname, List.length_replicate] at hlen
    omega

end Counting

section Synchronised

variable {fs : FileSystem} {readFloat : Bytes → Option NumberText} {actions : List Action}

/-- The files without a fence give back their schemas, so that the others decide. -/
theorem perm_unfenced {α β : Type} {p : α → Bool} {e : α → Option β} {s : α → β} (l : List α) :
    (l.filterMap fun a => if p a then e a else some (s a)).Perm (l.map s) ↔
      ((l.filter p).filterMap e).Perm ((l.filter p).map s) := by
  have hperm := List.filter_append_perm p l
  have hleft : ((l.filter p ++ l.filter fun a => !p a).filterMap
      fun a => if p a then e a else some (s a)) =
        (l.filter p).filterMap e ++ (l.filter fun a => !p a).map s := by
    rw [List.filterMap_append, ← List.filterMap_eq_map]
    congr 1
    · apply List.filterMap_congr
      intro a ha
      rw [if_pos (List.mem_filter.mp ha).2]
    · apply List.filterMap_congr
      intro a ha
      have hp : ¬ p a = true := by simpa using (List.mem_filter.mp ha).2
      rw [if_neg hp]
      rfl
  rw [← ((hperm.filterMap _)).congr_left, hleft, ← (hperm.map s).congr_right, List.map_append,
    List.perm_append_right_iff]

theorem storable_collected (hf : ReadsBack readFloat)
    (hj : ∀ a ∈ actions, ∃ m, parseText readFloat a.schema = .ok (.obj m)) :
    ∀ a ∈ actions, Storable readFloat (a.collected readFloat) := by
  intro a ha
  obtain ⟨m, hm⟩ := hj a ha
  rw [collected_eq hm]
  exact storable_parseText hf hm

theorem filter_wellTyped (htyped : ∀ a ∈ actions, WellTyped (a.collected readFloat)) :
    (actions.map fun a => a.collected readFloat).filter (fun schema => WellTyped schema) =
      actions.map fun a => a.collected readFloat := by
  rw [List.filter_eq_self, List.forall_mem_map]
  exact fun a ha => decide_eq_true (htyped a ha)

/-- Files that were all written give back the schemas exactly if those with a fence do. -/
theorem perm_loaded_iff {d : Directory}
    (hstorable : ∀ a ∈ actions, Storable readFloat (a.collected readFloat))
    (htyped : ∀ a ∈ actions, WellTyped (a.collected readFloat))
    (hdistinct : (actions.map Action.name).Nodup)
    (hentry : ∀ a ∈ actions, a.name ≠ [] ∧ fs.entry a.name = some (fileName a.name)) :
    (loadCachedActions readFloat (doSync fs readFloat d actions).1).Perm
        (actions.map fun a => a.collected readFloat) ↔
      ((actions.filter fun a => a.opensFence readFloat).filterMap fun a => a.early readFloat).Perm
        ((actions.filter fun a => a.opensFence readFloat).map fun a => a.collected readFloat) := by
  have hs : ∀ a ∈ actions, Succeeds (actionMd a.name (a.collected readFloat)) :=
    fun a ha => (succeeds_actionMd (hstorable a ha)).mpr (htyped a ha)
  have hfences : (actions.filterMap fun a =>
      (actionMd a.name (a.collected readFloat)).toOption.bind (loadContent readFloat)) =
      actions.filterMap fun a =>
        if a.opensFence readFloat then a.early readFloat else some (a.collected readFloat) :=
    List.filterMap_congr fun a ha => loadContent_text (hstorable a ha) (htyped a ha)
  have hloaded := loaded_perm hs hdistinct hentry d
  rw [hfences] at hloaded
  rw [hloaded.congr_left]
  exact perm_unfenced actions

/-- A cache that gives back the schemas whatever it held before has written all of them. -/
theorem typed_of_synchronised
    (hstorable : ∀ a ∈ actions, Storable readFloat (a.collected readFloat))
    (h : Synchronised fs readFloat actions) :
    ∀ a ∈ actions, WellTyped (a.collected readFloat) := by
  by_contra hno
  have hs : ¬ ∀ a ∈ actions, Succeeds (actionMd a.name (a.collected readFloat)) :=
    fun hs => hno fun a ha => (succeeds_actionMd (hstorable a ha)).mp (hs a ha)
  obtain ⟨d, schema, hmem, hnot⟩ := stale_loaded fs hs
  exact hnot (List.mem_of_mem_filter ((h d).subset hmem))

/-- Exactly the schemas of actions that can be cached are what the cache gives back. -/
theorem synchronised_iff (hf : ReadsBack readFloat)
    (hj : ∀ a ∈ actions, ∃ m, parseText readFloat a.schema = .ok (.obj m)) :
    Synchronised fs readFloat actions ↔ Cacheable fs readFloat actions := by
  have hstorable := storable_collected hf hj
  constructor
  · intro h
    have htyped := typed_of_synchronised hstorable h
    have hempty := h Map.empty
    rw [filter_wellTyped htyped] at hempty
    obtain ⟨hdistinct, hnamed⟩ := named_of_length
      (fun a ha => (succeeds_actionMd (hstorable a ha)).mpr (htyped a ha))
      (Nat.le_of_eq ((List.length_map _).symm.trans hempty.length_eq.symm))
    refine ⟨htyped, hdistinct, fun a ha => ?_, ?_⟩
    · obtain ⟨hne, hslash, hentry⟩ := hnamed a ha
      exact ⟨hne, hslash, by rw [hentry]; rfl⟩
    · exact (perm_loaded_iff hstorable htyped hdistinct
        fun a ha => ⟨(hnamed a ha).1, (hnamed a ha).2.2⟩).mp hempty
  · intro h d
    have hentry : ∀ a ∈ actions, a.name ≠ [] ∧ fs.entry a.name = some (fileName a.name) := by
      intro a ha
      obtain ⟨hne, hslash, hsome⟩ := h.named a ha
      obtain ⟨e, he⟩ := Option.isSome_iff_exists.mp hsome
      rw [he, fs.own a.name e hslash a.name_ends he]
      exact ⟨hne, rfl⟩
    rw [filter_wellTyped h.typed]
    exact (perm_loaded_iff hstorable h.typed h.distinct hentry).mpr h.fences

/-- Without fences in the texts that are shown nothing else is asked for. -/
theorem cacheable_of_unfenced (typed : ∀ a ∈ actions, WellTyped (a.collected readFloat))
    (distinct : (actions.map Action.name).Nodup)
    (named : ∀ a ∈ actions, a.name ≠ [] ∧ slash ∉ a.name ∧ (fs.entry a.name).isSome)
    (h : ∀ a ∈ actions, a.opensFence readFloat = false) : Cacheable fs readFloat actions := by
  have hnone : (actions.filter fun a => a.opensFence readFloat) = [] := by
    rw [List.filter_eq_nil_iff]
    exact fun a ha => by simp [h a ha]
  refine ⟨typed, distinct, named, ?_⟩
  rw [hnone]
  exact List.Perm.refl _

end Synchronised

namespace Counterexample

def noFloats : Bytes → Option NumberText := fun _ => none

/-- Every name without a slash can be opened. -/
def direct : FileSystem where
  entry name := if slash ∈ name then none else some (fileName name)
  own name e hslash _ he := by
    rw [if_neg hslash] at he
    exact (Option.some.inj he).symm
  plain name e he := by
    split_ifs at he with hslash
    obtain rfl := Option.some.inj he
    rw [fileName, List.mem_append, not_or]
    exact ⟨hslash, by decide⟩

def dimmerSchema : Json := .obj [(bytes "description", .int 5)]

/-- An action whose description is a number. -/
def dimmer : Action where
  name := bytes "dimmer"
  schema := bytes "\x7b\"description\":5\x7d"
  name_ends := by decide
  schema_ends := by decide

def lampSchema : Json := .obj [(bytes "description", .str (bytes "On"))]

def lamp : Action where
  name := bytes "lamp"
  schema := bytes "\x7b\"description\":\"On\"\x7d"
  name_ends := by decide
  schema_ends := by decide

theorem parse_dimmer : parseText noFloats dimmer.schema = .ok dimmerSchema := by
  have hs : Storable noFloats dimmerSchema := by
    refine ⟨List.pairwise_singleton _ _, ?_, ?_, trivial⟩
    · decide
    · constructor <;> decide
  exact parseText_dump hs rfl

theorem parse_lamp : parseText noFloats lamp.schema = .ok lampSchema := by
  have hs : Storable noFloats lampSchema := by
    refine ⟨List.pairwise_singleton _ _, ?_, ?_, trivial⟩
    · decide
    · exact show Utf8.valid (bytes "On") = true by decide
  exact parseText_dump hs rfl

/-- One description that is no text, and no other schema is cached. -/
theorem lamp_not_cached :
    (∀ a ∈ [dimmer, lamp], ∃ m, parseText noFloats a.schema = .ok (.obj m)) ∧
      ¬ Synchronised direct noFloats [dimmer, lamp] := by
  have hdimmer := collected_eq parse_dimmer
  have hlamp := collected_eq parse_lamp
  refine ⟨?_, fun h => ?_⟩
  · simp only [List.forall_mem_cons, List.not_mem_nil, false_implies, implies_true, and_true]
    exact ⟨⟨_, parse_dimmer⟩, ⟨_, parse_lamp⟩⟩
  · have hs : ¬ ∀ a ∈ [dimmer, lamp], Succeeds (actionMd a.name (a.collected noFloats)) := by
      intro hs
      have hfirst := hs dimmer List.mem_cons_self
      rw [hdimmer] at hfirst
      obtain ⟨text, ht⟩ := hfirst
      cases ht
    have hperm := h Map.empty
    rw [doSync_failed hs] at hperm
    simp only [List.map_cons, List.map_nil, hdimmer, hlamp] at hperm
    have hmem : lampSchema ∈ [dimmerSchema, lampSchema].filter fun schema => WellTyped schema := by
      rw [List.mem_filter]
      exact ⟨by simp, by decide⟩
    cases hperm.symm.subset hmem

theorem lamp_cached : Synchronised direct noFloats [lamp] := by
  have hlamp := collected_eq parse_lamp
  have hreads : ReadsBack noFloats := fun t x h => by cases h
  have hj : ∀ a ∈ [lamp], ∃ m, parseText noFloats a.schema = .ok (.obj m) := by
    rw [List.forall_mem_singleton]
    exact ⟨_, parse_lamp⟩
  apply (synchronised_iff hreads hj).mpr
  apply cacheable_of_unfenced
  · rw [List.forall_mem_singleton, hlamp]
    decide
  · decide
  · rw [List.forall_mem_singleton]
    decide
  · rw [List.forall_mem_singleton, Action.opensFence, hlamp]
    decide

end Counterexample

end ActionCache
