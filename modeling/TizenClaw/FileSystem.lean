import TizenClaw.PosixPath

/-! Files by the texts of their paths: what opening, writing, creating and removing do to a tree. -/
namespace FileSystem

open ByteString PathResolution PosixPath

abbrev FileTree := Tree FileName Bytes

/-- What an input stream on a path is. A directory can be opened, and reading it throws. -/
inductive Opened where
  | closed
  | directory
  | file (data : Bytes)
  deriving DecidableEq, Repr

/-- What a directory stream throws when it is read. -/
def readFailure : Bytes := bytes "basic_filebuf::underflow error reading the file: Is a directory"

section Operations

variable (t : FileTree) (cwd : Place)

def opened : Outcome FileName → Opened
  | .found p => match t.node p with
    | some .dir => .directory
    | some (.file data) => .file data
    | _ => .closed
  | _ => .closed

def openRead (path : Bytes) : Opened := opened t (resolve t cwd (pathOf path))

def isDirectory (path : Bytes) : Bool := openRead t cwd path = .directory

/-- An output stream on a path, its content replaced; a link that leads nowhere is followed. -/
def writeFile (path data : Bytes) : Option FileTree :=
  match resolve t cwd (pathOf path) with
  | .found p => if t.node p = some .dir then none else some (t.put p data)
  | .missing p => some (t.put p data)
  | .failed => none

/-- What a directory that is missing at the end of a path is made as. -/
def makeAt (path : Path FileName) : FileTree :=
  match locate t cwd path with
  | some p => t.makeDir p
  | none => t

def createFrom (cwd : Place) (absolute : Bool) :
    List (Component FileName) → List (Component FileName) → FileTree → FileTree
  | _, [], t => t
  | done, c :: cs, t =>
    createFrom cwd absolute (done ++ [c]) cs (makeAt t cwd ⟨absolute, done ++ [c]⟩)

/-- Each missing directory on the way is made, the outermost first. -/
def createDirectories (path : Bytes) : FileTree :=
  createFrom cwd (pathOf path).absolute [] (components path) t

/-- An entry goes with all that is in it, and a link goes alone. What ends in a dot is emptied and
then refused. -/
def removeAll (path : Bytes) : FileTree × Bool :=
  match locate t cwd (pathOf path) with
  | some p => (t.remove p, true)
  | none => match resolve t cwd (pathOf path) with
    | .found p => (t.clear p, false)
    | _ => (t, true)

end Operations

section Directory

variable {t t' : FileTree} {cwd root p : Place} {dir rel : Bytes}

/-- The directory that a text leads to, with a slash behind it. -/
def LeadsTo (t : FileTree) (cwd : Place) (dir : Bytes) (root : Place) : Prop :=
  resolve t cwd (pathOf (dir ++ [slash])) = .found root

instance : Decidable (LeadsTo t cwd dir root) := inferInstanceAs (Decidable (_ = _))

theorem pathOf_under (h0 : 0 ∉ dir) (rel : Bytes) :
    pathOf (dir ++ slash :: rel) =
      ⟨(pathOf (dir ++ [slash])).absolute, components dir ++ components rel⟩ := by
  have hs : ∀ b : Bytes, untilNul (dir ++ slash :: b) = dir ++ slash :: untilNul b := by
    intro b
    rw [untilNul_append h0]
    exact congrArg (dir ++ ·) (List.takeWhile_cons_of_pos (by decide))
  unfold pathOf
  rw [components_append h0, hs rel, hs []]
  cases dir <;> rfl

/-- Past a directory that a text leads to, the rest of a path is resolved from there. -/
theorem resolve_under (rel : Bytes) (h0 : 0 ∉ dir)
    (hcwd : (pathOf (dir ++ [slash])).absolute = true ∨ t.node cwd = some .dir)
    (hr : LeadsTo t cwd dir root) :
    t.node root = some .dir ∧
      ∃ k, resolve t cwd (pathOf (dir ++ slash :: rel)) = walk t k root (components rel) := by
  have hstart : t.node (if (pathOf (dir ++ [slash])).absolute then [] else cwd) = some .dir := by
    split_ifs with ha
    · exact t.root
    · exact hcwd.resolve_left ha
  have hhere : components [] = [Component.here] := rfl
  unfold LeadsTo resolve at hr
  rw [pathOf_under h0, hhere] at hr
  obtain ⟨r, hw, hd⟩ := walk_split hstart (List.cons_ne_nil _ _) (by rw [hr]; simp)
  have hroot : r = root := by
    obtain ⟨k, -, hk⟩ := walk_append (b := [.here]) hw hd
    rw [hk, walk_here, walk_nil] at hr
    exact Outcome.found.inj hr
  subst hroot
  obtain ⟨k, -, hk⟩ := walk_append (b := components rel) hw hd
  refine ⟨hd, k, ?_⟩
  unfold resolve
  rw [pathOf_under h0]
  exact hk

/-- Without links and steps to a parent, a path below a directory leads where its names do. -/
theorem resolve_plain (h0 : 0 ∉ dir)
    (hcwd : (pathOf (dir ++ [slash])).absolute = true ∨ t.node cwd = some .dir)
    (hr : LeadsTo t cwd dir root) (hl : Linkless t root) (hp : .parent ∉ components rel) :
    resolve t cwd (pathOf (dir ++ slash :: rel)) = lookup t root (components rel) := by
  obtain ⟨hd, k, hk⟩ := resolve_under rel h0 hcwd hr
  rw [hk]
  exact walk_lookup hl hp (List.prefix_refl root) hd

theorem openRead_plain (h0 : 0 ∉ dir)
    (hcwd : (pathOf (dir ++ [slash])).absolute = true ∨ t.node cwd = some .dir)
    (hr : LeadsTo t cwd dir root) (hl : Linkless t root) (hp : .parent ∉ components rel) :
    openRead t cwd (dir ++ slash :: rel) = opened t (lookup t root (components rel)) :=
  congrArg (opened t) (resolve_plain h0 hcwd hr hl hp)

theorem opened_congr (h : SameBeneath root t t') (cs : List (Component FileName)) :
    opened t (lookup t root cs) = opened t' (lookup t' root cs) := by
  rw [← lookup_congr h (List.prefix_refl root)]
  match hlook : lookup t root cs with
  | .found p =>
    have hp := lookup_place (Or.inl hlook)
    have hn := h p (hp ▸ List.prefix_append root _)
    simp only [opened, hn]
  | .missing p => rfl
  | .failed => rfl

end Directory

section Changes

variable {t t' : FileTree} {cwd root p q : Place}

/-- The files of a tree by their places. -/
def stored (t : FileTree) (p : Place) : Option Bytes :=
  match t.node p with
  | some (.file data) => some data
  | _ => none

/-- Only directories have come to the tree, where nothing was. -/
def Grown (t t' : FileTree) : Prop :=
  ∀ p, t'.node p = t.node p ∨ (t.node p = none ∧ t'.node p = some .dir)

theorem Grown.refl (t : FileTree) : Grown t t := fun _ => Or.inl rfl

theorem Grown.trans {t'' : FileTree} (h : Grown t t') (h' : Grown t' t'') : Grown t t'' := by
  intro p
  rcases h p with hp | ⟨hp, hd⟩ <;> rcases h' p with hp' | ⟨hp', hd'⟩
  · exact Or.inl (hp'.trans hp)
  · exact Or.inr ⟨hp ▸ hp', hd'⟩
  · exact Or.inr ⟨hp, hp'.trans hd⟩
  · rw [hd] at hp'
    cases hp'

theorem Grown.stored (h : Grown t t') : stored t' = stored t := by
  funext p
  unfold FileSystem.stored
  rcases h p with hp | ⟨hp, hd⟩
  · rw [hp]
  · rw [hp, hd]

theorem Grown.linkless (h : Grown t t') (hl : Linkless t root) : Linkless t' root := by
  intro p hp target hn
  rcases h p with he | ⟨-, hd⟩
  · exact hl p hp target (he ▸ hn)
  · rw [hd] at hn
    cases hn

theorem Grown.dir (h : Grown t t') (hd : t.node p = some .dir) : t'.node p = some .dir := by
  rcases h p with he | ⟨-, hd'⟩
  · rw [he, hd]
  · exact hd'

theorem grown_makeDir (t : FileTree) (p : Place) : Grown t (t.makeDir p) := by
  unfold Tree.makeDir
  split_ifs with h
  · intro q
    by_cases hq : q = p
    · subst hq
      exact Or.inr ⟨h.2.2, Function.update_self _ _ _⟩
    · exact Or.inl (Function.update_of_ne hq _ _)
  · exact Grown.refl t

theorem grown_createFrom (absolute : Bool) (done cs : List (Component FileName)) (t : FileTree) :
    Grown t (createFrom cwd absolute done cs t) := by
  induction cs generalizing done t with
  | nil => exact Grown.refl t
  | cons c cs ih =>
    refine Grown.trans ?_ (ih _ _)
    unfold makeAt
    split
    · exact grown_makeDir t _
    · exact Grown.refl t

theorem grown_createDirectories (t : FileTree) (cwd : Place) (path : Bytes) :
    Grown t (createDirectories t cwd path) :=
  grown_createFrom _ _ _ t

theorem stored_eq_some {data : Bytes} : stored t p = some data ↔ t.node p = some (.file data) := by
  unfold stored
  split
  next d hd => rw [hd, Option.some.injEq, Option.some.injEq, Node.file.injEq]
  next h => exact iff_of_false (by simp) (h data)

theorem put_cases (t : FileTree) (p : Place) (data : Bytes) :
    t.put p data = t ∨ (t.node p ≠ some .dir ∧
      (t.put p data).node = Function.update t.node p (some (.file data))) := by
  by_cases h : t.node p.dropLast = some .dir ∧ p ≠ [] ∧ t.node p ≠ some .dir
  · exact Or.inr ⟨h.2.2, node_put h.1 h.2.1 h.2.2⟩
  · exact Or.inl (by rw [Tree.put, dif_neg h])

theorem linkless_put {data : Bytes} (hl : Linkless t root) : Linkless (t.put p data) root := by
  intro q hq target hn
  rcases put_cases t p data with he | ⟨-, he⟩
  · rw [he] at hn
    exact hl q hq target hn
  · rw [he] at hn
    by_cases hqp : q = p
    · subst hqp
      rw [Function.update_self] at hn
      cases hn
    · rw [Function.update_of_ne hqp] at hn
      exact hl q hq target hn

theorem dir_put {data : Bytes} (hd : t.node q = some .dir) : (t.put p data).node q = some .dir := by
  rcases put_cases t p data with he | ⟨hp, he⟩
  · rw [he, hd]
  · have hqp : q ≠ p := by
      rintro rfl
      exact hp hd
    rw [he, Function.update_of_ne hqp, hd]

theorem stored_put {data : Bytes} (h : t.node p.dropLast = some .dir) (hp : p ≠ [])
    (hd : t.node p ≠ some .dir) :
    stored (t.put p data) = Function.update (stored t) p (some data) := by
  funext q
  unfold stored
  rw [node_put h hp hd]
  by_cases hq : q = p
  · subst hq
    simp only [Function.update_self]
  · simp only [Function.update_of_ne hq]

theorem stored_remove (hp : p ≠ []) :
    stored (t.remove p) = fun q => if Beneath p q then none else stored t q := by
  funext q
  by_cases hq : Beneath p q
  · have hne : q ≠ [] := by
      rintro rfl
      exact hp (List.prefix_nil.mp hq)
    simp [stored, Tree.remove, hq, hne]
  · simp only [stored, node_remove_of_not hq, if_neg hq]

theorem linkless_remove (hl : Linkless t root) : Linkless (t.remove p) root := by
  intro q hq target hn
  simp only [Tree.remove] at hn
  split_ifs at hn
  exact hl q hq target hn

theorem linkless_clear (hl : Linkless t root) : Linkless (t.clear p) root := by
  intro q hq target hn
  simp only [Tree.clear] at hn
  split_ifs at hn
  exact hl q hq target hn

/-- No file lies at a directory itself. -/
theorem stored_clear (hd : t.node p = some .dir) :
    stored (t.clear p) = fun q => if Beneath p q then none else stored t q := by
  funext q
  by_cases hq : Beneath p q
  · rw [if_pos hq]
    by_cases hqp : q = p
    · subst hqp
      simp [stored, Tree.clear, hd]
    · simp [stored, Tree.clear, hq, hqp]
  · simp only [stored, node_clear_of_not hq, if_neg hq]

/-- An output stream replaces the content of one place that is no directory. -/
theorem writeFile_spec {path data : Bytes}
    (hcwd : (pathOf path).absolute = true ∨ t.node cwd = some .dir)
    (h : writeFile t cwd path data = some t') :
    ∃ p, (resolve t cwd (pathOf path) = .found p ∨ resolve t cwd (pathOf path) = .missing p) ∧
      t' = t.put p data ∧ stored t' = Function.update (stored t) p (some data) := by
  have hstart : t.node (if (pathOf path).absolute then [] else cwd) = some .dir := by
    split_ifs with ha
    · exact t.root
    · exact hcwd.resolve_left ha
  have hends := walk_ends maxLinks _ (pathOf path).components hstart
  have hres : resolve t cwd (pathOf path) = walk t maxLinks _ (pathOf path).components := rfl
  unfold writeFile at h
  rw [← hres] at hends
  split at h
  next p hp =>
    split_ifs at h with hd
    obtain rfl := Option.some.inj h
    rw [hp, Ends] at hends
    obtain ⟨data', hdata⟩ := hends.resolve_left hd
    have hne : p ≠ [] := by
      rintro rfl
      rw [t.root] at hdata
      cases hdata
    have hparent : t.node p.dropLast = some .dir := by
      obtain ⟨q, n, rfl⟩ := List.eq_nil_or_concat p |>.resolve_left hne
      rw [List.concat_eq_append] at hdata ⊢
      rw [List.dropLast_concat]
      exact t.parent q n (by rw [hdata]; rfl)
    exact ⟨p, Or.inl hp, rfl, stored_put hparent hne hd⟩
  next p hp =>
    obtain rfl := Option.some.inj h
    rw [hp, Ends] at hends
    obtain ⟨q, n, rfl, hq, hn⟩ := hends
    refine ⟨q ++ [n], Or.inr hp, rfl, stored_put ?_ (by simp) (by simp [hn])⟩
    rw [List.dropLast_concat]
    exact hq
  · cases h

end Changes

section Through

variable {t : FileTree} {p : Place} {cs : List (Component FileName)}

/-- A path through directories that are there leads along its names. -/
theorem walk_through {k : ℕ} (hp : .parent ∉ cs) (hd : t.node (p ++ names cs) = some .dir) :
    walk t k p cs = .found (p ++ names cs) := by
  induction cs generalizing p with
  | nil => simp [names]
  | cons c cs ih =>
    have hcs : .parent ∉ cs := fun hm => hp (List.mem_cons_of_mem _ hm)
    cases c with
    | here => exact walk_here.trans (ih hcs hd)
    | parent => exact absurd List.mem_cons_self hp
    | name n =>
      have hsplit : p ++ names (.name n :: cs) = (p ++ [n]) ++ names cs := by simp [names]
      rw [hsplit] at hd ⊢
      have hn : t.node (p ++ [n]) = some .dir := by
        by_cases hnil : names cs = []
        · simpa [hnil] using hd
        · exact t.dir_of_prefix (by rw [hd]; rfl) hnil
      rw [walk_dir hn]
      exact ih hcs hd

theorem makeDir_of_dir {p : Place} (h : t.node p = some .dir) : t.makeDir p = t := by
  refine dif_neg fun hn => ?_
  rw [h] at hn
  cases hn.2.2

/-- Where the directories are there already, none is made. -/
theorem createFrom_through {cwd : Place} {before cs after : List (Component FileName)}
    (hp : .parent ∉ before ++ cs) (hd : t.node (names (before ++ cs)) = some .dir) :
    createFrom cwd true before (cs ++ after) t = createFrom cwd true (before ++ cs) after t := by
  induction cs generalizing before with
  | nil => rw [List.nil_append, List.append_nil]
  | cons c cs ih =>
    have hsplit : before ++ c :: cs = before ++ [c] ++ cs := by
      rw [List.append_assoc, List.singleton_append]
    have hsame : makeAt t cwd ⟨true, before ++ [c]⟩ = t := by
      cases c with
      | here => rw [makeAt, locate, List.getLast?_concat]
      | parent => exact absurd (List.mem_append_right _ List.mem_cons_self) hp
      | name n =>
        have hnames : names (before ++ .name n :: cs) = names before ++ n :: names cs := by
          rw [names_append]
          rfl
        rw [hnames] at hd
        have hbefore : t.node (names before) = some .dir :=
          t.dir_of_prefix (by rw [hd]; rfl) (List.cons_ne_nil _ _)
        have hhere : t.node (names before ++ [n]) = some .dir := by
          rcases List.eq_nil_or_concat (names cs) with hnil | ⟨l, m, hl⟩
          · rwa [hnil] at hd
          · refine t.dir_of_prefix (q := names cs) ?_ (by rw [hl]; simp)
            rw [List.append_assoc, List.singleton_append, hd]
            rfl
        have hresolve : resolve t cwd ⟨true, before⟩ = .found (names before) :=
          walk_through (p := []) (fun hm => hp (List.mem_append_left _ hm)) hbefore
        rw [makeAt, locate, List.getLast?_concat, List.dropLast_concat]
        simp only [hresolve, hbefore, if_true]
        exact makeDir_of_dir hhere
    rw [hsplit] at hp hd
    rw [List.cons_append, createFrom, hsame, ih hp hd, ← hsplit]

end Through

end FileSystem
