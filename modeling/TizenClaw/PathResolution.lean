import Mathlib.Data.List.Induction
import Mathlib.Logic.Function.Basic

/-! Directory trees with symbolic links, and the resolution of paths in them. A place is the list of
names that lead to it from the root. -/
namespace PathResolution

/-- What stands between two slashes of a path. Nothing, or a dot, stays where it is. -/
inductive Component (ν : Type) where
  | here
  | parent
  | name (n : ν)
  deriving DecidableEq, Repr

structure Path (ν : Type) where
  absolute : Bool
  components : List (Component ν)
  deriving DecidableEq, Repr

inductive Node (ν β : Type) where
  | file (data : β)
  | dir
  | link (target : Path ν)
  deriving DecidableEq, Repr

instance decidableDir {ν β : Type} : ∀ o : Option (Node ν β), Decidable (o = some .dir)
  | some .dir => isTrue rfl
  | none => isFalse nofun
  | some (.file _) => isFalse nofun
  | some (.link _) => isFalse nofun

/-- Every node stands in a directory, and the root is one. -/
structure Tree (ν β : Type) where
  node : List ν → Option (Node ν β)
  root : node [] = some .dir
  parent : ∀ p n, (node (p ++ [n])).isSome → node p = some .dir

/-- Where a path leads: to a node that is no link, or to a place in a directory where nothing is. -/
inductive Outcome (ν : Type) where
  | found (p : List ν)
  | missing (p : List ν)
  | failed
  deriving DecidableEq, Repr

variable {ν β : Type}

section Walk

variable (t : Tree ν β)

/-- The components from a directory on; `jump` goes on where a link leads. -/
def follow (jump : List ν → List (Component ν) → Outcome ν) :
    List ν → List (Component ν) → Outcome ν
  | p, [] => .found p
  | p, .here :: cs => follow jump p cs
  | p, .parent :: cs => follow jump p.dropLast cs
  | p, .name n :: cs =>
    match t.node (p ++ [n]) with
    | none => if cs.isEmpty then .missing (p ++ [n]) else .failed
    | some .dir => follow jump (p ++ [n]) cs
    | some (.file _) => if cs.isEmpty then .found (p ++ [n]) else .failed
    | some (.link target) =>
      jump (if target.absolute then [] else p) (target.components ++ cs)

/-- Resolution from a directory, with a bound on the links that are followed. -/
def walk : ℕ → List ν → List (Component ν) → Outcome ν
  | 0 => follow t fun _ _ => .failed
  | links + 1 => follow t (walk links)

/-- As many links as the system follows. -/
def maxLinks : ℕ := 40

def resolve (cwd : List ν) (path : Path ν) : Outcome ν :=
  walk t maxLinks (if path.absolute then [] else cwd) path.components

/-- The place of the last entry itself, which may be a link; a path that does not end in a name has
no entry of its own. -/
def locate (cwd : List ν) (path : Path ν) : Option (List ν) :=
  match path.components.getLast? with
  | some (.name n) =>
    match resolve t cwd { path with components := path.components.dropLast } with
    | .found p => if t.node p = some .dir then some (p ++ [n]) else none
    | _ => none
  | _ => none

end Walk

section Steps

variable {t : Tree ν β} {links : ℕ} {p q : List ν} {cs : List (Component ν)}

/-- One link further down, if the bound allows it. -/
def jumped (t : Tree ν β) : ℕ → List ν → List (Component ν) → Outcome ν
  | 0, _, _ => .failed
  | links + 1, p, cs => walk t links p cs

theorem walk_eq (t : Tree ν β) (links : ℕ) : walk t links = follow t (jumped t links) := by
  cases links <;> rfl

@[simp] theorem walk_nil : walk t links p [] = .found p := by
  cases links <;> rfl

@[simp] theorem walk_here : walk t links p (.here :: cs) = walk t links p cs := by
  cases links <;> rfl

@[simp] theorem walk_parent : walk t links p (.parent :: cs) = walk t links p.dropLast cs := by
  cases links <;> rfl

theorem walk_none {n : ν} (h : t.node (p ++ [n]) = none) :
    walk t links p (.name n :: cs) = if cs.isEmpty then .missing (p ++ [n]) else .failed := by
  simp [walk_eq, follow, h]

theorem walk_dir {n : ν} (h : t.node (p ++ [n]) = some .dir) :
    walk t links p (.name n :: cs) = walk t links (p ++ [n]) cs := by
  simp [walk_eq, follow, h]

theorem walk_file {n : ν} {data : β} (h : t.node (p ++ [n]) = some (.file data)) :
    walk t links p (.name n :: cs) = if cs.isEmpty then .found (p ++ [n]) else .failed := by
  simp [walk_eq, follow, h]

theorem walk_link {n : ν} {target : Path ν} (h : t.node (p ++ [n]) = some (.link target)) :
    walk t links p (.name n :: cs) =
      jumped t links (if target.absolute then [] else p) (target.components ++ cs) := by
  simp [walk_eq, follow, h]

end Steps

/-- A directory above a node. -/
theorem Tree.dir_of_prefix (t : Tree ν β) {p q : List ν} (h : (t.node (p ++ q)).isSome)
    (hq : q ≠ []) : t.node p = some .dir := by
  induction q using List.reverseRecOn with
  | nil => exact absurd rfl hq
  | append_singleton q n ih =>
    rw [← List.append_assoc] at h
    have hd := t.parent _ _ h
    by_cases hnil : q = []
    · simpa [hnil] using hd
    · exact ih (by simp [hd]) hnil

theorem Tree.dir_dropLast (t : Tree ν β) {p : List ν} (h : t.node p = some .dir) :
    t.node p.dropLast = some .dir := by
  cases p using List.reverseRecOn with
  | nil => exact h
  | append_singleton p n =>
    rw [List.dropLast_concat]
    exact t.parent p n (by simp [h])

section Walks

variable {t : Tree ν β}

/-- An induction over a walk: the end of the path, a step of each kind, and what a link leads to with
one link less. -/
theorem walk_induct {motive : ℕ → List ν → List (Component ν) → Prop}
    (nil : ∀ k p, motive k p [])
    (here : ∀ k p cs, motive k p cs → motive k p (.here :: cs))
    (parent : ∀ k p cs, motive k p.dropLast cs → motive k p (.parent :: cs))
    (missing : ∀ k p n cs, t.node (p ++ [n]) = none → motive k p (.name n :: cs))
    (dir : ∀ k p n cs, t.node (p ++ [n]) = some .dir → motive k (p ++ [n]) cs →
      motive k p (.name n :: cs))
    (file : ∀ k p n cs data, t.node (p ++ [n]) = some (.file data) → motive k p (.name n :: cs))
    (last : ∀ p n cs target, t.node (p ++ [n]) = some (.link target) → motive 0 p (.name n :: cs))
    (link : ∀ k p n cs target, t.node (p ++ [n]) = some (.link target) →
      motive k (if target.absolute then [] else p) (target.components ++ cs) →
      motive (k + 1) p (.name n :: cs)) (k : ℕ) (p : List ν) (cs : List (Component ν)) :
    motive k p cs := by
  induction k generalizing p cs with
  | zero =>
    induction cs generalizing p with
    | nil => exact nil 0 p
    | cons c cs ih =>
      cases c with
      | here => exact here 0 p cs (ih p)
      | parent => exact parent 0 p cs (ih _)
      | name n =>
        match hn : t.node (p ++ [n]) with
        | none => exact missing 0 p n cs hn
        | some .dir => exact dir 0 p n cs hn (ih _)
        | some (.file data) => exact file 0 p n cs data hn
        | some (.link target) => exact last p n cs target hn
  | succ k hk =>
    induction cs generalizing p with
    | nil => exact nil _ p
    | cons c cs ih =>
      cases c with
      | here => exact here _ p cs (ih p)
      | parent => exact parent _ p cs (ih _)
      | name n =>
        match hn : t.node (p ++ [n]) with
        | none => exact missing _ p n cs hn
        | some .dir => exact dir _ p n cs hn (ih _)
        | some (.file data) => exact file _ p n cs data hn
        | some (.link target) => exact link k p n cs target hn (hk _ _)

/-- What a walk from a directory ends at. -/
def Ends (t : Tree ν β) : Outcome ν → Prop
  | .found q => t.node q = some .dir ∨ ∃ data, t.node q = some (.file data)
  | .missing q => ∃ p n, q = p ++ [n] ∧ t.node p = some .dir ∧ t.node q = none
  | .failed => True

theorem walk_ends (k : ℕ) (p : List ν) (cs : List (Component ν)) (hp : t.node p = some .dir) :
    Ends t (walk t k p cs) := by
  induction k, p, cs using walk_induct (t := t) with
  | nil k p => simpa [Ends] using Or.inl hp
  | here k p cs ih => simpa using ih hp
  | parent k p cs ih => simpa using ih (t.dir_dropLast hp)
  | missing k p n cs hn =>
    rw [walk_none hn]
    split_ifs
    · exact ⟨p, n, rfl, hp, hn⟩
    · trivial
  | dir k p n cs hn ih =>
    rw [walk_dir hn]
    exact ih hn
  | file k p n cs data hn =>
    rw [walk_file hn]
    split_ifs
    · exact Or.inr ⟨data, hn⟩
    · trivial
  | last p n cs target hn =>
    rw [walk_link hn]
    trivial
  | link k p n cs target hn ih =>
    rw [walk_link hn]
    apply ih
    split_ifs
    · exact t.root
    · exact hp

/-- A walk goes on from where a front of its path has led. -/
theorem walk_append {k : ℕ} {p r : List ν} {a b : List (Component ν)}
    (h : walk t k p a = .found r) (hr : t.node r = some .dir) :
    ∃ k' ≤ k, walk t k p (a ++ b) = walk t k' r b := by
  induction k, p, a using walk_induct (t := t) with
  | nil k p =>
    rw [walk_nil, Outcome.found.injEq] at h
    subst h
    exact ⟨k, Nat.le_refl k, rfl⟩
  | here k p cs ih => simpa using ih (by simpa using h)
  | parent k p cs ih => simpa using ih (by simpa using h)
  | missing k p n cs hn =>
    rw [walk_none hn] at h
    split_ifs at h
  | dir k p n cs hn ih =>
    rw [walk_dir hn] at h
    rw [List.cons_append, walk_dir hn]
    exact ih h
  | file k p n cs data hn =>
    rw [walk_file hn] at h
    split_ifs at h
    obtain rfl := Outcome.found.inj h
    rw [hn] at hr
    cases hr
  | last p n cs target hn =>
    rw [walk_link hn] at h
    cases h
  | link k p n cs target hn ih =>
    rw [walk_link hn] at h
    obtain ⟨k', hk, he⟩ := ih h
    refine ⟨k', Nat.le_succ_of_le hk, ?_⟩
    rw [List.cons_append, walk_link hn, ← List.append_assoc]
    exact he

/-- A walk that gets through a front of its path has found a directory there. -/
theorem walk_split {k : ℕ} {p : List ν} {a b : List (Component ν)} (hp : t.node p = some .dir)
    (hb : b ≠ []) (h : walk t k p (a ++ b) ≠ .failed) :
    ∃ r, walk t k p a = .found r ∧ t.node r = some .dir := by
  have hne : ∀ cs : List (Component ν), (cs ++ b).isEmpty = false := by
    intro cs
    simp [hb]
  induction k, p, a using walk_induct (t := t) with
  | nil k p => exact ⟨p, walk_nil, hp⟩
  | here k p cs ih => simpa using ih hp (by simpa using h)
  | parent k p cs ih => simpa using ih (t.dir_dropLast hp) (by simpa using h)
  | missing k p n cs hn =>
    rw [List.cons_append, walk_none hn, hne cs] at h
    exact absurd rfl h
  | dir k p n cs hn ih =>
    rw [List.cons_append, walk_dir hn] at h
    rw [walk_dir hn]
    exact ih hn h
  | file k p n cs data hn =>
    rw [List.cons_append, walk_file hn, hne cs] at h
    exact absurd rfl h
  | last p n cs target hn =>
    rw [List.cons_append, walk_link hn] at h
    exact absurd rfl h
  | link k p n cs target hn ih =>
    rw [List.cons_append, walk_link hn, ← List.append_assoc] at h
    rw [walk_link hn]
    apply ih _ h
    split_ifs
    · exact t.root
    · exact hp

end Walks

section Beneath

/-- The place lies in the directory, or is it. -/
def Beneath (root p : List ν) : Prop := root <+: p

instance [DecidableEq ν] (root p : List ν) : Decidable (Beneath root p) :=
  inferInstanceAs (Decidable (_ <+: _))

/-- No link lies in the directory. -/
def Linkless (t : Tree ν β) (root : List ν) : Prop :=
  ∀ p, Beneath root p → ∀ target, t.node p ≠ some (.link target)

variable {t : Tree ν β} {root p q : List ν}

theorem Beneath.trans {r : List ν} (h : Beneath root p) (h' : Beneath p r) : Beneath root r :=
  List.IsPrefix.trans h h'

theorem Beneath.snoc (h : Beneath root p) (n : ν) : Beneath root (p ++ [n]) :=
  List.IsPrefix.trans h (List.prefix_append p [n])

/-- A path without a step to a parent stays in a directory that has no links. -/
theorem walk_beneath {k : ℕ} {cs : List (Component ν)} (hl : Linkless t root)
    (hcs : .parent ∉ cs) (hp : Beneath root p)
    (h : walk t k p cs = .found q ∨ walk t k p cs = .missing q) : Beneath root q := by
  induction k, p, cs using walk_induct (t := t) with
  | nil k p =>
    simp only [walk_nil, Outcome.found.injEq, reduceCtorEq, or_false] at h
    exact h ▸ hp
  | here k p cs ih => exact ih (fun hm => hcs (List.mem_cons_of_mem _ hm)) hp (by simpa using h)
  | parent k p cs ih => exact absurd List.mem_cons_self hcs
  | missing k p n cs hn =>
    rw [walk_none hn] at h
    split_ifs at h <;> simp at h
    exact h ▸ hp.snoc n
  | dir k p n cs hn ih =>
    rw [walk_dir hn] at h
    exact ih (fun hm => hcs (List.mem_cons_of_mem _ hm)) (hp.snoc n) h
  | file k p n cs data hn =>
    rw [walk_file hn] at h
    split_ifs at h <;> simp at h
    exact h ▸ hp.snoc n
  | last p n cs target hn => exact absurd hn (hl _ (hp.snoc n) target)
  | link k p n cs target hn => exact absurd hn (hl _ (hp.snoc n) target)

end Beneath

section Plain

/-- The names among the components of a path. -/
def names : List (Component ν) → List ν
  | [] => []
  | .name n :: cs => n :: names cs
  | _ :: cs => names cs

def endsInName : List (Component ν) → Bool
  | [] => false
  | .name _ :: cs => cs.isEmpty || endsInName cs
  | _ :: cs => endsInName cs

/-- Where a path without parents leads in a directory without links. -/
def lookup (t : Tree ν β) (p : List ν) (cs : List (Component ν)) : Outcome ν :=
  match t.node (p ++ names cs) with
  | some .dir => .found (p ++ names cs)
  | some (.file _) => if endsInName cs then .found (p ++ names cs) else .failed
  | _ =>
    if endsInName cs ∧ t.node (p ++ names cs).dropLast = some .dir then .missing (p ++ names cs)
    else .failed

variable {t : Tree ν β} {root p q : List ν} {cs : List (Component ν)}

theorem names_append (a b : List (Component ν)) : names (a ++ b) = names a ++ names b := by
  induction a with
  | nil => rfl
  | cons c a ih => cases c <;> simp [names, ih]

theorem endsInName_append (a : List (Component ν)) {b : List (Component ν)} (h : endsInName b = true) :
    endsInName (a ++ b) = true := by
  induction a with
  | nil => exact h
  | cons c a ih => cases c <;> simp [endsInName, ih]

theorem endsInName_of_names_nil (h : names cs = []) : endsInName cs = false := by
  induction cs with
  | nil => rfl
  | cons c cs ih =>
    cases c with
    | here => exact ih h
    | parent => exact ih h
    | name n => exact absurd h (List.cons_ne_nil _ _)

/-- Nothing lies in what is no directory. -/
theorem Tree.none_of_not_dir (h : t.node p ≠ some .dir) (hq : q ≠ []) : t.node (p ++ q) = none := by
  by_contra hn
  exact h (t.dir_of_prefix (Option.isSome_iff_ne_none.mpr hn) hq)

/-- No path leads on from what is no directory. -/
theorem lookup_blocked (h : t.node p ≠ some .dir) : lookup t p cs = .failed := by
  by_cases hnil : names cs = []
  · have he := endsInName_of_names_nil hnil
    unfold lookup
    rw [hnil, List.append_nil, he]
    split <;> simp_all
  · have hnone := t.none_of_not_dir h hnil
    unfold lookup
    rw [hnone]
    apply if_neg
    rintro ⟨-, hd⟩
    rcases List.eq_nil_or_concat (names cs) with hq | ⟨q, n, hq⟩
    · exact hnil hq
    · rw [hq, List.concat_eq_append, ← List.append_assoc, List.dropLast_concat] at hd
      by_cases hqn : q = []
      · rw [hqn, List.append_nil] at hd
        exact h hd
      · rw [t.none_of_not_dir h hqn] at hd
        cases hd

theorem lookup_name (n : ν) (hcs : cs ≠ []) :
    lookup t p (.name n :: cs) = lookup t (p ++ [n]) cs := by
  have he : endsInName (.name n :: cs) = endsInName cs := by
    simp [endsInName, hcs]
  unfold lookup
  rw [he, names, List.append_assoc, List.singleton_append]

theorem walk_lookup {k : ℕ} (hl : Linkless t root) (hcs : .parent ∉ cs) (hp : Beneath root p)
    (hd : t.node p = some .dir) : walk t k p cs = lookup t p cs := by
  induction cs generalizing p with
  | nil => simp [lookup, names, hd]
  | cons c cs ih =>
    have hcs' : .parent ∉ cs := fun hm => hcs (List.mem_cons_of_mem _ hm)
    cases c with
    | here =>
      rw [walk_here, ih hcs' hp hd]
      rfl
    | parent => exact absurd List.mem_cons_self hcs
    | name n =>
      by_cases hnil : cs = []
      · subst hnil
        have hlast : endsInName [Component.name n] = true := rfl
        unfold lookup
        rw [hlast, names, names, List.dropLast_concat]
        match hn : t.node (p ++ [n]) with
        | none => simp [walk_none hn, hd]
        | some .dir => rw [walk_dir hn, walk_nil]
        | some (.file data) => rw [walk_file hn]; rfl
        | some (.link target) => exact absurd hn (hl _ (hp.snoc n) target)
      · rw [lookup_name n hnil]
        match hn : t.node (p ++ [n]) with
        | none =>
          rw [walk_none hn, lookup_blocked (by simp [hn])]
          simp [hnil]
        | some .dir =>
          rw [walk_dir hn]
          exact ih hcs' (hp.snoc n) hn
        | some (.file data) =>
          rw [walk_file hn, lookup_blocked (by simp [hn])]
          simp [hnil]
        | some (.link target) => exact absurd hn (hl _ (hp.snoc n) target)

theorem lookup_place (h : lookup t p cs = .found q ∨ lookup t p cs = .missing q) :
    q = p ++ names cs := by
  apply Eq.symm
  unfold lookup at h
  split at h
  · simpa using h
  · split_ifs at h
    · simpa using h
    · simp at h
  · split_ifs at h
    · simpa using h
    · simp at h

/-- The trees hold the same in a directory. -/
def SameBeneath (root : List ν) (t t' : Tree ν β) : Prop :=
  ∀ p, Beneath root p → t.node p = t'.node p

theorem SameBeneath.linkless {t' : Tree ν β} (h : SameBeneath root t t') (hl : Linkless t root) :
    Linkless t' root := by
  intro p hp target hn
  exact hl p hp target ((h p hp).trans hn)

theorem lookup_congr {t' : Tree ν β} (h : SameBeneath root t t') (hp : Beneath root p) :
    lookup t p cs = lookup t' p cs := by
  have hb : Beneath root (p ++ names cs) := hp.trans (List.prefix_append p _)
  have hd : endsInName cs → t.node (p ++ names cs).dropLast = t'.node (p ++ names cs).dropLast := by
    intro he
    have hne : names cs ≠ [] := fun hnil => by simp [endsInName_of_names_nil hnil] at he
    rw [List.dropLast_append_of_ne_nil hne]
    exact h _ (hp.trans (List.prefix_append p _))
  unfold lookup
  rw [← h _ hb]
  split
  · rfl
  · rfl
  · by_cases he : endsInName cs
    · rw [hd he]
    · simp [he]

end Plain

section Changes

variable [DecidableEq ν]

/-- The directories on the way to a place, and nothing else. -/
def Tree.along (p : List ν) : Tree ν β where
  node q := if q <+: p then some .dir else none
  root := if_pos List.nil_prefix
  parent := by
    intro q n hn
    split_ifs at hn with h
    · exact if_pos ((List.prefix_append q [n]).trans h)
    · cases hn

/-- A file at a place in a directory that holds no directory or link there. -/
def Tree.put (t : Tree ν β) (p : List ν) (data : β) : Tree ν β :=
  if h : t.node p.dropLast = some .dir ∧ p ≠ [] ∧ t.node p ≠ some .dir then
    { node := Function.update t.node p (some (.file data))
      root := by rw [Function.update_of_ne h.2.1.symm, t.root]
      parent := by
        intro q n hn
        by_cases hq : q ++ [n] = p
        · have hne : q ≠ p := fun he => by simpa [he] using congrArg List.length hq
          rw [Function.update_of_ne hne, ← @List.dropLast_concat _ q n, hq]
          exact h.1
        · rw [Function.update_of_ne hq] at hn
          have hd := t.parent q n hn
          have hne : q ≠ p := fun he => h.2.2 (he ▸ hd)
          rw [Function.update_of_ne hne]
          exact hd }
  else t

/-- A directory at a place of a directory where nothing is. -/
def Tree.makeDir (t : Tree ν β) (p : List ν) : Tree ν β :=
  if h : t.node p.dropLast = some .dir ∧ p ≠ [] ∧ t.node p = none then
    { node := Function.update t.node p (some .dir)
      root := by rw [Function.update_of_ne h.2.1.symm, t.root]
      parent := by
        intro q n hn
        by_cases he : q = p
        · rw [he, Function.update_self]
        · rw [Function.update_of_ne he]
          by_cases hq : q ++ [n] = p
          · rw [← @List.dropLast_concat _ q n, hq]
            exact h.1
          · rw [Function.update_of_ne hq] at hn
            exact t.parent q n hn }
  else t

/-- Everything strictly inside of a place is taken away. -/
def Tree.clear (t : Tree ν β) (p : List ν) : Tree ν β where
  node q := if Beneath p q ∧ q ≠ p then none else t.node q
  root := by
    rw [if_neg, t.root]
    rintro ⟨h, hne⟩
    exact hne (List.prefix_nil.mp h).symm
  parent := by
    intro q n hn
    split_ifs at hn with h
    · cases hn
    · rw [if_neg, t.parent q n hn]
      rintro ⟨hq, -⟩
      refine h ⟨hq.snoc n, fun he => ?_⟩
      have hlen := List.IsPrefix.length_le hq
      have := congrArg List.length he
      simp only [List.length_append, List.length_singleton] at this
      omega

/-- The place and everything inside of it is taken away; the root stays. -/
def Tree.remove (t : Tree ν β) (p : List ν) : Tree ν β where
  node q := if Beneath p q ∧ q ≠ [] then none else t.node q
  root := by rw [if_neg (by simp), t.root]
  parent := by
    intro q n hn
    split_ifs at hn with h
    · cases hn
    · rw [if_neg, t.parent q n hn]
      rintro ⟨hq, -⟩
      exact h ⟨hq.snoc n, by simp⟩

variable {t : Tree ν β} {p q : List ν}

theorem linkless_along (p root : List ν) : Linkless (Tree.along p : Tree ν β) root := by
  intro q _ target hn
  simp only [Tree.along] at hn
  split_ifs at hn
  cases hn

theorem node_put {data : β} (h : t.node p.dropLast = some .dir) (hp : p ≠ [])
    (hd : t.node p ≠ some .dir) :
    (t.put p data).node = Function.update t.node p (some (.file data)) := by
  rw [Tree.put, dif_pos ⟨h, hp, hd⟩]

theorem node_put_of_ne {data : β} (h : q ≠ p) : (t.put p data).node q = t.node q := by
  rw [Tree.put]
  split_ifs
  · exact Function.update_of_ne h _ _
  · rfl

theorem node_makeDir (h : t.node p.dropLast = some .dir) (hp : p ≠ []) (hn : t.node p = none) :
    (t.makeDir p).node = Function.update t.node p (some .dir) := by
  rw [Tree.makeDir, dif_pos ⟨h, hp, hn⟩]

theorem node_makeDir_of_ne (h : q ≠ p) : (t.makeDir p).node q = t.node q := by
  rw [Tree.makeDir]
  split_ifs
  · exact Function.update_of_ne h _ _
  · rfl

theorem node_remove_of_not (h : ¬ Beneath p q) : (t.remove p).node q = t.node q := by
  simp [Tree.remove, h]

theorem node_clear_of_not (h : ¬ Beneath p q) : (t.clear p).node q = t.node q := by
  simp [Tree.clear, h]

end Changes

end PathResolution
