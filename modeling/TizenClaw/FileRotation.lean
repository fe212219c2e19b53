import Mathlib.Data.List.Flatten
import Mathlib.Data.List.Infix
import Mathlib.Logic.Function.Basic

/-! Files that are rotated: a live file, slot 0, and numbered ones behind it. When the live file is
full each slot is moved up by one, and what the last slot held is gone. -/
namespace FileRotation

variable {α γ ρ : Type*} [DecidableEq α]

/-- The files under their names. -/
abbrev Files (α γ : Type*) := α → Option (List γ)

section Slots

/-- `rename`, if the system does carry it out: without the first file nothing happens. -/
def move (done : Bool) (old new : α) (fs : Files α γ) : Files α γ :=
  match done, fs old with
  | true, some content => Function.update (Function.update fs old none) new (some content)
  | _, _ => fs

def remove (done : Bool) (a : α) (fs : Files α γ) : Files α γ :=
  if done then Function.update fs a none else fs

/-- The slots below `k` are moved up by one, the highest first. -/
def shift (name : ℕ → α) (done : ℕ → Bool) : ℕ → Files α γ → Files α γ
  | 0, fs => fs
  | k + 1, fs => shift name done k (move (done k) (name k) (name (k + 1)) fs)

/-- What is appended makes the file if there is none. -/
def append (done : Bool) (a : α) (add : List γ → List γ) (fs : Files α γ) : Files α γ :=
  if done then Function.update fs a (some (add ((fs a).getD []))) else fs

/-- What the system carries out of one write. -/
structure Outcome where
  removed : Bool := true
  moved : ℕ → Bool := fun _ => true
  opened : Bool := true

def rotate (name : ℕ → α) (k : ℕ) (o : Outcome) (fs : Files α γ) : Files α γ :=
  shift name o.moved k (remove o.removed (name k) fs)

def write (name : ℕ → α) (k : ℕ) (full : List γ → Bool) (o : Outcome) (add : List γ → List γ)
    (fs : Files α γ) : Files α γ :=
  append o.opened (name 0) add (if (fs (name 0)).any full then rotate name k o fs else fs)

/-- What the slots up to `k` hold, the oldest first. -/
def stored (name : ℕ → α) (fs : Files α γ) : ℕ → List γ
  | 0 => (fs (name 0)).getD []
  | k + 1 => (fs (name (k + 1))).getD [] ++ stored name fs k

end Slots

theorem shift_eq_foldl (name : ℕ → α) (done : ℕ → Bool) (k : ℕ) (fs : Files α γ) :
    shift name done (k + 1) fs = move (done 0) (name 0) (name 1)
      ((List.range' 1 k).reverse.foldl (fun fs i => move (done i) (name i) (name (i + 1)) fs)
        fs) := by
  induction k generalizing fs with
  | zero => rfl
  | succ k ih =>
    rw [shift, ih, List.range'_concat, List.reverse_append, List.reverse_singleton,
      List.singleton_append, List.foldl_cons, Nat.one_mul, Nat.add_comm 1 k]

section Frame

variable {name : ℕ → α} {fs : Files α γ} {a : α} {k : ℕ}

theorem move_none {done : Bool} {old new : α} (h : fs old = none) : move done old new fs = fs := by
  unfold move
  rw [h]
  cases done with
  | false => rfl
  | true => rfl

theorem move_some {old new : α} {content : List γ} (h : fs old = some content) :
    move true old new fs = Function.update (Function.update fs old none) new (some content) := by
  unfold move
  rw [h]

theorem move_cases (done : Bool) (old new : α) (fs : Files α γ) : move done old new fs = fs ∨
    ∃ content, fs old = some content ∧ move done old new fs =
      Function.update (Function.update fs old none) new (some content) := by
  unfold move
  split
  next content hold => exact .inr ⟨content, hold, rfl⟩
  · exact .inl rfl

theorem move_other {done : Bool} {old new : α} (ho : a ≠ old) (hn : a ≠ new) :
    move done old new fs a = fs a := by
  obtain hsame | ⟨content, -, hmove⟩ := move_cases done old new fs
  · rw [hsame]
  · rw [hmove, Function.update_of_ne hn, Function.update_of_ne ho]

theorem remove_other {done : Bool} {b : α} (h : a ≠ b) : remove done b fs a = fs a := by
  unfold remove
  split_ifs
  · exact Function.update_of_ne h _ _
  · rfl

theorem append_other {done : Bool} {b : α} {add : List γ → List γ} (h : a ≠ b) :
    append done b add fs a = fs a := by
  unfold append
  split_ifs
  · exact Function.update_of_ne h _ _
  · rfl

theorem shift_other {done : ℕ → Bool} (ha : ∀ i ≤ k, a ≠ name i) :
    shift name done k fs a = fs a := by
  induction k generalizing fs with
  | zero => rfl
  | succ k ih =>
    have hmove : move (done k) (name k) (name (k + 1)) fs a = fs a :=
      move_other (ha k (Nat.le_succ k)) (ha (k + 1) le_rfl)
    exact (ih fun i hi => ha i (hi.trans (Nat.le_succ k))).trans hmove

/-- Files that are no slots stay as they are, whatever the system carries out. -/
theorem write_other {full : List γ → Bool} {o : Outcome} {add : List γ → List γ}
    (ha : ∀ i ≤ k, a ≠ name i) : write name k full o add fs a = fs a := by
  have hrotate : rotate name k o fs a = fs a :=
    (shift_other ha).trans (remove_other (ha k le_rfl))
  unfold write
  rw [append_other (ha 0 (Nat.zero_le k))]
  split_ifs
  · exact hrotate
  · rfl

end Frame

section Order

variable {name : ℕ → α} {fs gs : Files α γ} {k : ℕ}

omit [DecidableEq α] in
theorem stored_congr (h : ∀ i ≤ k, fs (name i) = gs (name i)) :
    stored name fs k = stored name gs k := by
  induction k with
  | zero => exact congrArg (Option.getD · []) (h 0 le_rfl)
  | succ k ih =>
    have hlast := h (k + 1) le_rfl
    exact congrArg₂ (· ++ ·) (congrArg (Option.getD · []) hlast)
      (ih fun i hi => h i (hi.trans (Nat.le_succ k)))

theorem stored_update_above {j : ℕ} {content : Option (List γ)} (hname : Function.Injective name)
    (h : k < j) : stored name (Function.update fs (name j) content) k = stored name fs k := by
  refine stored_congr fun i hi => Function.update_of_ne ?_ _ _
  intro he
  exact absurd (hname he) (by omega)

/-- A slot that loses its content leaves the others in their order. -/
theorem stored_remove_sublist (hname : Function.Injective name) (done : Bool) (j : ℕ) :
    (stored name (remove done (name j) fs) k).Sublist (stored name fs k) := by
  have hslot : ∀ i,
      ((remove done (name j) fs (name i)).getD []).Sublist ((fs (name i)).getD []) := by
    intro i
    by_cases hij : i = j
    · subst hij
      unfold remove
      split_ifs
      · rw [Function.update_self]
        exact List.nil_sublist _
      · exact List.Sublist.refl _
    · rw [remove_other fun he => hij (hname he)]
  induction k with
  | zero => exact hslot 0
  | succ k ih => exact (hslot (k + 1)).append ih

theorem stored_move_sublist (hname : Function.Injective name) (done : Bool) :
    (stored name (move done (name k) (name (k + 1)) fs) (k + 1)).Sublist
      (stored name fs (k + 1)) := by
  obtain hsame | ⟨content, hold, hmove⟩ := move_cases done (name k) (name (k + 1)) fs
  · rw [hsame]
  · -- The content goes up by one place, into which nothing older than it was left.
    have hbelow : stored name (Function.update (Function.update fs (name k) none) (name (k + 1))
        (some content)) k = stored name (Function.update fs (name k) none) k :=
      stored_update_above hname (Nat.lt_succ_self k)
    rw [hmove, stored, hbelow, Function.update_self, Option.getD_some, stored]
    cases k with
    | zero =>
      rw [stored, stored, Function.update_self, hold, Option.getD_none, Option.getD_some,
        List.append_nil]
      exact List.sublist_append_right _ _
    | succ k =>
      rw [stored, stored, Function.update_self, hold, Option.getD_none, Option.getD_some,
        List.nil_append, stored_update_above hname (Nat.lt_succ_self k)]
      exact List.sublist_append_right _ _

/-- Whichever of its renames the system carries out, a shift keeps the order of what it does not
lose. -/
theorem stored_shift_sublist (hname : Function.Injective name) (done : ℕ → Bool) :
    (stored name (shift name done k fs) k).Sublist (stored name fs k) := by
  induction k generalizing fs with
  | zero => exact List.Sublist.refl _
  | succ k ih =>
    have htop : shift name done k (move (done k) (name k) (name (k + 1)) fs) (name (k + 1)) =
        move (done k) (name k) (name (k + 1)) fs (name (k + 1)) := by
      refine shift_other fun i hi he => ?_
      exact absurd (hname he) (by omega)
    refine List.Sublist.trans ?_ (stored_move_sublist hname (done k))
    rw [stored, shift, htop]
    exact (List.Sublist.refl _).append ih

theorem stored_append {add : List γ → List γ} {x : List γ} (hname : Function.Injective name)
    (hadd : ∀ c, add c = c ++ x) (done : Bool) :
    stored name (append done (name 0) add fs) k =
      stored name fs k ++ if done then x else [] := by
  cases done with
  | false => exact (List.append_nil _).symm
  | true =>
    induction k with
    | zero =>
      change (Function.update fs (name 0) _ (name 0)).getD [] = _
      rw [Function.update_self, Option.getD_some, hadd]
      rfl
    | succ k ih =>
      have hne : name (k + 1) ≠ name 0 := fun he => absurd (hname he) (by omega)
      rw [stored, ih, append_other hne, stored, List.append_assoc]

/-- Over a write, whatever fails, what the slots hold keeps its order, and what is written comes
last. -/
theorem stored_write_sublist {full : List γ → Bool} {o : Outcome} {add : List γ → List γ}
    {x : List γ} (hname : Function.Injective name) (hadd : ∀ c, add c = c ++ x) :
    (stored name (write name k full o add fs) k).Sublist
      (stored name fs k ++ if o.opened then x else []) := by
  have hrotate : (stored name (rotate name k o fs) k).Sublist (stored name fs k) :=
    (stored_shift_sublist hname o.moved).trans (stored_remove_sublist hname o.removed k)
  rw [write, stored_append hname hadd]
  apply List.Sublist.append_right
  split_ifs
  · exact hrotate
  · exact List.Sublist.refl _

end Order

section Pieces

/-- Files of pieces, with the pieces put together. -/
def flat (fs : Files α (List γ)) : Files α γ := fun a => (fs a).map List.flatten

variable {name : ℕ → α} {fs : Files α (List γ)} {k : ℕ}

theorem flat_update (a : α) (content : Option (List (List γ))) :
    flat (Function.update fs a content) =
      Function.update (flat fs) a (content.map List.flatten) := by
  funext b
  by_cases hb : b = a
  · subst hb
    rw [flat, Function.update_self, Function.update_self]
  · rw [flat, Function.update_of_ne hb, Function.update_of_ne hb, flat]

theorem flat_move (done : Bool) (old new : α) :
    flat (move done old new fs) = move done old new (flat fs) := by
  cases done with
  | false => rfl
  | true =>
    cases hold : fs old with
    | none =>
      have hflat : flat fs old = none := by rw [flat, hold, Option.map_none]
      rw [move_none hold, move_none hflat]
    | some content =>
      have hflat : flat fs old = some content.flatten := by rw [flat, hold, Option.map_some]
      rw [move_some hold, move_some hflat]
      exact (flat_update new _).trans (congrArg (Function.update · new _) (flat_update old none))

theorem flat_shift (done : ℕ → Bool) :
    flat (shift name done k fs) = shift name done k (flat fs) := by
  induction k generalizing fs with
  | zero => rfl
  | succ k ih => rw [shift, ih, flat_move, shift]

theorem flat_remove (done : Bool) (a : α) : flat (remove done a fs) = remove done a (flat fs) := by
  cases done with
  | false => rfl
  | true => exact flat_update a none

theorem flat_append {add : List γ → List γ} {addPieces : List (List γ) → List (List γ)}
    (hadd : ∀ c, (addPieces c).flatten = add c.flatten) (done : Bool) (a : α) :
    flat (append done a addPieces fs) = append done a add (flat fs) := by
  cases done with
  | false => rfl
  | true =>
    have hcontent : ((fs a).getD []).flatten = (flat fs a).getD [] := by
      unfold flat
      cases fs a with
      | none => rfl
      | some content => rfl
    change flat (Function.update fs a _) = Function.update (flat fs) a _
    rw [flat_update, Option.map_some, hadd, hcontent]

/-- A write of pieces is the write of what they hold. -/
theorem flat_write (full : List γ → Bool) {add : List γ → List γ}
    {addPieces : List (List γ) → List (List γ)} (o : Outcome)
    (hadd : ∀ c, (addPieces c).flatten = add c.flatten) :
    flat (write name k (fun c => full c.flatten) o addPieces fs) =
      write name k full o add (flat fs) := by
  have hfull : (fs (name 0)).any (fun c => full c.flatten) = (flat fs (name 0)).any full := by
    unfold flat
    cases fs (name 0) with
    | none => rfl
    | some content => rfl
  rw [write, flat_append hadd, write, hfull]
  congr 1
  split_ifs
  · rw [rotate, flat_shift, flat_remove, rotate]
  · rfl

omit [DecidableEq α] in
theorem stored_flat : stored name (flat fs) k = (stored name fs k).flatten := by
  have hcontent : ∀ a, (flat fs a).getD [] = ((fs a).getD []).flatten := by
    intro a
    unfold flat
    cases fs a with
    | none => rfl
    | some content => rfl
  induction k with
  | zero => exact hcontent _
  | succ k ih => rw [stored, stored, List.flatten_append, hcontent, ih]

end Pieces

section Generations

/-- A log without an end to its files: the records of each file there has been, the newest first. -/
abbrev Generations (ρ : Type*) := List (List ρ)

def record (full : List ρ → Bool) (x : ρ) : Generations ρ → Generations ρ
  | [] => [[x]]
  | g :: gens => if full g then [x] :: g :: gens else (g ++ [x]) :: gens

def recordAll (full : List ρ → Bool) (gens : Generations ρ) (xs : List ρ) : Generations ρ :=
  xs.foldl (fun gens x => record full x gens) gens

/-- A run of records begins files behind full ones only, and all of it lies in these, in order. -/
theorem recordAll_cons (full : List ρ → Bool) (xs : List ρ) (g : List ρ) (rest : Generations ρ) :
    ∃ live closed, recordAll full (g :: rest) xs = live :: closed ++ rest ∧
      (∀ h ∈ closed, full h = true) ∧ (live :: closed).reverse.flatten = g ++ xs := by
  induction xs generalizing g rest with
  | nil => exact ⟨g, [], rfl, fun _ hm => absurd hm List.not_mem_nil, rfl⟩
  | cons x xs ih =>
    by_cases hfull : full g = true
    · obtain ⟨live, closed, hall, hclosed, hrecords⟩ := ih [x] (g :: rest)
      refine ⟨live, closed ++ [g], ?_, ?_, ?_⟩
      · rw [recordAll, List.foldl_cons, record, if_pos hfull]
        exact hall.trans (by rw [← List.cons_append, List.append_assoc, List.singleton_append])
      · intro h hm
        rcases List.mem_append.mp hm with hm | hm
        · exact hclosed h hm
        · rw [List.mem_singleton.mp hm]
          exact hfull
      · rw [← List.cons_append, List.reverse_append, List.reverse_singleton, List.singleton_append,
          List.flatten_cons, hrecords, List.singleton_append]
    · obtain ⟨live, closed, hall, hclosed, hrecords⟩ := ih (g ++ [x]) rest
      refine ⟨live, closed, ?_, hclosed, ?_⟩
      · rw [recordAll, List.foldl_cons, record, if_neg hfull]
        exact hall
      · rw [hrecords, List.append_assoc, List.singleton_append]

/-- A bound that holds of each file when it is begun and when a record is added to it. -/
theorem recordAll_bound {full : List ρ → Bool} {B : List ρ → Prop} {xs : List ρ}
    {gens : Generations ρ} (hgens : ∀ g ∈ gens, B g) (hnew : ∀ x ∈ xs, B [x])
    (hadd : ∀ x ∈ xs, ∀ g, full g = false → B (g ++ [x])) : ∀ g ∈ recordAll full gens xs, B g := by
  induction xs generalizing gens with
  | nil => exact hgens
  | cons x xs ih =>
    have hx := List.mem_cons_self (a := x) (l := xs)
    apply ih
    · intro g hg
      cases gens with
      | nil => exact List.mem_singleton.mp hg ▸ hnew x hx
      | cons g₀ gens =>
        simp only [record] at hg
        split_ifs at hg with hfull
        · rcases List.mem_cons.mp hg with rfl | hg
          · exact hnew x hx
          · exact hgens g hg
        · rcases List.mem_cons.mp hg with rfl | hg
          · exact hadd x hx g₀ (Bool.eq_false_iff.mpr hfull)
          · exact hgens g (List.mem_cons_of_mem g₀ hg)
    · intro y hy
      exact hnew y (List.mem_cons_of_mem x hy)
    · intro y hy
      exact hadd y (List.mem_cons_of_mem x hy)

end Generations

section Shown

variable {name : ℕ → α} {fs : Files α γ} {k : ℕ} {render : List ρ → List γ}

/-- The slots hold the newest generations, as they are written out. -/
def Shows (render : List ρ → List γ) (name : ℕ → α) (k : ℕ) (fs : Files α γ)
    (gens : Generations ρ) : Prop :=
  ∀ i ≤ k, (fs (name i)).getD [] = render (gens.getD i [])

/-- Behind the live file no slot is left out. -/
def Gapless (name : ℕ → α) (k : ℕ) (fs : Files α γ) : Prop :=
  ∀ i, 0 < i → i < k → fs (name i) = none → fs (name (i + 1)) = none

theorem shift_zero (hname : Function.Injective name) (hk : 0 < k) :
    shift name (fun _ => true) k fs (name 0) = none := by
  induction k generalizing fs with
  | zero => exact absurd hk (lt_irrefl 0)
  | succ k ih =>
    cases k with
    | zero =>
      have hne : name 0 ≠ name 1 := fun he => absurd (hname he) (by omega)
      cases hold : fs (name 0) with
      | none =>
        change move true (name 0) (name 1) fs (name 0) = none
        rw [move_none hold, hold]
      | some content =>
        change move true (name 0) (name 1) fs (name 0) = none
        rw [move_some hold, Function.update_of_ne hne, Function.update_self]
    | succ k => exact ih (Nat.succ_pos k)

/-- When all renames are carried out each slot holds what the one below it held; the last one keeps
its file if there is none to replace it. -/
theorem shift_succ (hname : Function.Injective name) {i : ℕ} (hi : i < k) :
    shift name (fun _ => true) k fs (name (i + 1)) =
      if i + 1 = k then (fs (name i)).or (fs (name k)) else fs (name i) := by
  have hne : ∀ {m n : ℕ}, m ≠ n → name m ≠ name n := fun h he => h (hname he)
  induction k generalizing fs with
  | zero => exact absurd hi (Nat.not_lt_zero i)
  | succ k ih =>
    -- Once the slot below the last one has been moved it is empty, and so takes any file.
    have hmoved : move true (name k) (name (k + 1)) fs (name k) = none := by
      cases hold : fs (name k) with
      | none => rw [move_none hold, hold]
      | some content =>
        rw [move_some hold, Function.update_of_ne (hne (by omega)), Function.update_self]
    have hbelow : ∀ j < k, move true (name k) (name (k + 1)) fs (name j) = fs (name j) := by
      intro j hj
      exact move_other (hne (by omega)) (hne (by omega))
    rw [shift]
    rcases Nat.lt_succ_iff_lt_or_eq.mp hi with hi | rfl
    · rw [ih hi, hmoved, Option.or_none, ite_self, hbelow i hi, if_neg (by omega)]
    · have hlast : ∀ j ≤ i, name (i + 1) ≠ name j := fun j hj => hne (by omega)
      rw [shift_other hlast, if_pos rfl]
      cases hold : fs (name i) with
      | none => rw [move_none hold, Option.none_or]
      | some content => rw [move_some hold, Function.update_self, Option.some_or]

variable {removed : Bool}

theorem rotate_zero (hname : Function.Injective name) (hk : 0 < k) :
    rotate name k { removed } fs (name 0) = none :=
  shift_zero hname hk

/-- A rotation in which nothing fails moves each slot up by one. -/
theorem rotate_succ (hname : Function.Injective name) (hgap : removed = true ∨ Gapless name k fs)
    (hlive : fs (name 0) ≠ none) {i : ℕ} (hi : i < k) :
    rotate name k { removed } fs (name (i + 1)) = fs (name i) := by
  have hother : remove removed (name k) fs (name i) = fs (name i) :=
    remove_other fun he => absurd (hname he) (by omega)
  rw [rotate, shift_succ hname hi, hother]
  split_ifs with hlast
  · cases hold : fs (name i) with
    | some content => exact Option.some_or
    | none =>
      rw [Option.none_or]
      rcases hgap with rfl | hgap
      · exact Function.update_self _ _ _
      · -- The live file is there, so that this slot is one behind it.
        have hpos : 0 < i := by
          refine Nat.pos_of_ne_zero fun h0 => hlive ?_
          rw [← hold, h0]
        have hnone : fs (name k) = none := by
          rw [← hlast]
          exact hgap i hpos hi hold
        cases removed with
        | false => exact hnone
        | true => exact Function.update_self _ _ _
  · rfl

theorem write_rotated {full : List γ → Bool} (add : List γ → List γ)
    (hname : Function.Injective name) (hk : 0 < k)
    (hgap : removed = true ∨ Gapless name k fs) {content : List γ}
    (hlive : fs (name 0) = some content) (hfull : full content = true) :
    write name k full { removed } add fs (name 0) = some (add []) ∧
      ∀ i < k, write name k full { removed } add fs (name (i + 1)) = fs (name i) := by
  have hany : (fs (name 0)).any full = true := by rw [hlive, Option.any_some, hfull]
  have hne : ∀ i, name (i + 1) ≠ name 0 := fun i he => absurd (hname he) (by omega)
  rw [write, if_pos hany]
  constructor
  · change Function.update _ (name 0) _ (name 0) = _
    rw [Function.update_self, rotate_zero hname hk, Option.getD_none]
  · intro i hi
    rw [append_other (hne i)]
    exact rotate_succ hname hgap (by rw [hlive]; exact Option.some_ne_none _) hi

theorem write_kept (removed : Bool) (k : ℕ) {full : List γ → Bool} (add : List γ → List γ)
    (hname : Function.Injective name) (hfull : (fs (name 0)).any full = false) :
    write name k full { removed } add fs (name 0) = some (add ((fs (name 0)).getD [])) ∧
      ∀ i, write name k full { removed } add fs (name (i + 1)) = fs (name (i + 1)) := by
  have hne : ∀ i, name (i + 1) ≠ name 0 := fun i he => absurd (hname he) (by omega)
  rw [write, hfull, if_neg Bool.false_ne_true]
  exact ⟨Function.update_self _ _ _, fun i => append_other (hne i)⟩

theorem gapless_write {full : List γ → Bool} {add : List γ → List γ}
    (hname : Function.Injective name) (hk : 0 < k) (hgap : Gapless name k fs) :
    Gapless name k (write name k full { removed } add fs) := by
  intro i h0 hi hnone
  obtain ⟨j, rfl⟩ := Nat.exists_eq_succ_of_ne_zero h0.ne'
  by_cases hany : (fs (name 0)).any full = true
  · obtain ⟨content, hlive, hfull⟩ := (Option.any_eq_true _ _).mp hany
    obtain ⟨-, hslots⟩ := write_rotated add hname hk (.inr hgap) hlive hfull
    rw [hslots j (by omega)] at hnone
    rw [hslots (j + 1) hi]
    rcases Nat.eq_zero_or_pos j with rfl | hj
    · rw [hlive] at hnone
      cases hnone
    · exact hgap j hj (by omega) hnone
  · obtain ⟨-, hslots⟩ := write_kept removed k add hname (Bool.eq_false_iff.mpr hany)
    rw [hslots] at hnone ⊢
    exact hgap (j + 1) h0 hi hnone

/-- A write in which nothing fails records one more: the slots still hold the newest generations. -/
theorem shows_write {full : List γ → Bool} {add : List γ → List γ} {gens : Generations ρ} {x : ρ}
    (hname : Function.Injective name) (hk : 0 < k) (hgap : removed = true ∨ Gapless name k fs)
    (hnil : render [] = []) (hempty : full [] = false)
    (hadd : ∀ g, add (render g) = render (g ++ [x])) (hshows : Shows render name k fs gens) :
    Shows render name k (write name k full { removed } add fs)
      (record (fun g => full (render g)) x gens) := by
  have hhead : (fs (name 0)).getD [] = render (gens.getD 0 []) := hshows 0 (Nat.zero_le k)
  have hany : (fs (name 0)).any full = full (render (gens.getD 0 [])) := by
    rw [← hhead]
    cases fs (name 0) with
    | none => exact hempty.symm
    | some content => rfl
  by_cases hfull : full (render (gens.getD 0 [])) = true
  · obtain ⟨content, hlive, hcontent⟩ := (Option.any_eq_true _ _).mp (hany.trans hfull)
    obtain ⟨hzero, hslots⟩ := write_rotated add hname hk hgap hlive hcontent
    have hrecord : record (fun g => full (render g)) x gens = [x] :: gens := by
      cases gens with
      | nil =>
        rw [List.getD_nil, hnil, hempty] at hfull
        cases hfull
      | cons g gens => exact if_pos hfull
    rw [hrecord]
    intro i hi
    cases i with
    | zero =>
      rw [hzero, Option.getD_some, List.getD_cons_zero, ← hnil, hadd]
      rfl
    | succ i =>
      rw [hslots i (by omega), List.getD_cons_succ]
      exact hshows i (by omega)
  · obtain ⟨hzero, hslots⟩ := write_kept removed k add hname
      (hany.trans (Bool.eq_false_iff.mpr hfull))
    have hrecord : record (fun g => full (render g)) x gens =
        (gens.getD 0 [] ++ [x]) :: gens.tail := by
      cases gens with
      | nil => rfl
      | cons g gens => exact if_neg hfull
    rw [hrecord]
    intro i hi
    cases i with
    | zero => rw [hzero, Option.getD_some, List.getD_cons_zero, hhead, hadd]
    | succ i =>
      rw [hslots i, List.getD_cons_succ, hshows (i + 1) hi]
      cases gens with
      | nil => rfl
      | cons g gens => rw [List.getD_cons_succ, List.tail_cons]

omit [DecidableEq α] in
theorem stored_of_shows {gens : Generations ρ} (hnil : render [] = [])
    (hshows : Shows render name k fs gens) :
    stored name fs k = ((gens.take (k + 1)).map render).reverse.flatten := by
  induction k with
  | zero =>
    rw [stored, hshows 0 le_rfl]
    cases gens with
    | nil => exact hnil
    | cons g gens => exact (List.append_nil _).symm
  | succ k ih =>
    rw [stored, ih fun i hi => hshows i (hi.trans (Nat.le_succ k)), hshows (k + 1) le_rfl,
      List.take_add_one (i := k + 1), List.getD_eq_getElem?_getD]
    cases gens[k + 1]? with
    | none =>
      rw [Option.getD_none, hnil, Option.toList_none, List.append_nil, List.nil_append]
    | some g =>
      rw [Option.getD_some, Option.toList_some, List.map_append, List.reverse_append,
        List.flatten_append]
      exact congrArg (· ++ _) (List.append_nil _).symm

omit [DecidableEq α] in
/-- What the slots hold is the end of all that was written. -/
theorem stored_isSuffix {gens : Generations ρ} (hnil : render [] = [])
    (hshows : Shows render name k fs gens) :
    stored name fs k <:+ (gens.map render).reverse.flatten := by
  rw [stored_of_shows hnil hshows]
  conv_rhs => rw [← List.take_append_drop (k + 1) gens, List.map_append, List.reverse_append,
    List.flatten_append]
  exact List.suffix_append _ _

omit [DecidableEq α] in
/-- As long as no more files have been closed than there are slots behind the live one, these and
the live one are all there. -/
theorem isSuffix_stored {live : List ρ} {closed rest : Generations ρ} (hnil : render [] = [])
    (hshows : Shows render name k fs (live :: closed ++ rest)) (hk : closed.length ≤ k) :
    ((live :: closed).map render).reverse.flatten <:+ stored name fs k := by
  have htake : (live :: closed ++ rest).take (k + 1) =
      live :: closed ++ rest.take (k - closed.length) := by
    rw [List.take_append, List.take_of_length_le (by rw [List.length_cons]; omega),
      List.length_cons, Nat.add_sub_add_right]
  rw [stored_of_shows hnil hshows, htake, List.map_append, List.reverse_append,
    List.flatten_append]
  exact List.suffix_append _ _

theorem length_flatten_reverse_ge {n : ℕ} {ls : List (List γ)} (h : ∀ l ∈ ls, n ≤ l.length) :
    ls.length * n ≤ ls.reverse.flatten.length := by
  induction ls with
  | nil => exact (Nat.zero_mul n).le
  | cons l ls ih =>
    have hl := h l List.mem_cons_self
    have hrest := ih fun m hm => h m (List.mem_cons_of_mem l hm)
    rw [List.reverse_cons, List.flatten_append, List.length_append, List.flatten_singleton,
      List.length_cons, Nat.succ_mul]
    omega

omit [DecidableEq α] in
/-- Once as many files have been closed as there are slots behind the live one, these are full. -/
theorem length_stored_ge {live : List ρ} {closed rest : Generations ρ} {n : ℕ}
    (hnil : render [] = []) (hshows : Shows render name k fs (live :: closed ++ rest))
    (hk : k ≤ closed.length) (hclosed : ∀ g ∈ closed, n ≤ (render g).length) :
    k * n ≤ (stored name fs k).length := by
  have htake : (live :: closed ++ rest).take (k + 1) = live :: closed.take k := by
    rw [List.cons_append, List.take_succ_cons, List.take_append_of_le_length hk]
  have hslots : ∀ l ∈ (closed.take k).map render, n ≤ l.length := by
    intro l hl
    obtain ⟨g, hg, rfl⟩ := List.mem_map.mp hl
    exact hclosed g (List.mem_of_mem_take hg)
  have hlen := length_flatten_reverse_ge hslots
  rw [List.length_map, List.length_take_of_le hk] at hlen
  rw [stored_of_shows hnil hshows, htake, List.map_cons, List.reverse_cons, List.flatten_append,
    List.length_append]
  omega

end Shown

end FileRotation
