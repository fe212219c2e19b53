import TizenClaw.JsonStorable

/-! Values that differ in one member, or in the elements of a container, and in nothing else. -/
namespace JsonUpdate

open ByteString JsonValue JsonRoundTrip JsonStorable

/-- Objects with the same keys, or the same value. -/
def SameKeys : Json → Json → Prop
  | .obj m, .obj m' => m'.map Prod.fst = m.map Prod.fst
  | j, j' => j' = j

theorem SameKeys.refl (j : Json) : SameKeys j j := by
  cases j <;> rfl

/-- The values differ at most in what they have under a key, where a relation holds. -/
structure AtMember (key : Bytes) (R : Json → Json → Prop) (j j' : Json) : Prop where
  same : SameKeys j j'
  others : ∀ k, k ≠ key → j'.member? k = j.member? k
  member : Option.Rel R (j.member? key) (j'.member? key)

/-- The values are the same but for their elements, between which a relation holds. -/
structure AtElements (R : Json → Json → Prop) (j j' : Json) : Prop where
  same : SameKeys j j' ∨ j.isArray = true ∧ j'.isArray = true
  elements : List.Forall₂ R j.elements j'.elements

/-- A value with other elements. -/
def setElements : Json → List Json → Json
  | .arr _, l => .arr l
  | .obj m, l => .obj (List.zipWith (fun e v => (e.1, v)) m l)
  | j, _ => j

variable {key : Bytes} {R R' : Json → Json → Prop} {j j' v : Json} {l l' : List Json}

section Relations

theorem rel_and {x y : Option Json} (h : Option.Rel R x y) (h' : Option.Rel R' x y) :
    Option.Rel (fun a b => R a b ∧ R' a b) x y := by
  cases h with
  | none => exact .none
  | some hr =>
    cases h' with
    | some hr' => exact .some ⟨hr, hr'⟩

theorem AtMember.mono (h : AtMember key R j j')
    (hsub : ∀ v ∈ j.member? key, ∀ v', R v v' → R' v v') : AtMember key R' j j' := by
  refine ⟨h.same, h.others, ?_⟩
  have hm := h.member
  generalize j'.member? key = y at hm
  generalize hx : j.member? key = x at hm
  cases hm with
  | none => exact .none
  | some hr => exact .some (hsub _ hx _ hr)

theorem AtMember.and (h : AtMember key R j j') (h' : AtMember key R' j j') :
    AtMember key (fun a b => R a b ∧ R' a b) j j' :=
  ⟨h.same, h.others, rel_and h.member h'.member⟩

theorem AtMember.refl (h : ∀ v ∈ j.member? key, R v v) : AtMember key R j j := by
  refine ⟨.refl j, fun k _ => rfl, ?_⟩
  cases hx : j.member? key with
  | none => exact .none
  | some v => exact .some (h v hx)

theorem AtMember.left (h : AtMember key R j j') (hv : j.member? key = some v) :
    ∃ v', j'.member? key = some v' ∧ R v v' := by
  have hm := h.member
  rw [hv] at hm
  generalize j'.member? key = y at hm
  cases hm with
  | some hr => exact ⟨_, rfl, hr⟩

theorem AtMember.right (h : AtMember key R j j') (hv : j'.member? key = some v) :
    ∃ u, j.member? key = some u ∧ R u v := by
  have hm := h.member
  rw [hv] at hm
  generalize j.member? key = x at hm
  cases hm with
  | some hr => exact ⟨_, rfl, hr⟩

theorem forall₂_left {x : Json} (h : List.Forall₂ R l l') (hx : x ∈ l) :
    ∃ y ∈ l', R x y := by
  induction h with
  | nil => cases hx
  | cons hr _ ih =>
    rcases List.mem_cons.mp hx with rfl | hx
    · exact ⟨_, List.mem_cons_self, hr⟩
    · obtain ⟨y, hy, hr⟩ := ih hx
      exact ⟨y, List.mem_cons_of_mem _ hy, hr⟩

/-- Only objects have members to differ in. -/
theorem AtMember.eq_of_not_obj (h : AtMember key R j j') (hj : ∀ m, j ≠ .obj m) : j' = j := by
  cases j with
  | obj m => exact absurd rfl (hj m)
  | _ => exact h.same

theorem AtElements.mono (h : AtElements R j j') (hsub : ∀ x ∈ j.elements, ∀ y, R x y → R' x y) :
    AtElements R' j j' := by
  have hmem := (List.forall₂_and_left _ _).mpr ⟨fun x hx => hx, h.elements⟩
  exact ⟨h.same, hmem.imp fun x y hxy => hsub x hxy.1 y hxy.2⟩

theorem AtElements.and (h : AtElements R j j') (h' : AtElements R' j j') :
    AtElements (fun a b => R a b ∧ R' a b) j j' :=
  ⟨h.same, List.Forall₂.mp (fun _ _ => And.intro) h.elements h'.elements⟩

theorem AtElements.refl (h : ∀ x ∈ j.elements, R x x) : AtElements R j j :=
  ⟨Or.inl (.refl j), List.forall₂_same.mpr h⟩

theorem AtElements.left {x : Json} (h : AtElements R j j') (hx : x ∈ j.elements) :
    ∃ y ∈ j'.elements, R x y := forall₂_left h.elements hx

theorem AtElements.right {y : Json} (h : AtElements R j j') (hy : y ∈ j'.elements) :
    ∃ x ∈ j.elements, R x y := forall₂_left h.elements.flip hy

end Relations

section Operations

theorem insertMember_fst {m : List (Bytes × Json)} (hs : KeysSorted m)
    (h : key ∈ m.map Prod.fst) : (insertMember key v m).map Prod.fst = m.map Prod.fst := by
  induction m with
  | nil => cases h
  | cons e m ih =>
    obtain ⟨k, w⟩ := e
    rw [KeysSorted, List.map_cons, List.pairwise_cons] at hs
    rw [insertMember]
    by_cases hk : key = k
    · rw [if_pos hk, hk]
      rfl
    have hmem : key ∈ m.map Prod.fst := by
      rcases List.mem_cons.mp h with h | h
      · exact absurd h hk
      · exact h
    have hlater : k < key := hs.1 key hmem
    rw [if_neg hk, if_neg (List.lt_asymm hlater), List.map_cons, List.map_cons, ih hs.2 hmem]

/-- A member that is there is replaced, and nothing else. -/
theorem atMember_insert {m : List (Bytes × Json)} (hs : KeysSorted m) {u : Json}
    (hu : m.lookup key = some u) (hr : R u v) :
    AtMember key R (.obj m) (.obj (insertMember key v m)) := by
  refine ⟨?_, ?_, ?_⟩
  · exact insertMember_fst hs (List.mem_map_of_mem (OrderedMap.mem_of_lookup hu))
  · intro k hk
    rw [Json.member?, Json.member?, lookup_insertMember, if_neg hk]
  · rw [Json.member?, Json.member?, hu, lookup_insertMember, if_pos rfl]
    exact .some hr

theorem elements_zipWith {m : List (Bytes × Json)} (h : l.length = m.length) :
    (List.zipWith (fun e v => (e.1, v)) m l).map Prod.snd = l ∧
      (List.zipWith (fun e v => (e.1, v)) m l).map Prod.fst = m.map Prod.fst := by
  induction m generalizing l with
  | nil =>
    obtain rfl := List.length_eq_zero_iff.mp h
    exact ⟨rfl, rfl⟩
  | cons e m ih =>
    cases l with
    | nil => cases h
    | cons v l =>
      obtain ⟨hsnd, hfst⟩ := ih (Nat.succ.inj h)
      simp only [List.zipWith_cons_cons, List.map_cons, hsnd, hfst, and_self]

/-- The elements are replaced, and a value that is its own element stays. -/
theorem atElements_set (h : List.Forall₂ R j.elements l)
    (hown : ∀ x y, R x y → (∀ m, x ≠ .obj m) → y = x) : AtElements R j (setElements j l) := by
  have hlength := h.length_eq.symm
  cases j with
  | arr xs => exact ⟨Or.inr ⟨rfl, rfl⟩, h⟩
  | obj m =>
    rw [Json.elements, List.length_map] at hlength
    obtain ⟨hsnd, hfst⟩ := elements_zipWith hlength
    have helements : (setElements (.obj m) l).elements = l := hsnd
    refine ⟨Or.inl hfst, ?_⟩
    rwa [helements]
  | null => exact ⟨Or.inl rfl, .nil⟩
  | _ =>
    refine ⟨Or.inl rfl, ?_⟩
    obtain ⟨x, l, hx, hl, rfl⟩ := List.forall₂_cons_left_iff.mp h
    obtain rfl := hown _ x hx fun m hm => by cases hm
    exact .cons hx .nil

variable {readFloat : Bytes → Option NumberText}

theorem storable_elements (h : Storable readFloat j) : ∀ x ∈ j.elements, Storable readFloat x := by
  cases j with
  | arr l => exact storableList_iff.mp h
  | obj m =>
    intro x hx
    obtain ⟨e, he, rfl⟩ := List.mem_map.mp hx
    exact (storableMembers_iff.mp h.2 e he).2
  | null => exact fun x hx => absurd hx List.not_mem_nil
  | _ =>
    intro x hx
    obtain rfl := List.mem_singleton.mp hx
    exact h

theorem storable_setElements (h : Storable readFloat j) (hlength : l.length = j.elements.length)
    (hl : ∀ x ∈ l, Storable readFloat x) : Storable readFloat (setElements j l) := by
  cases j with
  | arr xs => exact storableList_iff.mpr hl
  | obj m =>
    rw [Json.elements, List.length_map] at hlength
    obtain ⟨hsnd, hfst⟩ := elements_zipWith hlength
    refine ⟨?_, storableMembers_iff.mpr fun e he => ⟨?_, ?_⟩⟩
    · rw [KeysSorted, hfst]
      exact h.1
    · have hkey := List.mem_map_of_mem (f := Prod.fst) he
      rw [hfst] at hkey
      obtain ⟨e', he', heq⟩ := List.mem_map.mp hkey
      rw [← heq]
      exact (storableMembers_iff.mp h.2 e' he').1
    · have hvalue := List.mem_map_of_mem (f := Prod.snd) he
      rw [hsnd] at hvalue
      exact hl e.2 hvalue
  | _ => exact h

end Operations

end JsonUpdate
