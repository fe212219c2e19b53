import TizenClaw.ByteLines
import TizenClaw.WorkflowEngine

/-! Interpolation of a template against the simultaneous substitution of its placeholders. -/
namespace Interpolation

open ByteString ByteLines JsonValue PipelineExecutor

section Templates

def placeholder (name : Bytes) : Bytes := openBraces ++ name ++ closeBraces

theorem length_placeholder (name : Bytes) : (placeholder name).length = name.length + 4 := by
  have hopen : openBraces.length = 2 := by decide
  have hclose : closeBraces.length = 2 := by decide
  unfold placeholder
  rw [List.length_append, List.length_append, hopen, hclose]
  omega

theorem placeholder_ne_nil (name : Bytes) : placeholder name ≠ [] := by
  intro h
  have hlen := length_placeholder name
  rw [h] at hlen
  cases hlen

/-- A template cut at its placeholders: their names, each with the text in front of it, and the text
behind the last. `skip` bytes belong to the placeholder before. -/
def cut (skip : ℕ) (literal : Bytes) : Bytes → List (Bytes × Bytes) × Bytes
  | [] => ([], literal)
  | c :: s =>
    match skip with
    | skip + 1 => cut skip literal s
    | 0 => match variableAt (c :: s) with
      | some name =>
        ((literal, name) :: (cut (name.length + 3) [] s).1, (cut (name.length + 3) [] s).2)
      | none => cut 0 (literal ++ [c]) s

def written (parts : List (Bytes × Bytes)) : Bytes :=
  parts.flatMap fun p => p.1 ++ placeholder p.2

theorem variableAt_some {s name : Bytes} (h : variableAt s = some name) :
    0x7D ∉ name ∧ s = placeholder name ++ s.drop (name.length + 4) := by
  unfold variableAt at h
  dsimp only at h
  split_ifs at h with hopen hname
  obtain rfl := Option.some.inj h
  obtain ⟨t, rfl⟩ := List.isPrefixOf_iff_prefix.mp hopen
  obtain ⟨u, hu⟩ := List.isPrefixOf_iff_prefix.mp hname.2
  have hdrop : (openBraces ++ t).drop 2 = t := List.drop_left' rfl
  rw [hdrop] at hu ⊢
  refine ⟨fun hmem => ?_, ?_⟩
  · have := List.mem_takeWhile_imp hmem
    exact absurd this (by decide)
  · obtain ⟨name, hn⟩ : ∃ name, t.takeWhile (· ≠ 0x7D) = name := ⟨_, rfl⟩
    have ht : t = name ++ (closeBraces ++ u) := by
      rw [hu, ← hn, List.takeWhile_append_dropWhile]
    rw [hn, ht]
    have hwhole : openBraces ++ (name ++ (closeBraces ++ u)) = placeholder name ++ u := by
      simp only [placeholder, List.append_assoc]
    rw [hwhole, List.drop_left' (length_placeholder name)]

theorem cut_names (skip : ℕ) (literal s : Bytes) :
    (cut skip literal s).1.map Prod.snd = variablesIn skip s := by
  induction s generalizing skip literal with
  | nil => cases skip <;> rfl
  | cons c s ih =>
    cases skip with
    | succ skip => exact ih skip literal
    | zero =>
      rw [cut, variablesIn]
      cases variableAt (c :: s) with
      | none => exact ih 0 _
      | some name => exact congrArg (name :: ·) (ih _ [])

theorem cut_text (skip : ℕ) (literal s : Bytes) :
    written (cut skip literal s).1 ++ (cut skip literal s).2 = literal ++ s.drop skip := by
  induction s generalizing skip literal with
  | nil => cases skip <;> simp [cut, written]
  | cons c s ih =>
    cases skip with
    | succ skip => exact ih skip literal
    | zero =>
      rw [cut]
      cases h : variableAt (c :: s) with
      | none =>
        dsimp only
        rw [ih, List.append_assoc]
        rfl
      | some name =>
        obtain ⟨-, htext⟩ := variableAt_some h
        dsimp only
        rw [written, List.flatMap_cons, ← written, List.append_assoc, ih, List.nil_append,
          List.append_assoc, List.drop_zero]
        congr 1
        exact htext.symm

theorem cut_name {skip : ℕ} {literal s : Bytes} {p : Bytes × Bytes}
    (h : p ∈ (cut skip literal s).1) : 0x7D ∉ p.2 := by
  induction s generalizing skip literal with
  | nil => cases skip <;> cases h
  | cons c s ih =>
    cases skip with
    | succ skip => exact ih h
    | zero =>
      rw [cut] at h
      cases hv : variableAt (c :: s) with
      | none =>
        rw [hv] at h
        exact ih h
      | some name =>
        rw [hv] at h
        rcases List.mem_cons.mp h with rfl | h
        · exact (variableAt_some hv).1
        · exact ih h

end Templates

section Places

theorem find_eq_none_iff {p s : Bytes} (hp : p ≠ []) : find p s = none ↔ ¬ p <:+: s := by
  constructor
  · intro h hinfix
    have hnone := find_none_of_infix hp hinfix h
    have hself := find_self hp []
    rw [List.append_nil, hnone] at hself
    cases hself
  · intro h
    cases hf : find p s with
    | none => rfl
    | some i =>
      obtain ⟨t, ht⟩ := find_eq_some hf
      exact absurd ⟨s.take i, t, by rw [List.append_assoc, ← ht]⟩ h

theorem closing_getElem? (name : Bytes) :
    (placeholder name)[name.length + 2]? = some 0x7D ∧
      (placeholder name)[name.length + 3]? = some 0x7D := by
  have hopen : (openBraces ++ name).length = name.length + 2 := by
    rw [List.length_append, Nat.add_comm]
    rfl
  unfold placeholder
  rw [List.getElem?_append_right (by omega), List.getElem?_append_right (by omega), hopen,
    Nat.sub_self, Nat.add_sub_add_left]
  exact ⟨rfl, rfl⟩

/-- In a placeholder only the last two bytes are closing braces. -/
theorem le_of_getElem?_closing {name : Bytes} (hname : 0x7D ∉ name) {k : ℕ}
    (h : (placeholder name)[k]? = some 0x7D) : name.length + 2 ≤ k := by
  by_contra hlt
  have hopen : (openBraces ++ name).length = name.length + 2 := by
    rw [List.length_append, Nat.add_comm]
    rfl
  unfold placeholder at h
  rw [List.getElem?_append_left (by omega)] at h
  rcases List.mem_append.mp (List.mem_of_getElem? h) with hmem | hmem
  · exact absurd hmem (by decide)
  · exact hname hmem

/-- No placeholder reaches from the text in front of one into it. -/
theorem find_placeholder {name : Bytes} (hname : 0x7D ∉ name) (done rest : Bytes) :
    find (placeholder name) (done ++ placeholder name ++ rest) = some done.length ↔
      ¬ placeholder name <:+: done := by
  have hne := placeholder_ne_nil name
  have hlen := length_placeholder name
  constructor
  · intro h
    have hnone := find_take_none hne h
    rwa [List.append_assoc, List.take_left, find_eq_none_iff hne] at hnone
  · intro hfresh
    obtain ⟨i, hi, hfind⟩ := find_le hne done rest
    rw [List.append_assoc, hfind]
    by_contra hother
    have hlt : i < done.length := lt_of_le_of_ne hi fun h => hother (congrArg some h)
    obtain ⟨t, ht⟩ := find_eq_some hfind
    have hlength := find_length_le hfind
    have htake : (done ++ (placeholder name ++ rest)).take i = done.take i :=
      List.take_append_of_le_length hi
    rw [htake] at ht
    have hprefix : (done.take i).length = i := List.length_take_of_le hi
    by_cases hinside : i + (placeholder name).length ≤ done.length
    · -- within the text in front
      have hp : done.take i ++ placeholder name <+: done := by
        have hleft : done.take i ++ placeholder name <+: done ++ (placeholder name ++ rest) :=
          ⟨t, by rw [ht, List.append_assoc]⟩
        apply List.prefix_of_prefix_length_le hleft (List.prefix_append _ _)
        rw [List.length_append, hprefix]
        exact hinside
      obtain ⟨u, hu⟩ := hp
      exact hfresh ⟨done.take i, u, hu⟩
    · -- its closing braces would be among the bytes of the other
      have hclosing : ∀ k, (placeholder name)[k]? = some 0x7D → done.length ≤ i + k →
          i + k < done.length + (placeholder name).length →
          (placeholder name)[i + k - done.length]? = some 0x7D := by
        intro k hk hle hlt'
        have hleft : (done ++ (placeholder name ++ rest))[i + k]? = some 0x7D := by
          rw [ht, List.getElem?_append_right (by omega), hprefix, Nat.add_sub_cancel_left,
            List.getElem?_append_left (List.getElem?_eq_some_iff.mp hk).1]
          exact hk
        rwa [List.getElem?_append_right hle, List.getElem?_append_left (by omega)] at hleft
      obtain ⟨hfirst, hsecond⟩ := closing_getElem? name
      have hlast := le_of_getElem?_closing hname (hclosing _ hsecond (by omega) (by omega))
      have hbefore := le_of_getElem?_closing hname (hclosing _ hfirst (by omega) (by omega))
      omega

theorem replaceFirst_placeholder {name : Bytes} (hname : 0x7D ∉ name) {done : Bytes}
    (hfresh : ¬ placeholder name <:+: done) (new rest : Bytes) :
    replaceFirst (placeholder name) new (done ++ placeholder name ++ rest) =
      done ++ new ++ rest := by
  unfold replaceFirst
  rw [(find_placeholder hname done rest).mpr hfresh]
  dsimp only
  rw [List.append_assoc done, List.take_left, ← List.append_assoc, List.drop_left'
    (by rw [List.length_append])]

end Places

section Values

variable (vars : Variables)

/-- The value of `name`, or of `name.field` in a variable that is an object. -/
def pipelineValue (name : Bytes) : Option Json :=
  match find (bytes ".") name with
  | some dot => match vars.lookup (name.take dot) with
    | some (.obj m) => m.lookup (name.drop (dot + 1))
    | _ => none
  | none => vars.lookup name

/-- Workflows have no fields of variables. -/
def workflowValue (name : Bytes) : Option Json := vars.lookup name

/-- A string as it is, another value as JSON, nothing for a name that is not bound. -/
def render : Option Json → Except JsonException Bytes
  | some val => text val
  | none => .ok []

theorem pipeline_replacement (name : Bytes) :
    PipelineExecutor.replacement vars name = render (pipelineValue vars name) := by
  unfold PipelineExecutor.replacement pipelineValue
  cases find (bytes ".") name with
  | none =>
    dsimp only
    cases vars.lookup name <;> rfl
  | some dot =>
    dsimp only
    cases vars.lookup (name.take dot) with
    | none => rfl
    | some val =>
      cases val with
      | obj m =>
        dsimp only
        cases m.lookup (name.drop (dot + 1)) <;> rfl
      | _ => rfl

theorem workflow_replacement (name : Bytes) :
    WorkflowEngine.replacement vars name = render (workflowValue vars name) := by
  unfold WorkflowEngine.replacement workflowValue
  cases vars.lookup name <;> rfl

end Values

section Substitution

/-- A placeholder with the text in front of it and the text put in its place. -/
structure Slot where
  literal : Bytes
  name : Bytes
  new : Bytes

variable (value : Bytes → Option Json)

def slotOf (p : Bytes × Bytes) : Except JsonException Slot :=
  (render (value p.2)).map (Slot.mk p.1 p.2)

/-- The placeholders of a template from left to right, each with its rendered value. -/
def slots (tmpl : Bytes) : Except JsonException (List Slot) :=
  (cut 0 [] tmpl).1.mapM (slotOf value)

def filled (l : List Slot) : Bytes := l.flatMap fun s => s.literal ++ s.new

theorem filled_cons (s : Slot) (l : List Slot) :
    filled (s :: l) = s.literal ++ s.new ++ filled l := rfl

theorem filled_append (l m : List Slot) : filled (l ++ m) = filled l ++ filled m :=
  List.flatMap_append

def substitute (tmpl : Bytes) : Except JsonException Bytes :=
  (slots value tmpl).map fun l => filled l ++ (cut 0 [] tmpl).2

/-- Where the placeholders stand, with `done` and their predecessors' values in front. -/
def ownPlaces (done : Bytes) : List Slot → List (Option ℕ)
  | [] => []
  | s :: l => some (done ++ s.literal).length :: ownPlaces (done ++ s.literal ++ s.new) l

/-- A round of the loop of `Interpolate`, with the positions at which it has replaced. -/
def replaceNext (r : Bytes × List (Option ℕ)) (name : Bytes) :
    Except JsonException (Bytes × List (Option ℕ)) := do
  let new ← render (value name)
  pure (replaceFirst (placeholder name) new r.1, r.2 ++ [find (placeholder name) r.1])

def interpolateAt (tmpl : Bytes) : Except JsonException (Bytes × List (Option ℕ)) :=
  (variablesIn 0 tmpl).foldlM (replaceNext value) (tmpl, [])

/-- All placeholders of the template are replaced as if at once: the result is the substitution, and
every replacement is made at the placeholder itself, none in a value that was put in before. -/
structure Simultaneous (interpolate : Bytes → Except JsonException Bytes) (tmpl : Bytes) :
    Prop where
  result : interpolate tmpl = substitute value tmpl
  inPlace : (interpolateAt value tmpl).map Prod.snd = (slots value tmpl).map (ownPlaces [])

/-- No placeholder's text is found in what stands in front of the placeholder once the ones before
it have their values. -/
def FreshAfter (done : Bytes) (l : List Slot) : Prop :=
  ∀ before s after, l = before ++ s :: after →
    ¬ placeholder s.name <:+: done ++ filled before ++ s.literal

/-- As long as all values can be rendered. -/
def Fresh (tmpl : Bytes) : Prop := ∀ l, slots value tmpl = .ok l → FreshAfter [] l

end Substitution

section Loop

def writtenSlots (l : List Slot) : Bytes := l.flatMap fun s => s.literal ++ placeholder s.name

theorem writtenSlots_cons (s : Slot) (l : List Slot) :
    writtenSlots (s :: l) = s.literal ++ placeholder s.name ++ writtenSlots l := rfl

/-- The positions at which the loop replaces in a text. -/
def places : List Slot → Bytes → List (Option ℕ)
  | [], _ => []
  | s :: l, r =>
    find (placeholder s.name) r :: places l (replaceFirst (placeholder s.name) s.new r)

def replaced (r : Bytes) (l : List Slot) : Bytes :=
  l.foldl (fun r s => replaceFirst (placeholder s.name) s.new r) r

variable {value : Bytes → Option Json}

/-- The values do not depend on the text they are put into. -/
theorem loop_eq (value : Bytes → Option Json) (parts : List (Bytes × Bytes))
    (r : Bytes × List (Option ℕ)) :
    (parts.map Prod.snd).foldlM (replaceNext value) r =
      (parts.mapM (slotOf value)).map fun l => (replaced r.1 l, r.2 ++ places l r.1) := by
  induction parts generalizing r with
  | nil =>
    have hnil : r = (replaced r.1 [], r.2 ++ places [] r.1) := by simp [replaced, places]
    exact congrArg Except.ok hnil
  | cons p parts ih =>
    rw [List.map_cons, List.foldlM_cons, List.mapM_cons]
    cases hnew : render (value p.2) with
    | error e =>
      rw [slotOf, replaceNext, hnew]
      rfl
    | ok new =>
      have hslot : slotOf value p = .ok ⟨p.1, p.2, new⟩ := by
        rw [slotOf, hnew]
        rfl
      have hround : replaceNext value r p.2 = .ok (replaceFirst (placeholder p.2) new r.1,
          r.2 ++ [find (placeholder p.2) r.1]) := by
        rw [replaceNext, hnew]
        rfl
      rw [hslot, hround]
      refine (ih _).trans ?_
      cases parts.mapM (slotOf value) with
      | error e => rfl
      | ok l =>
        refine congrArg Except.ok (Prod.ext rfl ?_)
        exact List.append_assoc r.2 [_] _

theorem slots_parts {parts : List (Bytes × Bytes)} {l : List Slot}
    (h : parts.mapM (slotOf value) = .ok l) : l.map (fun s => (s.literal, s.name)) = parts := by
  induction parts generalizing l with
  | nil =>
    obtain rfl := Except.ok.inj h
    rfl
  | cons p parts ih =>
    rw [List.mapM_cons] at h
    cases hnew : render (value p.2) with
    | error e =>
      rw [slotOf, hnew] at h
      cases h
    | ok new =>
      have hslot : slotOf value p = .ok ⟨p.1, p.2, new⟩ := by
        rw [slotOf, hnew]
        rfl
      rw [hslot] at h
      cases hl : parts.mapM (slotOf value) with
      | error e =>
        rw [hl] at h
        cases h
      | ok l' =>
        rw [hl] at h
        obtain rfl := Except.ok.inj h
        rw [List.map_cons, ih hl]

theorem freshAfter_cons (done : Bytes) (s : Slot) (l : List Slot) :
    FreshAfter done (s :: l) ↔
      ¬ placeholder s.name <:+: done ++ s.literal ∧
        FreshAfter (done ++ s.literal ++ s.new) l := by
  constructor
  · intro h
    refine ⟨?_, fun before s' after hl => ?_⟩
    · have hfirst := h [] s l rfl
      rwa [filled, List.flatMap_nil, List.append_nil] at hfirst
    · have hnext := h (s :: before) s' after (by rw [hl, List.cons_append])
      rwa [filled_cons, ← List.append_assoc done, ← List.append_assoc done] at hnext
  · rintro ⟨hfirst, hnext⟩ before s' after hl
    cases before with
    | nil =>
      obtain ⟨rfl, rfl⟩ := List.cons.inj hl
      rwa [filled, List.flatMap_nil, List.append_nil]
    | cons b before =>
      obtain ⟨rfl, rfl⟩ := List.cons.inj hl
      rw [filled_cons, ← List.append_assoc done, ← List.append_assoc done]
      exact hnext before s' after rfl

theorem freshAfter_append (done : Bytes) (l m : List Slot) :
    FreshAfter done (l ++ m) ↔ FreshAfter done l ∧ FreshAfter (done ++ filled l) m := by
  induction l generalizing done with
  | nil =>
    rw [List.nil_append, filled, List.flatMap_nil, List.append_nil]
    refine (and_iff_right fun before s after h => ?_).symm
    cases before <;> cases h
  | cons s l ih =>
    rw [List.cons_append, freshAfter_cons, freshAfter_cons, ih, and_assoc, filled_cons]
    simp only [List.append_assoc]

/-- Less text in front brings in no more placeholders. -/
theorem FreshAfter.shorter {front done : Bytes} {l : List Slot}
    (h : FreshAfter (front ++ done) l) : FreshAfter done l := by
  intro before s after hl hinfix
  apply h before s after hl
  rw [List.append_assoc, List.append_assoc, ← List.append_assoc done]
  exact hinfix.trans (List.suffix_append front _).isInfix

variable {l : List Slot}

/-- One round puts the value in place of the placeholder that is next. -/
theorem replaceFirst_slot {s : Slot} (hname : 0x7D ∉ s.name) {done : Bytes}
    (hfresh : ¬ placeholder s.name <:+: done ++ s.literal) (l : List Slot) (last : Bytes) :
    replaceFirst (placeholder s.name) s.new (done ++ writtenSlots (s :: l) ++ last) =
      done ++ s.literal ++ s.new ++ writtenSlots l ++ last := by
  have hround := replaceFirst_placeholder hname hfresh s.new (writtenSlots l ++ last)
  rw [writtenSlots_cons]
  simp only [List.append_assoc] at hround ⊢
  exact hround

theorem replaced_fresh (hnames : ∀ s ∈ l, 0x7D ∉ s.name) {done : Bytes}
    (hfresh : FreshAfter done l) (last : Bytes) :
    replaced (done ++ writtenSlots l ++ last) l = done ++ filled l ++ last := by
  induction l generalizing done with
  | nil => rfl
  | cons s l ih =>
    obtain ⟨hfirst, hnext⟩ := (freshAfter_cons done s l).mp hfresh
    have hround := replaceFirst_slot (hnames s List.mem_cons_self) hfirst l last
    rw [replaced, List.foldl_cons, ← replaced, hround,
      ih (fun s' hs' => hnames s' (List.mem_cons_of_mem s hs')) hnext]
    simp only [filled_cons, List.append_assoc]

theorem places_eq_ownPlaces_iff (hnames : ∀ s ∈ l, 0x7D ∉ s.name) (done last : Bytes) :
    places l (done ++ writtenSlots l ++ last) = ownPlaces done l ↔ FreshAfter done l := by
  induction l generalizing done with
  | nil =>
    refine iff_of_true rfl fun before s after h => ?_
    cases before <;> cases h
  | cons s l ih =>
    have hname := hnames s List.mem_cons_self
    have hnames' := fun s' hs' => hnames s' (List.mem_cons_of_mem s hs')
    have htext : done ++ writtenSlots (s :: l) ++ last =
        done ++ s.literal ++ placeholder s.name ++ (writtenSlots l ++ last) := by
      rw [writtenSlots_cons]
      simp only [List.append_assoc]
    rw [freshAfter_cons, ← ih hnames', places, ownPlaces, List.cons.injEq]
    have hplace := find_placeholder hname (done ++ s.literal) (writtenSlots l ++ last)
    rw [← htext] at hplace
    rw [hplace]
    refine and_congr_right fun hfirst => ?_
    rw [replaceFirst_slot hname hfirst]

theorem interpolateAt_eq (value : Bytes → Option Json) (tmpl : Bytes) :
    interpolateAt value tmpl =
      (slots value tmpl).map fun l => (replaced tmpl l, places l tmpl) := by
  have hloop := loop_eq value (cut 0 [] tmpl).1 (tmpl, [])
  rw [cut_names] at hloop
  exact hloop

/-- The loop is the same without the positions. -/
theorem foldlM_replaceNext (value : Bytes → Option Json) (names : List Bytes)
    (r : Bytes × List (Option ℕ)) :
    names.foldlM (fun r name => do
      let new ← render (value name)
      pure (replaceFirst (placeholder name) new r)) r.1 =
      (names.foldlM (replaceNext value) r).map Prod.fst := by
  induction names generalizing r with
  | nil => rfl
  | cons name names ih =>
    rw [List.foldlM_cons, List.foldlM_cons, replaceNext]
    cases render (value name) with
    | error e => rfl
    | ok new =>
      exact ih (replaceFirst (placeholder name) new r.1,
        r.2 ++ [find (placeholder name) r.1])

theorem pipeline_interpolate (vars : Variables) (tmpl : Bytes) :
    PipelineExecutor.interpolate vars tmpl =
      (interpolateAt (pipelineValue vars) tmpl).map Prod.fst := by
  unfold PipelineExecutor.interpolate
  simp only [pipeline_replacement]
  exact foldlM_replaceNext (pipelineValue vars) (variablesIn 0 tmpl) (tmpl, [])

theorem workflow_interpolate (vars : Variables) (tmpl : Bytes) :
    WorkflowEngine.interpolate vars tmpl =
      (interpolateAt (workflowValue vars) tmpl).map Prod.fst := by
  unfold WorkflowEngine.interpolate
  simp only [workflow_replacement]
  exact foldlM_replaceNext (workflowValue vars) (variablesIn 0 tmpl) (tmpl, [])

theorem simultaneous_iff {interpolate : Bytes → Except JsonException Bytes} {tmpl : Bytes}
    (h : interpolate tmpl = (interpolateAt value tmpl).map Prod.fst) :
    Simultaneous value interpolate tmpl ↔ Fresh value tmpl := by
  rw [interpolateAt_eq] at h
  cases hslots : slots value tmpl with
  | error e =>
    rw [hslots] at h
    refine iff_of_true ⟨?_, ?_⟩ fun l hl => ?_
    · rw [h, substitute, hslots]
      rfl
    · rw [interpolateAt_eq, hslots]
      rfl
    · rw [hslots] at hl
      cases hl
  | ok l =>
    rw [hslots] at h
    have hparts := slots_parts hslots
    have hnames : ∀ s ∈ l, 0x7D ∉ s.name := by
      intro s hs
      have hmem := List.mem_map_of_mem (f := fun s : Slot => (s.literal, s.name)) hs
      rw [hparts] at hmem
      exact cut_name hmem
    have htext : tmpl = [] ++ writtenSlots l ++ (cut 0 [] tmpl).2 := by
      have hcut := cut_text 0 [] tmpl
      rw [← hparts, written, List.flatMap_map] at hcut
      exact hcut.symm
    have hplaces := places_eq_ownPlaces_iff hnames [] (cut 0 [] tmpl).2
    rw [← htext] at hplaces
    have hfreshIff : Fresh value tmpl ↔ FreshAfter [] l := by
      constructor
      · intro hfresh
        exact hfresh l hslots
      · intro hfresh l' hl'
        rw [hslots] at hl'
        obtain rfl := Except.ok.inj hl'
        exact hfresh
    rw [hfreshIff]
    constructor
    · rintro ⟨-, hinPlace⟩
      rw [interpolateAt_eq, hslots] at hinPlace
      exact hplaces.mp (Except.ok.inj hinPlace)
    · intro hfresh
      have hreplaced := replaced_fresh hnames hfresh (cut 0 [] tmpl).2
      rw [← htext] at hreplaced
      refine ⟨?_, ?_⟩
      · rw [h, substitute, hslots]
        exact congrArg Except.ok hreplaced
      · rw [interpolateAt_eq, hslots]
        exact congrArg Except.ok (hplaces.mpr hfresh)

/-- A value that cannot be rendered throws, whatever comes before. -/
theorem interpolate_throws {interpolate : Bytes → Except JsonException Bytes} {tmpl : Bytes}
    (h : interpolate tmpl = (interpolateAt value tmpl).map Prod.fst) {e : JsonException}
    (hslots : slots value tmpl = .error e) : interpolate tmpl = .error e := by
  rw [h, interpolateAt_eq, hslots]
  rfl

theorem interpolate_returns {interpolate : Bytes → Except JsonException Bytes} {tmpl : Bytes}
    (h : interpolate tmpl = (interpolateAt value tmpl).map Prod.fst) {l : List Slot}
    (hslots : slots value tmpl = .ok l) : interpolate tmpl = .ok (replaced tmpl l) := by
  rw [h, interpolateAt_eq, hslots]
  rfl

theorem interpolate_fresh {interpolate : Bytes → Except JsonException Bytes} {tmpl : Bytes}
    (h : interpolate tmpl = (interpolateAt value tmpl).map Prod.fst) {l : List Slot}
    (hslots : slots value tmpl = .ok l) (hfresh : FreshAfter [] l) :
    interpolate tmpl = .ok (filled l ++ (cut 0 [] tmpl).2) := by
  have hsimultaneous : Fresh value tmpl := by
    intro l' hl'
    rw [hslots] at hl'
    obtain rfl := Except.ok.inj hl'
    exact hfresh
  rw [((simultaneous_iff h).mpr hsimultaneous).result, substitute, hslots]
  rfl

end Loop

section Engines

/-- Pipelines and workflows substitute simultaneously just when no value, with the text around it,
brings in the placeholder that is next. -/
theorem interpolate_simultaneous_iff (vars : Variables) (tmpl : Bytes) :
    (Simultaneous (pipelineValue vars) (PipelineExecutor.interpolate vars) tmpl ↔
        Fresh (pipelineValue vars) tmpl) ∧
      (Simultaneous (workflowValue vars) (WorkflowEngine.interpolate vars) tmpl ↔
        Fresh (workflowValue vars) tmpl) :=
  ⟨simultaneous_iff (pipeline_interpolate vars tmpl),
    simultaneous_iff (workflow_interpolate vars tmpl)⟩

end Engines

namespace Counterexample

/-- The output of an earlier step reads like a placeholder. -/
def vars : Variables :=
  [(bytes "a", .str (bytes "\x7b\x7bb\x7d\x7d")), (bytes "b", .str (bytes "x"))]

def tmpl : Bytes := bytes "\x7b\x7ba\x7d\x7d \x7b\x7bb\x7d\x7d"

/-- The value of `a` is rescanned, and the template's own placeholder of `b` stays. -/
theorem value_rescanned :
    PipelineExecutor.interpolate vars tmpl = .ok (bytes "x \x7b\x7bb\x7d\x7d") ∧
      WorkflowEngine.interpolate vars tmpl = .ok (bytes "x \x7b\x7bb\x7d\x7d") ∧
      substitute (pipelineValue vars) tmpl = .ok (bytes "\x7b\x7bb\x7d\x7d x") ∧
      substitute (workflowValue vars) tmpl = .ok (bytes "\x7b\x7bb\x7d\x7d x") ∧
      bytes "x \x7b\x7bb\x7d\x7d" ≠ bytes "\x7b\x7bb\x7d\x7d x" := by
  refine ⟨rfl, rfl, rfl, rfl, by decide⟩

end Counterexample

end Interpolation
