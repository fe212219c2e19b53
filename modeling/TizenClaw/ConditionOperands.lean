import TizenClaw.Interpolation

/-! Conditions of pipelines: the comparison a template spells out against the one that is made of
its interpolated text. -/
namespace ConditionOperands

open ByteString ByteLines JsonValue PipelineExecutor Interpolation

section Operators

/-- The operators in the order in which they are searched for. -/
inductive Operator where
  | equal
  | notEqual
  | contains
  deriving DecidableEq, Repr

def Operator.text : Operator → Bytes
  | .equal => bytes " == "
  | .notEqual => bytes " != "
  | .contains => bytes " contains "

def Operator.holds (left right : Bytes) : Operator → Bool
  | .equal => left = right
  | .notEqual => left ≠ right
  | .contains => (find right left).isSome

/-- Operators that are searched for before. -/
def Operator.before : Operator → List Operator
  | .equal => []
  | .notEqual => [.equal]
  | .contains => [.equal, .notEqual]

/-- The first of some operators in a text, with its operands. -/
def firstOf (s : Bytes) : List Operator → Option (Operator × Bytes × Bytes)
  | [] => none
  | op :: ops => match operands op.text s with
    | some (left, right) => some (op, left, right)
    | none => firstOf s ops

/-- The comparison that is made of an interpolated condition. -/
def comparison (s : Bytes) : Option (Operator × Bytes × Bytes) :=
  firstOf s [.equal, .notEqual, .contains]

def truth (s : Bytes) : Bool :=
  match comparison s with
  | some (op, left, right) => op.holds left right
  | none => s ≠ [] ∧ s ≠ bytes "false" ∧ s ≠ bytes "0" ∧ s ≠ bytes "null"

theorem evalCondition_eq (vars : Variables) (expr : Bytes) :
    evalCondition vars expr = (interpolate vars expr).map truth := by
  unfold evalCondition
  cases interpolate vars expr with
  | error e => rfl
  | ok s =>
    simp only [bind, Except.bind, Except.map, truth, comparison, firstOf, Operator.text]
    cases operands (bytes " == ") s with
    | some p => rfl
    | none =>
      cases operands (bytes " != ") s with
      | some p => rfl
      | none => cases operands (bytes " contains ") s <;> rfl

theorem Operator.text_ne_nil (op : Operator) : op.text ≠ [] := by
  cases op <;> decide

/-- A text is split around the operator where nothing in front, nor across its beginning, is one. -/
theorem operands_eq_some_iff {op : Bytes} (hop : op ≠ []) {s left right : Bytes} :
    operands op s = some (left, right) ↔
      s = left ++ op ++ right ∧ find op (left ++ op) = some left.length := by
  obtain ⟨i, hi, hfind⟩ := find_le hop left []
  rw [List.append_nil] at hfind
  unfold operands
  rw [Option.map_eq_some_iff]
  constructor
  · rintro ⟨pos, hpos, hsplit⟩
    obtain ⟨hleft, hright⟩ := Prod.mk.inj hsplit
    obtain ⟨t, ht⟩ := find_eq_some hpos
    have hlen := find_length_le hpos
    have hlength : left.length = pos := by
      rw [← hleft]
      exact List.length_take_of_le (by omega)
    have hs : s = left ++ op ++ right := by
      rw [hleft] at ht
      have hdrop : s.drop (pos + op.length) = t := by
        rw [ht, ← List.append_assoc]
        exact List.drop_left' (by rw [List.length_append, hlength])
      rw [← hright, hdrop, List.append_assoc]
      exact ht
    have hfirst := find_append_left hfind right
    rw [← hs, hpos] at hfirst
    exact ⟨hs, by rw [hfind, ← hfirst, hlength]⟩
  · rintro ⟨rfl, hfirst⟩
    refine ⟨left.length, find_append_left hfirst right, ?_⟩
    rw [List.append_assoc, List.take_left, ← List.append_assoc,
      List.drop_left' (by rw [List.length_append])]

theorem operands_eq_none_iff {op s : Bytes} : operands op s = none ↔ find op s = none :=
  Option.map_eq_none_iff

/-- Operators that are searched for before are not in the text at all. -/
theorem comparison_eq_some_iff {s left right : Bytes} {op : Operator} :
    comparison s = some (op, left, right) ↔
      (∀ o ∈ op.before, find o.text s = none) ∧
        s = left ++ op.text ++ right ∧ find op.text (left ++ op.text) = some left.length := by
  rw [← operands_eq_some_iff op.text_ne_nil]
  simp only [comparison, firstOf, ← operands_eq_none_iff]
  cases he : operands Operator.equal.text s <;> cases hn : operands Operator.notEqual.text s <;>
    cases hc : operands Operator.contains.text s <;> cases op <;>
    simp_all [Operator.before]

end Operators

section Conditions

variable (vars : Variables) (l : Bytes) (op : Operator) (r : Bytes)

/-- The operands, each interpolated on its own. -/
def interpolated : Except JsonException (Bytes × Bytes) := do
  let left ← interpolate vars l
  let right ← interpolate vars r
  pure (left, right)

/-- The condition compares what its template says: the value is the one of the interpolated
operands, and the comparison that is made is theirs. -/
structure ComparesOperands : Prop where
  value : evalCondition vars (l ++ op.text ++ r) =
    (interpolated vars l r).map fun p => op.holds p.1 p.2
  operands : ∀ left right, interpolated vars l r = .ok (left, right) →
    ∃ s, interpolate vars (l ++ op.text ++ r) = .ok s ∧ comparison s = some (op, left, right)

/-- Interpolation keeps the operands apart: no placeholder reaches over the operator, and no operand
brings a placeholder into the other. -/
def Apart : Prop :=
  interpolate vars (l ++ op.text ++ r) =
    (interpolated vars l r).map fun p => p.1 ++ op.text ++ p.2

/-- The interpolated operands have no operator where it would be taken for the one between them:
none of those that are searched for before, and not the operator itself further left. -/
def Unmoved : Prop :=
  ∀ left right, interpolated vars l r = .ok (left, right) →
    (∀ o ∈ op.before, find o.text (left ++ op.text ++ right) = none) ∧
      find op.text (left ++ op.text) = some left.length

variable {vars l op r}

/-- Operands that cannot be interpolated are compared by throwing, as the whole condition does. -/
theorem comparesOperands_of_error {e : JsonException} (h : interpolated vars l r = .error e) :
    ComparesOperands vars l op r ↔ Apart vars l op r ∧ Unmoved vars l op r := by
  have hnone : ∀ left right, interpolated vars l r ≠ .ok (left, right) := by
    intro left right hok
    rw [h] at hok
    cases hok
  constructor
  · rintro ⟨hvalue, -⟩
    refine ⟨?_, fun left right hok => absurd hok (hnone left right)⟩
    rw [evalCondition_eq, h] at hvalue
    unfold Apart
    rw [h]
    cases hs : interpolate vars (l ++ op.text ++ r) with
    | error e' =>
      rw [hs] at hvalue
      obtain rfl := Except.error.inj hvalue
      rfl
    | ok s =>
      rw [hs] at hvalue
      cases hvalue
  · rintro ⟨hapart, -⟩
    refine ⟨?_, fun left right hok => absurd hok (hnone left right)⟩
    rw [evalCondition_eq, hapart, h]
    rfl

/-- Operands that can be interpolated are compared when the whole text splits into them. -/
theorem comparesOperands_of_ok {left right : Bytes}
    (h : interpolated vars l r = .ok (left, right)) :
    ComparesOperands vars l op r ↔ Apart vars l op r ∧ Unmoved vars l op r := by
  have honly : ∀ left' right', interpolated vars l r = .ok (left', right') →
      left = left' ∧ right = right' := by
    intro left' right' hok
    rw [h] at hok
    exact Prod.mk.inj (Except.ok.inj hok)
  constructor
  · rintro ⟨-, hcompared⟩
    obtain ⟨s, hs, hcomparison⟩ := hcompared left right h
    obtain ⟨hbefore, rfl, hfirst⟩ := comparison_eq_some_iff.mp hcomparison
    refine ⟨?_, fun left' right' hok => ?_⟩
    · unfold Apart
      rw [hs, h]
      rfl
    · obtain ⟨rfl, rfl⟩ := honly left' right' hok
      exact ⟨hbefore, hfirst⟩
  · rintro ⟨hapart, hunmoved⟩
    obtain ⟨hbefore, hfirst⟩ := hunmoved left right h
    have hcomparison : comparison (left ++ op.text ++ right) = some (op, left, right) :=
      comparison_eq_some_iff.mpr ⟨hbefore, rfl, hfirst⟩
    unfold Apart at hapart
    rw [h] at hapart
    refine ⟨?_, fun left' right' hok => ?_⟩
    · rw [evalCondition_eq, hapart]
      simp only [Except.map, truth, hcomparison, h]
    · obtain ⟨rfl, rfl⟩ := honly left' right' hok
      exact ⟨_, hapart, hcomparison⟩

variable (vars l op r)

/-- Conditions compare their operands just when no value moves the split or joins the operands. -/
theorem comparesOperands_iff :
    ComparesOperands vars l op r ↔ Apart vars l op r ∧ Unmoved vars l op r := by
  cases hoperands : interpolated vars l r with
  | error e => exact comparesOperands_of_error hoperands
  | ok p => exact comparesOperands_of_ok hoperands

end Conditions

section Placeholders

variable {value : Bytes → Option Json} {vars : Variables} {l s r : Bytes}

/-- More text in front of the first placeholder. -/
def prepend (x : Bytes) : List Slot → List Slot
  | [] => []
  | slot :: l => { slot with literal := x ++ slot.literal } :: l

theorem fresh_of_prepend {x done : Bytes} {l : List Slot} (h : FreshAfter done (prepend x l)) :
    FreshAfter [] l := by
  cases l with
  | nil =>
    intro before s after hl
    cases before <;> cases hl
  | cons slot l =>
    obtain ⟨hfirst, hrest⟩ := (freshAfter_cons done _ l).mp h
    dsimp only at hfirst hrest
    refine (freshAfter_cons [] slot l).mpr ⟨fun hinfix => hfirst ?_, ?_⟩
    · rw [← List.append_assoc]
      exact hinfix.trans (List.suffix_append _ slot.literal).isInfix
    · rw [List.append_assoc, List.append_assoc, ← List.append_assoc done] at hrest
      exact hrest.shorter

/-- The operator stands outside of the placeholders: the template is cut as its operands are. -/
def Between (l s r : Bytes) : Prop :=
  cut 0 [] (l ++ s ++ r) = match (cut 0 [] r).1 with
    | [] => ((cut 0 [] l).1, (cut 0 [] l).2 ++ s ++ (cut 0 [] r).2)
    | p :: parts =>
      ((cut 0 [] l).1 ++ ((cut 0 [] l).2 ++ s ++ p.1, p.2) :: parts, (cut 0 [] r).2)

theorem slots_between (value : Bytes → Option Json) (h : Between l s r) :
    slots value (l ++ s ++ r) = (do
      let a ← slots value l
      let b ← slots value r
      return a ++ prepend ((cut 0 [] l).2 ++ s) b) := by
  unfold Between at h
  unfold slots
  rw [h]
  cases (cut 0 [] r).1 with
  | nil =>
    cases (cut 0 [] l).1.mapM (slotOf value) with
    | error e => rfl
    | ok a => exact congrArg Except.ok (List.append_nil a).symm
  | cons p parts =>
    dsimp only
    rw [List.mapM_append, List.mapM_cons, List.mapM_cons]
    cases (cut 0 [] l).1.mapM (slotOf value) with
    | error e => rfl
    | ok a =>
      generalize parts.mapM (slotOf value) = rest
      unfold slotOf
      dsimp only
      cases render (value p.2) with
      | error e => rfl
      | ok new => cases rest <;> rfl

theorem cut_between (h : Between l s r) :
    (cut 0 [] (l ++ s ++ r)).2 =
      if (cut 0 [] r).1 = [] then (cut 0 [] l).2 ++ s ++ (cut 0 [] r).2 else (cut 0 [] r).2 := by
  unfold Between at h
  rw [h]
  cases (cut 0 [] r).1 with
  | nil => rfl
  | cons p parts => rfl

/-- With the operator outside of the placeholders, and no value that brings one in, interpolation
keeps the operands apart. -/
theorem apart_of_fresh {op : Operator} (hb : Between l op.text r)
    (hf : Fresh (pipelineValue vars) (l ++ op.text ++ r)) : Apart vars l op r := by
  have hslots := slots_between (pipelineValue vars) hb
  have hwhole := pipeline_interpolate vars (l ++ op.text ++ r)
  have hl := pipeline_interpolate vars l
  have hr := pipeline_interpolate vars r
  unfold Apart interpolated
  cases ha : slots (pipelineValue vars) l with
  | error e =>
    rw [ha] at hslots
    rw [interpolate_throws hl ha, interpolate_throws hwhole hslots]
    rfl
  | ok a =>
    cases hb' : slots (pipelineValue vars) r with
    | error e =>
      rw [ha, hb'] at hslots
      rw [interpolate_returns hl ha, interpolate_throws hr hb', interpolate_throws hwhole hslots]
      rfl
    | ok b =>
      rw [ha, hb'] at hslots
      obtain ⟨hleft, hright⟩ := (freshAfter_append [] a _).mp (hf _ hslots)
      have hfilled : filled (prepend ((cut 0 [] l).2 ++ op.text) b) ++
          (cut 0 [] (l ++ op.text ++ r)).2 =
            (cut 0 [] l).2 ++ op.text ++ (filled b ++ (cut 0 [] r).2) := by
        have hparts := slots_parts hb'
        rw [cut_between hb, ← hparts]
        cases b with
        | nil => rfl
        | cons slot b =>
          rw [List.map_cons, if_neg (List.cons_ne_nil _ _), prepend, filled_cons, filled_cons]
          simp only [List.append_assoc]
      rw [interpolate_fresh hl ha hleft, interpolate_fresh hr hb' (fresh_of_prepend hright),
        interpolate_fresh hwhole hslots (hf _ hslots), filled_append, List.append_assoc, hfilled]
      simp only [bind, Except.bind, pure, Except.pure, Except.map, List.append_assoc]

end Placeholders

namespace Counterexample

def vars : Variables := [(bytes "a", .str (bytes "b == c"))]

/-- The value of `a` contains `b`, but the condition is split at its equals sign. -/
theorem contains_moved :
    interpolated vars (bytes "\x7b\x7ba\x7d\x7d") (bytes "b") =
        .ok (bytes "b == c", bytes "b") ∧
      Operator.contains.holds (bytes "b == c") (bytes "b") = true ∧
      evalCondition vars (bytes "\x7b\x7ba\x7d\x7d" ++ Operator.contains.text ++ bytes "b") =
        .ok false := by
  refine ⟨rfl, by decide, rfl⟩

end Counterexample

end ConditionOperands
