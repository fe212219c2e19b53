import TizenClaw.JsonValue
import TizenClaw.OrderedMap

/-! Redirection of tool names. The tables are built by the router alone, which never lets a
name be redirected to itself; both maps keep the newest entry of a key first. -/
namespace ToolRouting

open ByteString JsonValue

structure ToolRouter where
  aliases : List (Bytes × Bytes)
  overlaps : List (Bytes × Bytes)
  aliases_move : ∀ x ∈ aliases, x.1 ≠ x.2
  overlaps_move : ∀ x ∈ overlaps, x.1 ≠ x.2

namespace ToolRouter

def empty : ToolRouter := ⟨[], [], by simp, by simp⟩

/-- Manual aliases take precedence over detected overlaps. -/
def resolve (r : ToolRouter) (name : Bytes) : Bytes :=
  (r.aliases.lookup name).getD ((r.overlaps.lookup name).getD name)

def hasRedirect (r : ToolRouter) (name : Bytes) : Bool :=
  (r.aliases.lookup name).isSome || (r.overlaps.lookup name).isSome

/-- The entries of an alias object that are kept: targets that are other non-empty names. -/
def aliasEntry (m : Bytes × Json) : Option (Bytes × Bytes) :=
  match m.2 with
  | .str target => if target = [] ∨ m.1 = target then none else some (m.1, target)
  | _ => none

theorem aliasEntry_moves {m : Bytes × Json} {x : Bytes × Bytes} (h : aliasEntry m = some x) :
    x.1 ≠ x.2 := by
  obtain ⟨k, v⟩ := m
  cases v with
  | str target =>
    simp only [aliasEntry] at h
    split_ifs at h with hc
    obtain rfl := Option.some.inj h
    exact fun he => hc (Or.inr he)
  | _ => simp [aliasEntry] at h

def aliasTable : Json → List (Bytes × Bytes)
  | .obj m => (m.filterMap aliasEntry).reverse
  | _ => []

theorem aliasTable_moves (j : Json) : ∀ x ∈ aliasTable j, x.1 ≠ x.2 := by
  intro x hx
  cases j with
  | obj m =>
    obtain ⟨y, -, hy⟩ := List.mem_filterMap.mp (List.mem_reverse.mp hx)
    exact aliasEntry_moves hy
  | _ => simp [aliasTable] at hx

def loadAliases (r : ToolRouter) (aliases : Json) : ToolRouter :=
  { r with aliases := aliasTable aliases, aliases_move := aliasTable_moves aliases }

def registerOverlap (r : ToolRouter) (lower higher : Bytes) : ToolRouter :=
  if h : lower = higher then r
  else if (r.aliases.lookup lower).isSome then r
  else
    { r with
      overlaps := (lower, higher) :: r.overlaps
      overlaps_move := by
        intro x hx
        rcases List.mem_cons.mp hx with rfl | hx
        · exact h
        · exact r.overlaps_move x hx }

/-- A name is its own resolution exactly when neither table has an entry for it. -/
theorem resolve_eq_self_iff (r : ToolRouter) (name : Bytes) :
    r.resolve name = name ↔ r.hasRedirect name = false := by
  unfold resolve hasRedirect
  cases ha : r.aliases.lookup name with
  | some t => simpa using Ne.symm (r.aliases_move _ (OrderedMap.mem_of_lookup ha))
  | none =>
    cases ho : r.overlaps.lookup name with
    | some t => simpa using Ne.symm (r.overlaps_move _ (OrderedMap.mem_of_lookup ho))
    | none => simp

end ToolRouter

end ToolRouting
