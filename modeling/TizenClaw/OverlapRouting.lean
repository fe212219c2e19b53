import TizenClaw.CapabilityRegistry
import TizenClaw.ToolRouting
import TizenClaw.TransitionSystem

/-! The router next to the registry: detected overlaps are added to its table, and none is taken
out again. -/
namespace OverlapRouting

open ByteString OrderedMap CapabilityRegistry ToolRouting TransitionSystem

structure State where
  registry : Registry := .empty
  router : ToolRouter

/-- A reload of the skills registers what it finds and then detects. -/
inductive Event where
  | register (name : Bytes) (cap : Capability)
  | unregister (name : Bytes)
  | detect

section Step

def registerOverlaps (router : ToolRouter) (overlaps : List (Bytes × Bytes)) : ToolRouter :=
  overlaps.foldl (fun router x => router.registerOverlap x.1 x.2) router

def next (s : State) : Event → State
  | .register name cap => { s with registry := s.registry.register name cap }
  | .unregister name => { s with registry := s.registry.unregister name }
  | .detect => { s with router := registerOverlaps s.router (detectOverlaps s.registry) }

/-- The aliases are loaded before anything is detected. -/
def tools : System State Event where
  Init s := s.registry = .empty ∧ s.router.overlaps = []
  Step s e t := t = next s e

end Step

section Coherence

/-- `Resolve` leads a tool to one that is registered, is redirected no further and is among the
best of the category: to itself if it is one of these, else to the first of them. -/
structure Routed (s : State) (cat name : Bytes) : Prop where
  best : IsBest s.registry cat (s.router.resolve name)
  settled : s.router.resolve (s.router.resolve name) = s.router.resolve name
  own : IsBest s.registry cat name → s.router.resolve name = name
  first : ¬ IsBest s.registry cat name → IsFirstBest s.registry cat (s.router.resolve name)

def Unaliased (router : ToolRouter) (name : Bytes) : Prop := router.aliases.lookup name = none

def Coherent (s : State) : Prop :=
  ∀ name cap, s.registry.get name = some cap → Unaliased s.router name →
    Routed s (categoryOf cap) name

/-- Some detection of the run found the tool overlapped. -/
def Overlapped (tr : List (State × Event)) (name : Bytes) : Prop :=
  ∃ x ∈ tr, x.2 = .detect ∧ ∃ higher, (name, higher) ∈ detectOverlaps x.1.registry

/-- No tool that has come to be among the best was overlapped before, and no preferred tool has an
alias. -/
structure Fresh (tr : List (State × Event)) (s : State) : Prop where
  best : ∀ name cap, s.registry.get name = some cap → Unaliased s.router name →
    IsBest s.registry (categoryOf cap) name → ¬ Overlapped tr name
  preferred : ∀ name cap higher, s.registry.get name = some cap → Unaliased s.router name →
    ¬ IsBest s.registry (categoryOf cap) name →
    IsFirstBest s.registry (categoryOf cap) higher → Unaliased s.router higher

end Coherence

section Router

variable {router : ToolRouter} {name lower higher : Bytes}

theorem registerOverlap_aliases (router : ToolRouter) (lower higher : Bytes) :
    (router.registerOverlap lower higher).aliases = router.aliases := by
  unfold ToolRouter.registerOverlap
  split_ifs
  · rfl
  · rfl
  · rfl

theorem registerOverlap_other (hne : name ≠ lower) :
    (router.registerOverlap lower higher).overlaps.lookup name = router.overlaps.lookup name := by
  unfold ToolRouter.registerOverlap
  split_ifs
  · rfl
  · rfl
  · rw [List.lookup_cons, beq_false_of_ne hne]

theorem registerOverlap_self (hne : lower ≠ higher) (ha : Unaliased router lower) :
    (router.registerOverlap lower higher).overlaps.lookup lower = some higher := by
  unfold ToolRouter.registerOverlap
  rw [dif_neg hne, if_neg (by rw [ha]; exact Bool.false_ne_true), List.lookup_cons_self]

theorem registerOverlaps_aliases (router : ToolRouter) (l : List (Bytes × Bytes)) :
    (registerOverlaps router l).aliases = router.aliases := by
  induction l generalizing router with
  | nil => rfl
  | cons x l ih =>
    rw [registerOverlaps, List.foldl_cons]
    exact (ih _).trans (registerOverlap_aliases router x.1 x.2)

theorem registerOverlaps_other {l : List (Bytes × Bytes)} (h : ∀ higher, (name, higher) ∉ l) :
    (registerOverlaps router l).overlaps.lookup name = router.overlaps.lookup name := by
  induction l generalizing router with
  | nil => rfl
  | cons x l ih =>
    have hne : name ≠ x.1 := by
      rintro rfl
      exact h x.2 List.mem_cons_self
    rw [registerOverlaps, List.foldl_cons]
    exact (ih fun higher hm => h higher (List.mem_cons_of_mem x hm)).trans
      (registerOverlap_other hne)

/-- A name with one preferred tool is redirected to it. -/
theorem registerOverlaps_self {l : List (Bytes × Bytes)} (hm : (name, higher) ∈ l)
    (hu : ∀ other, (name, other) ∈ l → other = higher) (hne : name ≠ higher)
    (ha : Unaliased router name) :
    (registerOverlaps router l).overlaps.lookup name = some higher := by
  induction l generalizing router with
  | nil => cases hm
  | cons x l ih =>
    rw [registerOverlaps, List.foldl_cons]
    have ha' : Unaliased (router.registerOverlap x.1 x.2) name := by
      unfold Unaliased
      rw [registerOverlap_aliases]
      exact ha
    by_cases hl : (name, higher) ∈ l
    · exact ih hl (fun other ho => hu other (List.mem_cons_of_mem x ho)) ha'
    · obtain rfl : (name, higher) = x := by
        rcases List.mem_cons.mp hm with h | h
        · exact h
        · exact absurd h hl
      have hno : ∀ other, (name, other) ∉ l := by
        intro other ho
        obtain rfl := hu other (List.mem_cons_of_mem _ ho)
        exact hl ho
      exact (registerOverlaps_other hno).trans (registerOverlap_self hne ha)

theorem resolve_unaliased (ha : Unaliased router name) :
    router.resolve name = (router.overlaps.lookup name).getD name := by
  rw [ToolRouter.resolve, ha, Option.getD_none]

theorem resolve_unaliased_eq_self_iff (ha : Unaliased router name) :
    router.resolve name = name ↔ router.overlaps.lookup name = none := by
  rw [ToolRouter.resolve_eq_self_iff, ToolRouter.hasRedirect, ha]
  simp

theorem not_settled_of_alias (ha : ¬ Unaliased router name) : router.resolve name ≠ name := by
  intro h
  rw [ToolRouter.resolve_eq_self_iff, ToolRouter.hasRedirect, Bool.or_eq_false_iff] at h
  exact ha (by simpa [Unaliased] using h.1)

end Router

section Runs

variable {tr : List (State × Event)} {s : State}

theorem next_aliases (s : State) (e : Event) : (next s e).router.aliases = s.router.aliases := by
  cases e with
  | detect => exact registerOverlaps_aliases _ _
  | _ => rfl

theorem overlapped_snoc {x : State × Event} {name : Bytes} :
    Overlapped (tr ++ [x]) name ↔ Overlapped tr name ∨
      (x.2 = .detect ∧ ∃ higher, (name, higher) ∈ detectOverlaps x.1.registry) := by
  unfold Overlapped
  simp only [List.mem_append, List.mem_singleton, or_and_right, exists_or, exists_eq_left]

/-- What a detection does to the table: a tool with an overlap has its new one. -/
theorem lookup_detect {name : Bytes} (ha : Unaliased s.router name) :
    (∃ higher, (name, higher) ∈ detectOverlaps s.registry ∧
      (next s .detect).router.overlaps.lookup name = some higher) ∨
    (∀ higher, (name, higher) ∉ detectOverlaps s.registry) ∧
      (next s .detect).router.overlaps.lookup name = s.router.overlaps.lookup name := by
  by_cases h : ∃ higher, (name, higher) ∈ detectOverlaps s.registry
  · obtain ⟨higher, hm⟩ := h
    obtain ⟨cap, hg, hnb, hfirst⟩ := mem_detectOverlaps.mp hm
    refine .inl ⟨higher, hm, registerOverlaps_self hm ?_ ?_ ha⟩
    · intro other ho
      obtain ⟨cap', hg', -, hfirst'⟩ := mem_detectOverlaps.mp ho
      obtain rfl := Option.some.inj (hg.symm.trans hg')
      exact hfirst'.unique hfirst
    · rintro rfl
      exact hnb hfirst.1
  · have hno : ∀ higher, (name, higher) ∉ detectOverlaps s.registry :=
      fun higher hm => h ⟨higher, hm⟩
    exact .inr ⟨hno, registerOverlaps_other hno⟩

/-- A name without an alias has an entry exactly if it was overlapped at some time. -/
theorem lookup_eq_none_iff (h : Run tools tr s) {name : Bytes} (ha : Unaliased s.router name) :
    s.router.overlaps.lookup name = none ↔ ¬ Overlapped tr name := by
  induction h with
  | init h =>
    rw [h.2]
    exact iff_of_true rfl fun ⟨x, hx, _⟩ => absurd hx List.not_mem_nil
  | @step tr s e t _ h ih =>
    obtain rfl : t = next s e := h
    have ha' : Unaliased s.router name := by
      unfold Unaliased at ha ⊢
      rwa [next_aliases] at ha
    rw [overlapped_snoc, not_or]
    cases e with
    | detect =>
      rcases lookup_detect ha' with ⟨higher, hm, hl⟩ | ⟨hno, hl⟩
      · rw [hl]
        refine iff_of_false nofun fun hn => hn.2 ⟨rfl, higher, hm⟩
      · rw [hl, ih ha']
        exact ⟨fun hn => ⟨hn, fun ⟨_, higher, hm⟩ => hno higher hm⟩, And.left⟩
    | _ => exact (ih ha').trans ⟨fun hn => ⟨hn, nofun⟩, And.left⟩

/-- A tool without an alias is routed to itself exactly if it was never overlapped. -/
theorem resolve_self_iff (h : Run tools tr s) {name : Bytes} (ha : Unaliased s.router name) :
    s.router.resolve name = name ↔ ¬ Overlapped tr name :=
  (resolve_unaliased_eq_self_iff ha).trans (lookup_eq_none_iff h ha)

/-- After a detection a tool that is not among the best is routed to the first that is. -/
theorem isFirstBest_resolve {u : State} {name : Bytes} {cap : Capability}
    (hg : u.registry.get name = some cap) (ha : Unaliased (next u .detect).router name)
    (hnb : ¬ IsBest u.registry (categoryOf cap) name) :
    IsFirstBest u.registry (categoryOf cap) ((next u .detect).router.resolve name) := by
  have ha' : Unaliased u.router name := by rwa [Unaliased, next_aliases] at ha
  have hne : toolsIn u.registry (categoryOf cap) ≠ [] :=
    List.ne_nil_of_mem (mem_toolsIn.mpr ⟨cap, hg, rfl, rfl⟩)
  obtain ⟨best, -, -, hfirst, -⟩ := foldl_pickBest_toolsIn hne
  have hm : (name, best) ∈ detectOverlaps u.registry :=
    mem_detectOverlaps.mpr ⟨cap, hg, hnb, hfirst⟩
  rcases lookup_detect ha' with ⟨higher, hm', hl⟩ | ⟨hno, -⟩
  · obtain ⟨cap', hg', -, hfirst'⟩ := mem_detectOverlaps.mp hm'
    obtain rfl := Option.some.inj (hg.symm.trans hg')
    rw [resolve_unaliased ha, hl]
    exact hfirst'
  · exact absurd hm (hno best)

/-- In the state after a detection the router is coherent exactly if no entry is stale: no tool
that is among the best now was ever overlapped, and no preferred tool has an alias. -/
theorem coherent_iff {u : State} (h : Run tools (tr ++ [(u, .detect)]) s) :
    Coherent s ↔ Fresh (tr ++ [(u, .detect)]) s := by
  obtain ⟨hr, hs⟩ := Run.last h
  obtain rfl : s = next u .detect := hs
  constructor
  · intro hc
    refine ⟨?_, ?_⟩
    · intro name cap hg ha hbest
      exact (resolve_self_iff h ha).mp ((hc name cap hg ha).own hbest)
    · intro name cap higher hg ha hnb hfirst
      by_contra hal
      have hroute := hc name cap hg ha
      obtain rfl := (hroute.first hnb).unique hfirst
      exact not_settled_of_alias hal hroute.settled
  · intro hf name cap hg ha
    by_cases hbest : IsBest u.registry (categoryOf cap) name
    · have hself := (resolve_self_iff h ha).mpr (hf.best name cap hg ha hbest)
      refine ⟨?_, ?_, fun _ => hself, fun hnb => absurd hbest hnb⟩
      · rw [hself]
        exact hbest
      · rw [hself, hself]
    · have hfirst := isFirstBest_resolve (u := u) hg ha hbest
      obtain ⟨c, hgc, hcat, hmin⟩ := hfirst.1
      have hal := hf.preferred name cap _ hg ha hbest hfirst
      refine ⟨hfirst.1, ?_, fun hb => absurd hb hbest, fun _ => hfirst⟩
      apply (resolve_self_iff h hal).mpr
      apply hf.best _ c hgc hal
      rw [hcat]
      exact hfirst.1

/-- The first detection of a run leaves nothing stale. -/
theorem fresh_of_first {u : State} (h : Run tools (tr ++ [(u, .detect)]) s)
    (hfirst : ∀ x ∈ tr, x.2 ≠ .detect) (ha : s.router.aliases = []) :
    Fresh (tr ++ [(u, .detect)]) s := by
  obtain ⟨-, hs⟩ := Run.last h
  obtain rfl : s = next u .detect := hs
  constructor
  · intro name cap hg _ hbest ho
    rcases overlapped_snoc.mp ho with ⟨x, hx, hd, -⟩ | ⟨-, higher, hm⟩
    · exact hfirst x hx hd
    · obtain ⟨cap', hg', hnb, -⟩ := mem_detectOverlaps.mp hm
      obtain rfl := Option.some.inj (hg.symm.trans hg')
      exact hnb hbest
  · intro _ _ higher _ _ _ _
    rw [Unaliased, ha]
    rfl

end Runs

namespace Counterexample

def registrations : List Event :=
  [.register (bytes "search") ⟨bytes "web", .skill⟩,
    .register (bytes "web_cli") ⟨bytes "web", .cli⟩]

def start : State := { router := .empty }

/-- The preferred tool goes, and the entry for the other one stays. -/
theorem unregistered_target :
    ∃ tr u s, Run tools (tr ++ [(u, .detect)]) s ∧ ¬ Coherent s := by
  obtain ⟨tr, u, hr, hp⟩ := Run.of_execute (M := tools)
    (fun s e t (h : some (next s e) = some t) => (Option.some.inj h).symm) (s := start) ⟨rfl, rfl⟩
    (registrations ++ [.detect, .unregister (bytes "search")])
    (fun _ s => (next s .detect).registry.get (bytes "web_cli") = some ⟨bytes "web", .cli⟩ ∧
      (next s .detect).router.aliases.lookup (bytes "web_cli") = none ∧
      (next s .detect).router.resolve (bytes "web_cli") = bytes "search" ∧
      (next s .detect).registry.get (bytes "search") = none) (by decide)
  obtain ⟨hg, ha, hres, hnone⟩ := of_decide_eq_true hp
  refine ⟨tr, u, next u .detect, hr.step rfl, fun hc => ?_⟩
  obtain ⟨cap, hcap, -⟩ := (hc _ _ hg ha).best
  rw [hres, hnone] at hcap
  cases hcap

/-- While both are registered the first detection redirects the one to the other. -/
theorem registered_target : ∃ tr u s, Run tools (tr ++ [(u, .detect)]) s ∧ Coherent s ∧
    s.router.resolve (bytes "web_cli") = bytes "search" := by
  obtain ⟨tr, u, hr, hp⟩ := Run.of_execute (M := tools)
    (fun s e t (h : some (next s e) = some t) => (Option.some.inj h).symm) (s := start)
      ⟨rfl, rfl⟩ registrations
    (fun tr s => (tr.all fun x => match x.2 with | .detect => false | _ => true) ∧
      (next s .detect).router.aliases = [] ∧
      (next s .detect).router.resolve (bytes "web_cli") = bytes "search") (by decide)
  obtain ⟨hfirst, ha, hres⟩ := of_decide_eq_true hp
  have hrun : Run tools (tr ++ [(u, .detect)]) (next u .detect) := hr.step rfl
  refine ⟨tr, u, _, hrun, (coherent_iff hrun).mpr (fresh_of_first hrun ?_ ha), hres⟩
  intro x hx hd
  have := List.all_eq_true.mp hfirst x hx
  rw [hd] at this
  cases this

end Counterexample

end OverlapRouting
