import Mathlib.Data.List.Sort
import TizenClaw.JsonValue
import TizenClaw.PipelineExecutor
import TizenClaw.TransitionSystem

/-! The backends of the agent: the first of the candidates that works becomes the active one, and
the names of the others are kept to fall back on. -/
namespace BackendSelection

open ByteString JsonValue TransitionSystem

structure Plugin where
  name : Bytes
  config : Json

/-- `plugin` is the configuration of the plugin, for a candidate that is one. -/
structure BackendCandidate where
  name : Bytes
  priority : ℤ
  plugin : Option Json := none

/-- What does not change while the agent runs; `decrypt` leaves a key alone that is not encrypted
or cannot be decrypted. -/
structure Settings where
  llmConfig : Json
  truncate : NumberText → ℤ
  decrypt : Bytes → Bytes

inductive Attempt where
  | works
  | fails
  | throws
  deriving DecidableEq, Repr

/-- `active` is the name the active backend was created under. -/
structure State where
  plugins : List Plugin := []
  active : Option Bytes := none
  fallbackNames : List Bytes := []

/-- What the calls of one backend after another come to. -/
abbrev Attempts := ℕ → Bytes → Json → Attempt

/-- A load is the initialisation, or the reload after a change of the plugins. A call asks the
active backend, and the others if that one fails. -/
inductive Event where
  | load (plugins : List Plugin) (init : Attempts)
  | call (primary : Attempt) (chat : Attempts)

section Candidates

variable (st : Settings)

/-- The entry of a backend under `backends`. -/
def backendEntry (name : Bytes) : Option Json :=
  (st.llmConfig.member? (bytes "backends")).bind (Json.member? name)

def getPriority (j : Json) (default : ℤ) : Except JsonException ℤ :=
  j.value (PipelineExecutor.getInt st.truncate) (bytes "priority") default

def fallbackPriority (name : Bytes) : Except JsonException ℤ :=
  match backendEntry st name with
  | some j => getPriority st j 1
  | none => .ok 1

def fallbackCandidates (active : Bytes) : List Json → Except JsonException (List BackendCandidate)
  | [] => .ok []
  | v :: vs => do
    let fb ← v.getString
    if fb = active then fallbackCandidates active vs
    else do
      let prio ← fallbackPriority st fb
      let rest ← fallbackCandidates active vs
      return ⟨fb, prio, none⟩ :: rest

def pluginCandidates : List Plugin → Except JsonException (List BackendCandidate)
  | [] => .ok []
  | p :: ps => do
    let prio ← getPriority st p.config 0
    let rest ← pluginCandidates ps
    return ⟨p.name, prio, some p.config⟩ :: rest

def activeBackend : Except JsonException Bytes :=
  st.llmConfig.valueString (bytes "active_backend") (bytes "openai")

def fallbackBackends : List Json :=
  ((st.llmConfig.member? (bytes "fallback_backends")).map Json.elements).getD []

/-- The candidates, those of higher priority first and otherwise in the order they are added. -/
def candidates (plugins : List Plugin) : Except JsonException (List BackendCandidate) := do
  let active ← activeBackend st
  let fallbacks ← fallbackCandidates st active (fallbackBackends st)
  let others ← pluginCandidates st plugins
  return (⟨active, 1, none⟩ :: fallbacks ++ others).insertionSort fun a b => b.priority ≤ a.priority

end Candidates

section Attempts

variable (st : Settings)

def kBackendRegistry : List Bytes :=
  [bytes "gemini", bytes "openai", bytes "chatgpt", bytes "xai", bytes "grok", bytes "anthropic",
    bytes "claude", bytes "ollama"]

/-- A plugin comes before a built-in backend of its name. -/
def create (plugins : List Plugin) (name : Bytes) : Bool :=
  plugins.any (fun p => p.name = name) || kBackendRegistry.contains name

def decryptKey (j : Json) : Except JsonException Json :=
  match j.member? (bytes "api_key") with
  | none => .ok j
  | some v => do
    let key ← v.getString
    Json.assign (bytes "api_key") (.str (st.decrypt key)) j

def injectXai (name : Bytes) (j : Json) : Except JsonException Json :=
  if name = bytes "xai" ∨ name = bytes "grok" then do
    let j ← Json.assign (bytes "provider_name") (.str (bytes "xai")) j
    if j.contains (bytes "endpoint") then return j
    else Json.assign (bytes "endpoint") (.str (bytes "https://api.x.ai/v1")) j
  else .ok j

/-- A backend is created and used with its configuration; an exception passes through. -/
def attempt (plugins : List Plugin) (use : Attempts) (i : ℕ) (name : Bytes) (config : Json) :
    Attempt :=
  if create plugins name then
    match decryptKey st config >>= injectXai name with
    | .ok j => use i name j
    | .error _ => .throws
  else .fails

/-- The first that works, with those before and after it; an exception ends the search. -/
def firstWorking {α : Type*} (try_ : ℕ → α → Attempt) : ℕ → List α → Option (List α × α × List α)
  | _, [] => none
  | i, a :: l => match try_ i a with
    | .works => some ([], a, l)
    | .throws => none
    | .fails => (firstWorking try_ (i + 1) l).map fun x => (a :: x.1, x.2)

def tryCandidate (plugins : List Plugin) (init : Attempts) (i : ℕ)
    (c : BackendCandidate) : Attempt :=
  attempt st plugins init i c.name (c.plugin.getD ((backendEntry st c.name).getD .null))

def tryFallback (plugins : List Plugin) (chat : Attempts) (i : ℕ) (name : Bytes) : Attempt :=
  attempt st plugins chat i name ((backendEntry st name).getD .null)

/-- The candidate that is taken, between the others. -/
def selectBackend (plugins : List Plugin) (init : Attempts) :
    Option (List BackendCandidate × BackendCandidate × List BackendCandidate) :=
  match candidates st plugins with
  | .ok cands => firstWorking (tryCandidate st plugins init) 0 cands
  | .error _ => none

end Attempts

section Step

variable (st : Settings)

def pushNew (names : List Bytes) (name : Bytes) : List Bytes :=
  if name ∈ names then names else names ++ [name]

def switchToBestBackend (s : State) (init : Attempts) : State :=
  match selectBackend st s.plugins init with
  | some (front, c, back) =>
    { s with
      active := some c.name
      fallbackNames := ((front ++ back).map (·.name)).foldl pushNew [] }
  | none => s

/-- The backend that answers becomes the active one; the list of names is left as it is. -/
def tryFallbackBackends (s : State) (chat : Attempts) : State :=
  match firstWorking (tryFallback st s.plugins chat) 0 s.fallbackNames with
  | some (_, name, _) => { s with active := some name }
  | none => s

def next (s : State) : Event → State
  | .load plugins init => switchToBestBackend st { s with plugins := plugins } init
  | .call primary chat => match s.active, primary with
    | some _, .fails => tryFallbackBackends st s chat
    | _, _ => s

def backends : System State Event where
  Init s := s.active = none
  Step s e t := t = next st s e

end Step

section Completeness

variable (st : Settings)

/-- The backends that are configured, in whatever order, and the plugins that are installed. -/
inductive Configured (plugins : List Plugin) : Bytes → Prop where
  | active {name} : activeBackend st = .ok name → Configured plugins name
  | fallback {name} : .str name ∈ fallbackBackends st → Configured plugins name
  | plugin {p} : p ∈ plugins → Configured plugins p.name

/-- The active backend and the fallbacks are the configured backends, each of them once. -/
structure Complete (s : State) (active : Bytes) : Prop where
  nodup : (active :: s.fallbackNames).Nodup
  exact : ∀ name, name ∈ active :: s.fallbackNames ↔ Configured st s.plugins name

def Coherent (s : State) : Prop := ∀ active, s.active = some active → Complete st s active

/-- A load takes a candidate whose name no other candidate has, or takes none and the same names
are configured as before; a call that fails does not find a fallback that works. -/
def Keeps (s : State) : Event → Prop
  | .load plugins init => match selectBackend st plugins init with
    | some (front, c, back) => ∀ d ∈ front ++ back, d.name ≠ c.name
    | none => s.active ≠ none → ∀ name, Configured st plugins name ↔ Configured st s.plugins name
  | .call primary chat => s.active ≠ none → primary = .fails →
      firstWorking (tryFallback st s.plugins chat) 0 s.fallbackNames = none

end Completeness

section Lists

theorem firstWorking_split {α : Type*} {try_ : ℕ → α → Attempt} {i : ℕ} {l : List α}
    {x : List α × α × List α} (h : firstWorking try_ i l = some x) : l = x.1 ++ x.2.1 :: x.2.2 := by
  induction l generalizing i x with
  | nil => cases h
  | cons a l ih =>
    unfold firstWorking at h
    split at h
    · cases h
      rfl
    · cases h
    · obtain ⟨y, hy, rfl⟩ := Option.map_eq_some_iff.mp h
      rw [ih hy]
      rfl

theorem foldl_pushNew (l acc : List Bytes) (hn : acc.Nodup) :
    (l.foldl pushNew acc).Nodup ∧ ∀ name, name ∈ l.foldl pushNew acc ↔ name ∈ acc ∨ name ∈ l := by
  induction l generalizing acc with
  | nil => exact ⟨hn, fun name => by simp⟩
  | cons a l ih =>
    rw [List.foldl_cons, pushNew]
    by_cases ha : a ∈ acc
    · rw [if_pos ha]
      refine ⟨(ih acc hn).1, fun name => ((ih acc hn).2 name).trans ?_⟩
      rw [List.mem_cons]
      constructor
      · exact Or.imp_right Or.inr
      · rintro (h | rfl | h)
        · exact .inl h
        · exact .inl ha
        · exact .inr h
    · rw [if_neg ha]
      have hn' : (acc ++ [a]).Nodup := by
        rw [List.nodup_append]
        refine ⟨hn, List.nodup_singleton a, ?_⟩
        intro x hx y hy
        obtain rfl := List.mem_singleton.mp hy
        rintro rfl
        exact ha hx
      refine ⟨(ih _ hn').1, fun name => ((ih _ hn').2 name).trans ?_⟩
      rw [List.mem_append, List.mem_singleton, List.mem_cons, or_assoc]

end Lists

section Names

variable {st : Settings}

theorem mem_fallbackCandidates {active : Bytes} {l : List Json} {cands : List BackendCandidate}
    (h : fallbackCandidates st active l = .ok cands) (name : Bytes) :
    name ∈ cands.map (·.name) ↔ name ≠ active ∧ .str name ∈ l := by
  induction l generalizing cands with
  | nil =>
    cases h
    simp
  | cons v vs ih =>
    obtain ⟨fb, hv, hrec⟩ := bind_eq_ok.mp h
    obtain rfl : v = .str fb := by
      cases v with
      | str s =>
        cases hv
        rfl
      | _ => cases hv
    clear h
    by_cases hfb : fb = active
    · rw [if_pos hfb] at hrec
      rw [ih hrec, List.mem_cons]
      constructor
      · exact And.imp_right Or.inr
      · rintro ⟨hne, heq | hm⟩
        · exact absurd ((Json.str.inj heq).trans hfb) hne
        · exact ⟨hne, hm⟩
    · rw [if_neg hfb] at hrec
      obtain ⟨prio, -, h⟩ := bind_eq_ok.mp hrec
      obtain ⟨rest, hrest, h⟩ := bind_eq_ok.mp h
      cases h
      rw [List.map_cons, List.mem_cons, ih hrest, List.mem_cons]
      constructor
      · rintro (rfl | ⟨hne, hm⟩)
        · exact ⟨hfb, .inl rfl⟩
        · exact ⟨hne, .inr hm⟩
      · rintro ⟨hne, heq | hm⟩
        · exact .inl (Json.str.inj heq)
        · exact .inr ⟨hne, hm⟩

theorem pluginCandidates_names {plugins : List Plugin} {cands : List BackendCandidate}
    (h : pluginCandidates st plugins = .ok cands) : cands.map (·.name) = plugins.map (·.name) := by
  induction plugins generalizing cands with
  | nil =>
    cases h
    rfl
  | cons p ps ih =>
    obtain ⟨prio, -, h⟩ := bind_eq_ok.mp h
    obtain ⟨rest, hrest, h⟩ := bind_eq_ok.mp h
    cases h
    rw [List.map_cons, List.map_cons, ih hrest]

/-- The candidates are the configured backends. -/
theorem mem_candidates {plugins : List Plugin} {cands : List BackendCandidate}
    (h : candidates st plugins = .ok cands) (name : Bytes) :
    name ∈ cands.map (·.name) ↔ Configured st plugins name := by
  obtain ⟨active, ha, h⟩ := bind_eq_ok.mp h
  obtain ⟨fallbacks, hf, h⟩ := bind_eq_ok.mp h
  obtain ⟨others, ho, h⟩ := bind_eq_ok.mp h
  cases h
  rw [((List.perm_insertionSort _ _).map _).mem_iff, List.map_append, List.map_cons,
    pluginCandidates_names ho, List.mem_append, List.mem_cons, mem_fallbackCandidates hf]
  constructor
  · rintro ((rfl | ⟨-, hm⟩) | hm)
    · exact .active ha
    · exact .fallback hm
    · obtain ⟨p, hp, rfl⟩ := List.mem_map.mp hm
      exact .plugin hp
  · rintro (ha' | hm | hp)
    · obtain rfl := Except.ok.inj (ha.symm.trans ha')
      exact .inl (.inl rfl)
    · by_cases hne : name = active
      · exact .inl (.inl hne)
      · exact .inl (.inr ⟨hne, hm⟩)
    · exact .inr (List.mem_map_of_mem hp)

theorem mem_selectBackend {plugins : List Plugin} {init : Attempts}
    {front back : List BackendCandidate} {c : BackendCandidate}
    (h : selectBackend st plugins init = some (front, c, back)) (name : Bytes) :
    (name = c.name ∨ name ∈ (front ++ back).map (·.name)) ↔ Configured st plugins name := by
  unfold selectBackend at h
  split at h
  · next cands hc =>
    rw [← mem_candidates hc, firstWorking_split h]
    simp only [List.map_append, List.map_cons, List.mem_append, List.mem_cons]
    tauto
  · cases h

end Names

section Steps

variable {st : Settings} {s : State}

theorem coherent_load (hs : Coherent st s) (plugins : List Plugin) (init : Attempts) :
    Coherent st (next st s (.load plugins init)) ↔ Keeps st s (.load plugins init) := by
  unfold next switchToBestBackend Keeps
  dsimp only
  cases hsel : selectBackend st plugins init with
  | none =>
    constructor
    · intro ht hne name
      obtain ⟨active, ha⟩ := Option.ne_none_iff_exists'.mp hne
      exact ((ht active ha).exact name).symm.trans ((hs active ha).exact name)
    · intro hsame active ha
      refine ⟨(hs active ha).nodup, fun name => ((hs active ha).exact name).trans ?_⟩
      exact (hsame (by rw [ha]; exact Option.some_ne_none active) name).symm
  | some x =>
    obtain ⟨front, c, back⟩ := x
    obtain ⟨hn, hm⟩ := foldl_pushNew ((front ++ back).map (·.name)) [] List.nodup_nil
    constructor
    · intro ht d hd heq
      refine (List.nodup_cons.mp (ht c.name rfl).nodup).1 ((hm c.name).mpr (.inr ?_))
      rw [← heq]
      exact List.mem_map_of_mem hd
    · intro hne active ha
      obtain rfl := Option.some.inj ha
      refine ⟨List.nodup_cons.mpr ⟨?_, hn⟩, ?_⟩
      · intro hc
        rcases (hm c.name).mp hc with hc | hc
        · cases hc
        · obtain ⟨d, hd, heq⟩ := List.mem_map.mp hc
          exact hne d hd heq
      · intro name
        rw [List.mem_cons, hm, ← mem_selectBackend hsel]
        simp

theorem coherent_call (hs : Coherent st s) (primary : Attempt) (chat : Attempts) :
    Coherent st (next st s (.call primary chat)) ↔ Keeps st s (.call primary chat) := by
  by_cases hasks : s.active ≠ none ∧ primary = .fails
  · obtain ⟨hne, rfl⟩ := hasks
    obtain ⟨active, ha⟩ := Option.ne_none_iff_exists'.mp hne
    have hnext : next st s (.call .fails chat) = tryFallbackBackends st s chat := by
      simp only [next, ha]
    rw [hnext, tryFallbackBackends, Keeps]
    cases hw : firstWorking (tryFallback st s.plugins chat) 0 s.fallbackNames with
    | none => exact iff_of_true hs fun _ _ => rfl
    | some x =>
      -- the backend that answered is still in the list
      have hmem : x.2.1 ∈ s.fallbackNames := by
        rw [firstWorking_split hw]
        exact List.mem_append_right _ List.mem_cons_self
      refine iff_of_false (fun ht => ?_) fun hk => nomatch hk hne rfl
      exact (List.nodup_cons.mp (ht x.2.1 rfl).nodup).1 hmem
  · have hnext : next st s (.call primary chat) = s := by
      rw [next]
      intro active ha hp
      exact hasks ⟨by rw [ha]; exact Option.some_ne_none active, hp⟩
    rw [hnext]
    exact iff_of_true hs fun hne hp => absurd ⟨hne, hp⟩ hasks

theorem coherent_next (hs : Coherent st s) (e : Event) :
    Coherent st (next st s e) ↔ Keeps st s e := by
  cases e with
  | load plugins init => exact coherent_load hs plugins init
  | call primary chat => exact coherent_call hs primary chat

end Steps

section Runs

variable {st : Settings} {tr : List (State × Event)} {s : State}

/-- The names that a fallback pass asks for. -/
def asked (try_ : ℕ → Bytes → Attempt) (names : List Bytes) : List Bytes :=
  match firstWorking try_ 0 names with
  | some (front, name, _) => front ++ [name]
  | none => names

theorem asked_front (try_ : ℕ → Bytes → Attempt) (names : List Bytes) :
    asked try_ names <+: names := by
  unfold asked
  split
  · next front name back h =>
    refine ⟨back, ?_⟩
    rw [firstWorking_split h, List.append_assoc]
    rfl
  · exact List.prefix_rfl

/-- The active backend and its fallbacks are the configured ones in all states of a run exactly if
every step of it keeps them; no backend is then asked twice for one answer. -/
theorem candidates_kept_iff (h : Run (backends st) tr s) :
    ((∀ x ∈ tr, Coherent st x.1) ∧ Coherent st s ↔ ∀ x ∈ tr, Keeps st x.1 x.2) ∧
    (Coherent st s → ∀ active, s.active = some active →
      ∀ try_, (active :: asked try_ s.fallbackNames).Nodup) := by
  constructor
  · refine h.invariant_iff (fun s hi active ha => ?_) fun s e t hc ht => ?_
    · rw [show s.active = none from hi] at ha
      cases ha
    · obtain rfl : t = next st s e := ht
      exact coherent_next hc e
  · intro hc active ha try_
    exact (hc active ha).nodup.sublist ((asked_front try_ _).sublist.cons_cons active)

end Runs

namespace Counterexample

def llmConfig : Json :=
  .obj [(bytes "active_backend", .str (bytes "gemini")),
    (bytes "fallback_backends", .arr [.str (bytes "openai"), .str (bytes "ollama")])]

def settings : Settings := { llmConfig := llmConfig, truncate := fun _ => 0, decrypt := id }

def working : Attempts := fun _ _ _ => .works

/-- After the initialisation the model call fails, and the first fallback answers. -/
def switch : List Event := [.load [] working, .call .fails working]

/-- Now `openai` is active and first in the list, and `gemini` is in neither. -/
theorem switched_backend :
    ∃ tr s, Run (backends settings) tr s ∧
      ¬ ((∀ x ∈ tr, Coherent settings x.1) ∧ Coherent settings s) := by
  obtain ⟨tr, s, hr, hp⟩ := Run.of_execute (M := backends settings)
    (fun s e t (h : some (next settings s e) = some t) => (Option.some.inj h).symm)
    (s := {}) rfl switch
    (fun _ s => s.active = some (bytes "openai") ∧
      s.fallbackNames = [bytes "openai", bytes "ollama"])
    (by decide)
  obtain ⟨ha, hf⟩ := of_decide_eq_true hp
  refine ⟨tr, s, hr, fun hc => ?_⟩
  have hn := (hc.2 _ ha).nodup
  rw [hf] at hn
  exact absurd hn (by decide)

theorem load_keeps : Keeps settings {} (.load [] working) := by
  have hany : (selectBackend settings [] working).any
      (fun x => (x.1 ++ x.2.2).all fun d => d.name ≠ x.2.1.name) = true := by decide
  obtain ⟨⟨front, c, back⟩, hsel, hall⟩ := (Option.any_eq_true _ _).mp hany
  rw [Keeps, hsel]
  intro d hd
  exact of_decide_eq_true (List.all_eq_true.mp hall d hd)

/-- The initialisation and a call that the active backend answers. -/
theorem answered_coherent : ∃ tr s, Run (backends settings) tr s ∧ Coherent settings s ∧
    s.active = some (bytes "gemini") := by
  have hr : Run (backends settings) _ _ := ((Run.init rfl).step (s := {}) (e := .load [] working)
    rfl).step (e := .call .works working) rfl
  refine ⟨_, _, hr, ((candidates_kept_iff hr).1.mpr ?_).2, by decide⟩
  intro x hx
  rcases List.mem_append.mp hx with hx | hx
  · obtain rfl := List.mem_singleton.mp hx
    exact load_keeps
  · obtain rfl := List.mem_singleton.mp hx
    exact fun _ h => nomatch h

end Counterexample

end BackendSelection
