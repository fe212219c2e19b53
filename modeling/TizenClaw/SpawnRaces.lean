import TizenClaw.AgentFactory
import TizenClaw.TransitionSystem

/-! Agents spawned and removed by tool calls that run at once. A call that spawns takes two locks for
its checks and two more to enter the role; a call that removes takes one lock for each of the two
maps. Which calls have been removed, and the roles of the beginning, are kept for the statements. -/
namespace SpawnRaces

open ByteString JsonValue OrderedMap AgentMachine AgentFactory TransitionSystem

section Model

inductive Phase where
  | called
  | checked
  | cleared
  | registered
  | tracked
  | refused (text : Bytes)
  | returned (result : Except JsonException Json)
  deriving DecidableEq

structure Call where
  request : SpawnRequest
  phase : Phase := .called
  removed : Bool := false
  deriving DecidableEq

def Call.role (d : Call) : AgentRole := d.request.role
def Call.name (d : Call) : Bytes := d.request.role.name

/-- `removing` are the names that have gone from the one map and not yet from the other. -/
structure State where
  loaded : Roles
  roles : Roles
  dynamic : Roles := .empty
  calls : List Call := []
  removing : List Bytes := []

/-- The call has entered its role in both maps and has not thrown afterwards. -/
def Phase.succeeded : Phase → Bool
  | .tracked | .returned (.ok _) => true
  | _ => false

def Phase.ended : Phase → Bool
  | .refused _ | .returned _ => true
  | _ => false

def Call.live (d : Call) : Bool := d.phase.succeeded && !d.removed

/-- The call of a removed agent. -/
def Call.remove (name : Bytes) (d : Call) : Call :=
  if d.name = name ∧ d.live = true then { d with removed := true } else d

def State.set (s : State) (c : ℕ) (d : Call) (phase : Phase) : State :=
  { s with calls := s.calls.set c { d with phase := phase } }

/-- What a check leads to. -/
def Phase.after (passed : Phase) : Except Bytes Unit → Phase
  | .ok _ => passed
  | .error text => .refused text

/-- A call that spawns is made; it checks the spawned roles, then those of the supervisor; it enters
its role in the supervisor, then among the spawned ones; and it returns, with what `PersistRole` did
if the role was to persist. An agent is removed; and its role is taken from the supervisor. -/
inductive Event where
  | spawn (args : Json)
  | checkDynamic (c : ℕ)
  | checkStatic (c : ℕ)
  | register (c : ℕ)
  | track (c : ℕ)
  | finish (c : ℕ) (persisted : Except JsonException Bool) (now : ℤ)
  | remove (name : Bytes)
  | unregister (name : Bytes)

variable (truncate : NumberText → ℤ)

def step (s : State) : Event → Option State
  | .spawn args => match readSpawn truncate args with
    | .ok (.ok r) => some { s with calls := s.calls ++ [{ request := r }] }
    | _ => some s
  | .checkDynamic c => (s.calls[c]?).bind fun d =>
    if d.phase = .called then
      some (s.set c d (Phase.after .checked (AgentFactory.checkDynamic s.dynamic d.name)))
    else none
  | .checkStatic c => (s.calls[c]?).bind fun d =>
    if d.phase = .checked then
      some (s.set c d (Phase.after .cleared (AgentFactory.checkStatic s.roles d.name)))
    else none
  | .register c => (s.calls[c]?).bind fun d =>
    if d.phase = .cleared then
      some { s.set c d .registered with roles := s.roles.insert d.name d.role }
    else none
  | .track c => (s.calls[c]?).bind fun d =>
    if d.phase = .registered then
      some { s.set c d .tracked with dynamic := s.dynamic.insert d.name d.role }
    else none
  | .finish c persisted now => (s.calls[c]?).bind fun d =>
    if d.phase = .tracked then
      some (s.set c d (.returned ((if d.request.persistent then persisted else .ok false).map
        fun _ => spawnedReply d.request now)))
    else none
  | .remove name =>
    if s.dynamic.contains name then
      some { s with
        dynamic := s.dynamic.erase name
        removing := name :: s.removing
        calls := s.calls.map (Call.remove name) }
    else some s
  | .unregister name =>
    if name ∈ s.removing then
      some { s with roles := s.roles.erase name, removing := s.removing.erase name }
    else none

def spawning : System State Event where
  Init s := ∃ roles, s = { loaded := roles, roles := roles }
  Step s e t := step truncate s e = some t

/-- The limit holds; a call that succeeded and was not removed is the only one of its name, and its
role is the one that both maps have; and of the calls of one name, once they have ended and as long
as no such agent is removed, one has succeeded, unless the name was taken from the beginning or the
limit was met. -/
structure Safe (s : State) : Prop where
  limit : s.dynamic.entries.length ≤ kMaxDynamicAgents
  unique : ∀ (c c' : ℕ) (d d' : Call), s.calls[c]? = some d → s.calls[c']? = some d' →
    d.live = true → d'.live = true → d.name = d'.name → c = c'
  kept : ∀ (c : ℕ) (d : Call), s.calls[c]? = some d → d.live = true →
    s.dynamic.get d.name = some d.role ∧ s.roles.get d.name = some d.role
  one : ∀ name, s.loaded.get name = none → (∃ d ∈ s.calls, d.name = name) →
    (∀ d ∈ s.calls, d.name = name → d.phase.ended = true ∧ d.phase ≠ .refused limitText ∧
      d.removed = false) →
    ∃! c : ℕ, ∃ d : Call, s.calls[c]? = some d ∧ d.name = name ∧ d.live = true

/-- What a call has checked still holds when it acts on it: its name is free when it is entered in
the supervisor, there is room when it is tracked; and `PersistRole` does not throw. -/
def Permitted (s : State) : Event → Prop
  | .register c => ∀ d ∈ s.calls[c]?, s.roles.get d.name = none
  | .track _ => s.dynamic.entries.length < kMaxDynamicAgents
  | .finish c persisted _ => ∀ d ∈ s.calls[c]?, d.request.persistent = true → ∃ b, persisted = .ok b
  | _ => True

instance (s : State) : DecidablePred (Permitted s)
  | .register c => inferInstanceAs (Decidable (∀ d ∈ s.calls[c]?, s.roles.get d.name = none))
  | .track _ => inferInstanceAs (Decidable (_ < _))
  | .finish c (.ok b) _ => isTrue fun _ _ _ => ⟨b, rfl⟩
  | .finish c (.error e) _ => decidable_of_iff (∀ d ∈ s.calls[c]?, d.request.persistent = false) (by
      simp [Permitted])
  | .spawn _ | .checkDynamic _ | .checkStatic _ | .remove _ | .unregister _ => isTrue trivial

end Model

section Holders

def Phase.entered (phase : Phase) : Bool := phase = .registered || phase.succeeded

/-- The call has entered its role in the supervisor, where it has not been removed again. -/
def Call.holds (d : Call) : Bool := d.phase = .registered || d.live

/-- A name in the supervisor is held by one call, in the one map or in both, or it is being removed. -/
structure Held (s : State) : Prop where
  limit : s.dynamic.entries.length ≤ kMaxDynamicAgents
  holder : ∀ (c : ℕ) (d : Call), s.calls[c]? = some d → d.holds = true →
    s.roles.get d.name = some d.role ∧ d.name ∉ s.removing
  unique : ∀ (c c' : ℕ) (d d' : Call), s.calls[c]? = some d → s.calls[c']? = some d' →
    d.holds = true → d'.holds = true → d.name = d'.name → c = c'
  live : ∀ (c : ℕ) (d : Call), s.calls[c]? = some d → d.live = true →
    s.dynamic.get d.name = some d.role
  registered : ∀ (c : ℕ) (d : Call), s.calls[c]? = some d → d.phase = .registered →
    s.dynamic.get d.name = none
  tracked : ∀ name role, s.dynamic.get name = some role →
    ∃ (c : ℕ) (d : Call), s.calls[c]? = some d ∧ d.name = name ∧ d.live = true
  removing : ∀ name ∈ s.removing, (s.roles.get name).isSome = true ∧ s.dynamic.get name = none
  nodup : s.removing.Nodup
  unremoved : ∀ (c : ℕ) (d : Call), s.calls[c]? = some d → d.removed = true →
    d.phase.succeeded = true

variable {s : State} {c i : ℕ} {d e : Call} {phase : Phase}

theorem live_holds (h : d.live = true) : d.holds = true := by
  rw [Call.holds, h, Bool.or_true]

theorem registered_holds (h : d.phase = .registered) : d.holds = true := by
  rw [Call.holds, h]
  rfl

theorem set_get (hd : s.calls[c]? = some d) (h : (s.set c d phase).calls[i]? = some e) :
    (i = c ∧ e = { d with phase := phase }) ∨ (i ≠ c ∧ s.calls[i]? = some e) := by
  have hlt := (List.getElem?_eq_some_iff.mp hd).1
  by_cases hi : i = c
  · subst hi
    left
    have hself : (s.set i d phase).calls[i]? = some { d with phase := phase } :=
      List.getElem?_set_self hlt
    exact ⟨rfl, Option.some.inj (h.symm.trans hself)⟩
  · right
    refine ⟨hi, ?_⟩
    rw [← h]
    exact (List.getElem?_set_ne (Ne.symm hi)).symm

theorem get_set_self (hd : s.calls[c]? = some d) :
    (s.set c d phase).calls[c]? = some { d with phase := phase } :=
  List.getElem?_set_self (List.getElem?_eq_some_iff.mp hd).1

theorem get_set_other (hi : i ≠ c) : (s.set c d phase).calls[i]? = s.calls[i]? :=
  List.getElem?_set_ne (Ne.symm hi)

/-- Calls that make no difference to the maps. -/
structure Similar (d d' : Call) : Prop where
  request : d'.request = d.request
  removed : d'.removed = d.removed
  registered : d'.phase = .registered ↔ d.phase = .registered
  succeeded : d'.phase.succeeded = d.phase.succeeded

theorem Similar.refl (d : Call) : Similar d d := ⟨rfl, rfl, Iff.rfl, rfl⟩

theorem Similar.holds {d d' : Call} (h : Similar d d') : d'.holds = d.holds := by
  have hreg : decide (d'.phase = .registered) = decide (d.phase = .registered) :=
    decide_eq_decide.mpr h.registered
  rw [Call.holds, Call.holds, Call.live, Call.live, hreg, h.succeeded, h.removed]

theorem Similar.live {d d' : Call} (h : Similar d d') : d'.live = d.live := by
  rw [Call.live, Call.live, h.succeeded, h.removed]

theorem Similar.name {d d' : Call} (h : Similar d d') : d'.name = d.name := by
  rw [Call.name, Call.name, h.request]

theorem Similar.role {d d' : Call} (h : Similar d d') : d'.role = d.role := by
  rw [Call.role, Call.role, h.request]

/-- A call that goes on without a map being changed. -/
theorem held_set (h : Held s) (hd : s.calls[c]? = some d) (hs : Similar d { d with phase := phase }) :
    Held (s.set c d phase) := by
  have hold : ∀ {i : ℕ} {e : Call}, (s.set c d phase).calls[i]? = some e →
      ∃ e' : Call, s.calls[i]? = some e' ∧ Similar e' e := by
    intro i e he
    rcases set_get hd he with ⟨rfl, rfl⟩ | ⟨-, he'⟩
    · exact ⟨d, hd, hs⟩
    · exact ⟨e, he', .refl e⟩
  exact {
    limit := h.limit
    holder := by
      intro i e he hh
      obtain ⟨e', he', hsim⟩ := hold he
      rw [hsim.name, hsim.role]
      exact h.holder i e' he' (hsim.holds ▸ hh)
    unique := by
      intro i j e f he hf hhe hhf hname
      obtain ⟨e', he', hse⟩ := hold he
      obtain ⟨f', hf', hsf⟩ := hold hf
      rw [hse.name, hsf.name] at hname
      exact h.unique i j e' f' he' hf' (hse.holds ▸ hhe) (hsf.holds ▸ hhf) hname
    live := by
      intro i e he hl
      obtain ⟨e', he', hsim⟩ := hold he
      rw [hsim.name, hsim.role]
      exact h.live i e' he' (hsim.live ▸ hl)
    registered := by
      intro i e he hr
      obtain ⟨e', he', hsim⟩ := hold he
      rw [hsim.name]
      exact h.registered i e' he' (hsim.registered.mp hr)
    tracked := by
      intro name role hget
      obtain ⟨i, e, he, hname, hl⟩ := h.tracked name role hget
      by_cases hi : i = c
      · subst hi
        obtain rfl := Option.some.inj (hd.symm.trans he)
        exact ⟨i, _, get_set_self hd, hname, hs.live.trans hl⟩
      · exact ⟨i, e, (get_set_other hi).trans he, hname, hl⟩
    removing := h.removing
    nodup := h.nodup
    unremoved := by
      intro i e he hr
      obtain ⟨e', he', hsim⟩ := hold he
      rw [hsim.succeeded]
      exact h.unremoved i e' he' (hsim.removed ▸ hr) }

/-- A call that has just been made. -/
theorem held_append (h : Held s) (r : SpawnRequest) :
    Held { s with calls := s.calls ++ [{ request := r }] } := by
  have hold : ∀ {i : ℕ} {e : Call}, (s.calls ++ [({ request := r } : Call)])[i]? = some e →
      s.calls[i]? = some e ∨ e = { request := r } := by
    intro i e he
    rw [List.getElem?_append] at he
    by_cases hi : i < s.calls.length
    · rw [if_pos hi] at he
      exact .inl he
    · rw [if_neg hi] at he
      exact .inr (List.mem_singleton.mp (List.mem_of_getElem? he))
  have hnew : ∀ {i : ℕ} {e : Call}, s.calls[i]? = some e →
      (s.calls ++ [({ request := r } : Call)])[i]? = some e := by
    intro i e he
    rw [List.getElem?_append_left (List.getElem?_eq_some_iff.mp he).1, he]
  exact {
    limit := h.limit
    holder := by
      intro i e he hh
      rcases hold he with he | rfl
      · exact h.holder i e he hh
      · cases hh
    unique := by
      intro i j e f he hf hhe hhf hname
      rcases hold he with he | rfl
      · rcases hold hf with hf | rfl
        · exact h.unique i j e f he hf hhe hhf hname
        · cases hhf
      · cases hhe
    live := by
      intro i e he hl
      rcases hold he with he | rfl
      · exact h.live i e he hl
      · cases hl
    registered := by
      intro i e he hr
      rcases hold he with he | rfl
      · exact h.registered i e he hr
      · cases hr
    tracked := by
      intro name role hget
      obtain ⟨i, e, he, hrest⟩ := h.tracked name role hget
      exact ⟨i, e, hnew he, hrest⟩
    removing := h.removing
    nodup := h.nodup
    unremoved := by
      intro i e he hr
      rcases hold he with he | rfl
      · exact h.unremoved i e he hr
      · cases hr }

/-- A name that no role in the supervisor has is held by nobody. -/
theorem free_name (h : Held s) {name : Bytes} (hfree : s.roles.get name = none) :
    (∀ (i : ℕ) (e : Call), s.calls[i]? = some e → e.holds = true → e.name ≠ name) ∧
      s.dynamic.get name = none ∧ name ∉ s.removing := by
  have hnobody : ∀ (i : ℕ) (e : Call), s.calls[i]? = some e → e.holds = true → e.name ≠ name := by
    rintro i e he hh rfl
    rw [(h.holder i e he hh).1] at hfree
    cases hfree
  refine ⟨hnobody, ?_, ?_⟩
  · by_contra hsome
    obtain ⟨role, hrole⟩ := Option.ne_none_iff_exists'.mp hsome
    obtain ⟨i, e, he, hname, hl⟩ := h.tracked name role hrole
    exact hnobody i e he (live_holds hl) hname
  · intro hm
    have hsome := (h.removing name hm).1
    rw [hfree] at hsome
    cases hsome

theorem held_register (h : Held s) (hd : s.calls[c]? = some d) (hphase : d.phase = .cleared)
    (hfree : s.roles.get d.name = none) :
    Held { s.set c d .registered with roles := s.roles.insert d.name d.role } := by
  obtain ⟨hnobody, hdynamic, hremoving⟩ := free_name h hfree
  have hsucceeded : d.phase.succeeded = false := by
    rw [hphase]
    rfl
  exact {
    limit := h.limit
    holder := by
      intro i e he hh
      rcases set_get hd he with ⟨-, rfl⟩ | ⟨-, he'⟩
      · exact ⟨Map.get_insert_self _ _ _, hremoving⟩
      · have hne := hnobody i e he' hh
        exact ⟨(Map.get_insert_other hne _ _).trans (h.holder i e he' hh).1,
          (h.holder i e he' hh).2⟩
    unique := by
      intro i j e f he hf hhe hhf hname
      rcases set_get hd he with ⟨rfl, rfl⟩ | ⟨-, he'⟩
      · rcases set_get hd hf with ⟨rfl, -⟩ | ⟨-, hf'⟩
        · rfl
        · exact absurd hname.symm (hnobody j f hf' hhf)
      · rcases set_get hd hf with ⟨rfl, rfl⟩ | ⟨-, hf'⟩
        · exact absurd hname (hnobody i e he' hhe)
        · exact h.unique i j e f he' hf' hhe hhf hname
    live := by
      intro i e he hl
      rcases set_get hd he with ⟨-, rfl⟩ | ⟨-, he'⟩
      · cases hl
      · exact h.live i e he' hl
    registered := by
      intro i e he hr
      rcases set_get hd he with ⟨-, rfl⟩ | ⟨-, he'⟩
      · exact hdynamic
      · exact h.registered i e he' hr
    tracked := by
      intro name role hget
      obtain ⟨i, e, he, hname, hl⟩ := h.tracked name role hget
      have hi : i ≠ c := by
        rintro rfl
        obtain rfl := Option.some.inj (hd.symm.trans he)
        rw [Call.live, hsucceeded] at hl
        cases hl
      exact ⟨i, e, (get_set_other hi).trans he, hname, hl⟩
    removing := by
      intro name hm
      have hne : name ≠ d.name := by
        rintro rfl
        exact hremoving hm
      dsimp only
      rw [Map.get_insert_other hne]
      exact h.removing name hm
    nodup := h.nodup
    unremoved := by
      intro i e he hr
      rcases set_get hd he with ⟨-, rfl⟩ | ⟨-, he'⟩
      · have hs := h.unremoved c d hd hr
        rw [hsucceeded] at hs
        cases hs
      · exact h.unremoved i e he' hr }

theorem held_track (h : Held s) (hd : s.calls[c]? = some d) (hphase : d.phase = .registered)
    (hroom : s.dynamic.entries.length < kMaxDynamicAgents) :
    Held { s.set c d .tracked with dynamic := s.dynamic.insert d.name d.role } := by
  have hholds := registered_holds hphase
  have hunremoved : d.removed = false := by
    by_contra hr
    have hs := h.unremoved c d hd (Bool.not_eq_false _ ▸ hr)
    rw [hphase] at hs
    cases hs
  have hnobody : ∀ (i : ℕ) (e : Call), i ≠ c → s.calls[i]? = some e → e.holds = true →
      e.name ≠ d.name := fun i e hi he hh hname => hi (h.unique i c e d he hd hh hholds hname)
  exact {
    limit := (Map.length_insert_le _ _ _).trans hroom
    holder := by
      intro i e he hh
      rcases set_get hd he with ⟨-, rfl⟩ | ⟨-, he'⟩
      · exact h.holder c d hd hholds
      · exact h.holder i e he' hh
    unique := by
      intro i j e f he hf hhe hhf hname
      rcases set_get hd he with ⟨rfl, rfl⟩ | ⟨hi, he'⟩
      · rcases set_get hd hf with ⟨rfl, -⟩ | ⟨hj, hf'⟩
        · rfl
        · exact absurd hname.symm (hnobody j f hj hf' hhf)
      · rcases set_get hd hf with ⟨rfl, rfl⟩ | ⟨-, hf'⟩
        · exact absurd hname (hnobody i e hi he' hhe)
        · exact h.unique i j e f he' hf' hhe hhf hname
    live := by
      intro i e he hl
      rcases set_get hd he with ⟨-, rfl⟩ | ⟨hi, he'⟩
      · exact Map.get_insert_self _ _ _
      · have hne := hnobody i e hi he' (live_holds hl)
        exact (Map.get_insert_other hne _ _).trans (h.live i e he' hl)
    registered := by
      intro i e he hr
      rcases set_get hd he with ⟨-, rfl⟩ | ⟨hi, he'⟩
      · cases hr
      · have hne := hnobody i e hi he' (registered_holds hr)
        exact (Map.get_insert_other hne _ _).trans (h.registered i e he' hr)
    tracked := by
      intro name role hget
      by_cases hname : name = d.name
      · refine ⟨c, _, get_set_self hd, hname.symm, ?_⟩
        rw [Call.live, hunremoved]
        rfl
      · dsimp only at hget
        rw [Map.get_insert_other hname] at hget
        obtain ⟨i, e, he, hen, hl⟩ := h.tracked name role hget
        have hi : i ≠ c := by
          rintro rfl
          obtain rfl := Option.some.inj (hd.symm.trans he)
          exact hname hen.symm
        exact ⟨i, e, (get_set_other hi).trans he, hen, hl⟩
    removing := by
      intro name hm
      have hne : name ≠ d.name := by
        rintro rfl
        exact (h.holder c d hd hholds).2 hm
      dsimp only
      rw [Map.get_insert_other hne]
      exact h.removing name hm
    nodup := h.nodup
    unremoved := by
      intro i e he hr
      rcases set_get hd he with ⟨-, rfl⟩ | ⟨-, he'⟩
      · rfl
      · exact h.unremoved i e he' hr }

theorem remove_cases (name : Bytes) (d : Call) :
    (d.remove name = d ∧ (d.live = true → d.name ≠ name)) ∨
      ((d.remove name).holds = false ∧ (d.remove name).live = false ∧
        (d.remove name).phase ≠ .registered ∧ (d.remove name).phase.succeeded = true) := by
  rw [Call.remove]
  by_cases hr : d.name = name ∧ d.live = true
  · rw [if_pos hr]
    right
    have hs : d.phase.succeeded = true := by
      have hl := hr.2
      rw [Call.live, Bool.and_eq_true] at hl
      exact hl.1
    have hne : d.phase ≠ .registered := by
      intro hp
      rw [hp] at hs
      cases hs
    have hlive : Call.live { d with removed := true } = false := by
      rw [Call.live, Bool.not_true, Bool.and_false]
    refine ⟨?_, hlive, hne, hs⟩
    rw [Call.holds, hlive, decide_eq_false hne]
    rfl
  · rw [if_neg hr]
    exact .inl ⟨rfl, fun hl hname => hr ⟨hname, hl⟩⟩

theorem held_remove (h : Held s) {name : Bytes} (hname : s.dynamic.contains name = true) :
    Held { s with
      dynamic := s.dynamic.erase name
      removing := name :: s.removing
      calls := s.calls.map (Call.remove name) } := by
  obtain ⟨role, hrole⟩ := Option.isSome_iff_exists.mp hname
  have hnew : ∀ (i : ℕ) (e : Call), (s.calls.map (Call.remove name))[i]? = some e →
      ∃ e' : Call, s.calls[i]? = some e' ∧ e'.remove name = e := by
    intro i e he
    rw [List.getElem?_map] at he
    exact Option.map_eq_some_iff.mp he
  -- a call that still holds its name is the one it was, and its name is another
  have hholds : ∀ (i : ℕ) (e : Call), (s.calls.map (Call.remove name))[i]? = some e →
      e.holds = true → s.calls[i]? = some e ∧ e.name ≠ name := by
    intro i e he hh
    obtain ⟨e', he', rfl⟩ := hnew i e he
    rcases remove_cases name e' with ⟨hsame, hlive⟩ | ⟨hno, -⟩
    · rw [hsame] at hh ⊢
      refine ⟨he', ?_⟩
      rw [Call.holds, Bool.or_eq_true, decide_eq_true_eq] at hh
      rcases hh with hr | hl
      · rintro rfl
        rw [h.registered i e' he' hr] at hrole
        cases hrole
      · exact hlive hl
    · rw [hno] at hh
      cases hh
  have hother : ∀ n ∈ s.removing, n ≠ name := by
    rintro n hn rfl
    rw [(h.removing n hn).2] at hrole
    cases hrole
  exact {
    limit := (List.length_filter_le _ _).trans h.limit
    holder := by
      intro i e he hh
      obtain ⟨he', hne⟩ := hholds i e he hh
      refine ⟨(h.holder i e he' hh).1, ?_⟩
      rw [List.mem_cons, not_or]
      exact ⟨hne, (h.holder i e he' hh).2⟩
    unique := by
      intro i j e f he hf hhe hhf hn
      exact h.unique i j e f (hholds i e he hhe).1 (hholds j f hf hhf).1 hhe hhf hn
    live := by
      intro i e he hl
      obtain ⟨he', hne⟩ := hholds i e he (live_holds hl)
      exact (Map.get_erase_other hne _).trans (h.live i e he' hl)
    registered := by
      intro i e he hr
      obtain ⟨he', hne⟩ := hholds i e he (registered_holds hr)
      exact (Map.get_erase_other hne _).trans (h.registered i e he' hr)
    tracked := by
      intro n r hget
      have hne : n ≠ name := by
        rintro rfl
        dsimp only at hget
        rw [Map.get_erase_self] at hget
        cases hget
      dsimp only at hget
      rw [Map.get_erase_other hne] at hget
      obtain ⟨i, e, he, hen, hl⟩ := h.tracked n r hget
      have hsame : e.remove name = e := by
        rw [Call.remove, if_neg]
        rintro ⟨hn, -⟩
        exact hne (hen.symm.trans hn)
      refine ⟨i, e, ?_, hen, hl⟩
      dsimp only
      rw [List.getElem?_map, he, Option.map_some, hsame]
    removing := by
      intro n hn
      rcases List.mem_cons.mp hn with rfl | hn
      · obtain ⟨i, e, he, hen, hl⟩ := h.tracked n role hrole
        have hr := (h.holder i e he (live_holds hl)).1
        rw [hen] at hr
        exact ⟨Option.isSome_iff_exists.mpr ⟨_, hr⟩, Map.get_erase_self _ _⟩
      · exact ⟨(h.removing n hn).1,
          (Map.get_erase_other (hother n hn) _).trans (h.removing n hn).2⟩
    nodup := List.nodup_cons.mpr ⟨fun hn => hother name hn rfl, h.nodup⟩
    unremoved := by
      intro i e he hr
      obtain ⟨e', he', rfl⟩ := hnew i e he
      rcases remove_cases name e' with ⟨hsame, -⟩ | ⟨-, -, -, hs⟩
      · rw [hsame] at hr ⊢
        exact h.unremoved i e' he' hr
      · exact hs }

theorem held_unregister (h : Held s) {name : Bytes} (hname : name ∈ s.removing) :
    Held { s with roles := s.roles.erase name, removing := s.removing.erase name } where
  limit := h.limit
  holder := by
    intro i e he hh
    obtain ⟨hr, hm⟩ := h.holder i e he hh
    have hne : e.name ≠ name := by
      intro hen
      rw [hen] at hm
      exact hm hname
    exact ⟨(Map.get_erase_other hne _).trans hr, fun hm' => hm (List.mem_of_mem_erase hm')⟩
  unique := h.unique
  live := h.live
  registered := h.registered
  tracked := h.tracked
  removing := by
    intro n hn
    obtain ⟨hne, hn⟩ := (List.Nodup.mem_erase_iff h.nodup).mp hn
    dsimp only
    rw [Map.get_erase_other hne]
    exact h.removing n hn
  nodup := h.nodup.erase name
  unremoved := h.unremoved

end Holders

section Answers

/-- Some call of the name has entered its role in the supervisor. -/
def Entered (s : State) (name : Bytes) : Prop :=
  ∃ d ∈ s.calls, d.name = name ∧ d.phase.entered = true

/-- A call is refused for the limit or for the name; a name is taken by a role of the beginning or by
a call that has entered it; and no call has thrown. -/
structure Answered (s : State) : Prop where
  origin : ∀ name, (s.roles.get name).isSome = true → s.loaded.get name ≠ none ∨ Entered s name
  refused : ∀ d ∈ s.calls, ∀ text, d.phase = .refused text →
    text = limitText ∨ s.loaded.get d.name ≠ none ∨ Entered s d.name
  returned : ∀ d ∈ s.calls, ∀ result, d.phase = .returned result → ∃ reply, result = .ok reply

variable {s : State} {c : ℕ} {d : Call} {phase : Phase}

theorem mem_set (hd : s.calls[c]? = some d) {e : Call} (he : e ∈ (s.set c d phase).calls) :
    e = { d with phase := phase } ∨ e ∈ s.calls := by
  obtain ⟨i, hi⟩ := List.mem_iff_getElem?.mp he
  rcases set_get hd hi with ⟨-, rfl⟩ | ⟨-, he'⟩
  · exact .inl rfl
  · exact .inr (List.mem_of_getElem? he')

/-- A call that has entered its role does not go back. -/
theorem entered_set (hd : s.calls[c]? = some d)
    (hs : d.phase.entered = true → phase.entered = true) {name : Bytes} (h : Entered s name) :
    Entered (s.set c d phase) name := by
  obtain ⟨e, he, hname, hent⟩ := h
  obtain ⟨i, hi⟩ := List.mem_iff_getElem?.mp he
  by_cases hic : i = c
  · subst hic
    obtain rfl := Option.some.inj (hd.symm.trans hi)
    exact ⟨_, List.mem_of_getElem? (get_set_self hd), hname, hs hent⟩
  · exact ⟨e, List.mem_of_getElem? ((get_set_other hic).trans hi), hname, hent⟩

/-- A call goes on, and what it is told is so. -/
theorem answered_set (h : Answered s) (hd : s.calls[c]? = some d)
    (hs : d.phase.entered = true → phase.entered = true)
    (hrefused : ∀ text, phase = .refused text →
      text = limitText ∨ s.loaded.get d.name ≠ none ∨ Entered s d.name)
    (hreturned : ∀ result, phase = .returned result → ∃ reply, result = .ok reply) :
    Answered (s.set c d phase) where
  origin := fun name hname => (h.origin name hname).imp_right (entered_set hd hs)
  refused := by
    intro e he text ht
    rcases mem_set hd he with rfl | he
    · exact (hrefused text ht).imp_right (Or.imp_right (entered_set hd hs))
    · exact (h.refused e he text ht).imp_right (Or.imp_right (entered_set hd hs))
  returned := by
    intro e he result hr
    rcases mem_set hd he with rfl | he
    · exact hreturned result hr
    · exact h.returned e he result hr

/-- The calls of removed agents have entered their roles. -/
theorem entered_remove (name : Bytes) {n : Bytes} (h : Entered s n) {s' : State}
    (hcalls : s'.calls = s.calls.map (Call.remove name)) : Entered s' n := by
  obtain ⟨d, hd, hname, hent⟩ := h
  refine ⟨d.remove name, ?_, ?_⟩
  · rw [hcalls]
    exact List.mem_map_of_mem hd
  · rw [Call.remove]
    split_ifs
    · exact ⟨hname, hent⟩
    · exact ⟨hname, hent⟩

theorem answered_remove (h : Answered s) (name : Bytes) (dynamic : Roles) (removing : List Bytes) :
    Answered { s with
      dynamic := dynamic
      removing := removing
      calls := s.calls.map (Call.remove name) } := by
  have hold : ∀ e ∈ s.calls.map (Call.remove name), ∃ d ∈ s.calls, e.name = d.name ∧
      e.phase = d.phase := by
    intro e he
    obtain ⟨d, hd, rfl⟩ := List.mem_map.mp he
    refine ⟨d, hd, ?_⟩
    rw [Call.remove]
    split_ifs
    · exact ⟨rfl, rfl⟩
    · exact ⟨rfl, rfl⟩
  exact {
    origin := fun n hn => (h.origin n hn).imp_right fun he => entered_remove name he rfl
    refused := by
      intro e he text ht
      obtain ⟨d, hd, hname, hphase⟩ := hold e he
      rw [hname]
      rw [hphase] at ht
      exact (h.refused d hd text ht).imp_right
        (Or.imp_right fun he => entered_remove name he rfl)
    returned := by
      intro e he result hr
      obtain ⟨d, hd, -, hphase⟩ := hold e he
      rw [hphase] at hr
      exact h.returned d hd result hr }

end Answers

section Runs

variable {truncate : NumberText → ℤ} {s t : State} {c : ℕ} {d : Call} {passed : Phase}

structure Inv (s : State) : Prop where
  held : Held s
  answered : Answered s

theorem at_phase {phase : Phase} {f : Call → State} (h : (s.calls[c]?).bind (fun d =>
    if d.phase = phase then some (f d) else none) = some t) :
    ∃ d, s.calls[c]? = some d ∧ d.phase = phase ∧ t = f d := by
  obtain ⟨d, hd, ht⟩ := Option.bind_eq_some_iff.mp h
  split_ifs at ht with hp
  exact ⟨d, hd, hp, (Option.some.inj ht).symm⟩

/-- A phase in which the call has nothing in the maps. -/
def Phase.outside (phase : Phase) : Prop := phase ≠ .registered ∧ phase.succeeded = false

/-- A check lets the call go on or refuses it, and no map is changed. -/
theorem inv_check (h : Inv s) (hd : s.calls[c]? = some d) (hout : d.phase.outside)
    (hpassed : passed = .checked ∨ passed = .cleared) {check : Except Bytes Unit}
    (hcheck : ∀ text, check = .error text →
      text = limitText ∨ s.loaded.get d.name ≠ none ∨ Entered s d.name) :
    Inv (s.set c d (Phase.after passed check)) := by
  have hafter : (Phase.after passed check).outside ∧
      (∀ text, Phase.after passed check = .refused text → check = .error text) ∧
      ∀ result, Phase.after passed check ≠ .returned result := by
    cases check with
    | error text =>
      refine ⟨⟨Phase.noConfusion, rfl⟩, ?_, fun _ => Phase.noConfusion⟩
      rintro _ ⟨rfl⟩
      rfl
    | ok u =>
      rcases hpassed with rfl | rfl
      · exact ⟨⟨Phase.noConfusion, rfl⟩, fun _ => Phase.noConfusion, fun _ => Phase.noConfusion⟩
      · exact ⟨⟨Phase.noConfusion, rfl⟩, fun _ => Phase.noConfusion, fun _ => Phase.noConfusion⟩
  obtain ⟨hout', hrefused, hreturned⟩ := hafter
  constructor
  · apply held_set h.held hd
    exact ⟨rfl, rfl, iff_of_false hout'.1 hout.1, hout'.2.trans hout.2.symm⟩
  · apply answered_set h.answered hd
    · intro hent
      rw [Phase.entered, hout.2, Bool.or_false, decide_eq_true_eq] at hent
      exact absurd hent hout.1
    · exact fun text ht => hcheck text (hrefused text ht)
    · exact fun result hr => absurd hr (hreturned result)

theorem entered_of_live {i : ℕ} {e : Call} (he : s.calls[i]? = some e) (hl : e.live = true) :
    Entered s e.name := by
  refine ⟨e, List.mem_of_getElem? he, rfl, ?_⟩
  rw [Call.live, Bool.and_eq_true] at hl
  rw [Phase.entered, hl.1, Bool.or_true]

theorem inv_step {e : Event} (h : Inv s) (hp : Permitted s e) (hstep : step truncate s e = some t) :
    Inv t := by
  cases e with
  | spawn args =>
    rw [step] at hstep
    split at hstep
    next r _ =>
      obtain rfl := Option.some.inj hstep
      refine ⟨held_append h.held r, ?_⟩
      have hgrow : ∀ {name}, Entered s name →
          Entered { s with calls := s.calls ++ [{ request := r }] } name := by
        rintro name ⟨e, he, hrest⟩
        exact ⟨e, List.mem_append_left _ he, hrest⟩
      constructor
      · exact fun name hname => (h.answered.origin name hname).imp_right hgrow
      · intro e he text ht
        rcases List.mem_append.mp he with he | he
        · exact (h.answered.refused e he text ht).imp_right (Or.imp_right hgrow)
        · obtain rfl := List.mem_singleton.mp he
          cases ht
      · intro e he result hr
        rcases List.mem_append.mp he with he | he
        · exact h.answered.returned e he result hr
        · obtain rfl := List.mem_singleton.mp he
          cases hr
    next =>
      obtain rfl := Option.some.inj hstep
      exact h
  | checkDynamic c =>
    obtain ⟨d, hd, hphase, rfl⟩ := at_phase hstep
    apply inv_check h hd (by rw [hphase]; exact ⟨Phase.noConfusion, rfl⟩) (.inl rfl)
    intro text ht
    rw [AgentFactory.checkDynamic] at ht
    split_ifs at ht with hlimit hname
    · exact .inl (Except.error.inj ht).symm
    · obtain ⟨role, hrole⟩ := Option.isSome_iff_exists.mp hname
      obtain ⟨i, e, he, hen, hl⟩ := h.held.tracked d.name role hrole
      rw [← hen]
      exact .inr (.inr (entered_of_live he hl))
  | checkStatic c =>
    obtain ⟨d, hd, hphase, rfl⟩ := at_phase hstep
    apply inv_check h hd (by rw [hphase]; exact ⟨Phase.noConfusion, rfl⟩) (.inr rfl)
    intro text ht
    rw [AgentFactory.checkStatic] at ht
    split_ifs at ht with hname
    exact .inr (h.answered.origin d.name hname)
  | register c =>
    obtain ⟨d, hd, hphase, rfl⟩ := at_phase hstep
    refine ⟨held_register h.held hd hphase (hp d hd), ?_⟩
    have hset : Answered (s.set c d .registered) := by
      apply answered_set h.answered hd (fun _ => rfl)
      · exact fun _ => Phase.noConfusion
      · exact fun _ => Phase.noConfusion
    refine ⟨?_, hset.refused, hset.returned⟩
    intro name hname
    by_cases hn : name = d.name
    · subst hn
      exact .inr ⟨_, List.mem_of_getElem? (get_set_self hd), rfl, rfl⟩
    · dsimp only at hname
      rw [Map.get_insert_other hn] at hname
      exact hset.origin name hname
  | track c =>
    obtain ⟨d, hd, hphase, rfl⟩ := at_phase hstep
    refine ⟨held_track h.held hd hphase hp, ?_⟩
    have hset : Answered (s.set c d .tracked) := by
      apply answered_set h.answered hd (fun _ => rfl)
      · exact fun _ => Phase.noConfusion
      · exact fun _ => Phase.noConfusion
    exact ⟨hset.origin, hset.refused, hset.returned⟩
  | finish c persisted now =>
    obtain ⟨d, hd, hphase, rfl⟩ := at_phase hstep
    have hok : ∃ b, (if d.request.persistent then persisted else .ok false) = .ok b := by
      by_cases hpersistent : d.request.persistent = true
      · rw [if_pos hpersistent]
        exact hp d hd hpersistent
      · rw [if_neg hpersistent]
        exact ⟨false, rfl⟩
    obtain ⟨b, hb⟩ := hok
    rw [hb]
    constructor
    · apply held_set h.held hd
      rw [Except.map]
      refine ⟨rfl, rfl, ?_, ?_⟩
      · rw [hphase]
        exact iff_of_false Phase.noConfusion Phase.noConfusion
      · rw [hphase]
        rfl
    · apply answered_set h.answered hd (fun _ => rfl)
      · exact fun _ => Phase.noConfusion
      · rintro _ ⟨rfl⟩
        exact ⟨_, rfl⟩
  | remove name =>
    rw [step] at hstep
    split_ifs at hstep with hc
    · obtain rfl := Option.some.inj hstep
      exact ⟨held_remove h.held hc, answered_remove h.answered name _ _⟩
    · obtain rfl := Option.some.inj hstep
      exact h
  | unregister name =>
    rw [step] at hstep
    split_ifs at hstep with hm
    obtain rfl := Option.some.inj hstep
    refine ⟨held_unregister h.held hm, ?_, h.answered.refused, h.answered.returned⟩
    intro n hn
    apply h.answered.origin n
    by_cases hne : n = name
    · dsimp only at hn
      rw [hne, Map.get_erase_self] at hn
      cases hn
    · dsimp only at hn
      rwa [Map.get_erase_other hne] at hn

theorem succeeded_of_ended (hent : d.phase.entered = true)
    (hend : d.phase.ended = true) : d.phase.succeeded = true := by
  rw [Phase.entered, Bool.or_eq_true, decide_eq_true_eq] at hent
  rcases hent with hr | hs
  · rw [hr] at hend
    cases hend
  · exact hs

theorem exists_live (h : Answered s) {name : Bytes} (hfree : s.loaded.get name = none)
    (hd : d ∈ s.calls) (hname : d.name = name)
    (hall : ∀ d ∈ s.calls, d.name = name → d.phase.ended = true ∧ d.phase ≠ .refused limitText ∧
      d.removed = false) : ∃ e ∈ s.calls, e.name = name ∧ e.live = true := by
  obtain ⟨hend, hlimit, hremoved⟩ := hall d hd hname
  cases hphase : d.phase with
  | refused text =>
    rw [hphase] at hlimit
    rcases h.refused d hd text hphase with rfl | hloaded | ⟨e, he, hen, hent⟩
    · exact absurd rfl hlimit
    · rw [hname] at hloaded
      exact absurd hfree hloaded
    · rw [hname] at hen
      obtain ⟨heend, -, heremoved⟩ := hall e he hen
      refine ⟨e, he, hen, ?_⟩
      rw [Call.live, succeeded_of_ended hent heend, heremoved]
      rfl
  | returned result =>
    obtain ⟨reply, rfl⟩ := h.returned d hd result hphase
    refine ⟨d, hd, hname, ?_⟩
    rw [Call.live, hphase, hremoved]
    rfl
  | _ =>
    rw [hphase] at hend
    cases hend

theorem Inv.safe (h : Inv s) : Safe s where
  limit := h.held.limit
  unique := fun c c' d d' hd hd' hl hl' hname =>
    h.held.unique c c' d d' hd hd' (live_holds hl) (live_holds hl') hname
  kept := fun c d hd hl => ⟨h.held.live c d hd hl, (h.held.holder c d hd (live_holds hl)).1⟩
  one := by
    rintro name hfree ⟨d, hd, hname⟩ hall
    obtain ⟨e, he, hen, hl⟩ := exists_live h.answered hfree hd hname hall
    obtain ⟨c, hc⟩ := List.mem_iff_getElem?.mp he
    refine ⟨c, ⟨e, hc, hen, hl⟩, ?_⟩
    rintro c' ⟨e', hc', hen', hl'⟩
    exact h.held.unique c' c e' e hc' hc (live_holds hl') (live_holds hl) (hen'.trans hen.symm)

theorem inv_init (h : (spawning truncate).Init s) : Inv s := by
  obtain ⟨roles, rfl⟩ := h
  have hnone : ∀ {c : ℕ} {d : Call}, ([] : List Call)[c]? = some d → False := by
    intro c d hd
    cases hd
  constructor
  · exact {
      limit := Nat.zero_le _
      holder := fun _ _ hd => (hnone hd).elim
      unique := fun _ _ _ _ hd => (hnone hd).elim
      live := fun _ _ hd => (hnone hd).elim
      registered := fun _ _ hd => (hnone hd).elim
      tracked := by
        intro name role hget
        cases hget
      removing := List.forall_mem_nil _
      nodup := List.nodup_nil
      unremoved := fun _ _ hd => (hnone hd).elim }
  · exact {
      origin := fun name hname => .inl (Option.isSome_iff_ne_none.mp hname)
      refused := List.forall_mem_nil _
      returned := List.forall_mem_nil _ }

/-- Where no check is out of date when it is acted on, all states of a run are safe. -/
theorem safe_of_permitted {tr : List (State × Event)} (h : Run (spawning truncate) tr s)
    (hp : ∀ x ∈ tr, Permitted x.1 x.2) : (∀ x ∈ tr, Safe x.1) ∧ Safe s := by
  have hinv : ∀ {tr s}, Run (spawning truncate) tr s → (∀ x ∈ tr, Permitted x.1 x.2) → Inv s :=
    fun h hp => h.guarded_invariant (fun _ => inv_init) (fun _ _ _ hi hp => inv_step hi hp) hp
  refine ⟨?_, (hinv h hp).safe⟩
  intro x hx
  obtain ⟨tr₁, tr₂, t, rfl, hr, -⟩ := h.split hx
  exact (hinv hr fun y hy => hp y (List.mem_append_left _ hy)).safe

end Runs

namespace Counterexample

def args (name prompt : String) : Json := .object [(bytes "name", .str (bytes name)),
  (bytes "system_prompt", .str (bytes prompt))]

theorem init : (spawning fun _ => 0).Init { loaded := .empty, roles := .empty } := ⟨.empty, rfl⟩

/-- Two calls with different prompts, each checked before the other is entered. -/
def schedule (name name' : String) : List Event :=
  [.spawn (args name "A"), .spawn (args name' "B"), .checkDynamic 0, .checkDynamic 1,
    .checkStatic 0, .checkStatic 1, .register 0, .register 1, .track 0, .track 1,
    .finish 0 (.ok false) 1, .finish 1 (.ok false) 2]

/-- Under one name both succeed, and the first has not the role that is kept. -/
theorem both_spawned : ∃ tr s, Run (spawning fun _ => 0) tr s ∧
    ¬ ((∀ x ∈ tr, Safe x.1) ∧ Safe s) := by
  obtain ⟨tr, s, h, hs⟩ := Run.of_execute (fun _ _ _ h => h) init (schedule "helper" "helper")
    (fun _ s => s.calls.length = 2 ∧ s.calls.all fun d => d.live && d.name = bytes "helper")
    (by decide +kernel)
  refine ⟨tr, s, h, ?_⟩
  rintro ⟨-, hsafe⟩
  obtain ⟨hlen, hall⟩ := of_decide_eq_true hs
  obtain ⟨d, d', hcalls⟩ := List.length_eq_two.mp hlen
  simp only [hcalls, List.all_cons, List.all_nil, Bool.and_true, Bool.and_eq_true,
    decide_eq_true_eq] at hall
  obtain ⟨⟨hl, hn⟩, hl', hn'⟩ := hall
  have hget : s.calls[0]? = some d ∧ s.calls[1]? = some d' := by
    rw [hcalls]
    exact ⟨rfl, rfl⟩
  exact absurd (hsafe.unique 0 1 d d' hget.1 hget.2 hl hl' (hn.trans hn'.symm)) (by decide)

/-- Two calls with two names, run in the same way. -/
theorem two_names : ∃ tr s, Run (spawning fun _ => 0) tr s ∧ s.dynamic.entries.length = 2 ∧
    Safe s := by
  obtain ⟨tr, s, h, hs⟩ := Run.of_execute (fun _ _ _ h => h) init (schedule "helper" "watcher")
    (fun tr s => s.dynamic.entries.length = 2 ∧ ∀ x ∈ tr, Permitted x.1 x.2) (by decide +kernel)
  obtain ⟨hlen, hp⟩ := of_decide_eq_true hs
  exact ⟨tr, s, h, hlen, (safe_of_permitted h hp).2⟩

end Counterexample

end SpawnRaces
