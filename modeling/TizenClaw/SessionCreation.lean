import TizenClaw.JsonRoundTrip
import TizenClaw.OrderedMap
import TizenClaw.SupervisorEngine

/-! The ids of agent sessions: made of a name and of a part of the clock, for sessions that live in
memory and on disk, across restarts. How a session came by its id is kept for the statements only. -/
namespace SessionCreation

open ByteString JsonValue JsonDump JsonParse JsonRoundTrip OrderedMap AgentMachine SupervisorEngine
  TransitionSystem

section Model

def sessionId (name : Bytes) (now : ℤ) : Bytes :=
  bytes "agent_" ++ name ++ bytes "_" ++ decimalInt (now.tmod 100000)

/-- An id was made by `create_session` at some time, or it was given by whoever sent a prompt. -/
inductive Origin where
  | created (name : Bytes) (now : ℤ)
  | given
  deriving DecidableEq

/-- `session_prompts_`, `sessions_` and the stored sessions, under their ids. -/
structure State where
  prompts : Map Bytes (Bytes × Origin) := .empty
  sessions : Map Bytes Origin := .empty
  stored : Map Bytes Origin := .empty

/-- The name and the prompt of a session to be created; a prompt is required. -/
def readCreate (args : Json) : Option (Bytes × Bytes) :=
  match args.valueString (bytes "name") (bytes "agent"),
    args.valueString (bytes "system_prompt") [] with
  | .ok name, .ok prompt => if prompt = [] then none else some (name, prompt)
  | _, _ => none

/-- What can happen to sessions: they are created, by a tool or for a role, are sent a prompt, are
saved, get another mode, are cleared; and the daemon starts anew, after a shutdown or a crash. -/
inductive Event where
  | createSession (args : Json) (now : ℤ)
  | delegate (role : AgentRole) (now : ℤ)
  | prompt (id : Bytes)
  | save (id : Bytes)
  | setMode (id prompt : Bytes)
  | clear (id : Bytes)
  | restart (saved : Bool)

/-- The session an event creates: its name, its prompt and the time. -/
def creation : Event → Option (Bytes × Bytes × ℤ)
  | .createSession args now => (readCreate args).map fun x => (x.1, x.2, now)
  | .delegate role now => (readCreate (createArgs role)).map fun x => (x.1, x.2, now)
  | _ => none

/-- All ids in use, with where they come from. -/
def State.existing (s : State) : List (Bytes × Origin) :=
  s.prompts.entries.map (fun e => (e.1, e.2.2)) ++ s.sessions.entries ++ s.stored.entries

def State.origin (s : State) (id : Bytes) : Origin := (s.existing.lookup id).getD .given

def saveAll (stored : Map Bytes Origin) (sessions : List (Bytes × Origin)) : Map Bytes Origin :=
  sessions.foldl (fun stored e => stored.insert e.1 e.2) stored

def step (s : State) (e : Event) : State :=
  match creation e, e with
  | some (name, prompt, now), _ =>
    { s with prompts := s.prompts.insert (sessionId name now) (prompt, .created name now) }
  | none, .prompt id =>
    if s.sessions.contains id then s
    else { s with sessions := s.sessions.insert id (s.origin id) }
  | none, .save id =>
    if s.sessions.contains id then { s with stored := s.stored.insert id (s.origin id) } else s
  | none, .setMode id prompt => { s with prompts := s.prompts.insert id (prompt, s.origin id) }
  | none, .clear id => { s with sessions := s.sessions.erase id, stored := s.stored.erase id }
  | none, .restart saved =>
    { prompts := .empty
      sessions := .empty
      stored := if saved then saveAll s.stored s.sessions.entries else s.stored }
  | none, _ => s

def sessions : System State Event where
  Init s := s.prompts.entries = [] ∧ s.sessions.entries = [] ∧ ∀ e ∈ s.stored.entries, e.2 = .given
  Step s e t := step s e = t

/-- The id that a step returns is in use nowhere: no prompt, no history and no file is under it. -/
def Fresh (s : State) (e : Event) : Prop :=
  ∀ r ∈ creation e, ∀ x ∈ s.existing, x.1 ≠ sessionId r.1 r.2.2

/-- The session in use was not created under the same name a multiple of 100 seconds away, and was
not given the id by other means. -/
def Distinct (r : Bytes × Bytes × ℤ) (x : Bytes × Origin) : Prop :=
  match x.2 with
  | .created name now => ¬ (name = r.1 ∧ now.tmod 100000 = r.2.2.tmod 100000)
  | .given => x.1 ≠ sessionId r.1 r.2.2

def Permitted (s : State) (e : Event) : Prop := ∀ r ∈ creation e, ∀ x ∈ s.existing, Distinct r x

instance (s : State) (e : Event) : Decidable (Fresh s e) :=
  inferInstanceAs (Decidable (∀ r ∈ creation e, ∀ x ∈ s.existing, x.1 ≠ sessionId r.1 r.2.2))

instance (r : Bytes × Bytes × ℤ) : DecidablePred (Distinct r)
  | (_, .created _ _) => inferInstanceAs (Decidable (¬ (_ ∧ _)))
  | (_, .given) => inferInstanceAs (Decidable (_ ≠ _))

instance (s : State) (e : Event) : Decidable (Permitted s e) :=
  inferInstanceAs (Decidable (∀ r ∈ creation e, ∀ x ∈ s.existing, Distinct r x))

end Model

section Ids

theorem decimalInt_injective : Function.Injective decimalInt := by
  intro i j h
  rw [← integerValue_decimalInt i, h, integerValue_decimalInt]

theorem before_first_inj {c : UInt8} {a b x y : Bytes} (ha : c ∉ a) (hb : c ∉ b)
    (h : a ++ c :: x = b ++ c :: y) : a = b ∧ x = y := by
  induction a generalizing b with
  | nil =>
    cases b with
    | nil => exact ⟨rfl, (List.cons.inj h).2⟩
    | cons d b =>
      obtain ⟨rfl, -⟩ := List.cons.inj h
      exact absurd List.mem_cons_self hb
  | cons d a ih =>
    rw [List.mem_cons, not_or] at ha
    cases b with
    | nil => exact absurd (List.cons.inj h).1.symm ha.1
    | cons d' b =>
      rw [List.mem_cons, not_or] at hb
      obtain ⟨rfl, ht⟩ := List.cons.inj h
      obtain ⟨rfl, rfl⟩ := ih ha.2 hb.2 ht
      exact ⟨rfl, rfl⟩

/-- The name ends at the last underscore. -/
theorem sessionId_inj {name name' : Bytes} {now now' : ℤ} :
    sessionId name now = sessionId name' now' ↔
      name = name' ∧ now.tmod 100000 = now'.tmod 100000 := by
  constructor
  · intro h
    have hrev := congrArg List.reverse h
    have hlast : ∀ i, (0x5F : UInt8) ∉ (decimalInt i).reverse := by
      intro i hi
      exact underscore_not_mem i (List.mem_reverse.mp hi)
    have hbytes : (bytes "_").reverse = [0x5F] := by decide
    simp only [sessionId, List.reverse_append, hbytes, List.singleton_append] at hrev
    obtain ⟨hnow, hname⟩ := before_first_inj (hlast _) (hlast _) hrev
    constructor
    · exact List.reverse_injective (List.append_cancel_right hname)
    · exact decimalInt_injective (List.reverse_injective hnow)
  · rintro ⟨rfl, hnow⟩
    rw [sessionId, sessionId, hnow]

end Ids

section Origins

/-- Whatever says it was created under a name and at a time has the id that was made from these. -/
def Named (l : List (Bytes × Origin)) : Prop :=
  ∀ x ∈ l, ∀ name now, x.2 = .created name now → x.1 = sessionId name now

theorem named_append {l l' : List (Bytes × Origin)} : Named (l ++ l') ↔ Named l ∧ Named l' :=
  List.forall_mem_append

theorem named_insert {m : Map Bytes Origin} (h : Named m.entries) {id : Bytes} {o : Origin}
    (ho : ∀ name now, o = .created name now → id = sessionId name now) :
    Named (m.insert id o).entries := by
  intro x hx
  rcases Map.mem_insert hx with rfl | ⟨-, hx⟩
  · exact ho
  · exact h x hx

theorem named_erase {m : Map Bytes Origin} (h : Named m.entries) (id : Bytes) :
    Named (m.erase id).entries := fun x hx => h x (Map.mem_erase.mp hx).1

theorem named_saveAll {l : List (Bytes × Origin)} (hl : Named l) {m : Map Bytes Origin}
    (hm : Named m.entries) : Named (saveAll m l).entries := by
  induction l generalizing m with
  | nil => exact hm
  | cons e l ih =>
    apply ih (List.forall_mem_cons.mp hl).2
    exact named_insert hm (List.forall_mem_cons.mp hl).1

/-- The ids of prompts and where they come from. -/
def promptIds (m : Map Bytes (Bytes × Origin)) : List (Bytes × Origin) :=
  m.entries.map fun e => (e.1, e.2.2)

theorem named_insert_prompt {m : Map Bytes (Bytes × Origin)} (h : Named (promptIds m))
    {id prompt : Bytes} {o : Origin}
    (ho : ∀ name now, o = .created name now → id = sessionId name now) :
    Named (promptIds (m.insert id (prompt, o))) := by
  intro x hx
  obtain ⟨e, he, rfl⟩ := List.mem_map.mp hx
  rcases Map.mem_insert he with rfl | ⟨-, he⟩
  · exact ho
  · exact h _ (List.mem_map_of_mem he)

theorem named_existing {s : State} : Named s.existing ↔
    (Named (promptIds s.prompts) ∧ Named s.sessions.entries) ∧ Named s.stored.entries := by
  rw [State.existing, named_append, named_append]
  rfl

theorem named_origin {s : State} (h : Named s.existing) {id name : Bytes} {now : ℤ}
    (ho : s.origin id = .created name now) : id = sessionId name now := by
  rw [State.origin] at ho
  cases hl : s.existing.lookup id with
  | none =>
    rw [hl] at ho
    cases ho
  | some o =>
    rw [hl] at ho
    exact h _ (mem_of_lookup hl) name now ho

theorem named_step {s : State} (h : Named s.existing) (e : Event) : Named (step s e).existing := by
  obtain ⟨⟨hp, hs⟩, hd⟩ := named_existing.mp h
  apply named_existing.mpr
  have hown : ∀ {id}, ∀ name now, s.origin id = .created name now → id = sessionId name now :=
    fun _ _ => named_origin h
  unfold step
  split
  next name prompt now _ =>
    refine ⟨⟨named_insert_prompt hp ?_, hs⟩, hd⟩
    rintro _ _ ⟨rfl, rfl⟩
    rfl
  next id _ =>
    by_cases hc : s.sessions.contains id = true
    · rw [if_pos hc]
      exact ⟨⟨hp, hs⟩, hd⟩
    · rw [if_neg hc]
      exact ⟨⟨hp, named_insert hs hown⟩, hd⟩
  next id _ =>
    by_cases hc : s.sessions.contains id = true
    · rw [if_pos hc]
      exact ⟨⟨hp, hs⟩, named_insert hd hown⟩
    · rw [if_neg hc]
      exact ⟨⟨hp, hs⟩, hd⟩
  next id prompt _ => exact ⟨⟨named_insert_prompt hp hown, hs⟩, hd⟩
  next id _ => exact ⟨⟨hp, named_erase hs id⟩, named_erase hd id⟩
  next saved _ =>
    have hnil : Named [] := List.forall_mem_nil _
    refine ⟨⟨hnil, hnil⟩, ?_⟩
    by_cases hsaved : saved = true
    · rw [if_pos hsaved]
      exact named_saveAll hs hd
    · rw [if_neg hsaved]
      exact hd
  next => exact ⟨⟨hp, hs⟩, hd⟩

theorem named_run {tr : List (State × Event)} {s : State} (h : Run sessions tr s) :
    Named s.existing := by
  apply h.invariant
  · rintro s ⟨hp, hs, hd⟩
    rw [State.existing, hp, hs]
    intro x hx name now hc
    rw [hd x hx] at hc
    cases hc
  · rintro s e t hs rfl
    exact named_step hs e

end Origins

section Freshness

theorem fresh_iff_permitted {s : State} (h : Named s.existing) (e : Event) :
    Fresh s e ↔ Permitted s e := by
  apply forall₂_congr
  intro r _
  apply forall₂_congr
  intro x hx
  rw [Distinct]
  cases ho : x.2 with
  | created name now => rw [h x hx name now ho, ne_eq, sessionId_inj]
  | given => exact Iff.rfl

/-- In a run, the ids of new sessions are new exactly if the names and times they are made of are
not those of a session in use, up to 100 seconds, nor was one of them given. -/
theorem fresh_iff {tr : List (State × Event)} {s : State} (h : Run sessions tr s) :
    (∀ x ∈ tr, Fresh x.1 x.2) ↔ ∀ x ∈ tr, Permitted x.1 x.2 := by
  apply forall₂_congr
  intro x hx
  obtain ⟨tr₁, tr₂, t, -, hr, -⟩ := h.split hx
  exact fresh_iff_permitted (named_run hr) x.2

end Freshness

namespace Counterexample

def args (name prompt : String) : Json := .object [(bytes "name", .str (bytes name)),
  (bytes "system_prompt", .str (bytes prompt))]

theorem step_some (s : State) (e : Event) (t : State) (h : some (step s e) = some t) :
    sessions.Step s e t := Option.some.inj h

theorem init : sessions.Init {} := ⟨rfl, rfl, List.forall_mem_nil _⟩

/-- Two agents of one name, created 100 seconds apart: the prompt of the first is overwritten. -/
theorem id_again : ∃ tr s, Run sessions tr s ∧ ¬ ∀ x ∈ tr, Fresh x.1 x.2 := by
  obtain ⟨tr, s, h, hp⟩ := Run.of_execute step_some init
    [.createSession (args "bot" "A") 250, .createSession (args "bot" "B") 100250]
    (fun tr _ => decide (¬ ∀ x ∈ tr, Fresh x.1 x.2)) (by decide)
  exact ⟨tr, s, h, of_decide_eq_true hp⟩

/-- Agents of two names, created at one time. -/
theorem two_agents : ∃ tr s, Run sessions tr s ∧ tr.length = 2 ∧ ∀ x ∈ tr, Fresh x.1 x.2 := by
  obtain ⟨tr, s, h, hp⟩ := Run.of_execute step_some init
    [.createSession (args "bot" "A") 250, .createSession (args "bat" "B") 250]
    (fun tr _ => decide (tr.length = 2 ∧ ∀ x ∈ tr, Permitted x.1 x.2)) (by decide)
  obtain ⟨hl, hp⟩ := of_decide_eq_true hp
  exact ⟨tr, s, h, hl, (fresh_iff h).mpr hp⟩

end Counterexample

end SessionCreation
