import TizenClaw.AgentMachine

/-! Delegations to role agents, any number at once. Each is entered in a list when it begins and
keeps its index there; the list is locked for entering and for removing, not for the time between.
Who entered a record, and which calls have ended, is kept for the statements only. -/
namespace SupervisorEngine

open ByteString JsonValue JsonParse AgentMachine TransitionSystem

section Model

structure DelegationResult where
  roleName : Bytes
  sessionId : Bytes := []
  subTask : Bytes
  result : Bytes
  success : Bool
  deriving DecidableEq

structure ActiveDelegation where
  roleName : Bytes
  subTask : Bytes
  sessionId : Bytes := []
  startTimeMs : ℤ
  completed : Bool := false
  endTimeMs : ℤ := 0
  success : Bool := false
  deriving DecidableEq

/-- A record in the list of active delegations, and the call that entered it. -/
structure Tracked where
  record : ActiveDelegation
  owner : ℕ
  deriving DecidableEq

structure Engine where
  active : List Tracked := []
  history : List ActiveDelegation := []
  total : ℕ := 0
  successful : ℕ := 0
  deriving DecidableEq

def kMaxHistory : ℕ := 20

/-- How far a call is. -/
inductive Phase where
  | creating
  | prompting (sessionId prompt : Bytes)
  | updating (dr : DelegationResult)
  | returned (dr : DelegationResult)
  | threw
  deriving DecidableEq

structure Delegation where
  role : AgentRole
  subTask : Bytes
  startTimeMs : ℤ
  trackingIdx : ℕ
  phase : Phase := .creating

/-- The calls so far, and those that have ended in the order they did. -/
structure State where
  engine : Engine := {}
  calls : List Delegation := []
  ended : List ℕ := []

def kRolePrefix : Bytes := bytes "role_"

/-- What the session of a role is created with. -/
def createArgs (role : AgentRole) : Json := .object [(bytes "name", .str (kRolePrefix ++ role.name)),
  (bytes "system_prompt", .str role.systemPrompt)]

def toolList : List Bytes → Bytes
  | [] => []
  | [tool] => tool
  | tool :: tools => tool ++ bytes ", " ++ toolList tools

def delegationPrompt (role : AgentRole) (subTask : Bytes) : Bytes :=
  if role.allowedTools = [] then subTask
  else subTask ++ bytes "\n\n[Note: You may only use these tools: " ++ toolList role.allowedTools ++
    bytes "]"

/-- The record a call enters. -/
def Delegation.opening (d : Delegation) : ActiveDelegation where
  roleName := d.role.name
  subTask := d.subTask.take 100
  startTimeMs := d.startTimeMs

def Delegation.dr (d : Delegation) (sessionId result : Bytes) (success : Bool) :
    DelegationResult where
  roleName := d.role.name
  sessionId := sessionId
  subTask := d.subTask
  result := result
  success := success

/-- An answer that is there and is not an error text. -/
def succeeded (result : Bytes) : Bool := result ≠ [] ∧ (bytes "Error:").isPrefixOf result = false

/-- The update of the list for a call with this index. The vector may have become too short for it. -/
def Engine.update (g : Engine) (trackingIdx : ℕ) (dr : DelegationResult) (now : ℤ) : Engine :=
  match g.active[trackingIdx]? with
  | none => g
  | some t =>
    let tracked := { t.record with
      completed := true
      success := dr.success
      endTimeMs := now
      sessionId := dr.sessionId }
    let history := g.history ++ [tracked]
    { g with
      active := g.active.eraseIdx trackingIdx
      history := if kMaxHistory < history.length then history.tail else history
      successful := if dr.success then g.successful + 1 else g.successful }

def State.set (s : State) (c : ℕ) (d : Delegation) (phase : Phase) : State :=
  { s with calls := s.calls.set c { d with phase := phase } }

def State.finish (s : State) (c : ℕ) (d : Delegation) (phase : Phase) : State :=
  { s.set c d phase with ended := s.ended ++ [c] }

variable (readFloat : Bytes → Option NumberText)

/-- The new session, or what the call returns for it. -/
def readSession (createResult : Bytes) : Except Bytes Bytes :=
  match parse readFloat createResult with
  | .error _ => .error (bytes "Failed to parse session creation result")
  | .ok cr =>
    let field := if cr.contains (bytes "error") then bytes "error" else bytes "session_id"
    match (cr.field field).bind Json.getString with
    | .error _ => .error (bytes "Failed to parse session creation result")
    | .ok text =>
      if cr.contains (bytes "error") then .error (bytes "Failed to create role session: " ++ text)
      else .ok text

/-- A call is made; the agent has answered to its session operation, then to its prompt, each with
a text or an exception; and the call updates the list. -/
inductive Event where
  | call (role : AgentRole) (subTask : Bytes) (now : ℤ)
  | session (c : ℕ) (result : Except Unit Bytes)
  | prompted (c : ℕ) (result : Except Unit Bytes)
  | update (c : ℕ) (now : ℤ)

def step (s : State) : Event → Option State
  | .call role subTask now =>
    let d : Delegation := ⟨role, subTask, now, s.engine.active.length, .creating⟩
    some { s with
      calls := s.calls ++ [d]
      engine := { s.engine with
        active := s.engine.active ++ [⟨d.opening, s.calls.length⟩]
        total := s.engine.total + 1 } }
  | .session c result => (s.calls[c]?).bind fun d =>
    match d.phase, result with
    | .creating, .error _ => some (s.finish c d .threw)
    | .creating, .ok createResult => match readSession readFloat createResult with
      | .error text => some (s.finish c d (.returned (d.dr [] text false)))
      | .ok sessionId =>
        some (s.set c d (.prompting sessionId (delegationPrompt d.role d.subTask)))
    | _, _ => none
  | .prompted c result => (s.calls[c]?).bind fun d =>
    match d.phase, result with
    | .prompting _ _, .error _ => some (s.finish c d .threw)
    | .prompting sessionId _, .ok text =>
      some (s.set c d (.updating (d.dr sessionId text (succeeded text))))
    | _, _ => none
  | .update c now => (s.calls[c]?).bind fun d =>
    match d.phase with
    | .updating dr =>
      some { s.finish c d (.returned dr) with engine := s.engine.update d.trackingIdx dr now }
    | _ => none

def delegating : System State Event where
  Init s := s = {}
  Step s e t := step readFloat s e = some t

end Model

section Books

/-- How a call has ended: whether it returned success. -/
def Delegation.outcome (d : Delegation) : Option Bool :=
  match d.phase with
  | .returned dr => some dr.success
  | .threw => some false
  | _ => none

def running (calls : List Delegation) : List ℕ :=
  (List.range calls.length).filter fun c => (calls[c]?).any fun d => d.outcome.isNone

def lastN {α : Type*} (n : ℕ) (l : List α) : List α := l.drop (l.length - n)

/-- An entry of the history is about a call that has ended, and says how. -/
def Recorded (calls : List Delegation) (c : ℕ) (h : ActiveDelegation) : Prop :=
  ∃ d, calls[c]? = some d ∧ h.roleName = d.role.name ∧ h.subTask = d.subTask.take 100 ∧
    h.completed = true ∧ d.outcome = some h.success

/-- Each running call has its record in the list and no other call has; the history is that of the
calls that ended last; and the totals are right. -/
structure Booked (s : State) : Prop where
  active : s.engine.active.map Tracked.owner = running s.calls
  record : ∀ t ∈ s.engine.active, ∃ d, s.calls[t.owner]? = some d ∧ t.record = d.opening
  ended : s.ended.Nodup ∧ ∀ c, c ∈ s.ended ↔ ∃ d, s.calls[c]? = some d ∧ d.outcome.isSome = true
  history : List.Forall₂ (Recorded s.calls) (lastN kMaxHistory s.ended) s.engine.history
  total : s.engine.total = s.calls.length
  successful : s.engine.successful = s.calls.countP fun d => d.outcome = some true
  idle : (∀ d ∈ s.calls, d.outcome.isSome = true) → s.engine.active = []

/-- The steps that keep the books: the session of the role is there, the agent does not throw, and
the record of a call that ends still stands at the index it was entered at, since no call that began
before it has ended in between. -/
def Permitted (readFloat : Bytes → Option NumberText) (s : State) : Event → Prop
  | .call _ _ _ => True
  | .session _ result => ∃ text id, result = .ok text ∧ readSession readFloat text = .ok id
  | .prompted _ result => ∃ text, result = .ok text
  | .update c _ => ∀ d ∈ s.calls[c]?,
    (s.engine.active[d.trackingIdx]?).map Tracked.owner = some c

instance (readFloat : Bytes → Option NumberText) (s : State) (e : Event) :
    Decidable (Permitted readFloat s e) :=
  match e with
  | .call _ _ _ => isTrue trivial
  | .session _ (.error _) => isFalse (by rintro ⟨text, id, h, -⟩; cases h)
  | .session _ (.ok text) => match h : readSession readFloat text with
    | .ok id => isTrue ⟨text, id, rfl, h⟩
    | .error _ => isFalse (by rintro ⟨text', id, ht, hid⟩; cases ht; rw [h] at hid; cases hid)
  | .prompted _ (.error _) => isFalse (by rintro ⟨text, h⟩; cases h)
  | .prompted _ (.ok text) => isTrue ⟨text, rfl⟩
  | .update c _ => inferInstanceAs (Decidable (∀ d ∈ s.calls[c]?, _))

end Books

section Calls

variable {calls : List Delegation} {c i : ℕ} {d d' : Delegation} {h : ActiveDelegation}

theorem mem_running : i ∈ running calls ↔ ∃ d, calls[i]? = some d ∧ d.outcome = none := by
  rw [running, List.mem_filter, List.mem_range, Option.any_eq_true]
  simp only [Option.isNone_iff_eq_none]
  constructor
  · exact fun h => h.2
  · rintro ⟨d, hd, ho⟩
    exact ⟨(List.getElem?_eq_some_iff.mp hd).1, d, hd, ho⟩

theorem running_nodup (calls : List Delegation) : (running calls).Nodup :=
  List.nodup_range.filter _

theorem running_append (ho : d.outcome = none) :
    running (calls ++ [d]) = running calls ++ [calls.length] := by
  have hold : (List.range calls.length).filter (fun c => ((calls ++ [d])[c]?).any
      fun d => d.outcome.isNone) = running calls := by
    apply List.filter_congr
    intro c hc
    rw [List.getElem?_append_left (List.mem_range.mp hc)]
  rw [running, List.length_append, List.length_singleton, List.range_succ, List.filter_append, hold]
  simp [ho]

theorem running_set (hd : calls[c]? = some d) (ho : d.outcome = none) :
    running (calls.set c d') =
      if d'.outcome = none then running calls else (running calls).filter (· ≠ c) := by
  have hlt := (List.getElem?_eq_some_iff.mp hd).1
  have hother : ∀ i, i ≠ c → (calls.set c d')[i]? = calls[i]? :=
    fun i hi => List.getElem?_set_ne (Ne.symm hi)
  have hself : (calls.set c d')[c]? = some d' := List.getElem?_set_self hlt
  rw [running, List.length_set]
  split_ifs with ho'
  · rw [running]
    apply List.filter_congr
    intro i _
    by_cases hi : i = c
    · rw [hi, hself, hd, Option.any_some, Option.any_some, ho, ho']
    · rw [hother i hi]
  · rw [running, List.filter_filter]
    apply List.filter_congr
    intro i _
    by_cases hi : i = c
    · rw [hi, hself, Option.any_some]
      simpa using Option.isSome_iff_ne_none.mpr ho'
    · rw [hother i hi]
      simp [hi]

theorem recorded_append (hr : Recorded calls i h) (d : Delegation) :
    Recorded (calls ++ [d]) i h := by
  obtain ⟨e, he, hrest⟩ := hr
  refine ⟨e, ?_, hrest⟩
  rw [List.getElem?_append_left (List.getElem?_eq_some_iff.mp he).1, he]

/-- What has been recorded of a call is not touched by the calls that are running. -/
theorem recorded_set (hr : Recorded calls i h) (hd : calls[c]? = some d) (ho : d.outcome = none)
    (d' : Delegation) : Recorded (calls.set c d') i h := by
  obtain ⟨e, he, hrest⟩ := hr
  have hne : i ≠ c := by
    rintro rfl
    rw [hd] at he
    obtain rfl := Option.some.inj he
    rw [ho] at hrest
    cases hrest.2.2.2
  exact ⟨e, by rw [List.getElem?_set_ne (Ne.symm hne), he], hrest⟩

theorem countP_set (hd : calls[c]? = some d) (ho : d.outcome = none) :
    (calls.set c d').countP (fun d => d.outcome = some true) =
      calls.countP (fun d => d.outcome = some true) + if d'.outcome = some true then 1 else 0 := by
  obtain ⟨hlt, hget⟩ := List.getElem?_eq_some_iff.mp hd
  subst hget
  rw [List.countP_set hlt]
  simp [ho]

end Calls

section History

/-- One entry more pushes the oldest out once the list is full. -/
theorem lastN_snoc {α : Type*} (n : ℕ) (l : List α) (x : α) : lastN n (l ++ [x]) =
    if n < (lastN n l ++ [x]).length then (lastN n l ++ [x]).tail else lastN n l ++ [x] := by
  have hlen : (lastN n l ++ [x]).length = l.length - (l.length - n) + 1 := by simp [lastN]
  rw [hlen, lastN, lastN, List.length_append, List.length_singleton]
  by_cases hn : n ≤ l.length
  · have hsucc : l.length + 1 - n = l.length - n + 1 := by omega
    rw [if_pos (by omega), hsucc, ← List.tail_drop, List.drop_append_of_le_length (by omega)]
  · have hzero : l.length - n = 0 := by omega
    have hzero' : l.length + 1 - n = 0 := by omega
    rw [if_neg (by omega), hzero, hzero', List.drop_zero, List.drop_zero]

theorem forall₂_push {α β : Type*} {R : α → β → Prop} {n : ℕ} {l : List α} {hs : List β} {x : α}
    {y : β} (h : List.Forall₂ R (lastN n l) hs) (hxy : R x y) :
    List.Forall₂ R (lastN n (l ++ [x]))
      (if n < (hs ++ [y]).length then (hs ++ [y]).tail else hs ++ [y]) := by
  have htail : ∀ {l : List α} {m : List β}, List.Forall₂ R l m → List.Forall₂ R l.tail m.tail := by
    rintro _ _ (_ | ⟨_, ht⟩)
    · exact .nil
    · exact ht
  have hall : List.Forall₂ R (lastN n l ++ [x]) (hs ++ [y]) :=
    List.rel_append h (.cons hxy .nil)
  rw [lastN_snoc, hall.length_eq]
  split_ifs
  · exact htail hall
  · exact hall

end History

section Steps

variable {readFloat : Bytes → Option NumberText} {s t : State} {c : ℕ} {d : Delegation}

/-- With the records of the running calls there is none when no call runs. -/
theorem idle_of_active (h : s.engine.active.map Tracked.owner = running s.calls)
    (hdone : ∀ d ∈ s.calls, d.outcome.isSome = true) : s.engine.active = [] := by
  have hnone : running s.calls = [] := by
    apply List.eq_nil_iff_forall_not_mem.mpr
    intro i hi
    obtain ⟨d, hd, ho⟩ := mem_running.mp hi
    have := hdone d (List.mem_of_getElem? hd)
    rw [ho] at this
    cases this
  rw [hnone, List.map_eq_nil_iff] at h
  exact h

/-- A call that has left its record behind has spoilt the books. -/
theorem not_booked_of_left (hd : s.calls[c]? = some d) (ho : d.outcome = none)
    {d' : Delegation} (ho' : d'.outcome ≠ none) (hcalls : t.calls = s.calls.set c d')
    (hleft : c ∈ t.engine.active.map Tracked.owner) : ¬ Booked t := by
  intro ht
  rw [ht.active, hcalls, running_set hd ho, if_neg ho', List.mem_filter] at hleft
  simp at hleft

theorem mem_active (hs : Booked s) (hd : s.calls[c]? = some d) (ho : d.outcome = none) :
    c ∈ s.engine.active.map Tracked.owner := by
  rw [hs.active]
  exact mem_running.mpr ⟨d, hd, ho⟩

/-- A call that goes on keeps its record. -/
theorem booked_set (hs : Booked s) (hd : s.calls[c]? = some d) (ho : d.outcome = none)
    {phase : Phase} (ho' : Delegation.outcome { d with phase := phase } = none) :
    Booked (s.set c d phase) := by
  have hactive : s.engine.active.map Tracked.owner =
      running (s.calls.set c { d with phase := phase }) := by
    rw [running_set hd ho, if_pos ho']
    exact hs.active
  have hlt := (List.getElem?_eq_some_iff.mp hd).1
  refine ⟨hactive, fun r hr => ?_, ⟨hs.ended.1, fun i => ?_⟩, ?_, ?_, ?_, idle_of_active hactive⟩
  · obtain ⟨e, he, hopen⟩ := hs.record r hr
    by_cases hrc : r.owner = c
    · rw [hrc, hd] at he
      obtain rfl := Option.some.inj he
      rw [hrc]
      exact ⟨_, List.getElem?_set_self hlt, hopen⟩
    · exact ⟨e, (List.getElem?_set_ne (Ne.symm hrc)).trans he, hopen⟩
  · rw [State.set, hs.ended.2]
    by_cases hi : i = c
    · rw [hi, List.getElem?_set_self hlt, hd]
      simp [ho, ho']
    · rw [List.getElem?_set_ne (Ne.symm hi)]
  · exact hs.history.imp fun i h hr => recorded_set hr hd ho _
  · rw [State.set, List.length_set]
    exact hs.total
  · rw [State.set, countP_set hd ho, ho', if_neg (by simp)]
    exact hs.successful

/-- A new call enters its record at the end. -/
theorem booked_call (hs : Booked s) (ho : d.outcome = none) : Booked { s with
    calls := s.calls ++ [d]
    engine := { s.engine with
      active := s.engine.active ++ [⟨d.opening, s.calls.length⟩]
      total := s.engine.total + 1 } } := by
  have hactive : (s.engine.active ++ [(⟨d.opening, s.calls.length⟩ : Tracked)]).map Tracked.owner =
      running (s.calls ++ [d]) := by
    rw [List.map_append, hs.active, running_append ho]
    rfl
  refine ⟨hactive, fun r hr => ?_, ⟨hs.ended.1, fun i => ?_⟩, ?_, ?_, ?_, idle_of_active hactive⟩
  · rcases List.mem_append.mp hr with hr | hr
    · obtain ⟨e, he, hopen⟩ := hs.record r hr
      refine ⟨e, ?_, hopen⟩
      rw [List.getElem?_append_left (List.getElem?_eq_some_iff.mp he).1, he]
    · obtain rfl := List.mem_singleton.mp hr
      exact ⟨d, List.getElem?_concat_length, rfl⟩
  · rw [hs.ended.2]
    constructor
    · rintro ⟨e, he, hsome⟩
      refine ⟨e, ?_, hsome⟩
      rw [List.getElem?_append_left (List.getElem?_eq_some_iff.mp he).1, he]
    · rintro ⟨e, he, hsome⟩
      rw [List.getElem?_append] at he
      split_ifs at he with hlt
      · exact ⟨e, he, hsome⟩
      · obtain rfl := List.mem_singleton.mp (List.mem_of_getElem? he)
        rw [ho] at hsome
        cases hsome
  · exact hs.history.imp fun i h hr => recorded_append hr d
  · rw [List.length_append, hs.total]
    rfl
  · rw [List.countP_append, ← hs.successful]
    simp [ho]

/-- A call that finds its own record removes it and enters the history. -/
theorem booked_update (hs : Booked s) (hd : s.calls[c]? = some d) (ho : d.outcome = none)
    {dr : DelegationResult} (now : ℤ)
    (hown : (s.engine.active[d.trackingIdx]?).map Tracked.owner = some c) :
    Booked { s.finish c d (.returned dr) with
      engine := s.engine.update d.trackingIdx dr now } := by
  obtain ⟨r, hr, rfl⟩ := Option.map_eq_some_iff.mp hown
  obtain ⟨hlt, hget⟩ := List.getElem?_eq_some_iff.mp hr
  have hmem : r ∈ s.engine.active := List.mem_of_getElem? hr
  obtain ⟨e, he, hopen⟩ := hs.record r hmem
  rw [hd] at he
  obtain rfl := Option.some.inj he
  have hclt := (List.getElem?_eq_some_iff.mp hd).1
  have ho' : Delegation.outcome { d with phase := .returned dr } = some dr.success := rfl
  have hnodup : (s.engine.active.map Tracked.owner).Nodup := by
    rw [hs.active]
    exact running_nodup s.calls
  have hactive : (s.engine.active.eraseIdx d.trackingIdx).map Tracked.owner =
      running (s.calls.set r.owner { d with phase := .returned dr }) := by
    have hidx : (s.engine.active.map Tracked.owner)[d.trackingIdx]? = some r.owner := by
      rw [List.getElem?_map, hr, Option.map_some]
    obtain ⟨hlt, hget⟩ := List.getElem?_eq_some_iff.mp hidx
    rw [← List.eraseIdx_map, ← hnodup.erase_getElem d.trackingIdx hlt, hget,
      hnodup.erase_eq_filter, hs.active, running_set hd ho, if_neg (by rw [ho']; simp)]
    apply List.filter_congr
    intro i _
    by_cases hi : i = r.owner <;> simp [hi]
  have hnot : r.owner ∉ s.ended := by
    intro hin
    obtain ⟨e, he, hsome⟩ := (hs.ended.2 r.owner).mp hin
    rw [hd] at he
    obtain rfl := Option.some.inj he
    rw [ho] at hsome
    cases hsome
  have hself := List.getElem?_set_self (a := { d with phase := Phase.returned dr }) hclt
  have hother : ∀ i, i ≠ r.owner →
      (s.calls.set r.owner { d with phase := Phase.returned dr })[i]? = s.calls[i]? :=
    fun i hi => List.getElem?_set_ne (Ne.symm hi)
  rw [Engine.update, hr]
  refine ⟨hactive, fun x hx => ?_, ⟨?_, fun i => ?_⟩, ?_, ?_, ?_, idle_of_active hactive⟩
  · have hx' : x ∈ s.engine.active := List.eraseIdx_subset hx
    obtain ⟨e, he, hopen'⟩ := hs.record x hx'
    have hrun : x.owner ∈ (s.engine.active.eraseIdx d.trackingIdx).map Tracked.owner :=
      List.mem_map_of_mem hx
    rw [hactive, running_set hd ho, if_neg (by rw [ho']; simp), List.mem_filter] at hrun
    refine ⟨e, ?_, hopen'⟩
    exact (hother x.owner (by simpa using hrun.2)).trans he
  · rw [State.finish, ← List.concat_eq_append]
    exact List.Nodup.concat hnot hs.ended.1
  · rw [State.finish, State.set, List.mem_append, List.mem_singleton]
    by_cases hi : i = r.owner
    · subst hi
      rw [hself]
      simp [ho']
    · rw [hother i hi, hs.ended.2]
      simp [hi]
  · refine forall₂_push (hs.history.imp fun i h hrec => recorded_set hrec hd ho _) ?_
    refine ⟨_, hself, ?_, ?_, rfl, rfl⟩
    · exact congrArg ActiveDelegation.roleName hopen
    · exact congrArg ActiveDelegation.subTask hopen
  · rw [State.finish, State.set, List.length_set]
    exact hs.total
  · rw [State.finish, State.set, countP_set hd ho, ho', ← hs.successful]
    cases dr.success <;> simp

/-- A record that a call takes for its own and that is not leaves that of the call in the list. -/
theorem left_of_misplaced (hs : Booked s) (hd : s.calls[c]? = some d) (ho : d.outcome = none)
    (hno : (s.engine.active[d.trackingIdx]?).map Tracked.owner ≠ some c) (dr : DelegationResult)
    (now : ℤ) : c ∈ (s.engine.update d.trackingIdx dr now).active.map Tracked.owner := by
  obtain ⟨r, hr, rfl⟩ := List.mem_map.mp (mem_active hs hd ho)
  rw [Engine.update]
  cases hi : s.engine.active[d.trackingIdx]? with
  | none => exact List.mem_map_of_mem hr
  | some x =>
    obtain ⟨j, hj, hget⟩ := List.getElem_of_mem hr
    have hne : j ≠ d.trackingIdx := by
      rintro rfl
      apply hno
      rw [List.getElem?_eq_getElem hj, hget, Option.map_some]
    exact List.mem_map_of_mem (List.mem_eraseIdx_iff_getElem.mpr ⟨j, hj, hne, hget⟩)

/-- Each step keeps the books if it is permitted, and spoils them otherwise. -/
theorem booked_step (hs : Booked s) {e : Event} (h : step readFloat s e = some t) :
    Booked t ↔ Permitted readFloat s e := by
  cases e with
  | call role subTask now =>
    obtain rfl := Option.some.inj h
    exact iff_of_true (booked_call hs rfl) trivial
  | session c result =>
    obtain ⟨d, hd, hstep⟩ := Option.bind_eq_some_iff.mp h
    split at hstep
    next hp =>
      have ho : d.outcome = none := by rw [Delegation.outcome, hp]
      obtain rfl := Option.some.inj hstep
      have hleft := mem_active hs hd ho
      refine iff_of_false (not_booked_of_left hd ho (by simp [Delegation.outcome]) rfl hleft) ?_
      rintro ⟨text, id, hok, -⟩
      cases hok
    next text hp =>
      have ho : d.outcome = none := by rw [Delegation.outcome, hp]
      cases hread : readSession readFloat text with
      | error reply =>
        rw [hread] at hstep
        obtain rfl := Option.some.inj hstep
        have hleft := mem_active hs hd ho
        refine iff_of_false (not_booked_of_left hd ho (by simp [Delegation.outcome]) rfl
          hleft) ?_
        rintro ⟨text', id, hok, hid⟩
        obtain rfl := Except.ok.inj hok
        rw [hread] at hid
        cases hid
      | ok id =>
        rw [hread] at hstep
        obtain rfl := Option.some.inj hstep
        exact iff_of_true (booked_set hs hd ho rfl) ⟨text, id, rfl, hread⟩
    · cases hstep
  | prompted c result =>
    obtain ⟨d, hd, hstep⟩ := Option.bind_eq_some_iff.mp h
    split at hstep
    next hp =>
      have ho : d.outcome = none := by rw [Delegation.outcome, hp]
      obtain rfl := Option.some.inj hstep
      have hleft := mem_active hs hd ho
      refine iff_of_false (not_booked_of_left hd ho (by simp [Delegation.outcome]) rfl hleft) ?_
      rintro ⟨text, hok⟩
      cases hok
    next sessionId prompt text hp =>
      have ho : d.outcome = none := by rw [Delegation.outcome, hp]
      obtain rfl := Option.some.inj hstep
      exact iff_of_true (booked_set hs hd ho rfl) ⟨text, rfl⟩
    · cases hstep
  | update c now =>
    obtain ⟨d, hd, hstep⟩ := Option.bind_eq_some_iff.mp h
    split at hstep
    next dr hp =>
      have ho : d.outcome = none := by rw [Delegation.outcome, hp]
      obtain rfl := Option.some.inj hstep
      by_cases hown : (s.engine.active[d.trackingIdx]?).map Tracked.owner = some c
      · refine iff_of_true (booked_update hs hd ho now hown) fun e he => ?_
        rw [hd] at he
        obtain rfl := Option.some.inj he
        exact hown
      · refine iff_of_false (not_booked_of_left hd ho (by simp [Delegation.outcome]) rfl
          (left_of_misplaced hs hd ho hown dr now)) ?_
        exact fun hp => hown (hp d hd)
    · cases hstep

theorem booked_init : Booked {} := by
  refine ⟨rfl, by simp, ⟨List.nodup_nil, by simp⟩, .nil, rfl, rfl, fun _ => rfl⟩

end Steps

namespace Counterexample

def noFloats : Bytes → Option NumberText := fun _ => none

def role : AgentRole where
  name := bytes "researcher"
  systemPrompt := bytes "You research."
  allowedTools := []

/-- The session a role is given. -/
def opened : Except Unit Bytes :=
  .ok (bytes "\x7b\"status\":\"ok\",\"session_id\":\"agent_role_researcher_42\"\x7d")

/-- Two calls at once, up to their updates of the list. -/
def both : List Event :=
  [.call role (bytes "first") 1000, .call role (bytes "second") 1001, .session 0 opened,
    .session 1 opened, .prompted 0 (.ok (bytes "one")), .prompted 1 (.ok (bytes "two"))]

end Counterexample

end SupervisorEngine
