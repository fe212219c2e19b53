import Mathlib.Data.List.Nodup
import Mathlib.Logic.Function.Basic
import TizenClaw.ByteString
import TizenClaw.TransitionSystem

/-! The bridge to the action framework: callers wait for the promise of their request, the worker
handles requests, and results come back through the table of pending promises. -/
namespace ActionBridge

open ByteString TransitionSystem

section Model

inductive ActionCommand where
  | kExecute
  | kList
  | kSync
  deriving DecidableEq, Repr

/-- A result, with the request that it is one of and its place among all results. -/
structure Result where
  text : Bytes
  request : ℕ
  number : ℕ
  deriving DecidableEq, Repr

inductive Reply where
  | result (r : Result)
  | timedOut
  | notSent
  deriving DecidableEq, Repr

/-- Where a caller stands in `SendRequest`: before the channel, at its future, behind the timeout,
or gone. -/
inductive Phase where
  | sending
  | waiting
  | expired
  | returned (reply : Reply)
  deriving DecidableEq, Repr

/-- A call of `SendRequest`, with the value that its promise was given. -/
structure Call where
  cmd : ActionCommand
  phase : Phase := .sending
  value : Option Result := none
  deriving DecidableEq, Repr

/-- `responding` are the calls of `SendResponse` on their way to the table. `executions` keeps what
`execToReq` forgets. -/
structure Bridge where
  nextId : ℕ := 1
  nextExecId : ℕ := 1
  pending : List ℕ := []
  calls : ℕ → Option Call := fun _ => none
  channel : List ℕ := []
  execToReq : List (ℕ × ℕ) := []
  responding : List (ℕ × Result) := []
  executions : ℕ → Option ℕ := fun _ => none
  results : ℕ := 0

/-- What `HandleRequest` comes to: a response, an exception, or the execution of an action. -/
inductive Outcome where
  | respond (text : Bytes)
  | throws
  | execute
  deriving DecidableEq, Repr

inductive Event where
  | request (cmd : ActionCommand)
  | send (id : ℕ) (delivered : Bool)
  | handle (outcome : Outcome)
  | executeFailed (execId : ℕ) (text : Bytes)
  | actionResult (execId : ℕ) (text : Option Bytes)
  | resolve (k : ℕ)
  | lose (k : ℕ)
  | expire (id : ℕ)
  | giveUp (id : ℕ)
  | collect (id : ℕ)
  deriving DecidableEq, Repr

def nullResult : Bytes := bytes "\x7b\"error\":\"null result\"\x7d"

def Bridge.setCall (s : Bridge) (id : ℕ) (call : Call) : Bridge :=
  { s with calls := Function.update s.calls id (some call) }

def Bridge.erase (s : Bridge) (id : ℕ) : Bridge :=
  { s with pending := s.pending.filter (· ≠ id) }

/-- The start of `SendResponse` for a result of the given request. -/
def Bridge.sendResponse (s : Bridge) (id request : ℕ) (text : Bytes) : Bridge :=
  { s with
    responding := s.responding ++ [(id, ⟨text, request, s.results⟩)]
    results := s.results + 1 }

/-- The end of `SendResponse`: a promise that is still in the table is given the result. -/
def Bridge.resolve (s : Bridge) (id : ℕ) (result : Result) : Bridge :=
  if id ∈ s.pending then
    match s.calls id with
    | some call => (s.erase id).setCall id { call with value := some result }
    | none => s
  else s

/-- Requests, callbacks and timeouts in any order, each step what one critical section does. The
framework may report a result at any time, for any execution and more than once. A result whose text
the serializer refuses is lost. -/
def step (s : Bridge) : Event → Option Bridge
  | .request cmd => some { s.setCall s.nextId { cmd } with
      nextId := s.nextId + 1, pending := s.nextId :: s.pending }
  | .send id delivered => match s.calls id with
    | some call =>
      if call.phase ≠ .sending then none
      else if delivered then
        some { s.setCall id { call with phase := .waiting } with channel := s.channel ++ [id] }
      else some ((s.erase id).setCall id { call with phase := .returned .notSent })
    | none => none
  | .handle outcome => match s.channel with
    | [] => none
    | id :: channel => match outcome with
      | .respond text => some ({ s with channel := channel }.sendResponse id id text)
      | .throws => some { s with channel := channel }
      | .execute =>
        if (s.calls id).any (·.cmd = .kExecute) then
          some { s with
            channel := channel
            nextExecId := s.nextExecId + 1
            execToReq := (s.nextExecId, id) :: s.execToReq
            executions := Function.update s.executions s.nextExecId (some id) }
        else none
  | .executeFailed execId text => match s.executions execId with
    | some id => some ({ s with execToReq := s.execToReq.filter (·.1 ≠ execId) }.sendResponse
        id id text)
    | none => none
  | .actionResult execId text => match s.execToReq.lookup execId with
    | some id => some ({ s with execToReq := s.execToReq.filter (·.1 ≠ execId) }.sendResponse
        id ((s.executions execId).getD 0) (text.getD nullResult))
    | none => some s
  | .resolve k => match s.responding[k]? with
    | some (id, result) => some ({ s with responding := s.responding.eraseIdx k }.resolve id result)
    | none => none
  | .lose k =>
    if k < s.responding.length then some { s with responding := s.responding.eraseIdx k } else none
  | .expire id => match s.calls id with
    | some call =>
      if call.phase = .waiting ∧ call.value = none then
        some (s.setCall id { call with phase := .expired })
      else none
    | none => none
  | .giveUp id => match s.calls id with
    | some call =>
      if call.phase = .expired then
        some ((s.erase id).setCall id { call with phase := .returned .timedOut })
      else none
    | none => none
  | .collect id => match s.calls id with
    | some call => match call.phase, call.value with
      | .waiting, some result =>
        some (s.setCall id { call with phase := .returned (.result result) })
      | _, _ => none
    | none => none

def bridge : System Bridge Event where
  Init s := s = {}
  Step s e t := step s e = some t

end Model

section Correlation

/-- Records are those of callers that have not returned, promises hold results of their own request,
and no result is on its way twice. -/
structure Inv (s : Bridge) : Prop where
  ids : ∀ id, s.nextId ≤ id → s.calls id = none
  pending : ∀ id ∈ s.pending, ∃ call, s.calls id = some call ∧ call.value = none ∧
    ∀ reply, call.phase ≠ .returned reply
  values : ∀ id call result, s.calls id = some call → call.value = some result →
    result.request = id ∧ result.number < s.results ∧
      ∀ x ∈ s.responding, x.2.number ≠ result.number
  returned : ∀ id call result, s.calls id = some call → call.phase = .returned (.result result) →
    call.value = some result
  execs : ∀ x ∈ s.execToReq, x.1 < s.nextExecId ∧ s.executions x.1 = some x.2
  responding : ∀ x ∈ s.responding, x.2.request = x.1 ∧ x.2.number < s.results
  numbers : (s.responding.map (·.2.number)).Nodup
  distinct : ∀ id id' call call' r r', s.calls id = some call → s.calls id' = some call' →
    call.value = some r → call'.value = some r' → r.number = r'.number → id = id'

variable {s t : Bridge}

theorem setCall_self (s : Bridge) (id : ℕ) (call : Call) :
    (s.setCall id call).calls id = some call := Function.update_self ..

theorem setCall_other {id k : ℕ} (h : k ≠ id) (s : Bridge) (call : Call) :
    (s.setCall id call).calls k = s.calls k := Function.update_of_ne h ..

theorem setCall_cases {id k : ℕ} {call c : Call} (h : (s.setCall id call).calls k = some c) :
    k = id ∧ c = call ∨ k ≠ id ∧ s.calls k = some c := by
  by_cases hk : k = id
  · subst hk
    rw [setCall_self] at h
    exact .inl ⟨rfl, (Option.some.inj h).symm⟩
  · rw [setCall_other hk] at h
    exact .inr ⟨hk, h⟩

namespace Inv

theorem init : Inv {} := by
  constructor
  · exact fun _ _ => rfl
  · exact fun _ h => absurd h List.not_mem_nil
  · exact fun _ _ _ h => nomatch h
  · exact fun _ _ _ h => nomatch h
  · exact fun _ h => absurd h List.not_mem_nil
  · exact fun _ h => absurd h List.not_mem_nil
  · exact List.nodup_nil
  · exact fun _ _ _ _ _ _ h => nomatch h

theorem lt_of_call (hI : Inv s) {id : ℕ} {call : Call} (h : s.calls id = some call) :
    id < s.nextId := by
  by_contra hle
  rw [hI.ids id (not_lt.mp hle)] at h
  cases h

/-- A caller goes on, with what its promise holds. -/
theorem rephase (hI : Inv s) {id : ℕ} {call : Call} (hc : s.calls id = some call) (phase : Phase)
    (hr : ∀ result, phase = .returned (.result result) → call.value = some result)
    (hp : id ∈ s.pending → ∀ reply, phase ≠ .returned reply) :
    Inv (s.setCall id { call with phase := phase }) := by
  refine ⟨fun k hk => ?_, fun k hk => ?_, fun k c result h hv => ?_, fun k c result h hph => ?_,
    hI.execs, hI.responding, hI.numbers, fun k k' c c' r r' h h' hv hv' => ?_⟩
  · have hne : k ≠ id := by
      rintro rfl
      exact absurd (hI.lt_of_call hc) (not_lt.mpr hk)
    rw [setCall_other hne]
    exact hI.ids k hk
  · by_cases hne : k = id
    · subst hne
      obtain ⟨c, hck, hv, -⟩ := hI.pending k hk
      obtain rfl := Option.some.inj (hc.symm.trans hck)
      exact ⟨_, setCall_self .., hv, hp hk⟩
    · obtain ⟨c, hck, hph⟩ := hI.pending k hk
      exact ⟨c, (setCall_other hne ..).trans hck, hph⟩
  · rcases setCall_cases h with ⟨rfl, rfl⟩ | ⟨-, h⟩
    · exact hI.values k call result hc hv
    · exact hI.values k c result h hv
  · rcases setCall_cases h with ⟨rfl, rfl⟩ | ⟨-, h⟩
    · exact hr result hph
    · exact hI.returned k c result h hph
  · have hsame : ∀ k c, (s.setCall id { call with phase := phase }).calls k = some c →
        ∃ c', s.calls k = some c' ∧ c'.value = c.value := by
      intro k c h
      rcases setCall_cases h with ⟨rfl, rfl⟩ | ⟨-, h⟩
      · exact ⟨call, hc, rfl⟩
      · exact ⟨c, h, rfl⟩
    obtain ⟨d, hd, hdv⟩ := hsame k c h
    obtain ⟨d', hd', hdv'⟩ := hsame k' c' h'
    exact hI.distinct k k' d d' r r' hd hd' (hdv.trans hv) (hdv'.trans hv')

theorem erase (hI : Inv s) (id : ℕ) : Inv (s.erase id) :=
  ⟨hI.ids, fun k hk => hI.pending k (List.mem_of_mem_filter hk), hI.values, hI.returned, hI.execs,
    hI.responding, hI.numbers, hI.distinct⟩

theorem not_mem_erase (s : Bridge) (id : ℕ) : id ∉ (s.erase id).pending := by
  simp [Bridge.erase]

/-- A result on its way is new. -/
theorem sendResponse (hI : Inv s) {id request : ℕ} (h : request = id) (text : Bytes) :
    Inv (s.sendResponse id request text) := by
  refine ⟨hI.ids, hI.pending, fun k c result hc hv => ?_, hI.returned, hI.execs, fun x hx => ?_, ?_,
    hI.distinct⟩
  · obtain ⟨hreq, hlt, hne⟩ := hI.values k c result hc hv
    refine ⟨hreq, hlt.trans (Nat.lt_succ_self _), fun x hx => ?_⟩
    rcases List.mem_append.mp hx with hx | hx
    · exact hne x hx
    · obtain rfl := List.mem_singleton.mp hx
      exact hlt.ne'
  · rcases List.mem_append.mp hx with hx | hx
    · obtain ⟨hreq, hlt⟩ := hI.responding x hx
      exact ⟨hreq, hlt.trans (Nat.lt_succ_self _)⟩
    · obtain rfl := List.mem_singleton.mp hx
      exact ⟨h, Nat.lt_succ_self _⟩
  · rw [Bridge.sendResponse, List.map_append, List.map_singleton]
    refine List.nodup_append.mpr ⟨hI.numbers, List.nodup_singleton _, ?_⟩
    rintro n hn m hm rfl
    obtain ⟨x, hx, hxn⟩ := List.mem_map.mp hn
    have hlt := (hI.responding x hx).2
    rw [hxn, List.mem_singleton.mp hm] at hlt
    exact lt_irrefl _ hlt

theorem eraseIdx (hI : Inv s) (k : ℕ) :
    Inv { s with responding := s.responding.eraseIdx k } := by
  have hsub := List.eraseIdx_sublist s.responding k
  refine ⟨hI.ids, hI.pending, fun id c result hc hv => ?_, hI.returned, hI.execs,
    fun x hx => hI.responding x (hsub.subset hx), ?_, hI.distinct⟩
  · obtain ⟨hreq, hlt, hne⟩ := hI.values id c result hc hv
    exact ⟨hreq, hlt, fun x hx => hne x (hsub.subset hx)⟩
  · exact hI.numbers.sublist (hsub.map _)

theorem forget (hI : Inv s) (execId : ℕ) :
    Inv { s with execToReq := s.execToReq.filter (·.1 ≠ execId) } :=
  ⟨hI.ids, hI.pending, hI.values, hI.returned,
    fun x hx => hI.execs x (List.mem_of_mem_filter hx), hI.responding, hI.numbers, hI.distinct⟩

theorem resolve (hI : Inv s) {id : ℕ} {result : Result} (hreq : result.request = id)
    (hlt : result.number < s.results) (hne : ∀ x ∈ s.responding, x.2.number ≠ result.number)
    (hnew : ∀ k c r, s.calls k = some c → c.value = some r → r.number ≠ result.number) :
    Inv (s.resolve id result) := by
  rw [Bridge.resolve]
  by_cases hp : id ∈ s.pending
  · rw [if_pos hp]
    obtain ⟨call, hc, -, hph⟩ := hI.pending id hp
    rw [hc]
    refine ⟨fun k hk => ?_, fun k hk => ?_, fun k c r h hv => ?_, fun k c r h hr => ?_,
      hI.execs, hI.responding, hI.numbers, fun k k' c c' r r' h h' hv hv' hn => ?_⟩
    · have hk' : k ≠ id := by
        rintro rfl
        exact absurd (hI.lt_of_call hc) (not_lt.mpr hk)
      rw [setCall_other hk']
      exact hI.ids k hk
    · obtain ⟨hmem, hk'⟩ := List.mem_filter.mp hk
      have hk' : k ≠ id := by simpa using hk'
      obtain ⟨c, hck, hph⟩ := hI.pending k hmem
      exact ⟨c, (setCall_other hk' ..).trans hck, hph⟩
    · rcases setCall_cases h with ⟨rfl, rfl⟩ | ⟨-, h⟩
      · obtain rfl := Option.some.inj hv
        exact ⟨hreq, hlt, hne⟩
      · exact hI.values k c r h hv
    · rcases setCall_cases h with ⟨rfl, rfl⟩ | ⟨-, h⟩
      · exact absurd hr (hph _)
      · exact hI.returned k c r h hr
    · rcases setCall_cases h with ⟨rfl, rfl⟩ | ⟨-, h⟩ <;>
        rcases setCall_cases h' with ⟨rfl, rfl⟩ | ⟨-, h'⟩
      · rfl
      · obtain rfl := Option.some.inj hv
        exact absurd hn.symm (hnew k' c' r' h' hv')
      · obtain rfl := Option.some.inj hv'
        exact absurd hn (hnew k c r h hv)
      · exact hI.distinct k k' c c' r r' h h' hv hv' hn
  · rw [if_neg hp]
    exact hI

end Inv

theorem Inv.request (hI : Inv s) (cmd : ActionCommand) :
    Inv { s.setCall s.nextId { cmd } with
      nextId := s.nextId + 1, pending := s.nextId :: s.pending } := by
  have hold : ∀ k c, (s.setCall s.nextId { cmd }).calls k = some c →
      c = { cmd } ∨ s.calls k = some c := by
    intro k c h
    rcases setCall_cases h with ⟨-, h⟩ | ⟨-, h⟩
    · exact .inl h
    · exact .inr h
  refine ⟨fun k hk => ?_, fun k hk => ?_, fun k c r h hv => ?_, fun k c r h hr => ?_, hI.execs,
    hI.responding, hI.numbers, fun k k' c c' r r' h h' hv hv' => ?_⟩
  · exact (setCall_other (Nat.ne_of_gt hk) ..).trans (hI.ids k ((Nat.le_succ _).trans hk))
  · rcases List.mem_cons.mp hk with rfl | hk
    · exact ⟨_, setCall_self .., by simp⟩
    · obtain ⟨c, hc, hph⟩ := hI.pending k hk
      have hne : k ≠ s.nextId := (hI.lt_of_call hc).ne
      exact ⟨c, (setCall_other hne ..).trans hc, hph⟩
  · rcases hold k c h with rfl | h
    · cases hv
    · exact hI.values k c r h hv
  · rcases hold k c h with rfl | h
    · cases hr
    · exact hI.returned k c r h hr
  · rcases hold k c h with rfl | h
    · cases hv
    · rcases hold k' c' h' with rfl | h'
      · cases hv'
      · exact hI.distinct k k' c c' r r' h h' hv hv'

theorem Inv.execute (hI : Inv s) (id : ℕ) (channel : List ℕ) :
    Inv { s with
      channel := channel
      nextExecId := s.nextExecId + 1
      execToReq := (s.nextExecId, id) :: s.execToReq
      executions := Function.update s.executions s.nextExecId (some id) } := by
  refine ⟨hI.ids, hI.pending, hI.values, hI.returned, fun x hx => ?_, hI.responding, hI.numbers,
    hI.distinct⟩
  rcases List.mem_cons.mp hx with rfl | hx
  · exact ⟨Nat.lt_succ_self _, Function.update_self ..⟩
  · obtain ⟨hlt, he⟩ := hI.execs x hx
    exact ⟨hlt.trans (Nat.lt_succ_self _), (Function.update_of_ne hlt.ne ..).trans he⟩

theorem other_numbers {l : List (ℕ × Result)} (hn : (l.map (·.2.number)).Nodup) {k : ℕ}
    {x : ℕ × Result} (hk : l[k]? = some x) : ∀ y ∈ l.eraseIdx k, y.2.number ≠ x.2.number := by
  obtain ⟨hlt, rfl⟩ := List.getElem?_eq_some_iff.mp hk
  have hsplit : l = l.take k ++ l[k] :: l.drop (k + 1) := by
    rw [← List.drop_eq_getElem_cons hlt, List.take_append_drop]
  rw [hsplit, List.map_append, List.map_cons] at hn
  obtain ⟨-, hright, hcross⟩ := List.nodup_append.mp hn
  intro y hy
  rw [List.eraseIdx_eq_take_drop_succ] at hy
  rcases List.mem_append.mp hy with hy | hy
  · exact hcross _ (List.mem_map_of_mem hy) _ List.mem_cons_self
  · intro he
    exact (List.nodup_cons.mp hright).1 (he ▸ List.mem_map_of_mem hy)

theorem step_inv (hI : Inv s) {e : Event} (hs : step s e = some t) : Inv t := by
  cases e with
  | request cmd =>
    obtain rfl := Option.some.inj hs
    exact hI.request cmd
  | send id delivered =>
    cases hc : s.calls id with
    | none => simp [step, hc] at hs
    | some call =>
      simp only [step, hc] at hs
      split_ifs at hs with hph hd
      · obtain rfl := Option.some.inj hs
        have hw := hI.rephase hc .waiting (by simp) (by simp)
        exact ⟨hw.ids, hw.pending, hw.values, hw.returned, hw.execs, hw.responding, hw.numbers,
          hw.distinct⟩
      · obtain rfl := Option.some.inj hs
        exact (hI.erase id).rephase hc (.returned .notSent) (by simp)
          (absurd · (Inv.not_mem_erase s id))
  | handle outcome =>
    cases hch : s.channel with
    | nil => simp [step, hch] at hs
    | cons id channel =>
      have hpop : Inv { s with channel := channel } :=
        ⟨hI.ids, hI.pending, hI.values, hI.returned, hI.execs, hI.responding, hI.numbers,
          hI.distinct⟩
      cases outcome with
      | respond text =>
        simp only [step, hch, Option.some.injEq] at hs
        obtain rfl := hs
        exact hpop.sendResponse rfl text
      | throws =>
        simp only [step, hch, Option.some.injEq] at hs
        obtain rfl := hs
        exact hpop
      | execute =>
        simp only [step, hch, Option.ite_none_right_eq_some, Option.some.injEq] at hs
        obtain ⟨-, rfl⟩ := hs
        exact hI.execute id channel
  | executeFailed execId text =>
    cases he : s.executions execId with
    | none => simp [step, he] at hs
    | some id =>
      simp only [step, he, Option.some.injEq] at hs
      obtain rfl := hs
      exact (hI.forget execId).sendResponse rfl text
  | actionResult execId text =>
    cases he : s.execToReq.lookup execId with
    | none =>
      simp only [step, he, Option.some.injEq] at hs
      exact hs ▸ hI
    | some id =>
      simp only [step, he, Option.some.injEq] at hs
      obtain rfl := hs
      -- the table of executions names the request that the action was executed for
      obtain ⟨l₁, l₂, hl, -⟩ := List.lookup_eq_some_iff.mp he
      have hexec := (hI.execs (execId, id) (by simp [hl])).2
      refine (hI.forget execId).sendResponse ?_ _
      rw [hexec, Option.getD_some]
  | resolve k =>
    cases hk : s.responding[k]? with
    | none => simp [step, hk] at hs
    | some x =>
      obtain ⟨id, result⟩ := x
      simp only [step, hk, Option.some.injEq] at hs
      obtain rfl := hs
      have hmem := List.mem_of_getElem? hk
      obtain ⟨hreq, hlt⟩ := hI.responding _ hmem
      refine (hI.eraseIdx k).resolve hreq hlt (other_numbers hI.numbers hk) fun j c r hc hv => ?_
      exact ((hI.values j c r hc hv).2.2 _ hmem).symm
  | lose k =>
    simp only [step, Option.ite_none_right_eq_some, Option.some.injEq] at hs
    obtain ⟨-, rfl⟩ := hs
    exact hI.eraseIdx k
  | expire id =>
    cases hc : s.calls id with
    | none => simp [step, hc] at hs
    | some call =>
      simp only [step, hc, Option.ite_none_right_eq_some, Option.some.injEq] at hs
      obtain ⟨-, rfl⟩ := hs
      exact hI.rephase hc .expired (by simp) (by simp)
  | giveUp id =>
    cases hc : s.calls id with
    | none => simp [step, hc] at hs
    | some call =>
      simp only [step, hc, Option.ite_none_right_eq_some, Option.some.injEq] at hs
      obtain ⟨-, rfl⟩ := hs
      exact (hI.erase id).rephase hc (.returned .timedOut) (by simp)
        (absurd · (Inv.not_mem_erase s id))
  | collect id =>
    cases hc : s.calls id with
    | none => simp [step, hc] at hs
    | some call =>
      simp only [step, hc] at hs
      cases hph : call.phase <;> cases hv : call.value <;>
        simp only [hph, hv, Option.some.injEq, reduceCtorEq] at hs
      rename_i result
      have hreturn := hI.rephase hc (.returned (.result result)) (fun r hr => ?_) fun hp => ?_
      · rw [hv] at hreturn
        exact hs ▸ hreturn
      · rw [hv, Reply.result.inj (Phase.returned.inj hr)]
      · obtain ⟨c, hck, hnone, -⟩ := hI.pending id hp
        obtain rfl := Option.some.inj (hc.symm.trans hck)
        rw [hnone] at hv
        cases hv

theorem run_inv {tr} (h : Run bridge tr s) : Inv s := by
  apply h.invariant
  · rintro s rfl
    exact Inv.init
  · intro s e t hI hs
    exact step_inv hI hs

end Correlation

namespace Counterexample

end Counterexample

end ActionBridge
