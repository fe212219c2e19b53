import TizenClaw.TransitionSystem
import Mathlib.Data.Int.Notation
import Mathlib.Logic.Function.Basic

/-! The idle monitor of the MCP client manager beside any number of tool calls. A call is a thread
that takes one step at a time, and so is the monitor, which holds the lock of the client table during
a pass. The clock is the one of the system. -/
namespace McpIdleMonitor

open TransitionSystem

section Model

/-- `cut` remembers that the last disconnect was one of the monitor. -/
structure Client where
  isConnected : Bool
  lastUsedMs : ℤ
  cut : Bool
  deriving DecidableEq, Repr

inductive Result where
  | answered
  | timedOut
  | notConnected (cut : Bool)
  | failedToWake
  deriving DecidableEq, Repr

/-- Where a call stands: the client is found in the table, looked at, connected again when it is
not connected (`forking` is in front of the fork, `greeting` the handshake), looked at once more,
stamped, and the request is sent. -/
inductive Phase where
  | found
  | connecting
  | forking
  | greeting
  | ready
  | entered
  | stamped
  | waiting
  | returned (result : Result)
  deriving DecidableEq, Repr

inductive CallEvent where
  | look
  | connect
  | fork (ok : Bool)
  | greet (ok : Bool)
  | enter
  | stamp
  | send (ok : Bool)
  | answer
  | expire
  | abandon
  deriving DecidableEq, Repr

/-- One step of `ExecuteTool`, `Connect` or `CallTool` on a client. -/
def callStep (clock : ℤ) (client : Client) : Phase → CallEvent → Option (Client × Phase)
  | .found, .look => some (client, if client.isConnected then .ready else .connecting)
  | .connecting, .connect =>
    some (if client.isConnected then (client, .ready)
      else ({ client with lastUsedMs := clock }, .forking))
  | .forking, .fork ok =>
    some (if ok then ({ client with isConnected := true, cut := false }, .greeting)
      else (client, .returned .failedToWake))
  | .greeting, .greet ok =>
    some (if ok then (client, .ready)
      else ({ client with isConnected := false }, .returned .failedToWake))
  | .ready, .enter =>
    some (client, if client.isConnected then .entered else .returned (.notConnected client.cut))
  | .entered, .stamp => some ({ client with lastUsedMs := clock }, .stamped)
  | .stamped, .send ok =>
    some (client, if client.isConnected ∧ ok then .waiting
      else .returned (.notConnected client.cut))
  | .waiting, .answer => some (client, .returned .answered)
  | .waiting, .expire => some (client, .returned .timedOut)
  | .waiting, .abandon =>
    if client.isConnected then none else some (client, .returned (.notConnected client.cut))
  | _, _ => none

structure Call (κ : Type*) where
  server : κ
  phase : Phase
  deriving DecidableEq, Repr

/-- A pass over the client table has the time it began at, and is between the look at a client and
its disconnect at times. -/
inductive Monitor (κ : Type*) where
  | sleeping
  | pass (nowMs : ℤ) (servers : List κ)
  | disconnecting (nowMs : ℤ) (server : κ) (servers : List κ)
  deriving DecidableEq, Repr

structure Manager (ι κ : Type*) where
  clock : ℤ
  clients : κ → Client
  calls : ι → Option (Call κ) := fun _ => none
  monitor : Monitor κ := .sleeping

inductive Event (ι κ : Type*) where
  | tick (nowMs : ℤ)
  | start (i : ι) (server : κ)
  | call (i : ι) (e : CallEvent)
  | exit (server : κ)
  | wake
  | check
  | disconnect
  | sleep
  deriving DecidableEq, Repr

variable {ι κ : Type*} [DecidableEq ι] [DecidableEq κ] (servers : List κ) (idleTimeoutSec : κ → ℤ)

/-- What the monitor disconnects for. -/
def Expired (client : Client) (server : κ) (nowMs : ℤ) : Prop :=
  0 < idleTimeoutSec server ∧ client.isConnected = true ∧
    nowMs - client.lastUsedMs > idleTimeoutSec server * 1000

instance (client : Client) (server : κ) (nowMs : ℤ) :
    Decidable (Expired idleTimeoutSec client server nowMs) :=
  inferInstanceAs (Decidable (_ ∧ _ ∧ _))

def Client.disconnect (client : Client) : Client :=
  if client.isConnected then { client with isConnected := false, cut := true } else client

/-- A call finds its client under the lock, so not during a pass of the monitor. -/
def step (s : Manager ι κ) : Event ι κ → Option (Manager ι κ)
  | .tick nowMs => some { s with clock := nowMs }
  | .start i server =>
    if s.monitor = .sleeping ∧ server ∈ servers ∧ s.calls i = none then
      some { s with calls := Function.update s.calls i (some ⟨server, .found⟩) }
    else none
  | .call i e =>
    (s.calls i).bind fun call =>
      (callStep s.clock (s.clients call.server) call.phase e).map fun x =>
        { s with
          clients := Function.update s.clients call.server x.1
          calls := Function.update s.calls i (some { call with phase := x.2 }) }
  | .exit server =>
    if (s.clients server).isConnected then
      some { s with
        clients := Function.update s.clients server { s.clients server with isConnected := false } }
    else none
  | .wake =>
    if s.monitor = .sleeping then some { s with monitor := .pass s.clock servers } else none
  | .check =>
    match s.monitor with
    | .pass nowMs (server :: rest) =>
      some { s with
        monitor := if Expired idleTimeoutSec (s.clients server) server nowMs
          then .disconnecting nowMs server rest else .pass nowMs rest }
    | _ => none
  | .disconnect =>
    match s.monitor with
    | .disconnecting nowMs server rest =>
      some { s with
        clients := Function.update s.clients server (s.clients server).disconnect
        monitor := .pass nowMs rest }
    | _ => none
  | .sleep =>
    match s.monitor with
    | .pass _ [] => some { s with monitor := .sleeping }
    | _ => none

/-- A run begins when the clients are loaded. -/
def manager : System (Manager ι κ) (Event ι κ) where
  Init s := s.calls = (fun _ => none) ∧ s.monitor = .sleeping ∧ ∀ k, (s.clients k).cut = false
  Step s e t := step servers idleTimeoutSec s e = some t

end Model

section Properties

/-- A request of the call is in flight. -/
def Phase.InFlight : Phase → Prop
  | .greeting | .waiting => True
  | _ => False

/-- The call has found its client connected, or connected it, and has no result yet. -/
def Phase.Engaged : Phase → Prop
  | .greeting | .ready | .entered | .stamped | .waiting => True
  | _ => False

/-- The call is between its look at the client and the stamp of its request. -/
def Phase.Unstamped : Phase → Prop
  | .ready | .entered => True
  | _ => False

/-- The call has stamped its client for a request or a handshake. -/
def Phase.Stamped : Phase → Prop
  | .forking | .greeting | .stamped | .waiting => True
  | _ => False

/-- The call finds the client connected, or connects it. -/
def Enters (client : Client) : CallEvent → Prop
  | .look | .connect => client.isConnected = true
  | .fork ok => ok = true
  | _ => False

variable {ι κ : Type*} (idleTimeoutSec : κ → ℤ)

/-- The call that stands in a phase at some client. -/
def At (s : Manager ι κ) (server : κ) (phase : Phase) : Prop :=
  ∃ i, s.calls i = some ⟨server, phase⟩

/-- The time since the stamp of a client is within its idle timeout. -/
def Recent (client : Client) (server : κ) (nowMs : ℤ) : Prop :=
  0 < idleTimeoutSec server → nowMs - client.lastUsedMs ≤ idleTimeoutSec server * 1000

/-- The clock is not set back, and no request or handshake takes longer than the idle timeout. The
monitor does not find a client expired that a call has looked at but not stamped yet, and no call
finds or makes a client connected between the look of the monitor at it and the disconnect. -/
def Tended (s : Manager ι κ) : Event ι κ → Prop
  | .tick nowMs => s.clock ≤ nowMs ∧ ∀ k phase, At s k phase → phase.Stamped →
      Recent idleTimeoutSec (s.clients k) k nowMs
  | .check => ∀ nowMs k rest, s.monitor = .pass nowMs (k :: rest) →
      Expired idleTimeoutSec (s.clients k) k nowMs → ∀ phase, At s k phase → ¬ phase.Unstamped
  | .call i e => ∀ call, s.calls i = some call → Enters (s.clients call.server) e →
      ∀ nowMs rest, s.monitor ≠ .disconnecting nowMs call.server rest
  | _ => True

/-- The monitor disconnects no client that has a request in flight. -/
def Uncut (s : Manager ι κ) (e : Event ι κ) : Prop :=
  e = .disconnect → ∀ nowMs k rest, s.monitor = .disconnecting nowMs k rest →
    ∀ phase, At s k phase → ¬ phase.InFlight

/-- The invariant. -/
structure Inv (s : Manager ι κ) : Prop where
  recent : ∀ k phase, At s k phase → phase.Stamped →
    Recent idleTimeoutSec (s.clients k) k s.clock
  now : ∀ nowMs rest, s.monitor = .pass nowMs rest → nowMs ≤ s.clock
  nowMs : ∀ nowMs k rest, s.monitor = .disconnecting nowMs k rest → nowMs ≤ s.clock ∧
    ∀ phase, At s k phase → ¬ phase.Engaged
  connected : ∀ k, (s.clients k).isConnected = true → (s.clients k).cut = false
  engaged : ∀ k phase, At s k phase → phase.Engaged → (s.clients k).cut = false
  returned : ∀ k, ¬ At s k (.returned (.notConnected true))

end Properties

section Calls

theorem inFlight_engaged {phase : Phase} (h : phase.InFlight) : phase.Engaged := by
  cases phase with
  | greeting | waiting => trivial
  | _ => cases h

theorem engaged_cases {phase : Phase} (h : phase.Engaged) : phase.Unstamped ∨ phase.Stamped := by
  cases phase with
  | ready | entered => exact .inl trivial
  | greeting | stamped | waiting => exact .inr trivial
  | _ => cases h

variable {clock : ℤ} {client client' : Client} {phase phase' : Phase} {e : CallEvent}

/-- What one step of a call does to its client. -/
structure CallSpec (clock : ℤ) (client client' : Client) (phase phase' : Phase) (e : CallEvent) :
    Prop where
  engaged : phase'.Engaged → phase.Engaged ∨ Enters client e
  lastUsed : client'.lastUsedMs = client.lastUsedMs ∨ client'.lastUsedMs = clock
  stamped : phase'.Stamped → phase.Stamped ∨ client'.lastUsedMs = clock
  cut : client'.cut = client.cut ∨ client'.cut = false
  enters : Enters client e → client.isConnected = true ∨ client'.cut = false
  connected : client'.isConnected = true → client.isConnected = true ∨ client'.cut = false
  returned : phase' = .returned (.notConnected true) → phase.Engaged ∧ client.cut = true

/-- A step that leaves the client as it is. -/
theorem CallSpec.same (hengaged : phase'.Engaged → phase.Engaged ∨ Enters client e)
    (hstamped : phase'.Stamped → phase.Stamped)
    (henters : Enters client e → client.isConnected = true)
    (hreturned : phase' = .returned (.notConnected true) → phase.Engaged ∧ client.cut = true) :
    CallSpec clock client client phase phase' e :=
  ⟨hengaged, .inl rfl, fun h => .inl (hstamped h), .inl rfl, fun h => .inl (henters h), .inl,
    hreturned⟩

theorem callStep_spec (h : callStep clock client phase e = some (client', phase')) :
    CallSpec clock client client' phase phase' e := by
  unfold callStep at h
  split at h
  case h_1 | h_5 | h_7 =>
    -- the look at the connection decides
    obtain ⟨rfl, rfl⟩ := Prod.mk.inj (Option.some.inj h)
    split_ifs
    all_goals apply CallSpec.same
    all_goals simp_all [Phase.Engaged, Phase.Stamped, Enters]
  case h_8 | h_9 =>
    obtain ⟨rfl, rfl⟩ := Prod.mk.inj (Option.some.inj h)
    exact CallSpec.same nofun nofun nofun nofun
  case h_2 =>
    split_ifs at h with hc
    · obtain ⟨rfl, rfl⟩ := Prod.mk.inj (Option.some.inj h)
      exact CallSpec.same (fun _ => .inr hc) nofun (fun _ => hc) nofun
    · obtain ⟨rfl, rfl⟩ := Prod.mk.inj (Option.some.inj h)
      exact ⟨nofun, .inr rfl, fun _ => .inr rfl, .inl rfl, fun he => .inl he, .inl, nofun⟩
  case h_3 ok =>
    cases ok with
    | true =>
      obtain ⟨rfl, rfl⟩ := Prod.mk.inj (Option.some.inj h)
      exact ⟨fun _ => .inr rfl, .inl rfl, fun _ => .inl trivial, .inr rfl, fun _ => .inr rfl,
        fun _ => .inr rfl, nofun⟩
    | false =>
      obtain ⟨rfl, rfl⟩ := Prod.mk.inj (Option.some.inj h)
      exact CallSpec.same nofun nofun nofun nofun
  case h_4 ok =>
    cases ok with
    | true =>
      obtain ⟨rfl, rfl⟩ := Prod.mk.inj (Option.some.inj h)
      exact CallSpec.same (fun _ => .inl trivial) nofun nofun nofun
    | false =>
      obtain ⟨rfl, rfl⟩ := Prod.mk.inj (Option.some.inj h)
      exact ⟨nofun, .inl rfl, nofun, .inl rfl, nofun, nofun, nofun⟩
  case h_6 =>
    obtain ⟨rfl, rfl⟩ := Prod.mk.inj (Option.some.inj h)
    exact ⟨fun _ => .inl trivial, .inr rfl, fun _ => .inr rfl, .inl rfl, nofun, .inl, nofun⟩
  case h_10 =>
    split_ifs at h
    obtain ⟨rfl, rfl⟩ := Prod.mk.inj (Option.some.inj h)
    refine CallSpec.same nofun nofun nofun fun hr => ⟨trivial, ?_⟩
    injection hr with hr
    injection hr
  case h_11 => cases h

end Calls

section Steps

variable {ι κ : Type*} [DecidableEq ι] {servers : List κ} {idleTimeoutSec : κ → ℤ}
  {s t : Manager ι κ} {k : κ} {phase : Phase}

/-- When one call takes a step, the others stand where they stood. -/
theorem at_update {i : ι} {call : Call κ} (hcalls : t.calls = Function.update s.calls i (some call))
    (h : At t k phase) : call = ⟨k, phase⟩ ∨ At s k phase := by
  obtain ⟨j, hj⟩ := h
  rw [hcalls] at hj
  by_cases hji : j = i
  · rw [hji, Function.update_self] at hj
    exact .inl (Option.some.inj hj)
  · rw [Function.update_of_ne hji] at hj
    exact .inr ⟨j, hj⟩

/-- A client that is stamped now, or as before. -/
theorem recent_of_lastUsed {client client' : Client} {clock : ℤ}
    (h : client'.lastUsedMs = client.lastUsedMs ∧ Recent idleTimeoutSec client k clock ∨
      client'.lastUsedMs = clock) : Recent idleTimeoutSec client' k clock := by
  intro hpos
  rcases h with ⟨h, hr⟩ | h
  · rw [h]
    exact hr hpos
  · rw [h]
    omega

variable [DecidableEq κ]

/-- A step of a call, as a relation between the two states. -/
theorem call_step {i : ι} {e : CallEvent}
    (h : step servers idleTimeoutSec s (.call i e) = some t) :
    ∃ server phase phase', s.calls i = some ⟨server, phase⟩ ∧
      CallSpec s.clock (s.clients server) (t.clients server) phase phase' e ∧
      (∀ k, k ≠ server → t.clients k = s.clients k) ∧
      t.calls = Function.update s.calls i (some ⟨server, phase'⟩) ∧
      t.clock = s.clock ∧ t.monitor = s.monitor := by
  obtain ⟨⟨server, phase⟩, hcall, h⟩ := Option.bind_eq_some_iff.mp h
  obtain ⟨⟨client', phase'⟩, hstep, rfl⟩ := Option.map_eq_some_iff.mp h
  refine ⟨server, phase, phase', hcall, ?_, fun k hk => Function.update_of_ne hk _ _, rfl, rfl, rfl⟩
  dsimp only
  rw [Function.update_self]
  exact callStep_spec hstep

/-- A step of a call keeps the invariant. -/
theorem inv_call (hI : Inv idleTimeoutSec s) {i : ι} {e : CallEvent}
    (hp : Tended idleTimeoutSec s (.call i e))
    (h : step servers idleTimeoutSec s (.call i e) = some t) : Inv idleTimeoutSec t := by
  obtain ⟨server, phase, phase', hcall, hspec, hother, hcalls, hclock, hmonitor⟩ := call_step h
  have hat : At s server phase := ⟨i, hcall⟩
  -- another call may share the client of this one
  have hcut : ∀ k, (s.clients k).cut = false → (t.clients k).cut = false := by
    intro k hk
    by_cases hks : k = server
    · subst hks
      exact hspec.cut.elim (fun hc => hc.trans hk) id
    · rw [hother k hks]
      exact hk
  have hlast : ∀ k, (t.clients k).lastUsedMs = (s.clients k).lastUsedMs ∨
      (t.clients k).lastUsedMs = s.clock := by
    intro k
    by_cases hks : k = server
    · subst hks
      exact hspec.lastUsed
    · rw [hother k hks]
      exact .inl rfl
  have hrecent : ∀ {k}, Recent idleTimeoutSec (s.clients k) k s.clock →
      Recent idleTimeoutSec (t.clients k) k s.clock := fun {k} hk =>
    recent_of_lastUsed ((hlast k).imp (fun hl => ⟨hl, hk⟩) id)
  constructor
  case recent =>
    intro k q hq hstamped
    rw [hclock]
    rcases at_update hcalls hq with hset | hkept
    · cases hset
      rcases hspec.stamped hstamped with hold | hnow
      · exact hrecent (hI.recent server phase hat hold)
      · exact @recent_of_lastUsed _ _ _ (s.clients server) _ _ (.inr hnow)
    · exact hrecent (hI.recent k q hkept hstamped)
  case now =>
    rw [hclock, hmonitor]
    exact hI.now
  case nowMs =>
    intro nowMs k rest hm
    rw [hmonitor] at hm
    rw [hclock]
    obtain ⟨hnow, hfree⟩ := hI.nowMs nowMs k rest hm
    refine ⟨hnow, fun q hq hengaged => ?_⟩
    rcases at_update hcalls hq with hset | hkept
    · cases hset
      rcases hspec.engaged hengaged with hold | he
      · exact hfree phase hat hold
      · exact hp _ hcall he nowMs rest hm
    · exact hfree q hkept hengaged
  case connected =>
    intro k hc
    by_cases hks : k = server
    · subst hks
      rcases hspec.connected hc with hold | hnew
      · exact hcut k (hI.connected k hold)
      · exact hnew
    · rw [hother k hks] at hc
      exact hcut k (hI.connected k hc)
  case engaged =>
    intro k q hq hengaged
    rcases at_update hcalls hq with hset | hkept
    · cases hset
      rcases hspec.engaged hengaged with hold | he
      · exact hcut server (hI.engaged server phase hat hold)
      · exact (hspec.enters he).elim (fun hc => hcut server (hI.connected server hc)) id
    · exact hcut k (hI.engaged k q hkept hengaged)
  case returned =>
    intro k hq
    rcases at_update hcalls hq with hset | hkept
    · cases hset
      obtain ⟨hengaged, hc⟩ := hspec.returned rfl
      exact absurd (hc.symm.trans (hI.engaged server phase hat hengaged)) (by decide)
    · exact hI.returned k hkept

omit [DecidableEq ι] in
/-- A client that is not connected any more. -/
theorem inv_clients (hI : Inv idleTimeoutSec s) {server : κ} {client' : Client}
    (hlast : client'.lastUsedMs = (s.clients server).lastUsedMs)
    (hconnected : client'.isConnected = false)
    (hcut : client'.cut = (s.clients server).cut ∨ ∀ q, At s server q → ¬ q.Engaged) :
    Inv idleTimeoutSec { s with clients := Function.update s.clients server client' } := by
  refine ⟨fun k q hat hst => ?_, hI.now, hI.nowMs, fun k hc => ?_, fun k q hat hen => ?_,
    hI.returned⟩
  · refine @recent_of_lastUsed _ _ _ (s.clients k) _ _ (.inl ⟨?_, hI.recent k q hat hst⟩)
    by_cases hks : k = server
    · subst hks
      simpa using hlast
    · simp [hks]
  · by_cases hks : k = server
    · subst hks
      simp [hconnected] at hc
    · simp only [Function.update_of_ne hks] at hc ⊢
      exact hI.connected k hc
  · by_cases hks : k = server
    · subst hks
      simp only [Function.update_self]
      rcases hcut with hsame | hfree
      · exact hsame.trans (hI.engaged k q hat hen)
      · exact absurd hen (hfree q hat)
    · simp only [Function.update_of_ne hks]
      exact hI.engaged k q hat hen

/-- The step lemma. -/
theorem inv_step {e : Event ι κ} (hI : Inv idleTimeoutSec s) (hp : Tended idleTimeoutSec s e)
    (h : step servers idleTimeoutSec s e = some t) : Inv idleTimeoutSec t := by
  cases e with
  | tick nowMs =>
    obtain rfl := Option.some.inj h
    obtain ⟨hclock, hrecent⟩ := hp
    refine ⟨hrecent, fun n rest hm => Int.le_trans (hI.now n rest hm) hclock, fun n k rest hm => ?_,
      hI.connected, hI.engaged, hI.returned⟩
    obtain ⟨hn, hfree⟩ := hI.nowMs n k rest hm
    exact ⟨Int.le_trans hn hclock, hfree⟩
  | start i server =>
    obtain ⟨⟨hsleeping, -⟩, ⟨⟩⟩ := Option.ite_none_right_eq_some.mp h
    have hold : ∀ {k q}, q ≠ .found →
        At { s with calls := Function.update s.calls i (some ⟨server, .found⟩) } k q →
        At s k q := by
      intro k q hq hat
      refine (at_update rfl hat).resolve_left fun hset => ?_
      cases hset
      exact hq rfl
    refine ⟨fun k q hat hst => hI.recent k q (hold ?_ hat) hst, hI.now, fun n k rest hm => ?_,
      hI.connected, fun k q hat hen => hI.engaged k q (hold ?_ hat) hen,
      fun k hat => hI.returned k (hold nofun hat)⟩
    · rintro rfl
      exact hst
    · exact absurd (hsleeping.symm.trans hm) nofun
    · rintro rfl
      exact hen
  | call i e => exact inv_call hI hp h
  | exit server =>
    obtain ⟨-, ⟨⟩⟩ := Option.ite_none_right_eq_some.mp h
    exact inv_clients hI rfl rfl (.inl rfl)
  | wake =>
    obtain ⟨-, ⟨⟩⟩ := Option.ite_none_right_eq_some.mp h
    refine ⟨hI.recent, fun n rest hm => ?_, nofun, hI.connected, hI.engaged, hI.returned⟩
    injection hm with hm
    exact Int.le_of_eq hm.symm
  | check =>
    simp only [step] at h
    split at h
    · rename_i nowMs server rest hm
      obtain rfl := Option.some.inj h
      have hnow : nowMs ≤ s.clock := hI.now nowMs (server :: rest) hm
      by_cases hexpired : Expired idleTimeoutSec (s.clients server) server nowMs
      · rw [if_pos hexpired]
        refine ⟨hI.recent, nofun, fun n k l hm' => ?_, hI.connected, hI.engaged, hI.returned⟩
        injection hm' with hn hk
        subst hn hk
        refine ⟨hnow, fun q hat hen => ?_⟩
        -- its stamp is too recent for the monitor, unless it has not stamped yet
        rcases engaged_cases hen with hun | hst
        · exact hp nowMs server rest hm hexpired q hat hun
        · have hrecent := hI.recent server q hat hst hexpired.1
          have hlong := hexpired.2.2
          omega
      · rw [if_neg hexpired]
        refine ⟨hI.recent, fun n l hm' => ?_, nofun, hI.connected, hI.engaged, hI.returned⟩
        injection hm' with hn
        exact hn ▸ hnow
    · cases h
  | disconnect =>
    simp only [step] at h
    split at h
    · rename_i nowMs server rest hm
      obtain rfl := Option.some.inj h
      obtain ⟨hnow, hfree⟩ := hI.nowMs nowMs server rest hm
      have hclients := @inv_clients _ _ _ _ _ hI server (s.clients server).disconnect ?_ ?_ (.inr hfree)
      · refine ⟨hclients.recent, fun n l hm' => ?_, nofun, hclients.connected, hclients.engaged,
          hclients.returned⟩
        injection hm' with hn
        exact hn ▸ hnow
      · unfold Client.disconnect
        split_ifs
        · rfl
        · rfl
      · unfold Client.disconnect
        split_ifs with hc
        · rfl
        · simpa using hc
    · cases h
  | sleep =>
    simp only [step] at h
    split at h
    · obtain rfl := Option.some.inj h
      exact ⟨hI.recent, nofun, nofun, hI.connected, hI.engaged, hI.returned⟩
    · cases h

end Steps

section Runs

variable {ι κ : Type*} [DecidableEq ι] [DecidableEq κ] {servers : List κ} {idleTimeoutSec : κ → ℤ}
  {s : Manager ι κ}

/-- In every run whose steps are tended, the monitor disconnects no client with a request in flight,
and no call that has found or made its client connected is told that it is not, because of it. -/
theorem calls_uncut {tr : List (Manager ι κ × Event ι κ)}
    (h : Run (manager servers idleTimeoutSec) tr s)
    (hp : ∀ x ∈ tr, Tended idleTimeoutSec x.1 x.2) :
    (∀ x ∈ tr, Uncut x.1 x.2) ∧ ∀ k, ¬ At s k (.returned (.notConnected true)) := by
  have hinv : ∀ {tr₁ u}, tr₁ ⊆ tr → Run (manager servers idleTimeoutSec) tr₁ u →
      Inv idleTimeoutSec u := by
    intro tr₁ u hsub hu
    refine hu.guarded_invariant ?_ (fun _ _ _ => inv_step) fun x hx => hp x (hsub hx)
    rintro s ⟨hcalls, hmonitor, hcut⟩
    have hnone : ∀ {k q}, ¬ At s k q := by
      rintro k q ⟨i, hi⟩
      rw [hcalls] at hi
      cases hi
    exact ⟨fun _ _ hat => absurd hat hnone, fun n l hm => absurd (hmonitor.symm.trans hm) nofun,
      fun n k l hm => absurd (hmonitor.symm.trans hm) nofun, fun k _ => hcut k,
      fun k _ _ _ => hcut k, fun _ => hnone⟩
  refine ⟨fun x hx => ?_, (hinv (List.Subset.refl _) h).returned⟩
  obtain ⟨tr₁, tr₂, t, rfl, hr, -⟩ := h.split hx
  rintro - nowMs k rest hm q hat hflight
  exact ((hinv (List.subset_append_left _ _) hr).nowMs nowMs k rest hm).2 q hat
    (inFlight_engaged hflight)

end Runs

namespace Counterexample

def start : Manager Unit Unit := { clock := 0, clients := fun _ => ⟨true, 0, false⟩ }

/-- A call of two seconds, of a server with an idle timeout of one second. -/
def longCall : List (Event Unit Unit) :=
  [.start () (), .call () .look, .call () .enter, .call () .stamp, .call () (.send true),
    .tick 2000, .wake, .check, .disconnect]

/-- A call that comes when the client is idle for two seconds. -/
def lateCall : List (Event Unit Unit) :=
  [.tick 2000, .start () (), .call () .look, .wake, .check, .disconnect, .call () .enter]

theorem calls_cut :
    (∃ tr s, Run (manager [()] fun _ : Unit => 1) tr (s : Manager Unit Unit) ∧
      ¬ ∀ x ∈ tr, Uncut x.1 x.2) ∧
    ∃ tr s, Run (manager [()] fun _ : Unit => 1) tr (s : Manager Unit Unit) ∧
      At s () (.returned (.notConnected true)) := by
  constructor
  · obtain ⟨tr, s, h, hp⟩ := Run.of_execute (M := manager [()] fun _ : Unit => 1) (s := start)
      (fun _ _ _ h => h) ⟨rfl, rfl, fun _ => rfl⟩ longCall
      (fun tr _ => tr.any fun x => x.2 = .disconnect ∧ x.1.monitor = .disconnecting 2000 () [] ∧
        x.1.calls () = some ⟨(), .waiting⟩) (by decide)
    obtain ⟨x, hx, hx'⟩ := List.any_eq_true.mp hp
    obtain ⟨he, hm, hcall⟩ := of_decide_eq_true hx'
    exact ⟨tr, s, h, fun hn => hn x hx he 2000 () [] hm .waiting ⟨(), hcall⟩ trivial⟩
  · obtain ⟨tr, s, h, hp⟩ := Run.of_execute (M := manager [()] fun _ : Unit => 1) (s := start)
      (fun _ _ _ h => h) ⟨rfl, rfl, fun _ => rfl⟩ lateCall
      (fun _ s => s.calls () = some ⟨(), .returned (.notConnected true)⟩) (by decide)
    exact ⟨tr, s, h, (), of_decide_eq_true hp⟩

/-- A call within the idle timeout of a minute, and a disconnect when the minute is over. -/
def shortCall : List (Event Unit Unit) :=
  [.start () (), .call () .look, .call () .enter, .call () .stamp, .call () (.send true),
    .tick 2000, .wake, .check, .sleep, .call () .answer, .tick 70000, .wake, .check, .disconnect,
    .sleep]

/-- What is checked of the steps of this run. -/
def careful (s : Manager Unit Unit) : Event Unit Unit → Prop
  | .tick nowMs => s.clock ≤ nowMs ∧ (nowMs - (s.clients ()).lastUsedMs ≤ 60000 ∨
      s.calls () = some ⟨(), .returned .answered⟩)
  | .check => s.calls () = some ⟨(), .waiting⟩ ∨ s.calls () = some ⟨(), .returned .answered⟩
  | .call _ _ => s.monitor = .sleeping
  | _ => True

instance (s : Manager Unit Unit) : ∀ e, Decidable (careful s e)
  | .tick _ => inferInstanceAs (Decidable (_ ∧ (_ ∨ _)))
  | .check => inferInstanceAs (Decidable (_ ∨ _))
  | .call _ _ => inferInstanceAs (Decidable (_ = _))
  | .start _ _ | .exit _ | .wake | .disconnect | .sleep => isTrue trivial

theorem tended_of_careful {s : Manager Unit Unit} {e : Event Unit Unit} (h : careful s e) :
    Tended (fun _ => 60) s e := by
  cases e with
  | tick nowMs =>
    obtain ⟨hclock, hrecent | hreturned⟩ := h
    · exact ⟨hclock, fun _ _ _ _ _ => hrecent⟩
    · refine ⟨hclock, ?_⟩
      rintro _ phase ⟨_, hi⟩ hst
      cases hreturned.symm.trans hi
      cases hst
  | check =>
    rintro nowMs _ rest - - phase ⟨_, hi⟩ hun
    rcases h with hcall | hcall
    · cases hcall.symm.trans hi
      cases hun
    · cases hcall.symm.trans hi
      cases hun
  | call i e => exact fun _ _ _ _ _ hm => nomatch h.symm.trans hm
  | _ => trivial

theorem short_call_uncut : ∃ tr s, Run (manager [()] fun _ : Unit => 60) tr s ∧
    s.calls () = some ⟨(), .returned .answered⟩ ∧ s.clients () = ⟨false, 0, true⟩ ∧
    (∀ x ∈ tr, Uncut x.1 x.2) ∧ ∀ k, ¬ At s k (.returned (.notConnected true)) := by
  obtain ⟨tr, s, h, hp⟩ := Run.of_execute (M := manager [()] fun _ : Unit => 60) (s := start)
    (fun _ _ _ h => h) ⟨rfl, rfl, fun _ => rfl⟩ shortCall
    (fun tr s => decide (s.calls () = some ⟨(), .returned .answered⟩ ∧
      s.clients () = ⟨false, 0, true⟩) && tr.all fun x => careful x.1 x.2) (by decide)
  obtain ⟨hs, htr⟩ := Bool.and_eq_true_iff.mp hp
  obtain ⟨hcall, hclient⟩ := of_decide_eq_true hs
  exact ⟨tr, s, h, hcall, hclient, calls_uncut h fun x hx =>
    tended_of_careful (of_decide_eq_true (List.all_eq_true.mp htr x hx))⟩

end Counterexample

end McpIdleMonitor
