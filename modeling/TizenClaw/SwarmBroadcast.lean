import Mathlib.Logic.Function.Basic
import TizenClaw.JsonStorable
import TizenClaw.SwarmManager

/-! Events between the devices of a swarm: each device broadcasts what its bus calls it with, and
publishes what it receives on its own bus. The network loses, repeats and reorders packets. -/
namespace SwarmBroadcast

open ByteString JsonValue JsonDump JsonRoundTrip JsonParseUtf8 JsonStorable JsonFailure TryBlock
  TransitionSystem EventDispatch SwarmManager
open PipelineExecutor (getInt)

section Model

/-- A device and the position of an event in the order of publication on its bus. -/
structure Origin (ι : Type) where
  device : ι
  position : ℕ
  deriving DecidableEq, Repr

/-- The origin is none of the packet's data. -/
structure Packet (ι : Type) where
  sender : ι
  data : Bytes
  origin : Option (Origin ι)
  deriving DecidableEq, Repr

/-- A device, with where the events came from that were published on its bus. -/
structure Device (ι : Type) where
  node : Node := {}
  eventSubId : Option ℕ := none
  origins : List (Option (Origin ι)) := []

/-- The devices, and all packets that were broadcast. -/
structure Swarm (ι : Type) where
  devices : ι → Device ι
  sent : List (Packet ι)

/-- `arrive` is a copy of a packet of the swarm, `foreign` any other. -/
inductive Move (ι : Type) where
  | start (d : ι)
  | publish (d : ι) (event : SystemEvent) (now : ℤ)
  | arrive (d : ι) (packet : ℕ) (senderIp : Bytes) (now : ℤ)
  | foreign (d : ι) (data senderIp : Bytes) (now : ℤ)
  | bus (d : ι) (e : Event)
  deriving DecidableEq, Repr

variable {ι : Type}

def Device.onBus (d : Device ι) (bus : Bus) : Device ι :=
  { d with node := { d.node with bus := bus } }

/-- A device on whose bus an event of this origin was published. -/
def Device.published (d : Device ι) (node : Node) (origin : Option (Origin ι)) : Device ι :=
  { d with node := node, origins := d.origins ++ [origin] }

def Device.originOf (d : Device ι) (e : Entry) : Option (Origin ι) := (d.origins[e.position]?).join

def isPublish : Event → Bool
  | .publish _ _ => true
  | _ => false

/-- The event that the next step of the dispatcher calls the swarm manager with. -/
def Device.called (d : Device ι) : Event → Option Entry
  | .call => match d.node.bus.dispatcher with
    | .calling e (sub :: _) =>
      if sub.wants e.event ∧ d.eventSubId = some sub.id then some e else none
    | _ => none
  | _ => none

variable (truncate : NumberText → ℤ) (readFloat : Bytes → Option NumberText)
  (deviceType : ι → Bytes)

/-- The event that a packet is published as, if it is one of an event. -/
def eventOf (data : Bytes) (now : ℤ) : Option SystemEvent :=
  match parseText readFloat data with
  | .error _ => none
  | .ok j =>
    if j.valueString (bytes "swarm_type") [] = .ok (bytes "event") then
      (j.member? (bytes "event")).bind fun ej => (readEvent truncate ej now).toOption
    else none

/-- A packet that throws ends the process of its receiver. -/
def receivePacket (d : Device ι) (data senderIp : Bytes) (origin : Option (Origin ι)) (now : ℤ) :
    Option (Device ι) :=
  match (handleIncomingPacket truncate readFloat data senderIp now).run d.node with
  | (.error _, _) => none
  | (.ok _, node) =>
    some (if (eventOf truncate readFloat data now).isSome then d.published node origin
      else { d with node := node })

/-- The packet a call leads to. An exception of the serializer is caught by the dispatcher. -/
def broadcast (i : ι) (d : Device ι) (e : Event) : List (Packet ι) :=
  match d.called e with
  | none => []
  | some entry => match onLocalEvent (deviceType i) entry.event with
    | .ok (some data) => [⟨i, data, d.originOf entry⟩]
    | _ => []

variable [DecidableEq ι]

def Swarm.set (s : Swarm ι) (i : ι) (d : Device ι) : Swarm ι :=
  { s with devices := Function.update s.devices i d }

def step (s : Swarm ι) : Move ι → Option (Swarm ι)
  | .start i =>
    let d := s.devices i
    if d.eventSubId = none then
      some (s.set i { d.onBus (d.node.bus.subscribe .kCustom true) with
        eventSubId := some d.node.bus.nextSubId })
    else none
  | .publish i event now =>
    let d := s.devices i
    some (s.set i (d.published { d.node with bus := d.node.bus.publish event now }
      (some ⟨i, d.node.bus.published.length⟩)))
  | .arrive i packet senderIp now => (s.sent[packet]?).bind fun p =>
      (receivePacket truncate readFloat (s.devices i) p.data senderIp p.origin now).map (s.set i)
  | .foreign i data senderIp now =>
      (receivePacket truncate readFloat (s.devices i) data senderIp none now).map (s.set i)
  | .bus i e =>
    let d := s.devices i
    if isPublish e then none
    else (EventDispatch.step d.node.bus e).map fun bus =>
      { s.set i (d.onBus bus) with sent := s.sent ++ broadcast deviceType i d e }

/-- All devices are there from the start, each with an empty bus. -/
def swarm : System (Swarm ι) (Move ι) where
  Init s := s = ⟨fun _ => {}, []⟩
  Step s e t := step truncate readFloat deviceType s e = some t

end Model

section Handler

variable {truncate : NumberText → ℤ} {readFloat : Bytes → Option NumberText}

theorem eventOf_marked {data : Bytes} {now : ℤ} {e : SystemEvent}
    (h : eventOf truncate readFloat data now = some e) : e.pluginId = remotePeer := by
  rw [eventOf] at h
  split at h
  · cases h
  · split_ifs at h
    obtain ⟨ej, -, he⟩ := Option.bind_eq_some_iff.mp h
    have hread : readEvent truncate ej now = .ok e := by
      cases hr : readEvent truncate ej now with
      | error err => simp [hr, Except.toOption] at he
      | ok e' =>
        rw [hr] at he
        rw [Option.some.inj he]
    simp only [readEvent, bind_eq_ok, map_eq_ok] at hread
    obtain ⟨-, -, -, -, -, -, -, -, -, -, rfl⟩ := hread
    rfl

theorem alter_bus (ip : Bytes) (f : SwarmPeer → SwarmPeer) (s : Node) :
    (s.alter ip f).bus = s.bus := by
  rw [Node.alter]
  cases s.peers.get ip <;> rfl

/-- Heartbeats leave the bus alone. -/
theorem keeps_updatePeer (b : Bus) (ip : Bytes) (j : Json) (now : ℤ) :
    Keeps (fun s : Node => s.bus = b) (updatePeer ip j now) := by
  have halter : ∀ f, Keeps (fun s : Node => s.bus = b)
      (modify (Node.alter ip f) : SwarmManager.Action PUnit) :=
    fun f => keeps_modify fun s hs => (alter_bus ip f s).trans hs
  refine keeps_bind (keeps_lift _) fun status => keeps_ite (keeps_modify fun _ hs => hs) ?_
  apply keeps_bind
  · apply keeps_modify
    intro s hs
    by_cases hc : s.peers.contains ip
    · rw [if_pos hc]
      exact hs
    · rw [if_neg hc]
      exact hs
  · refine fun _ => keeps_bind (halter _) fun _ => keeps_bind ?_ fun _ => ?_
    · rw [updateDevice]
      cases j.member? (bytes "device_type") with
      | none => exact keeps_pure _
      | some v => exact keeps_bind (keeps_lift _) fun _ => halter _
    · rw [updateCapabilities]
      split
      · exact keeps_bind (halter _) fun _ => keeps_forM fun c _ =>
          keeps_bind (keeps_lift _) fun _ => halter _
      · exact keeps_pure _

theorem json_run {α : Type} {x : Except JsonException α} {β : Type} {f : α → SwarmManager.Action β}
    {s t : Node} {b : β} (h : (json x >>= f).run s = (.ok b, t)) :
    ∃ a, x = .ok a ∧ (f a).run s = (.ok b, t) := by
  cases x with
  | ok a => exact ⟨a, rfl, (run_bind (run_lift rfl s)).symm.trans h⟩
  | error e =>
    have herror := run_bind_error (run_lift_error rfl s) f (e := Thrown.json e)
    cases (Prod.mk.inj (herror.symm.trans h)).1

theorem handlePacket_bus {j : Json} {ip : Bytes} {now : ℤ} {s t : Node} {u : PUnit}
    (h : (handlePacket truncate j ip now).run s = (.ok u, t)) :
    t.bus = match (if j.valueString (bytes "swarm_type") [] = .ok (bytes "event") then
        (j.member? (bytes "event")).bind fun ej => (readEvent truncate ej now).toOption
      else none) with
      | some e => s.bus.publish e now
      | none => s.bus := by
  obtain ⟨swarmType, htype, h⟩ := json_run h
  rw [htype]
  simp only [Except.ok.injEq]
  by_cases hh : swarmType = bytes "heartbeat"
  · have hne : swarmType ≠ bytes "event" := by
      rw [hh]
      decide
    rw [if_pos hh] at h
    rw [if_neg hne]
    have hk := keeps_updatePeer s.bus ip j now s rfl
    rw [h] at hk
    exact hk
  · rw [if_neg hh] at h
    by_cases he : swarmType = bytes "event"
    · rw [if_pos he] at h ⊢
      cases hm : j.member? (bytes "event") with
      | none =>
        rw [hm] at h
        obtain ⟨-, rfl⟩ := Prod.mk.inj h
        rfl
      | some ej =>
        rw [hm] at h
        obtain ⟨e, hread, h⟩ := json_run h
        obtain ⟨-, rfl⟩ := Prod.mk.inj h
        rw [Option.bind_some, hread]
        rfl
    · rw [if_neg he] at h ⊢
      obtain ⟨-, rfl⟩ := Prod.mk.inj h
      rfl

/-- What a packet does to the bus of its receiver. -/
theorem handle_bus {data ip : Bytes} {now : ℤ} {s t : Node} {u : PUnit}
    (h : (handleIncomingPacket truncate readFloat data ip now).run s = (.ok u, t)) :
    t.bus = match eventOf truncate readFloat data now with
      | some e => s.bus.publish e now
      | none => s.bus := by
  rw [handleIncomingPacket, run_tryCatch] at h
  rw [eventOf]
  cases hp : parseText readFloat data with
  | error e =>
    rw [hp, run_bind_error (run_lift_error rfl s)] at h
    dsimp only at h
    by_cases he : e = .json .parseError
    · rw [if_pos he] at h
      obtain ⟨-, rfl⟩ := Prod.mk.inj h
      rfl
    · rw [if_neg he] at h
      cases (Prod.mk.inj h).1
  | ok j =>
    rw [hp, run_bind (run_lift rfl s)] at h
    have hne : Unparsed (handlePacket truncate j ip now) := unparsed_handlePacket j ip now
    rcases hx : (handlePacket truncate j ip now).run s with ⟨r, t'⟩
    rw [hx] at h
    cases r with
    | ok a =>
      obtain ⟨-, rfl⟩ := Prod.mk.inj h
      exact handlePacket_bus hx
    | error e =>
      dsimp only at h
      rw [if_neg ((ends_error hx).mp (hne s))] at h
      cases (Prod.mk.inj h).1

end Handler

section Trace

variable {ι : Type} {d d' : Device ι} {i : ι}

/-- Where the events of a bus come from: those of others are marked. -/
structure Traced (i : ι) (d : Device ι) : Prop where
  ordered : Ordered d.node.bus
  origins : d.origins.length = d.node.bus.published.length
  marked : ∀ e ∈ log d.node.bus,
    d.originOf e = some ⟨i, e.position⟩ ∨ e.event.pluginId = remotePeer

/-- What a device has done stays done. -/
structure Grows (d d' : Device ι) : Prop where
  log : log d.node.bus ⊆ log d'.node.bus
  calls : d.node.bus.calls ⊆ d'.node.bus.calls
  subscribed : ∀ id ∈ d.eventSubId, id ∈ d'.eventSubId

theorem received_subset {s t : Bus} (h : s.calls ⊆ t.calls) (id : ℕ) :
    received s id ⊆ received t id := by
  intro e he
  obtain ⟨call, hcall, rfl⟩ := List.mem_map.mp he
  obtain ⟨hmem, hid⟩ := List.mem_filter.mp hcall
  exact List.mem_map_of_mem (List.mem_filter.mpr ⟨h hmem, hid⟩)

theorem init_traced : Traced i ({} : Device ι) := by
  refine ⟨Ordered.init, rfl, ?_⟩
  simp [log]

theorem Traced.published (h : Traced i d) {node : Node} {origin : Option (Origin ι)}
    {event : SystemEvent} {now : ℤ} (hn : node.bus = d.node.bus.publish event now)
    (ho : origin = some ⟨i, d.node.bus.published.length⟩ ∨ event.pluginId = remotePeer) :
    Traced i (d.published node origin) := by
  obtain ⟨x, -, hlog, hposition, hplugin⟩ := log_publish d.node.bus event now
  refine ⟨?_, ?_, fun e he => ?_⟩
  · rw [Device.published, hn]
    exact h.ordered.publish event now
  · simp [Device.published, hn, Bus.publish, h.origins]
  · rw [Device.published, hn, hlog] at he
    rcases List.mem_append.mp he with he | he
    · have hlt : e.position < d.origins.length := by
        rw [h.origins]
        exact position_lt he
      rw [Device.originOf, Device.published, List.getElem?_append_left hlt]
      exact h.marked e he
    · obtain rfl := List.mem_singleton.mp he
      rw [hplugin, hposition, Device.originOf, Device.published, hposition, ← h.origins,
        List.getElem?_concat_length, h.origins]
      exact ho

theorem Traced.onBus (h : Traced i d) {bus : Bus} (hO : Ordered bus)
    (hp : bus.published = d.node.bus.published) : Traced i (d.onBus bus) := by
  refine ⟨hO, ?_, fun e he => h.marked e ?_⟩
  · rw [Device.onBus, hp]
    exact h.origins
  · rw [log, ← hp]
    exact he

/-- The swarm manager is called with an event once. -/
theorem called_received {e : Event} {entry : Entry} {bus : Bus} (hO : Ordered d.node.bus)
    (hc : d.called e = some entry) (hs : EventDispatch.step d.node.bus e = some bus) :
    ∃ id ∈ d.eventSubId, entry ∈ log bus ∧ entry ∈ received bus id ∧
      entry ∉ received d.node.bus id := by
  cases e with
  | call =>
    rcases call_cases hs with ⟨x, hd, -⟩ | ⟨x, sub, left, hd, rfl⟩
    · simp [Device.called, hd] at hc
    · simp only [Device.called, hd, Option.ite_none_right_eq_some] at hc
      obtain ⟨⟨hw, hsub⟩, hx⟩ := hc
      obtain rfl := Option.some.inj hx
      have hreg : sub ∈ d.node.bus.registered :=
        (hO.left x _ hd).subset List.mem_cons_self
      have hm := (step_ordered hO hs).merged sub (.inl hreg)
      have hlog := ((List.sublist_append_left _ _).trans hm).trans List.filter_sublist
      have hrec : received (d.node.bus.call x sub left) sub.id =
          received d.node.bus sub.id ++ [x] := by
        rw [received_call, if_pos ⟨hw, rfl⟩]
      rw [hrec] at hlog
      refine ⟨sub.id, hsub, hlog.subset (by simp), by simp [hrec], fun hmem => ?_⟩
      have hn := hlog.nodup (log_nodup _)
      exact (List.nodup_append.mp hn).2.2 x hmem x (by simp) rfl
  | _ => simp [Device.called] at hc

end Trace

section Swarm

variable {ι : Type} {truncate : NumberText → ℤ} {readFloat : Bytes → Option NumberText}
  {deviceType : ι → Bytes}

/-- The packet is of an event that was published on the bus of its sender, by no peer, and that the
sender was called with. -/
def FromOrigin (s : Swarm ι) (p : Packet ι) : Prop :=
  ∃ e ∈ log (s.devices p.sender).node.bus, p.origin = some ⟨p.sender, e.position⟩ ∧
    e.event.pluginId ≠ remotePeer ∧
    ∃ id ∈ (s.devices p.sender).eventSubId, e ∈ received (s.devices p.sender).node.bus id

structure Inv (s : Swarm ι) : Prop where
  traced : ∀ i, Traced i (s.devices i)
  sent : ∀ p ∈ s.sent, FromOrigin s p
  once : (s.sent.map (·.origin)).Nodup

variable [DecidableEq ι] {s t : Swarm ι}

theorem FromOrigin.set {p : Packet ι} (h : FromOrigin s p) {i : ι} {d : Device ι}
    (hg : Grows (s.devices i) d) : FromOrigin (s.set i d) p := by
  obtain ⟨e, he, ho, hn, id, hid, hr⟩ := h
  by_cases hi : p.sender = i
  · subst hi
    refine ⟨e, ?_, ho, hn, id, ?_, ?_⟩
    · simpa [Swarm.set] using hg.log he
    · simpa [Swarm.set] using hg.subscribed id hid
    · simpa [Swarm.set] using received_subset hg.calls id hr
  · have hother : (s.set i d).devices p.sender = s.devices p.sender := by
      simp [Swarm.set, Function.update_of_ne hi]
    exact ⟨e, hother ▸ he, ho, hn, id, hother ▸ hid, hother ▸ hr⟩

theorem Inv.set (hI : Inv s) {i : ι} {d : Device ι} (ht : Traced i d)
    (hg : Grows (s.devices i) d) : Inv (s.set i d) := by
  refine ⟨fun k => ?_, fun p hp => (hI.sent p hp).set hg, hI.once⟩
  by_cases hk : k = i
  · subst hk
    simpa [Swarm.set] using ht
  · simpa [Swarm.set, Function.update_of_ne hk] using hI.traced k

omit [DecidableEq ι] in
theorem published_grows {d : Device ι} {node : Node} {event : SystemEvent} {now : ℤ}
    (hn : node.bus = d.node.bus.publish event now) (origin : Option (Origin ι)) :
    Grows d (d.published node origin) := by
  have hs : EventDispatch.step d.node.bus (.publish event now) = some node.bus := by
    rw [hn]
    rfl
  obtain ⟨hl, hc⟩ := step_grows hs
  exact ⟨hl, hc, fun _ h => h⟩

omit [DecidableEq ι] in
/-- The event of a packet is published with its mark and its origin. -/
theorem receivePacket_published {i : ι} {d d' : Device ι} (ht : Traced i d) {data ip : Bytes}
    {origin : Option (Origin ι)} {now : ℤ} {e : SystemEvent}
    (he : eventOf truncate readFloat data now = some e)
    (h : receivePacket truncate readFloat d data ip origin now = some d') :
    ∃ x, log d'.node.bus = log d.node.bus ++ [x] ∧ x.event.pluginId = remotePeer ∧
      d'.originOf x = origin := by
  rw [receivePacket] at h
  rcases hx : (handleIncomingPacket truncate readFloat data ip now).run d.node with ⟨r, node⟩
  rw [hx] at h
  cases r with
  | error e => cases h
  | ok u =>
    have hbus := handle_bus hx
    rw [he] at hbus h
    obtain rfl := Option.some.inj h
    obtain ⟨x, -, hlog, hposition, hplugin⟩ := log_publish d.node.bus e now
    refine ⟨x, ?_, hplugin.trans (eventOf_marked he), ?_⟩
    · simpa [Device.published, hbus] using hlog
    · simp [Device.originOf, Device.published, hposition, ← ht.origins]

/-- A packet is published as what it is one of, marked, or not at all. -/
theorem receivePacket_inv (hI : Inv s) {i : ι} {data ip : Bytes} {origin : Option (Origin ι)}
    {now : ℤ} {d : Device ι}
    (h : receivePacket truncate readFloat (s.devices i) data ip origin now = some d) :
    Inv (s.set i d) := by
  rw [receivePacket] at h
  rcases hx : (handleIncomingPacket truncate readFloat data ip now).run (s.devices i).node
    with ⟨r, node⟩
  rw [hx] at h
  cases r with
  | error e => cases h
  | ok u =>
    have hbus := handle_bus hx
    obtain rfl := Option.some.inj h
    cases he : eventOf truncate readFloat data now with
    | none =>
      rw [he] at hbus
      have hd : Traced i { s.devices i with node := node } := by
        obtain ⟨h1, h2, h3⟩ := hI.traced i
        constructor
        · rwa [hbus]
        · rwa [hbus]
        · rwa [hbus]
      refine hI.set hd ⟨?_, ?_, fun _ h => h⟩
      · simp [hbus]
      · simp [hbus]
    | some e =>
      rw [he] at hbus
      exact hI.set ((hI.traced i).published hbus (.inr (eventOf_marked he)))
        (published_grows hbus origin)

theorem step_published {s t : Bus} {e : Event} (hs : EventDispatch.step s e = some t)
    (he : isPublish e = false) : t.published = s.published := by
  cases e with
  | publish => cases he
  | start =>
    rcases start_cases hs with rfl | ⟨-, rfl⟩
    · rfl
    · rfl
  | take =>
    obtain ⟨-, -, -, -, rfl⟩ := take_cases hs
    rfl
  | copy =>
    obtain ⟨-, -, rfl⟩ := copy_cases hs
    rfl
  | call =>
    rcases call_cases hs with ⟨-, -, rfl⟩ | ⟨x, sub, left, -, rfl⟩
    · rfl
    · rfl
  | leave =>
    obtain ⟨-, rfl⟩ := leave_cases hs
    rfl
  | _ =>
    obtain rfl := Option.some.inj hs
    rfl

/-- The moves of a bus keep the invariant, and the first call with an event sends its only
packet. -/
theorem broadcast_inv (hI : Inv s) {i : ι} {e : Event} {bus : Bus} (he : isPublish e = false)
    (hs : EventDispatch.step (s.devices i).node.bus e = some bus) :
    Inv { s.set i ((s.devices i).onBus bus) with
      sent := s.sent ++ broadcast deviceType i (s.devices i) e } := by
  have ht := hI.traced i
  have hp := step_published hs he
  obtain ⟨hlog, hcalls⟩ := step_grows hs
  have hset : Inv (s.set i ((s.devices i).onBus bus)) :=
    hI.set (ht.onBus (step_ordered ht.ordered hs) hp) ⟨hlog, hcalls, fun _ h => h⟩
  rw [broadcast]
  cases hc : (s.devices i).called e with
  | none =>
    rw [List.append_nil]
    exact hset
  | some entry =>
    dsimp only
    cases hb : onLocalEvent (deviceType i) entry.event with
    | error e =>
      dsimp only
      rw [List.append_nil]
      exact hset
    | ok data? =>
      cases data? with
      | none =>
        dsimp only
        rw [List.append_nil]
        exact hset
      | some data =>
        have hplugin : entry.event.pluginId ≠ remotePeer := by
          intro hr
          rw [onLocalEvent, if_pos hr] at hb
          cases hb
        obtain ⟨id, hid, hmem, hrec, hnew⟩ := called_received ht.ordered hc hs
        have hold : entry ∈ log (s.devices i).node.bus := by
          rw [log, hp] at hmem
          exact hmem
        have horigin := (ht.marked entry hold).resolve_right hplugin
        refine ⟨hset.traced, ?_, ?_⟩
        · intro p hp
          rcases List.mem_append.mp hp with hp | hp
          · exact hset.sent p hp
          · obtain rfl := List.mem_singleton.mp hp
            refine ⟨entry, ?_, horigin, hplugin, id, ?_, ?_⟩
            · simpa [Swarm.set, Device.onBus] using hmem
            · simpa [Swarm.set, Device.onBus] using hid
            · simpa [Swarm.set, Device.onBus] using hrec
        · rw [List.map_append, List.map_singleton, horigin]
          refine List.nodup_append.mpr ⟨hI.once, List.nodup_singleton _, ?_⟩
          -- an older packet of this origin would be of a call with this very event
          rintro o ho o' ho' rfl
          obtain ⟨p, hp, hpo⟩ := List.mem_map.mp ho
          obtain ⟨x, hx, hxo, -, id', hid', hxr⟩ := hI.sent p hp
          rw [List.mem_singleton.mp ho', hxo] at hpo
          obtain ⟨hsender, hposition⟩ := Origin.mk.inj (Option.some.inj hpo)
          rw [hsender] at hx hid' hxr
          obtain rfl := log_position hx hold hposition
          obtain rfl := Option.some.inj (hid.symm.trans hid')
          exact hnew hxr

theorem step_inv (hI : Inv s) {e : Move ι}
    (hs : step truncate readFloat deviceType s e = some t) : Inv t := by
  cases e with
  | start i =>
    simp only [step, Option.ite_none_right_eq_some, Option.some.injEq] at hs
    obtain ⟨hnone, rfl⟩ := hs
    obtain ⟨h1, h2, h3⟩ := hI.traced i
    refine hI.set ⟨h1.subscribe .kCustom true, h2, h3⟩ ⟨?_, ?_, ?_⟩
    · exact List.Subset.refl _
    · exact List.Subset.refl _
    · simp [hnone]
  | publish i event now =>
    obtain rfl := Option.some.inj hs
    exact hI.set ((hI.traced i).published rfl (.inl rfl)) (published_grows rfl _)
  | arrive i packet ip now =>
    obtain ⟨p, -, hs⟩ := Option.bind_eq_some_iff.mp hs
    obtain ⟨d, hd, rfl⟩ := Option.map_eq_some_iff.mp hs
    exact receivePacket_inv hI hd
  | foreign i data ip now =>
    obtain ⟨d, hd, rfl⟩ := Option.map_eq_some_iff.mp hs
    exact receivePacket_inv hI hd
  | bus i e =>
    simp only [step] at hs
    by_cases he : isPublish e
    · rw [if_pos he] at hs
      cases hs
    · rw [if_neg he] at hs
      obtain ⟨bus, hb, rfl⟩ := Option.map_eq_some_iff.mp hs
      exact broadcast_inv hI (Bool.eq_false_iff.mpr he) hb

theorem run_inv {tr} (h : Run (swarm truncate readFloat deviceType) tr s) : Inv s := by
  apply h.invariant
  · rintro s rfl
    exact ⟨fun _ => init_traced, by simp, by simp⟩
  · intro s e t hI hs
    exact step_inv hI hs

/-- No event is broadcast twice, or by another device than its own. An event of a peer is published
with its mark, and sends nothing. -/
theorem broadcast_once {tr} (h : Run (swarm truncate readFloat deviceType) tr s) :
    (s.sent.map (·.origin)).Nodup ∧
    (∀ p ∈ s.sent, ∃ e ∈ log (s.devices p.sender).node.bus,
      p.origin = some ⟨p.sender, e.position⟩ ∧ e.event.pluginId ≠ remotePeer) ∧
    (∀ i, ∀ e ∈ log (s.devices i).node.bus,
      (s.devices i).originOf e ≠ some ⟨i, e.position⟩ → e.event.pluginId = remotePeer) ∧
    ∀ i k ip now t p e, step truncate readFloat deviceType s (.arrive i k ip now) = some t →
      s.sent[k]? = some p → eventOf truncate readFloat p.data now = some e →
      t.sent = s.sent ∧ ∃ x, log (t.devices i).node.bus = log (s.devices i).node.bus ++ [x] ∧
        x.event.pluginId = remotePeer ∧ (t.devices i).originOf x = p.origin := by
  have hI := run_inv h
  refine ⟨hI.once, fun p hp => ?_, fun i e he hne => ?_, ?_⟩
  · obtain ⟨e, he, ho, hn, -⟩ := hI.sent p hp
    exact ⟨e, he, ho, hn⟩
  · exact ((hI.traced i).marked e he).resolve_left hne
  · intro i k ip now t p e hs hp he
    obtain ⟨p', hp', hs⟩ := Option.bind_eq_some_iff.mp hs
    obtain rfl := Option.some.inj (hp.symm.trans hp')
    obtain ⟨d, hd, rfl⟩ := Option.map_eq_some_iff.mp hs
    refine ⟨rfl, ?_⟩
    have hset : (s.set i d).devices i = d := by simp [Swarm.set]
    rw [hset]
    exact receivePacket_published (hI.traced i) he hd

end Swarm

section RoundTrip

variable {truncate : NumberText → ℤ} {readFloat : Bytes → Option NumberText}

theorem value_of_member {α : Type} {get : Json → Except JsonException α} {j v : Json} {key : Bytes}
    (h : j.member? key = some v) (default : α) : j.value get key default = get v := by
  cases j with
  | obj m =>
    have hl : m.lookup key = some v := h
    simp only [Json.value, hl]
  | _ => cases h

/-- A type that is none of those with a name, and fits into an `int`. -/
def Castable (type : EventType) : Prop :=
  (-2 ^ 31 ≤ typeId type ∧ typeId type < 2 ^ 31) ∧
    ∀ value, type = .other value → value < 0 ∨ 11 < value

theorem ofTypeId_typeId {type : EventType} (h : Castable type) : ofTypeId (typeId type) = type := by
  cases type with
  | other value =>
    have hv := h.2 value rfl
    rw [typeId, ofTypeId]
    all_goals omega
  | _ => rfl

/-- The fields of an event as they stand in its packet. -/
def eventMembers (deviceType : Bytes) (event : SystemEvent) : List (Bytes × Json) :=
  [(bytes "type_id", .int (typeId event.type)), (bytes "source", .str event.source),
    (bytes "name", .str event.name), (bytes "data", event.data),
    (bytes "timestamp", .int event.timestamp), (bytes "device_type", .str deviceType)]

theorem payload_members (deviceType : Bytes) (event : SystemEvent) :
    (payload deviceType event).member? (bytes "swarm_type") = some (.str (bytes "event")) ∧
    (payload deviceType event).member? (bytes "event") =
      some (.object (eventMembers deviceType event)) ∧
    ∀ key, (Json.object (eventMembers deviceType event)).member? key =
      (eventMembers deviceType event).lookup key := by
  have houter : [bytes "swarm_type", bytes "event"].Nodup := by decide
  have hinner : [bytes "type_id", bytes "source", bytes "name", bytes "data", bytes "timestamp",
      bytes "device_type"].Nodup := by
    decide
  have hmembers := member_object (m := [(bytes "swarm_type", .str (bytes "event")),
    (bytes "event", .object (eventMembers deviceType event))]) houter
  refine ⟨?_, ?_, fun key => member_object (m := eventMembers deviceType event) hinner key⟩
  · exact (hmembers _).trans rfl
  · exact (hmembers _).trans rfl

/-- What one device broadcasts is published by the others as it was, under the name of the first and
with the mark. -/
theorem eventOf_broadcast {event : SystemEvent} {deviceType data : Bytes} {now : ℤ}
    (hs : Storable readFloat (payload deviceType event)) (htype : Castable event.type)
    (htime : -2 ^ 63 ≤ event.timestamp ∧ event.timestamp < 2 ^ 63)
    (h : onLocalEvent deviceType event = .ok (some data)) :
    eventOf truncate readFloat data now = some { event with
      source := deviceType ++ bytes "::" ++ event.source, pluginId := remotePeer } := by
  obtain ⟨hswarm, hevent, hmember⟩ := payload_members deviceType event
  obtain ⟨hlow, hhigh⟩ := htype.1
  have hdump : dump (payload deviceType event) = .ok data := by
    rw [onLocalEvent] at h
    split_ifs at h
    · cases h
    · obtain ⟨t, ht, he⟩ := map_eq_ok.mp h
      rwa [Option.some.inj he] at ht
  have hwrap : getInt truncate (.int (typeId event.type)) = .ok (typeId event.type) := by
    rw [getInt, PipelineExecutor.wrap32_of_range (by omega) (by omega)]
  have hstamp : getInt64 truncate (.int event.timestamp) = .ok event.timestamp := by
    rw [getInt64, Int.bmod_eq_of_le_mul_two (by omega) (by omega)]
  rw [eventOf, parseText_dump hs hdump]
  dsimp only
  rw [valueString_of_member hswarm, if_pos rfl, hevent, Option.bind_some, readEvent,
    value_of_member ((hmember _).trans rfl), hwrap, valueString_of_member ((hmember _).trans rfl),
    valueString_of_member ((hmember _).trans rfl), value_of_member ((hmember _).trans rfl), hstamp,
    valueString_of_member ((hmember _).trans rfl), hmember]
  simp only [Except.bind, Except.map, Except.toOption, ofTypeId_typeId htype]
  rfl

end RoundTrip

namespace Counterexample

def changed (pluginId : Bytes) : SystemEvent := ⟨.kNetworkChanged, [], [], .null, 1, pluginId⟩

abbrev pair : System (Swarm Bool) (Move Bool) :=
  swarm (fun _ => 0) (fun _ => none) fun _ => bytes "tv"

theorem pair_step (s : Swarm Bool) (e : Move Bool) (t : Swarm Bool)
    (h : step (fun _ => 0) (fun _ => none) (fun _ => bytes "tv") s e = some t) : pair.Step s e t :=
  h

/-- A device broadcasts its event, and not another one that has the mark. -/
theorem one_sent : ∃ tr s, Run pair tr s ∧ (s.devices true).node.bus.published.length = 2 ∧
    s.sent.map (·.origin) = [some ⟨true, 0⟩] ∧ (s.sent.map (·.origin)).Nodup := by
  obtain ⟨tr, s, h, hp⟩ := Run.of_execute (M := pair) pair_step rfl
    [.start true, .start false, .bus true .start, .publish true (changed []) 5,
      .publish true (changed remotePeer) 5, .bus true .take, .bus true .copy, .bus true .call,
      .bus true .call, .bus true .take, .bus true .copy, .bus true .call]
    (fun _ s => (s.devices true).node.bus.published.length = 2 ∧
      s.sent.map (·.origin) = [some ⟨true, 0⟩]) (by decide)
  obtain ⟨hl, hs⟩ := of_decide_eq_true hp
  exact ⟨tr, s, h, hl, hs, (broadcast_once h).1⟩

end Counterexample

end SwarmBroadcast
