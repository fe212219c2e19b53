import TizenClaw.EventDispatch
import TizenClaw.IpcRequest
import TizenClaw.JsonFailure
import TizenClaw.TryBlock

/-! The swarm of devices: the packets of local events, the handler of received packets and the table
of peers. -/
namespace SwarmManager

open ByteString JsonValue JsonDump TryBlock EventDispatch JsonFailure IpcRequest
open OrderedMap (Map)
open PipelineExecutor (getInt)

section Model

structure SwarmPeer where
  ipAddress : Bytes
  deviceType : Bytes := []
  lastSeenMs : ℤ := 0
  capabilities : List Bytes := []
  deriving DecidableEq, Repr

/-- The table of peers of a device and its event bus. -/
structure Node where
  peers : Map Bytes SwarmPeer := Map.empty
  bus : Bus := {}

def typeId : EventType → ℤ
  | .kAppLifecycle => 0
  | .kNetworkChanged => 1
  | .kBatteryChanged => 2
  | .kDisplayChanged => 3
  | .kPackageChanged => 4
  | .kMemoryWarning => 5
  | .kSystemSetting => 6
  | .kUsbChanged => 7
  | .kBluetoothChanged => 8
  | .kLocationChanged => 9
  | .kRecentApp => 10
  | .kCustom => 11
  | .other value => value

def ofTypeId : ℤ → EventType
  | 0 => .kAppLifecycle
  | 1 => .kNetworkChanged
  | 2 => .kBatteryChanged
  | 3 => .kDisplayChanged
  | 4 => .kPackageChanged
  | 5 => .kMemoryWarning
  | 6 => .kSystemSetting
  | 7 => .kUsbChanged
  | 8 => .kBluetoothChanged
  | 9 => .kLocationChanged
  | 10 => .kRecentApp
  | 11 => .kCustom
  | value => .other value

/-- The mark of an event that came from a peer. -/
def remotePeer : Bytes := bytes "remote_peer"

def payload (deviceType : Bytes) (event : SystemEvent) : Json :=
  .object [(bytes "swarm_type", .str (bytes "event")),
    (bytes "event", .object [(bytes "type_id", .int (typeId event.type)),
      (bytes "source", .str event.source), (bytes "name", .str event.name),
      (bytes "data", event.data), (bytes "timestamp", .int event.timestamp),
      (bytes "device_type", .str deviceType)])]

/-- The packet that is broadcast for an event of the bus, if any. -/
def onLocalEvent (deviceType : Bytes) (event : SystemEvent) : Except JsonException (Option Bytes) :=
  if event.pluginId = remotePeer then .ok none else (dump (payload deviceType event)).map some

abbrev Action := TryBlock.Action Thrown Node

def json {α : Type} (x : Except JsonException α) : Action α := liftM (x.mapError Thrown.json)

def Node.alter (ip : Bytes) (f : SwarmPeer → SwarmPeer) (s : Node) : Node :=
  match s.peers.get ip with
  | some p => { s with peers := s.peers.insert ip (f p) }
  | none => s

def addCapability (ip : Bytes) (c : Json) : Action PUnit := do
  let capability ← json c.getString
  modify (Node.alter ip fun p => { p with capabilities := p.capabilities ++ [capability] })

/-- An array with an element that is no text is left in the middle. -/
def updateCapabilities (ip : Bytes) (peerInfo : Json) : Action PUnit :=
  match peerInfo.member? (bytes "capabilities") with
  | some (.arr l) => do
    modify (Node.alter ip fun p => { p with capabilities := [] })
    l.forM (addCapability ip)
  | _ => pure ⟨⟩

def updateDevice (ip : Bytes) (peerInfo : Json) : Action PUnit :=
  match peerInfo.member? (bytes "device_type") with
  | some v => do
    let deviceType ← json v.getString
    modify (Node.alter ip fun p => { p with deviceType := deviceType })
  | none => pure ⟨⟩

def updatePeer (ip : Bytes) (peerInfo : Json) (now : ℤ) : Action PUnit := do
  let status ← json (peerInfo.valueString (bytes "status") (bytes "active"))
  if status = bytes "leaving" then modify fun s => { s with peers := s.peers.erase ip }
  else do
    modify fun s => if s.peers.contains ip then s
      else { s with peers := s.peers.insert ip { ipAddress := ip } }
    modify (Node.alter ip fun p => { p with lastSeenMs := now })
    updateDevice ip peerInfo
    updateCapabilities ip peerInfo

section Packets

variable (truncate : NumberText → ℤ)

/-- `get<int64_t>()`, which takes no truth values. -/
def getInt64 : Json → Except JsonException ℤ
  | .int i => .ok (i.bmod (2 ^ 64))
  | .float t => .ok ((truncate t).bmod (2 ^ 64))
  | _ => .error (.typeError 302)

def readEvent (ej : Json) (now : ℤ) : Except JsonException SystemEvent :=
  (ej.value (getInt truncate) (bytes "type_id") 0).bind fun type =>
  (ej.valueString (bytes "source") (bytes "unknown")).bind fun source =>
  (ej.valueString (bytes "name") (bytes "unknown")).bind fun name =>
  (ej.value (getInt64 truncate) (bytes "timestamp") now).bind fun timestamp =>
  (ej.valueString (bytes "device_type") (bytes "unknown")).map fun remoteDevice =>
  { type := ofTypeId type, source := remoteDevice ++ bytes "::" ++ source, name
    data := (ej.member? (bytes "data")).getD .null, timestamp, pluginId := remotePeer }

/-- What a packet that parses does, on a clock that stands still meanwhile. -/
def handlePacket (j : Json) (senderIp : Bytes) (now : ℤ) : Action PUnit := do
  let swarmType ← json (j.valueString (bytes "swarm_type") [])
  if swarmType = bytes "heartbeat" then updatePeer senderIp j now
  else if swarmType = bytes "event" then
    match j.member? (bytes "event") with
    | some ej => do
      let e ← json (readEvent truncate ej now)
      modify fun s => { s with bus := s.bus.publish e now }
    | none => pure ⟨⟩
  else pure ⟨⟩

variable (readFloat : Bytes → Option NumberText)

/-- Only parse errors are caught. -/
def handleIncomingPacket (data senderIp : Bytes) (now : ℤ) : Action PUnit :=
  tryCatch (do
    let j ← (liftM (parseText readFloat data) : Action Json)
    handlePacket truncate j senderIp now) fun e =>
      if e = .json .parseError then pure ⟨⟩ else throw e

end Packets

end Model

section Robustness

/-- A peer that a heartbeat was heard of, and all that the heartbeat says of it. -/
structure Refreshed (peerInfo : Json) (now : ℤ) (old p : SwarmPeer) : Prop where
  address : p.ipAddress = old.ipAddress
  seen : p.lastSeenMs = now
  device : match peerInfo.member? (bytes "device_type") with
    | some v => v = .str p.deviceType
    | none => p.deviceType = old.deviceType
  capabilities : match peerInfo.member? (bytes "capabilities") with
    | some (.arr l) => l = p.capabilities.map .str
    | _ => p.capabilities = old.capabilities

/-- The table after a heartbeat: the sender is refreshed, or gone if it leaves. -/
def Updated (ip : Bytes) (peerInfo : Json) (now : ℤ) (peers peers' : Map Bytes SwarmPeer) : Prop :=
  (∀ k, k ≠ ip → peers'.get k = peers.get k) ∧
    if peerInfo.member? (bytes "status") = some (.str (bytes "leaving")) then peers'.get ip = none
    else ∃ p, peers'.get ip = some p ∧
      Refreshed peerInfo now ((peers.get ip).getD { ipAddress := ip }) p

/-- No exception leaves the handler, and the table is as it was or updated for the sender. -/
def Robust (truncate : NumberText → ℤ) (readFloat : Bytes → Option NumberText)
    (data ip : Bytes) (now : ℤ) (s : Node) : Prop :=
  Ends (fun _ => False) (handleIncomingPacket truncate readFloat data ip now)
    (fun _ t => t.peers = s.peers ∨
      ∃ j, parseText readFloat data = .ok j ∧ Updated ip j now s.peers t.peers) s

def isNumber : Json → Bool
  | .int _ | .float _ => true
  | _ => false

/-- A time is a number, where a type may also be a truth value. -/
def TimeReadable (ej : Json) : Prop :=
  ∀ v, ej.member? (bytes "timestamp") = some v → isNumber v = true

def eventFields : List Field :=
  [(bytes "type_id", .number), (bytes "source", .text), (bytes "name", .text),
    (bytes "device_type", .text)]

def HeartbeatTyped (j : Json) : Prop :=
  Readable j (bytes "status", .text) ∧
    (j.member? (bytes "status") ≠ some (.str (bytes "leaving")) →
      Readable j (bytes "device_type", .text) ∧ Readable j (bytes "capabilities", .texts))

def EventTyped (j : Json) : Prop :=
  ∀ ej, j.member? (bytes "event") = some ej →
    (∀ f ∈ eventFields, Readable ej f) ∧ TimeReadable ej

/-- The fields that a packet is asked for are missing or of their types. -/
def PacketTyped (j : Json) : Prop :=
  Readable j (bytes "swarm_type", .text) ∧
    (j.member? (bytes "swarm_type") = some (.str (bytes "heartbeat")) → HeartbeatTyped j) ∧
    (j.member? (bytes "swarm_type") = some (.str (bytes "event")) → EventTyped j)

/-- The packet is malformed, but for numbers that are too large, or well typed. -/
def Tolerable (readFloat : Bytes → Option NumberText) (data : Bytes) : Prop :=
  match parseText readFloat data with
  | .ok j => PacketTyped j
  | .error e => e = .json .parseError

section Ends

variable {α : Type} {s : Node}

theorem ends_json (x : Except JsonException α) (good : α → Node → Prop) :
    Ends (fun _ => False) (json x) good s ↔ ∃ a, x = .ok a ∧ good a s := by
  cases x with
  | ok a =>
    have hrun : (json (.ok a)).run s = (.ok a, s) := run_lift rfl s
    rw [ends_ok hrun]
    simp
  | error e =>
    have hrun : (json (.error e : Except JsonException α)).run s = (.error (.json e), s) :=
      run_lift_error rfl s
    rw [ends_error hrun]
    simp

theorem ends_modify (g : Node → Node) (good : PUnit → Node → Prop) :
    Ends (fun _ => False) (modify g : Action PUnit) good s ↔ good ⟨⟩ (g s) :=
  ends_ok (run_modify g s)

end Ends

section Peer

variable {ip : Bytes} {peerInfo : Json} {s t : Node} {p : SwarmPeer} {good : PUnit → Node → Prop}

/-- The entry of the sender is this one while it is refreshed, and all others are as they were. -/
def Refreshing (s : Node) (ip : Bytes) (p : SwarmPeer) (t : Node) : Prop :=
  t.peers.get ip = some p ∧ ∀ k, k ≠ ip → t.peers.get k = s.peers.get k

theorem Refreshing.alter (h : Refreshing s ip p t) (f : SwarmPeer → SwarmPeer) :
    Refreshing s ip (f p) (t.alter ip f) := by
  rw [Node.alter, h.1]
  exact ⟨Map.get_insert_self _ _ _, fun k hk => (Map.get_insert_other hk _ _).trans (h.2 k hk)⟩

theorem ends_addCapabilities (h : Refreshing s ip p t) {l : List Json}
    (hg : ∀ u texts, l = texts.map .str →
      Refreshing s ip { p with capabilities := p.capabilities ++ texts } u → good ⟨⟩ u) :
    Ends (fun _ => False) (l.forM (addCapability ip)) good t ↔ l.all isString = true := by
  induction l generalizing p t with
  | nil =>
    have hgood := hg t [] rfl (by simpa using h)
    exact iff_of_true hgood rfl
  | cons c l ih =>
    have hcons : (c :: l).forM (addCapability ip) =
        addCapability ip c >>= fun _ => l.forM (addCapability ip) := rfl
    rw [hcons, addCapability, ends_bind, ends_bind, ends_json]
    cases c with
    | str text =>
      have hstep := h.alter fun p => { p with capabilities := p.capabilities ++ [text] }
      have hrest := ih hstep fun u texts hl hu => by
        apply hg u (text :: texts) (by rw [hl, List.map_cons])
        simpa using hu
      simpa [Json.getString, ends_modify, isString] using hrest
    | _ => simp [Json.getString, isString]

theorem ends_updateCapabilities (h : Refreshing s ip p t) {m : List (Bytes × Json)}
    (hg : ∀ u texts, (match (Json.obj m).member? (bytes "capabilities") with
        | some (.arr l) => l = texts.map .str
        | _ => texts = p.capabilities) →
      Refreshing s ip { p with capabilities := texts } u → good ⟨⟩ u) :
    Ends (fun _ => False) (updateCapabilities ip (.obj m)) good t ↔
      Readable (.obj m) (bytes "capabilities", .texts) := by
  rw [updateCapabilities, Readable]
  simp only [Json.member?] at hg ⊢
  cases hl : m.lookup (bytes "capabilities") with
  | none => exact iff_of_true (hg t p.capabilities (by rw [hl]) h) (by simp)
  | some v =>
    rw [hl] at hg
    cases v with
    | arr l =>
      have hclear := h.alter fun p => { p with capabilities := [] }
      have hadd : Ends (fun _ => False) (l.forM (addCapability ip)) good _ ↔
          l.all isString = true :=
        ends_addCapabilities hclear fun u texts ht hu => hg u texts ht (by simpa using hu)
      simpa [ends_bind, ends_modify, Kind.fits] using hadd
    | _ => exact iff_of_true (hg t p.capabilities rfl h) (by simp [Kind.fits])

theorem ends_updateDevice (h : Refreshing s ip p t) {m : List (Bytes × Json)} {P : Prop}
    (hg : ∀ u text, (match (Json.obj m).member? (bytes "device_type") with
        | some v => v = .str text
        | none => text = p.deviceType) →
      Refreshing s ip { p with deviceType := text } u → (good ⟨⟩ u ↔ P)) :
    Ends (fun _ => False) (updateDevice ip (.obj m)) good t ↔
      Readable (.obj m) (bytes "device_type", .text) ∧ P := by
  rw [updateDevice, Readable]
  simp only [Json.member?] at hg ⊢
  cases hl : m.lookup (bytes "device_type") with
  | none =>
    have hp := hg t p.deviceType (by rw [hl]) h
    simpa [ends_pure] using hp
  | some v =>
    rw [hl] at hg
    rw [ends_bind, ends_json]
    cases v with
    | str text =>
      have hp := hg _ text rfl (h.alter fun p => { p with deviceType := text })
      simpa [Json.getString, ends_modify, Kind.fits] using hp
    | _ => simp [Json.getString, Kind.fits]

/-- The entry that is refreshed: the one of the table, or a new one. -/
theorem refreshing_entry (s : Node) (ip : Bytes) (now : ℤ) :
    Refreshing s ip { (s.peers.get ip).getD { ipAddress := ip } with lastSeenMs := now }
      ((if s.peers.contains ip then s
        else { s with peers := s.peers.insert ip { ipAddress := ip } }).alter ip
          fun p => { p with lastSeenMs := now }) := by
  refine Refreshing.alter ?_ fun p => { p with lastSeenMs := now }
  cases hp : s.peers.get ip with
  | some p =>
    rw [Map.contains, hp, Option.isSome_some, if_pos rfl]
    exact ⟨hp, fun _ _ => rfl⟩
  | none =>
    rw [Map.contains, hp, Option.isSome_none, if_neg (by decide)]
    exact ⟨Map.get_insert_self _ _ _, fun k hk => Map.get_insert_other hk _ _⟩

theorem leaving_iff {m : List (Bytes × Json)} {status : Bytes}
    (h : (Json.obj m).valueString (bytes "status") (bytes "active") = .ok status) :
    status = bytes "leaving" ↔
      (Json.obj m).member? (bytes "status") = some (.str (bytes "leaving")) := by
  constructor
  · rintro rfl
    exact (valueString_cases h).resolve_left (by decide)
  · intro hm
    rw [valueString_of_member hm] at h
    exact (Except.ok.inj h).symm

/-- A heartbeat is taken in whole exactly if its fields can be read. -/
theorem ends_updatePeer {m : List (Bytes × Json)} {now : ℤ}
    (hg : ∀ u, Updated ip (.obj m) now s.peers u.peers → good ⟨⟩ u) :
    Ends (fun _ => False) (updatePeer ip (.obj m) now) good s ↔ HeartbeatTyped (.obj m) := by
  rw [updatePeer, ends_bind, ends_json, HeartbeatTyped, ← succeeds_valueString _ (bytes "active"),
    Succeeds, ← exists_and_right]
  refine exists_congr fun status => and_congr_right fun hs => ?_
  have hleaving := leaving_iff hs
  by_cases hl : status = bytes "leaving"
  · rw [if_pos hl, ends_modify]
    have hm := hleaving.mp hl
    refine iff_of_true (hg _ ⟨fun k hk => Map.get_erase_other hk _, ?_⟩) (absurd hm)
    rw [if_pos hm]
    exact Map.get_erase_self _ _
  · have hm : (Json.obj m).member? (bytes "status") ≠ some (.str (bytes "leaving")) :=
      fun hm => hl (hleaving.mpr hm)
    rw [if_neg hl, forall_prop_of_true hm]
    simp only [ends_bind, ends_modify]
    refine ends_updateDevice (refreshing_entry s ip now) fun u text ht hu => ?_
    refine ends_updateCapabilities hu fun v texts hc hv => hg v ⟨hv.2, ?_⟩
    rw [if_neg hm]
    exact ⟨_, hv.1, rfl, rfl, ht, hc⟩

end Peer

section Packet

variable {truncate : NumberText → ℤ} {readFloat : Bytes → Option NumberText} {s : Node}

theorem succeeds_getInt64 {ej : Json} (h : ∃ m, ej = .obj m) (default : ℤ) :
    Succeeds (ej.value (getInt64 truncate) (bytes "timestamp") default) ↔ TimeReadable ej := by
  obtain ⟨m, rfl⟩ := h
  simp only [Json.value, TimeReadable, Json.member?]
  cases m.lookup (bytes "timestamp") with
  | none => simp
  | some v => cases v <;> simp [getInt64, isNumber]

theorem succeeds_readEvent (ej : Json) (now : ℤ) :
    Succeeds (readEvent truncate ej now) ↔
      (∀ f ∈ eventFields, Readable ej f) ∧ TimeReadable ej := by
  rw [readEvent, succeeds_both fun type => succeeds_both fun source => succeeds_both fun name =>
    succeeds_both fun timestamp => succeeds_map _ (ej.valueString _ _)]
  simp only [succeeds_valueString, succeeds_getInt, eventFields, List.forall_mem_cons,
    List.not_mem_nil, false_imp_iff, implies_true, and_true]
  by_cases hobj : ∃ m, ej = .obj m
  · rw [succeeds_getInt64 hobj]
    tauto
  · have hno : ∀ f, ¬ Readable ej f := by
      intro f hf
      cases ej with
      | obj m => exact hobj ⟨m, rfl⟩
      | _ => exact hf
    simp [hno]

section Unparsed

/-- A part of the handler that throws no parse error. -/
def Unparsed {α : Type} (x : Action α) : Prop :=
  ∀ s, Ends (· ≠ .json .parseError) x (fun _ _ => True) s

theorem unparsed_bind {α β : Type} {x : Action α} {f : α → Action β} (hx : Unparsed x)
    (hf : ∀ a, Unparsed (f a)) : Unparsed (x >>= f) := by
  intro s
  rw [ends_bind, ends_congr x fun a t => iff_true_intro (hf a t)]
  exact hx s

theorem unparsed_pure {α : Type} (a : α) : Unparsed (pure a) := fun _ => trivial

theorem unparsed_modify (g : Node → Node) : Unparsed (modify g : Action PUnit) := fun _ => trivial

theorem unparsed_json {α : Type} {x : Except JsonException α} (h : x ≠ .error .parseError) :
    Unparsed (json x) := by
  intro s
  cases x with
  | ok a => exact (ends_ok (run_lift rfl s)).mpr trivial
  | error e =>
    refine (ends_error (run_lift_error rfl s)).mpr fun he => h ?_
    rw [Thrown.json.inj he]

theorem value_ne {α : Type} {get : Json → Except JsonException α} (j : Json) (key : Bytes)
    (default : α) (h : ∀ v, get v ≠ .error .parseError) :
    j.value get key default ≠ .error .parseError := by
  cases j with
  | obj m =>
    simp only [Json.value]
    cases m.lookup key with
    | none => exact fun he => by cases he
    | some v => exact h v
  | _ => exact fun he => by cases he

theorem getString_ne (v : Json) : v.getString ≠ .error .parseError := by
  cases v <;> nofun

theorem bind_ne {α β : Type} {x : Except JsonException α} {f : α → Except JsonException β}
    (hx : x ≠ .error .parseError) (hf : ∀ a, f a ≠ .error .parseError) :
    x.bind f ≠ .error .parseError := by
  cases x with
  | ok a => exact hf a
  | error e => exact fun h => hx (congrArg _ (Except.error.inj h))

theorem readEvent_ne (ej : Json) (now : ℤ) : readEvent truncate ej now ≠ .error .parseError := by
  have htext : ∀ key default, ej.valueString key default ≠ .error .parseError :=
    fun key default => value_ne ej key default getString_ne
  refine bind_ne (value_ne ej _ _ fun v => by cases v <;> nofun) fun type => ?_
  refine bind_ne (htext _ _) fun source => bind_ne (htext _ _) fun name => ?_
  refine bind_ne (value_ne ej _ _ fun v => by cases v <;> nofun) fun timestamp => ?_
  exact bind_ne (htext _ _) fun remoteDevice => nofun

theorem unparsed_updatePeer (ip : Bytes) (j : Json) (now : ℤ) : Unparsed (updatePeer ip j now) := by
  refine unparsed_bind (unparsed_json (value_ne j _ _ getString_ne)) fun status => ?_
  by_cases hl : status = bytes "leaving"
  · rw [if_pos hl]
    exact unparsed_modify _
  · rw [if_neg hl]
    refine unparsed_bind (unparsed_modify _) fun _ => unparsed_bind (unparsed_modify _) fun _ => ?_
    apply unparsed_bind
    · rw [updateDevice]
      cases j.member? (bytes "device_type") with
      | none => exact unparsed_pure _
      | some v => exact unparsed_bind (unparsed_json (getString_ne v)) fun _ => unparsed_modify _
    · intro _
      rw [updateCapabilities]
      cases j.member? (bytes "capabilities") with
      | none => exact unparsed_pure _
      | some v =>
        cases v with
        | arr l =>
          refine unparsed_bind (unparsed_modify _) fun _ => ?_
          induction l with
          | nil => exact unparsed_pure _
          | cons c l ih =>
            refine unparsed_bind ?_ fun _ => ih
            exact unparsed_bind (unparsed_json (getString_ne c)) fun _ => unparsed_modify _
        | _ => exact unparsed_pure _

theorem unparsed_handlePacket (j : Json) (ip : Bytes) (now : ℤ) :
    Unparsed (handlePacket truncate j ip now) := by
  refine unparsed_bind (unparsed_json (value_ne j _ _ getString_ne)) fun swarmType => ?_
  by_cases hh : swarmType = bytes "heartbeat"
  · rw [if_pos hh]
    exact unparsed_updatePeer ip j now
  · rw [if_neg hh]
    by_cases he : swarmType = bytes "event"
    · rw [if_pos he]
      cases j.member? (bytes "event") with
      | none => exact unparsed_pure _
      | some ej =>
        exact unparsed_bind (unparsed_json (readEvent_ne ej now)) fun _ => unparsed_modify _
    · rw [if_neg he]
      exact unparsed_pure _

end Unparsed

theorem text_iff {m : List (Bytes × Json)} {key value swarmType : Bytes} (hne : value ≠ [])
    (h : (Json.obj m).valueString key [] = .ok swarmType) :
    swarmType = value ↔ (Json.obj m).member? key = some (.str value) := by
  constructor
  · rintro rfl
    exact (valueString_cases h).resolve_left hne
  · intro hm
    rw [valueString_of_member hm] at h
    exact (Except.ok.inj h).symm

/-- A packet that parses is handled to its end exactly if its fields can be read. -/
theorem ends_handlePacket (j : Json) {ip : Bytes} {now : ℤ} {good : PUnit → Node → Prop}
    (hb : ∀ u, u.peers = s.peers → good ⟨⟩ u)
    (hg : ∀ u, Updated ip j now s.peers u.peers → good ⟨⟩ u) :
    Ends (fun _ => False) (handlePacket truncate j ip now) good s ↔ PacketTyped j := by
  rw [handlePacket, ends_bind, ends_json, PacketTyped, ← succeeds_valueString _ [], Succeeds,
    ← exists_and_right]
  refine exists_congr fun swarmType => and_congr_right fun hs => ?_
  cases j with
  | obj m =>
    have hheartbeat : swarmType = bytes "heartbeat" ↔ _ := text_iff (by decide) hs
    have hevent : swarmType = bytes "event" ↔ _ := text_iff (by decide) hs
    rw [← hheartbeat, ← hevent]
    have hother : bytes "event" ≠ bytes "heartbeat" := by decide
    by_cases hh : swarmType = bytes "heartbeat"
    · rw [if_pos hh, ends_updatePeer hg]
      simp [hh, hother.symm]
    · rw [if_neg hh]
      by_cases he : swarmType = bytes "event"
      · rw [if_pos he, EventTyped]
        simp only [he, hother, false_imp_iff, true_and, forall_true_left]
        cases (Json.obj m).member? (bytes "event") with
        | none => exact iff_of_true (hb s rfl) fun ej h => by cases h
        | some ej =>
          have hgood : ∀ e, good ⟨⟩ { s with bus := s.bus.publish e now } := fun e => hb _ rfl
          simp only [ends_bind, ends_json, ends_modify, hgood, and_true, Option.some.injEq,
            forall_eq']
          exact succeeds_readEvent ej now
      · rw [if_neg he]
        exact iff_of_true (hb s rfl) ⟨(absurd · hh), (absurd · he)⟩
  | _ => cases hs

/-- A packet is handled without harm exactly if it is malformed, by no number too large, or if the
fields that are asked for are of their types. -/
theorem robust_iff (data ip : Bytes) (now : ℤ) :
    Robust truncate readFloat data ip now s ↔ Tolerable readFloat data := by
  rw [Robust, Tolerable, handleIncomingPacket, ends_tryCatch]
  cases hp : parseText readFloat data with
  | error e =>
    rw [run_bind_error (run_lift_error rfl s)]
    by_cases he : e = .json .parseError
    · simp only [if_pos he]
      exact iff_of_true (.inl rfl) he
    · simp only [if_neg he]
      exact iff_of_false id he
  | ok j =>
    rw [run_bind (run_lift rfl s)]
    have hends : Ends (fun _ => False) (handlePacket truncate j ip now) (fun _ t =>
        t.peers = s.peers ∨ ∃ j', (.ok j : Except Thrown Json) = .ok j' ∧
          Updated ip j' now s.peers t.peers) s ↔ PacketTyped j :=
      ends_handlePacket j (fun _ => .inl) fun u hu => .inr ⟨j, rfl, hu⟩
    have hne : Unparsed (handlePacket truncate j ip now) := unparsed_handlePacket j ip now
    refine Iff.trans ?_ hends
    rcases hx : (handlePacket truncate j ip now).run s with ⟨r, t⟩
    cases r with
    | ok a => rw [ends_ok hx]
    | error e =>
      have he := (ends_error hx).mp (hne s)
      rw [ends_error hx]
      simp only [if_neg he]
      exact Iff.rfl

end Packet

end Robustness

namespace Counterexample

/-- A packet that is no object ends the thread of the receive loop. -/
theorem no_object : ¬ ∀ (truncate : NumberText → ℤ) (readFloat : Bytes → Option NumberText)
    (data ip : Bytes) (now : ℤ) (s : Node), Robust truncate readFloat data ip now s := by
  intro hall
  have h := hall (fun _ => 0) (fun _ => none) (bytes "[]") (bytes "10.0.0.2") 7 {}
  have hrun : (handleIncomingPacket (fun _ => 0) (fun _ => none) (bytes "[]") (bytes "10.0.0.2")
      7).run {} = (.error (.json (.typeError 306)), {}) := by
    rfl
  exact (ends_error hrun).mp h

end Counterexample

end SwarmManager
