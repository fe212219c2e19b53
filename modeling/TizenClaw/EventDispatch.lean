import TizenClaw.EventBus
import TizenClaw.JsonValue

/-! What the event bus delivers: events under their positions in the order of publication, the
queue that drops the oldest, and the dispatcher that calls a copy of the subscribers. -/
namespace EventDispatch

open ByteString JsonValue TransitionSystem
open EventBus (put kMaxQueueSize)

section Model

/-- `other` is a value of the underlying integer without a name. -/
inductive EventType where
  | kAppLifecycle
  | kNetworkChanged
  | kBatteryChanged
  | kDisplayChanged
  | kPackageChanged
  | kMemoryWarning
  | kSystemSetting
  | kUsbChanged
  | kBluetoothChanged
  | kLocationChanged
  | kRecentApp
  | kCustom
  | other (value : ℤ)
  deriving DecidableEq, Repr

structure SystemEvent where
  type : EventType
  source : Bytes
  name : Bytes
  data : Json
  timestamp : ℤ
  pluginId : Bytes
  deriving DecidableEq, Repr

/-- A callback is known by the id of its subscription. `since` counts the events before it. -/
structure Subscription where
  id : ℕ
  type : EventType
  matchAll : Bool
  since : ℕ
  deriving DecidableEq, Repr

def Subscription.wants (sub : Subscription) (event : SystemEvent) : Bool :=
  sub.matchAll || sub.type = event.type

/-- An event with its position in the order of publication. -/
structure Entry where
  position : ℕ
  event : SystemEvent
  deriving DecidableEq, Repr

/-- Where the dispatcher stands: at the head of its loop or its wait, behind it with an event, or in
front of calls. -/
inductive Dispatcher where
  | off
  | waiting
  | taken (e : Entry)
  | calling (e : Entry) (left : List Subscription)
  deriving DecidableEq, Repr

/-- The bus, with all that was published, subscribed and unsubscribed, and the calls that were made,
as the id of the subscription and the event. -/
structure Bus where
  running : Bool := false
  queue : List Entry := []
  subscribers : List Subscription := []
  nextSubId : ℕ := 1
  dispatcher : Dispatcher := .off
  published : List SystemEvent := []
  registered : List Subscription := []
  removed : List ℕ := []
  calls : List (ℕ × Entry) := []
  deriving DecidableEq, Repr

inductive Event where
  | start
  | stop
  | publish (event : SystemEvent) (now : ℤ)
  | subscribe (type : EventType) (matchAll : Bool)
  | unsubscribe (id : ℕ)
  | take
  | copy
  | call
  | leave
  deriving DecidableEq, Repr

def Bus.publish (s : Bus) (event : SystemEvent) (now : ℤ) : Bus :=
  let event := if event.timestamp = 0 then { event with timestamp := now } else event
  { s with
    queue := put s.queue ⟨s.published.length, event⟩
    published := s.published ++ [event] }

def Bus.subscribe (s : Bus) (type : EventType) (matchAll : Bool) : Bus :=
  let sub := ⟨s.nextSubId, type, matchAll, s.published.length⟩
  { s with
    subscribers := s.subscribers ++ [sub]
    registered := s.registered ++ [sub]
    nextSubId := s.nextSubId + 1 }

def Bus.unsubscribe (s : Bus) (id : ℕ) : Bus :=
  { s with
    subscribers := s.subscribers.filter fun sub => sub.id ≠ id
    removed := if s.subscribers.any fun sub => sub.id = id then id :: s.removed else s.removed }

/-- The next call of the dispatcher, if the subscription is one for the event. -/
def Bus.call (s : Bus) (e : Entry) (sub : Subscription) (left : List Subscription) : Bus :=
  { s with
    dispatcher := .calling e left
    calls := if sub.wants e.event then s.calls ++ [(sub.id, e)] else s.calls }

/-- One thread starts and stops the bus, and starts it when it has been joined. A dispatcher that
finds the bus stopped leaves at the head of its loop, also with events in the queue, but is past the
head when it waits. -/
def step (s : Bus) : Event → Option Bus
  | .start =>
    if s.running then some s
    else if s.dispatcher = .off then some { s with running := true, dispatcher := .waiting }
    else none
  | .stop => some { s with running := false }
  | .publish event now => some (s.publish event now)
  | .subscribe type matchAll => some (s.subscribe type matchAll)
  | .unsubscribe id => some (s.unsubscribe id)
  | .take => match s.dispatcher, s.queue with
    | .waiting, e :: queue => some { s with dispatcher := .taken e, queue := queue }
    | _, _ => none
  | .copy => match s.dispatcher with
    | .taken e => some { s with dispatcher := .calling e s.subscribers }
    | _ => none
  | .call => match s.dispatcher with
    | .calling e (sub :: left) => some (s.call e sub left)
    | .calling _ [] => some { s with dispatcher := .waiting }
    | _ => none
  | .leave =>
    if s.dispatcher = .waiting ∧ s.running = false then some { s with dispatcher := .off }
    else none

def bus : System Bus Event where
  Init s := s = {}
  Step s e t := step s e = some t

end Model

section Subscriptions

/-- The subscriptions that the dispatcher has copied and is still to call. -/
def Dispatcher.due : Dispatcher → List Subscription
  | .calling e left => left.filter fun sub => sub.wants e.event
  | _ => []

/-- The subscription that the next call is for. -/
def Dispatcher.callee : Dispatcher → Option Subscription
  | .calling e (sub :: _) => if sub.wants e.event then some sub else none
  | _ => none

/-- The callback is not called after `Unsubscribe` has returned. -/
def Silent (s : Bus) (e : Event) : Prop :=
  e = .call → ∀ sub ∈ s.dispatcher.callee, sub.id ∉ s.removed

/-- No subscription is removed that the dispatcher has copied and is still to call. -/
def Quiet (s : Bus) (e : Event) : Prop := ∀ sub ∈ s.dispatcher.due, e ≠ .unsubscribe sub.id

instance (s : Bus) (e : Event) : Decidable (Silent s e) :=
  inferInstanceAs (Decidable (_ → ∀ sub ∈ s.dispatcher.callee, sub.id ∉ s.removed))

instance (s : Bus) (e : Event) : Decidable (Quiet s e) :=
  inferInstanceAs (Decidable (∀ sub ∈ s.dispatcher.due, e ≠ .unsubscribe sub.id))

/-- What is still to be called has not been unsubscribed. -/
structure Inv (s : Bus) : Prop where
  bounded : ∀ sub ∈ s.subscribers, sub.id < s.nextSubId
  gone : ∀ id ∈ s.removed, id < s.nextSubId ∧ ∀ sub ∈ s.subscribers, sub.id ≠ id
  due : ∀ sub ∈ s.dispatcher.due, sub.id ∉ s.removed

theorem callee_due {d : Dispatcher} {sub : Subscription} (h : sub ∈ d.callee) : sub ∈ d.due := by
  cases d with
  | calling e left =>
    cases left with
    | nil => simp [Dispatcher.callee] at h
    | cons sub' left =>
      by_cases hw : sub'.wants e.event
      · simp only [Dispatcher.callee, hw, if_true, Option.mem_some] at h
        subst h
        simp [Dispatcher.due, hw]
      · simp [Dispatcher.callee, hw] at h
  | _ => simp [Dispatcher.callee] at h

variable {s t : Bus} {e : Event} {tr : List (Bus × Event)}

theorem start_cases (hs : step s .start = some t) :
    t = s ∨ s.dispatcher = .off ∧ t = { s with running := true, dispatcher := .waiting } := by
  simp only [step] at hs
  by_cases hr : s.running
  · rw [if_pos hr] at hs
    exact .inl (Option.some.inj hs).symm
  · rw [if_neg hr, Option.ite_none_right_eq_some] at hs
    exact .inr ⟨hs.1, (Option.some.inj hs.2).symm⟩

theorem take_cases (hs : step s .take = some t) :
    ∃ e queue, s.dispatcher = .waiting ∧ s.queue = e :: queue ∧
      t = { s with dispatcher := .taken e, queue := queue } := by
  cases hd : s.dispatcher <;> cases hq : s.queue <;> simp only [step, hd, hq, reduceCtorEq] at hs
  rename_i e queue
  exact ⟨e, queue, rfl, rfl, (Option.some.inj hs).symm⟩

theorem copy_cases (hs : step s .copy = some t) :
    ∃ e, s.dispatcher = .taken e ∧ t = { s with dispatcher := .calling e s.subscribers } := by
  cases hd : s.dispatcher <;> simp only [step, hd, reduceCtorEq] at hs
  rename_i e
  exact ⟨e, rfl, (Option.some.inj hs).symm⟩

theorem call_cases (hs : step s .call = some t) :
    (∃ e, s.dispatcher = .calling e [] ∧ t = { s with dispatcher := .waiting }) ∨
    ∃ e sub left, s.dispatcher = .calling e (sub :: left) ∧ t = s.call e sub left := by
  cases hd : s.dispatcher <;> simp only [step, hd, reduceCtorEq] at hs
  rename_i e left
  cases left with
  | nil => exact .inl ⟨e, rfl, (Option.some.inj hs).symm⟩
  | cons sub left => exact .inr ⟨e, sub, left, rfl, (Option.some.inj hs).symm⟩

theorem leave_cases (hs : step s .leave = some t) :
    s.dispatcher = .waiting ∧ t = { s with dispatcher := .off } := by
  simp only [step, Option.ite_none_right_eq_some] at hs
  exact ⟨hs.1.1, (Option.some.inj hs.2).symm⟩

theorem unsubscribe_removed (s : Bus) (id x : ℕ) :
    x ∈ (s.unsubscribe id).removed ↔
      x ∈ s.removed ∨ x = id ∧ ∃ sub ∈ s.subscribers, sub.id = id := by
  by_cases h : ∃ sub ∈ s.subscribers, sub.id = id
  · have ha : (s.subscribers.any fun sub => sub.id = id) = true := by simpa using h
    simp [Bus.unsubscribe, ha, h, or_comm]
  · have ha : (s.subscribers.any fun sub => sub.id = id) = false := by simpa using h
    simp [Bus.unsubscribe, ha, h]

theorem init_inv : Inv {} := by
  constructor
  · simp
  · simp
  · simp [Dispatcher.due]

theorem Inv.unsubscribe (hI : Inv s) (id : ℕ) (hq : Quiet s (.unsubscribe id)) :
    Inv (s.unsubscribe id) := by
  constructor
  · intro sub hsub
    exact hI.bounded sub (List.mem_of_mem_filter hsub)
  · intro x hx
    rcases (unsubscribe_removed s id x).mp hx with hx | ⟨rfl, sub, hsub, rfl⟩
    · obtain ⟨hlt, hne⟩ := hI.gone x hx
      exact ⟨hlt, fun sub hsub => hne sub (List.mem_of_mem_filter hsub)⟩
    · refine ⟨hI.bounded sub hsub, fun sub' hsub' => ?_⟩
      simpa using List.of_mem_filter hsub'
  · intro sub hsub hx
    rcases (unsubscribe_removed s id sub.id).mp hx with hx | ⟨rfl, -⟩
    · exact hI.due sub hsub hx
    · exact hq sub hsub rfl

theorem Inv.subscribe (hI : Inv s) (type : EventType) (matchAll : Bool) :
    Inv (s.subscribe type matchAll) := by
  constructor
  · intro sub hsub
    rcases List.mem_append.mp hsub with hsub | hsub
    · exact (hI.bounded sub hsub).trans (Nat.lt_succ_self _)
    · obtain rfl := List.mem_singleton.mp hsub
      exact Nat.lt_succ_self _
  · intro id hid
    obtain ⟨hlt, hne⟩ := hI.gone id hid
    refine ⟨hlt.trans (Nat.lt_succ_self _), fun sub hsub => ?_⟩
    rcases List.mem_append.mp hsub with hsub | hsub
    · exact hne sub hsub
    · obtain rfl := List.mem_singleton.mp hsub
      exact hlt.ne'
  · exact hI.due

theorem step_inv (hI : Inv s) (hq : Quiet s e) (hs : step s e = some t) : Inv t := by
  cases e with
  | start =>
    rcases start_cases hs with rfl | ⟨-, rfl⟩
    · exact hI
    · exact ⟨hI.bounded, hI.gone, by simp [Dispatcher.due]⟩
  | stop =>
    obtain rfl := Option.some.inj hs
    exact ⟨hI.bounded, hI.gone, hI.due⟩
  | publish event now =>
    obtain rfl := Option.some.inj hs
    exact ⟨hI.bounded, hI.gone, hI.due⟩
  | subscribe type matchAll =>
    obtain rfl := Option.some.inj hs
    exact hI.subscribe type matchAll
  | unsubscribe id =>
    obtain rfl := Option.some.inj hs
    exact hI.unsubscribe id hq
  | take =>
    obtain ⟨e, queue, -, -, rfl⟩ := take_cases hs
    exact ⟨hI.bounded, hI.gone, by simp [Dispatcher.due]⟩
  | copy =>
    obtain ⟨e, -, rfl⟩ := copy_cases hs
    refine ⟨hI.bounded, hI.gone, fun sub hsub hid => ?_⟩
    exact (hI.gone sub.id hid).2 sub (List.mem_of_mem_filter hsub) rfl
  | call =>
    rcases call_cases hs with ⟨e, -, rfl⟩ | ⟨e, sub, left, hd, rfl⟩
    · exact ⟨hI.bounded, hI.gone, by simp [Dispatcher.due]⟩
    · refine ⟨hI.bounded, hI.gone, fun sub' hsub' => hI.due sub' ?_⟩
      rw [hd]
      exact ((List.sublist_cons_self sub left).filter _).subset hsub'
  | leave =>
    obtain ⟨-, rfl⟩ := leave_cases hs
    exact ⟨hI.bounded, hI.gone, by simp [Dispatcher.due]⟩

theorem run_inv (h : Run bus tr s) (hp : ∀ x ∈ tr, Quiet x.1 x.2) : Inv s := by
  apply h.guarded_invariant (P := Quiet) _ _ hp
  · rintro s rfl
    exact init_inv
  · intro s e t hI hq hs
    exact step_inv hI hq hs

/-- If no subscription is removed between the copy of the subscribers and its call, no callback is
called after its removal. -/
theorem removed_silent (h : Run bus tr s) (hp : ∀ x ∈ tr, Quiet x.1 x.2) :
    ∀ x ∈ tr, Silent x.1 x.2 := by
  intro x hx
  obtain ⟨tr₁, tr₂, t, rfl, hr, -⟩ := h.split hx
  have hI := run_inv hr fun y hy => hp y (List.mem_append_left _ hy)
  rintro - sub hsub
  exact hI.due sub (callee_due hsub)

end Subscriptions

section Delivery

/-- What was published, in order. -/
def log (s : Bus) : List Entry := s.published.mapIdx Entry.mk

/-- The events a callback was called with, in order. -/
def received (s : Bus) (id : ℕ) : List Entry :=
  (s.calls.filter fun call => call.1 = id).map (·.2)

/-- The event in the hands of the dispatcher that a subscription is still to be called with. -/
def Dispatcher.held : Dispatcher → Subscription → List Entry
  | .taken e, _ => [e]
  | .calling e left, sub => if sub ∈ left then [e] else []
  | _, _ => []

/-- The events a subscription is still to be called with, in order. -/
def awaited (s : Bus) (sub : Subscription) : List Entry :=
  (s.dispatcher.held sub ++ s.queue).filter fun e => sub.wants e.event

/-- The event was the oldest of the queue when `Publish` found it full. -/
def Dropped (tr : List (Bus × Event)) (e : Entry) : Prop :=
  ∃ x ∈ tr, (∃ event now, x.2 = .publish event now) ∧ kMaxQueueSize ≤ x.1.queue.length ∧
    x.1.queue.head? = some e

/-- An event for a subscription that was published after it is missing only if it was dropped. -/
def Complete (tr : List (Bus × Event)) (s : Bus) : Prop :=
  ∀ sub ∈ s.subscribers, ∀ e ∈ log s, sub.since ≤ e.position → sub.wants e.event = true →
    e ∈ received s sub.id ∨ e ∈ awaited s sub ∨ Dropped tr e

/-- What a subscription has received and is still to receive is a part of the log, also for one
that is still to be made. -/
structure Ordered (s : Bus) : Prop where
  ids : s.registered.Pairwise fun sub sub' => sub.id < sub'.id
  bounded : ∀ sub ∈ s.registered, sub.id < s.nextSubId
  subscribers : s.subscribers.Sublist s.registered
  left : ∀ e left, s.dispatcher = .calling e left → left.Sublist s.registered
  called : ∀ call ∈ s.calls, call.1 < s.nextSubId
  merged : ∀ sub, sub ∈ s.registered ∨ s.nextSubId ≤ sub.id →
    (received s sub.id ++ awaited s sub).Sublist ((log s).filter fun e => sub.wants e.event)

variable {s t : Bus} {e : Event} {tr : List (Bus × Event)}

theorem log_publish (s : Bus) (event : SystemEvent) (now : ℤ) :
    ∃ e : Entry, (s.publish event now).queue = put s.queue e ∧
      log (s.publish event now) = log s ++ [e] ∧
      e.position = s.published.length ∧ e.event.pluginId = event.pluginId := by
  refine ⟨_, rfl, ?_, rfl, ?_⟩
  · simp [log, Bus.publish]
  · by_cases ht : event.timestamp = 0
    · simp [ht]
    · simp [ht]

theorem log_nodup (s : Bus) : (log s).Nodup := by
  apply List.Nodup.of_map Entry.position
  have hm : (log s).map Entry.position = List.range s.published.length := by
    apply List.ext_getElem?
    intro i
    by_cases hi : i < s.published.length
    · simp [log, hi]
    · simp [log, hi]
  rw [hm]
  exact List.nodup_range

theorem position_lt {x : Entry} (h : x ∈ log s) : x.position < s.published.length := by
  obtain ⟨i, hi, rfl⟩ := List.mem_mapIdx.mp h
  exact hi

theorem awaited_publish (s : Bus) (event : SystemEvent) (now : ℤ) {e : Entry}
    (he : (s.publish event now).queue = put s.queue e) (sub : Subscription) :
    (awaited (s.publish event now) sub).Sublist
      (awaited s sub ++ [e].filter fun e => sub.wants e.event) := by
  have hq : (put s.queue e).Sublist (s.queue ++ [e]) := by
    by_cases hl : kMaxQueueSize ≤ s.queue.length
    · rw [put, if_pos hl]
      exact (List.tail_sublist _).append_right _
    · rw [put, if_neg hl]
  rw [awaited, awaited, ← List.filter_append, List.append_assoc, he]
  exact ((List.Sublist.refl _).append hq).filter _

theorem received_call (s : Bus) (e : Entry) (sub : Subscription) (left : List Subscription)
    (id : ℕ) : received (s.call e sub left) id =
      received s id ++ if sub.wants e.event ∧ sub.id = id then [e] else [] := by
  by_cases hw : sub.wants e.event
  · by_cases hid : sub.id = id
    · simp [received, Bus.call, hw, hid]
    · simp [received, Bus.call, hw, hid]
  · simp [received, Bus.call, hw]

namespace Ordered

theorem eq_of_id (hO : Ordered s) {sub sub' : Subscription} (h : sub ∈ s.registered)
    (h' : sub' ∈ s.registered ∨ s.nextSubId ≤ sub'.id) (hid : sub.id = sub'.id) : sub = sub' := by
  rcases h' with h' | h'
  · have hn : (s.registered.map (·.id)).Nodup :=
      List.pairwise_map.mpr (hO.ids.imp fun h => h.ne)
    exact List.inj_on_of_nodup_map hn h h' hid
  · exact absurd (hO.bounded sub h) (by omega)

theorem init : Ordered {} := by
  constructor
  · simp
  · simp
  · simp
  · simp
  · simp
  · simp [received, awaited, Dispatcher.held]

/-- The dispatcher moves the events on, in order. -/
theorem move (hO : Ordered s) {running : Bool} {queue : List Entry} {dispatcher : Dispatcher}
    (hl : ∀ e left, dispatcher = .calling e left → left.Sublist s.registered)
    (ha : ∀ sub, (dispatcher.held sub ++ queue).Sublist (s.dispatcher.held sub ++ s.queue)) :
    Ordered { s with running := running, queue := queue, dispatcher := dispatcher } := by
  refine ⟨hO.ids, hO.bounded, hO.subscribers, hl, hO.called, fun sub hsub => ?_⟩
  exact ((List.Sublist.refl _).append ((ha sub).filter _)).trans (hO.merged sub hsub)

theorem publish (hO : Ordered s) (event : SystemEvent) (now : ℤ) :
    Ordered (s.publish event now) := by
  refine ⟨hO.ids, hO.bounded, hO.subscribers, hO.left, hO.called, fun sub hsub => ?_⟩
  obtain ⟨e, he, hl, -⟩ := log_publish s event now
  have ha := awaited_publish s event now he sub
  have hm := (hO.merged sub hsub).append_right ([e].filter fun e => sub.wants e.event)
  rw [hl, List.filter_append]
  rw [List.append_assoc] at hm
  exact ((List.Sublist.refl _).append ha).trans hm

theorem subscribe (hO : Ordered s) (type : EventType) (matchAll : Bool) :
    Ordered (s.subscribe type matchAll) := by
  constructor
  · refine List.pairwise_append.mpr ⟨hO.ids, List.pairwise_singleton _ _, ?_⟩
    intro sub hsub sub' hsub'
    obtain rfl := List.mem_singleton.mp hsub'
    exact hO.bounded sub hsub
  · intro sub hsub
    rcases List.mem_append.mp hsub with hsub | hsub
    · exact (hO.bounded sub hsub).trans (Nat.lt_succ_self _)
    · obtain rfl := List.mem_singleton.mp hsub
      exact Nat.lt_succ_self _
  · exact hO.subscribers.append_right _
  · intro e left hd
    exact (hO.left e left hd).trans (List.sublist_append_left _ _)
  · intro call hcall
    exact (hO.called call hcall).trans (Nat.lt_succ_self _)
  · intro sub hsub
    apply hO.merged sub
    rcases hsub with hsub | hsub
    · rcases List.mem_append.mp hsub with hsub | hsub
      · exact .inl hsub
      · obtain rfl := List.mem_singleton.mp hsub
        exact .inr le_rfl
    · exact .inr ((Nat.le_succ _).trans hsub)

theorem call {x : Entry} {sub : Subscription} {left : List Subscription} (hO : Ordered s)
    (hd : s.dispatcher = .calling x (sub :: left)) : Ordered (s.call x sub left) := by
  have hl := hO.left x _ hd
  have hsub : sub ∈ s.registered := hl.subset List.mem_cons_self
  refine ⟨hO.ids, hO.bounded, hO.subscribers, ?_, ?_, fun sub' hsub' => ?_⟩
  · intro e left' hd'
    obtain ⟨rfl, rfl⟩ := Dispatcher.calling.inj hd'
    exact (List.sublist_cons_self sub left).trans hl
  · intro call hcall
    by_cases hw : sub.wants x.event
    · simp only [Bus.call, hw, if_true] at hcall
      rcases List.mem_append.mp hcall with hcall | hcall
      · exact hO.called call hcall
      · obtain rfl := List.mem_singleton.mp hcall
        exact hO.bounded sub hsub
    · simp only [Bus.call, hw] at hcall
      exact hO.called call hcall
  · refine List.Sublist.trans ?_ (hO.merged sub' hsub')
    rw [received_call, List.append_assoc]
    apply (List.Sublist.refl _).append
    -- the event moves from the dispatcher to the subscription that is called
    by_cases hid : sub.id = sub'.id
    · obtain rfl := hO.eq_of_id hsub hsub' hid
      have hnot : sub ∉ left := by
        intro hmem
        have hlt := (List.pairwise_cons.mp (hO.ids.sublist hl)).1 sub hmem
        omega
      by_cases hw : sub.wants x.event
      · simp [awaited, Bus.call, hd, Dispatcher.held, hnot, hw]
      · simp [awaited, Bus.call, hd, Dispatcher.held, hnot, hw]
    · have hne : sub' ≠ sub := fun h => hid (h ▸ rfl)
      simp [awaited, Bus.call, hd, Dispatcher.held, hid, hne]

end Ordered

theorem step_ordered (hO : Ordered s) (hs : step s e = some t) : Ordered t := by
  cases e with
  | start =>
    rcases start_cases hs with rfl | ⟨hd, rfl⟩
    · exact hO
    · exact hO.move (by simp) fun sub => by simp [hd, Dispatcher.held]
  | stop =>
    obtain rfl := Option.some.inj hs
    exact hO.move hO.left fun sub => .refl _
  | publish event now =>
    obtain rfl := Option.some.inj hs
    exact hO.publish event now
  | subscribe type matchAll =>
    obtain rfl := Option.some.inj hs
    exact hO.subscribe type matchAll
  | unsubscribe id =>
    obtain rfl := Option.some.inj hs
    exact ⟨hO.ids, hO.bounded, List.filter_sublist.trans hO.subscribers, hO.left, hO.called,
      hO.merged⟩
  | take =>
    obtain ⟨e, queue, hd, hq, rfl⟩ := take_cases hs
    exact hO.move (by simp) fun sub => by simp [hd, hq, Dispatcher.held]
  | copy =>
    obtain ⟨e, hd, rfl⟩ := copy_cases hs
    apply hO.move
    · rintro e' left hd'
      obtain ⟨rfl, rfl⟩ := Dispatcher.calling.inj hd'
      exact hO.subscribers
    · intro sub
      by_cases hm : sub ∈ s.subscribers
      · simp [hd, Dispatcher.held, hm]
      · simp [hd, Dispatcher.held, hm]
  | call =>
    rcases call_cases hs with ⟨e, hd, rfl⟩ | ⟨e, sub, left, hd, rfl⟩
    · exact hO.move (by simp) fun sub => by simp [hd, Dispatcher.held]
    · exact hO.call hd
  | leave =>
    obtain ⟨hd, rfl⟩ := leave_cases hs
    exact hO.move (by simp) fun sub => by simp [hd, Dispatcher.held]

theorem run_ordered (h : Run bus tr s) : Ordered s := by
  apply h.invariant
  · rintro s rfl
    exact Ordered.init
  · intro s e t hO hs
    exact step_ordered hO hs

theorem Dropped.append {x : Entry} (h : Dropped tr x) (tr' : List (Bus × Event)) :
    Dropped (tr ++ tr') x := by
  obtain ⟨y, hy, hp⟩ := h
  exact ⟨y, List.mem_append_left _ hy, hp⟩

theorem mem_awaited {sub : Subscription} {x : Entry} : x ∈ awaited s sub ↔
    (x ∈ s.dispatcher.held sub ∨ x ∈ s.queue) ∧ sub.wants x.event = true := by
  simp [awaited, or_and_right]

namespace Complete

theorem move (hC : Complete tr s) (e : Event) {running : Bool} {queue : List Entry}
    {dispatcher : Dispatcher} (ha : ∀ sub ∈ s.subscribers, ∀ x,
      x ∈ s.dispatcher.held sub ∨ x ∈ s.queue → x ∈ dispatcher.held sub ∨ x ∈ queue) :
    Complete (tr ++ [(s, e)])
      { s with running := running, queue := queue, dispatcher := dispatcher } := by
  intro sub hsub x hx hsince hw
  rcases hC sub hsub x hx hsince hw with h | h | h
  · exact .inl h
  · exact .inr (.inl (mem_awaited.mpr ⟨ha sub hsub x (mem_awaited.mp h).1, hw⟩))
  · exact .inr (.inr (h.append _))

theorem publish (hC : Complete tr s) (event : SystemEvent) (now : ℤ) :
    Complete (tr ++ [(s, .publish event now)]) (s.publish event now) := by
  intro sub hsub x hx hsince hw
  obtain ⟨e, he, hl, -⟩ := log_publish s event now
  rw [hl] at hx
  rw [mem_awaited, he]
  rcases List.mem_append.mp hx with hx | hx
  · rcases hC sub hsub x hx hsince hw with h | h | h
    · exact .inl h
    · rcases (mem_awaited.mp h).1 with hh | hq
      · exact .inr (.inl ⟨.inl hh, hw⟩)
      · by_cases hlen : kMaxQueueSize ≤ s.queue.length
        · rw [put, if_pos hlen]
          cases hs : s.queue with
          | nil => simp [hs] at hq
          | cons y queue =>
            rw [hs] at hq
            rcases List.mem_cons.mp hq with rfl | hq
            · refine .inr (.inr ⟨(s, .publish event now), by simp, ⟨event, now, rfl⟩, hlen, ?_⟩)
              simp [hs]
            · exact .inr (.inl ⟨.inr (by simp [hq]), hw⟩)
        · rw [put, if_neg hlen]
          exact .inr (.inl ⟨.inr (List.mem_append_left _ hq), hw⟩)
    · exact .inr (.inr (h.append _))
  · obtain rfl := List.mem_singleton.mp hx
    exact .inr (.inl ⟨.inr (by simp [put]), hw⟩)

theorem subscribe (hC : Complete tr s) (type : EventType) (matchAll : Bool) :
    Complete (tr ++ [(s, .subscribe type matchAll)]) (s.subscribe type matchAll) := by
  intro sub hsub x hx hsince hw
  rcases List.mem_append.mp hsub with hsub | hsub
  · exact (hC sub hsub x hx hsince hw).imp_right fun h => h.imp_right fun h => h.append _
  · obtain rfl := List.mem_singleton.mp hsub
    have hlt : x.position < s.published.length := position_lt hx
    exact absurd hsince hlt.not_ge

theorem unsubscribe (hC : Complete tr s) (id : ℕ) :
    Complete (tr ++ [(s, .unsubscribe id)]) (s.unsubscribe id) := by
  intro sub hsub x hx hsince hw
  exact (hC sub (List.mem_of_mem_filter hsub) x hx hsince hw).imp_right
    fun h => h.imp_right fun h => h.append _

theorem call {x : Entry} {sub : Subscription} {left : List Subscription} (hC : Complete tr s)
    (hd : s.dispatcher = .calling x (sub :: left)) :
    Complete (tr ++ [(s, .call)]) (s.call x sub left) := by
  intro sub' hsub y hy hsince hw
  rw [received_call, List.mem_append]
  rcases hC sub' hsub y hy hsince hw with h | h | h
  · exact .inl (.inl h)
  · rcases (mem_awaited.mp h).1 with hh | hq
    · by_cases hs : sub' = sub
      · subst sub'
        simp only [hd, Dispatcher.held, List.mem_cons_self, if_true] at hh
        obtain rfl := List.mem_singleton.mp hh
        exact .inl (.inr (by simp [hw]))
      · have hh' : y ∈ (Dispatcher.calling x left).held sub' := by
          simpa [hd, Dispatcher.held, hs] using hh
        exact .inr (.inl (mem_awaited.mpr ⟨.inl hh', hw⟩))
    · exact .inr (.inl (mem_awaited.mpr ⟨.inr hq, hw⟩))
  · exact .inr (.inr (h.append _))

end Complete

theorem step_complete (hC : Complete tr s) (hs : step s e = some t) :
    Complete (tr ++ [(s, e)]) t := by
  cases e with
  | start =>
    rcases start_cases hs with rfl | ⟨hd, rfl⟩
    · exact hC.move _ fun _ _ _ h => h
    · exact hC.move _ fun sub _ x h => by simpa [hd, Dispatcher.held] using h
  | stop =>
    obtain rfl := Option.some.inj hs
    exact hC.move _ fun _ _ _ h => h
  | publish event now =>
    obtain rfl := Option.some.inj hs
    exact hC.publish event now
  | subscribe type matchAll =>
    obtain rfl := Option.some.inj hs
    exact hC.subscribe type matchAll
  | unsubscribe id =>
    obtain rfl := Option.some.inj hs
    exact hC.unsubscribe id
  | take =>
    obtain ⟨e, queue, hd, hq, rfl⟩ := take_cases hs
    exact hC.move _ fun sub _ x h => by simpa [hd, hq, Dispatcher.held] using h
  | copy =>
    obtain ⟨e, hd, rfl⟩ := copy_cases hs
    exact hC.move _ fun sub hsub x h => by simpa [hd, Dispatcher.held, hsub] using h
  | call =>
    rcases call_cases hs with ⟨e, hd, rfl⟩ | ⟨e, sub, left, hd, rfl⟩
    · exact hC.move _ fun sub _ x h => by simpa [hd, Dispatcher.held] using h
    · exact hC.call hd
  | leave =>
    obtain ⟨hd, rfl⟩ := leave_cases hs
    exact hC.move _ fun sub _ x h => by simpa [hd, Dispatcher.held] using h

/-- Nothing published or called is forgotten. -/
theorem step_grows (hs : step s e = some t) : log s ⊆ log t ∧ s.calls ⊆ t.calls := by
  cases e with
  | start =>
    rcases start_cases hs with rfl | ⟨-, rfl⟩
    · exact ⟨List.Subset.refl _, List.Subset.refl _⟩
    · exact ⟨List.Subset.refl _, List.Subset.refl _⟩
  | publish event now =>
    obtain rfl := Option.some.inj hs
    obtain ⟨x, -, hl, -⟩ := log_publish s event now
    rw [hl]
    exact ⟨List.subset_append_left _ _, List.Subset.refl _⟩
  | take =>
    obtain ⟨-, -, -, -, rfl⟩ := take_cases hs
    exact ⟨List.Subset.refl _, List.Subset.refl _⟩
  | copy =>
    obtain ⟨-, -, rfl⟩ := copy_cases hs
    exact ⟨List.Subset.refl _, List.Subset.refl _⟩
  | call =>
    rcases call_cases hs with ⟨-, -, rfl⟩ | ⟨x, sub, left, -, rfl⟩
    · exact ⟨List.Subset.refl _, List.Subset.refl _⟩
    · refine ⟨List.Subset.refl _, ?_⟩
      by_cases hw : sub.wants x.event
      · simp [Bus.call, hw]
      · simp [Bus.call, hw]
  | leave =>
    obtain ⟨-, rfl⟩ := leave_cases hs
    exact ⟨List.Subset.refl _, List.Subset.refl _⟩
  | _ =>
    obtain rfl := Option.some.inj hs
    exact ⟨List.Subset.refl _, List.Subset.refl _⟩

theorem log_position {x y : Entry} (hx : x ∈ log s) (hy : y ∈ log s)
    (h : x.position = y.position) : x = y := by
  obtain ⟨i, hi, rfl⟩ := List.mem_mapIdx.mp hx
  obtain ⟨j, hj, rfl⟩ := List.mem_mapIdx.mp hy
  obtain rfl : i = j := h
  rfl

theorem run_complete (h : Run bus tr s) : Complete tr s := by
  induction h with
  | init h =>
    obtain rfl := h
    simp [Complete]
  | step _ hs ih => exact step_complete ih hs

/-- A subscriber receives a part of what was published for it, in order and each event once, and an
event is missing only where the queue was full. -/
theorem delivery_refines_log (h : Run bus tr s) :
    (∀ sub ∈ s.registered, (received s sub.id).Nodup ∧
      (received s sub.id ++ awaited s sub).Sublist ((log s).filter fun e => sub.wants e.event)) ∧
    Complete tr s := by
  refine ⟨fun sub hsub => ?_, run_complete h⟩
  have hm := (run_ordered h).merged sub (.inl hsub)
  have hr := (List.sublist_append_left _ _).trans (hm.trans List.filter_sublist)
  exact ⟨hr.nodup (log_nodup s), hm⟩

end Delivery

namespace Counterexample

def changed : SystemEvent := ⟨.kNetworkChanged, [], [], .null, 1, []⟩

theorem execute_step (s : Bus) (e : Event) (t : Bus) (h : step s e = some t) : bus.Step s e t := h

/-- Two subscribers receive two events, before and after the first one is removed. -/
theorem two_received : ∃ tr s, Run bus tr s ∧ s.registered.length = 2 ∧ Complete tr s ∧
    (∀ sub ∈ s.registered, (received s sub.id).Nodup ∧
      (received s sub.id ++ awaited s sub).Sublist ((log s).filter fun e => sub.wants e.event)) ∧
    (received s 1).map (·.position) = [0] ∧ (received s 2).map (·.position) = [0, 1] := by
  obtain ⟨tr, s, h, hp⟩ := Run.of_execute (M := bus) execute_step rfl
    [.start, .subscribe .kNetworkChanged false, .subscribe .kCustom true, .publish changed 5,
      .publish changed 5, .take, .copy, .call, .call, .call, .unsubscribe 1, .take, .copy, .call,
      .call]
    (fun _ s => s.registered.length = 2 ∧ (received s 1).map (·.position) = [0] ∧
      (received s 2).map (·.position) = [0, 1]) (by decide)
  obtain ⟨hl, h1, h2⟩ := of_decide_eq_true hp
  have hd := delivery_refines_log h
  exact ⟨tr, s, h, hl, hd.2, hd.1, h1, h2⟩

/-- The callback is removed after its last call. -/
theorem removed_after : ∃ tr s, Run bus tr s ∧ s.removed = [1] ∧ s.calls.length = 1 ∧
    ∀ x ∈ tr, Silent x.1 x.2 := by
  obtain ⟨tr, s, h, hp⟩ := Run.of_execute (M := bus) execute_step rfl
    [.start, .subscribe .kNetworkChanged false, .publish changed 5, .take, .copy, .call,
      .unsubscribe 1, .publish changed 5, .call, .take, .copy, .call]
    (fun tr s => s.removed = [1] ∧ s.calls.length = 1 ∧ ∀ x ∈ tr, Quiet x.1 x.2) (by decide)
  obtain ⟨hr, hl, hq⟩ := of_decide_eq_true hp
  exact ⟨tr, s, h, hr, hl, removed_silent h hq⟩

/-- The dispatcher has copied the subscribers when one is removed, and calls it. -/
theorem removed_called :
    ¬ ∀ tr (s : Bus), Run bus tr s → ∀ x ∈ tr, Silent x.1 x.2 := by
  intro hall
  obtain ⟨tr, s, h, hp⟩ := Run.of_execute (M := bus) execute_step rfl
    [.start, .subscribe .kNetworkChanged false, .publish changed 5, .take, .copy, .unsubscribe 1,
      .call]
    (fun tr _ => ∃ x ∈ tr, ¬ Silent x.1 x.2) (by decide)
  obtain ⟨x, hx, hn⟩ := of_decide_eq_true hp
  exact hn (hall tr s h x hx)

end Counterexample

end EventDispatch
