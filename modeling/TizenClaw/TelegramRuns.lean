import TizenClaw.JsonRoundTrip
import TizenClaw.TelegramPolling

/-! Runs of the Telegram client against its server: every update is gone over once and in order, none
is forgotten that was not gone over, and the handlers stay within their number. -/
namespace TelegramPolling

open ByteString JsonValue JsonDump JsonRoundTrip TransitionSystem

variable {truncate : NumberText → ℤ} {allowed : List ℤ} {s t : State truncate}
  {u : Update truncate} {rest : List (Update truncate)}

/-- A batch is read from the answer that the server puts it in. -/
theorem readResult_answer {readFloat : Bytes → Option NumberText} {items : List Json}
    (h : StorableList readFloat items) :
    readResult readFloat (render id compact 0
      (.obj [(bytes "ok", .bool true), (bytes "result", .arr items)])) = .ok (some items) := by
  have hkeys : KeysSorted [(bytes "ok", Json.bool true), (bytes "result", .arr items)] := by
    refine List.pairwise_cons.mpr ⟨?_, List.pairwise_singleton _ _⟩
    intro x hx
    obtain rfl := List.mem_singleton.mp hx
    show bytes "ok" < bytes "result"
    decide
  have hok : Utf8.valid (bytes "ok") = true := by decide
  have hresult : Utf8.valid (bytes "result") = true := by decide
  have hstorable : Storable readFloat
      (.obj [(bytes "ok", .bool true), (bytes "result", .arr items)]) :=
    ⟨hkeys, hok, trivial, hresult, h, trivial⟩
  have hparse := parse_render whiteLayout_compact hstorable 0 white_nil white_nil
  rw [List.nil_append, List.append_nil] at hparse
  rw [readResult, hparse]
  rfl

section Moves

/-- What a step can do, and when. -/
inductive Moves (allowed : List ℤ) (s : State truncate) : Event truncate → State truncate → Prop where
  | arrive (u : Update truncate) (hpos : 0 < u.id) (hu : ∀ v ∈ s.sent, v.id < u.id) :
      Moves allowed s (.arrive u) { s with sent := s.sent ++ [u] }
  | leave (reached : Bool) (count : ℕ) (hrun : s.running = false) :
      Moves allowed s (.request reached count) { s with place := .stopped }
  | ask (count : ℕ) : Moves allowed s (.request true count) { s with
      confirmed := max s.confirmed s.updateOffset
      place := .waiting (some ((s.unconfirmed (max s.confirmed s.updateOffset)).take count)) }
  | miss (count : ℕ) : Moves allowed s (.request false count) { s with place := .waiting none }
  | receive (batch : List (Update truncate)) (hp : s.place = .waiting (some batch))
      (hrun : s.running = true) :
      Moves allowed s .receive { s with place := .items batch, conflictBackoffSec := 5 }
  | ignore (hrun : s.running = false) : Moves allowed s .receive { s with place := .stopped }
  | conflict :
      Moves allowed s .conflict (s.back s.conflictBackoffSec (min (s.conflictBackoffSec * 2) 60))
  | failure : Moves allowed s .failure (s.back 5 5)
  | unusable : Moves allowed s .unusable (s.back 5 5)
  | done (hp : s.place = .items []) : Moves allowed s .item { s with place := .polling }
  | item (u : Update truncate) (rest : List (Update truncate)) (hp : s.place = .items (u :: rest)) :
      Moves allowed s .item (s.consider allowed u rest)
  | start (u : Update truncate) (chatId : ℤ) (text : Bytes) (rest : List (Update truncate))
      (hp : s.place = .starting u chatId text rest) : Moves allowed s .start { s with
        activeHandlers := s.activeHandlers + 1
        started := s.started ++ [(u, chatId, text)]
        place := .items rest }
  | finish (hpos : 0 < s.activeHandlers) :
      Moves allowed s .finish { s with activeHandlers := s.activeHandlers - 1 }
  | wake (seconds : ℕ) (hp : s.place = .sleeping seconds) :
      Moves allowed s .wake { s with place := .polling }
  | stop : Moves allowed s .stop { s with running := false }
  | resume (hp : s.place = .stopped) :
      Moves allowed s .resume { s with running := true, place := .polling }
  | restart : Moves allowed s .restart
      { sent := s.sent, confirmed := s.confirmed, base := s.confirmed
        past := s.past ++ s.considered }

theorem step_moves {e : Event truncate} (hs : step allowed s e = some t) : Moves allowed s e t := by
  cases e with
  | arrive u =>
    simp only [step] at hs
    split_ifs at hs with hu
    obtain rfl := Option.some.inj hs
    exact .arrive u hu.1 hu.2
  | request reached count =>
    simp only [step] at hs
    split at hs
    · split_ifs at hs with hrun hreached
      · obtain rfl := Option.some.inj hs
        exact .leave reached count hrun
      · obtain rfl := Option.some.inj hs
        obtain rfl := hreached
        exact .ask count
      · obtain rfl := Option.some.inj hs
        obtain rfl := Bool.eq_false_of_not_eq_true hreached
        exact .miss count
    · cases hs
  | receive =>
    simp only [step] at hs
    split at hs
    next batch hp =>
      obtain rfl := Option.some.inj hs
      split_ifs with hrun
      · exact .receive batch hp hrun
      · exact .ignore (Bool.eq_false_of_not_eq_true hrun)
    · cases hs
  | conflict =>
    simp only [step] at hs
    split at hs
    · obtain rfl := Option.some.inj hs
      exact .conflict
    · cases hs
  | failure =>
    simp only [step] at hs
    split at hs
    · obtain rfl := Option.some.inj hs
      exact .failure
    · cases hs
  | unusable =>
    simp only [step] at hs
    split at hs
    · obtain rfl := Option.some.inj hs
      exact .unusable
    · cases hs
  | item =>
    simp only [step] at hs
    split at hs
    next hp =>
      obtain rfl := Option.some.inj hs
      exact .done hp
    next u rest hp =>
      obtain rfl := Option.some.inj hs
      exact .item u rest hp
    · cases hs
  | start =>
    simp only [step] at hs
    split at hs
    next u chatId text rest hp =>
      obtain rfl := Option.some.inj hs
      exact .start u chatId text rest hp
    · cases hs
  | finish =>
    simp only [step] at hs
    split_ifs at hs with hpos
    obtain rfl := Option.some.inj hs
    exact .finish hpos
  | wake =>
    simp only [step] at hs
    split at hs
    next seconds hp =>
      obtain rfl := Option.some.inj hs
      exact .wake seconds hp
    · cases hs
  | stop =>
    obtain rfl := Option.some.inj hs
    exact .stop
  | resume =>
    simp only [step] at hs
    split at hs
    next hp =>
      obtain rfl := Option.some.inj hs
      exact .resume hp
    · cases hs
  | restart =>
    obtain rfl := Option.some.inj hs
    exact .restart

end Moves

section Updates

/-- Ids grow in the order of sending. -/
def Ordered (l : List (Update truncate)) : Prop := l.Pairwise fun a b => a.id < b.id

/-- What the polling thread still has of a batch. -/
def Place.left : Place truncate → List (Update truncate)
  | .waiting (some batch) => batch
  | .items rest => rest
  | .starting _ _ _ rest => rest
  | _ => []

/-- The offset from which on the server's updates are new to the client. -/
def State.front (s : State truncate) : ℤ := max s.base s.updateOffset

structure Consistent (s : State truncate) : Prop where
  ordered : Ordered s.sent
  considered : s.considered = s.sent.filter fun u => s.base ≤ u.id ∧ u.id < s.updateOffset
  confirmed : s.base ≤ s.confirmed ∧ s.confirmed ≤ s.front
  left : s.place.left <+: s.unconfirmed s.front
  past : ∀ u ∈ s.sent, u.id < s.base → u ∈ s.past
  bound : ∀ id, 0 < id → (∀ v ∈ s.sent, v.id < id) → s.front ≤ id
  nonneg : 0 ≤ s.base

theorem Consistent.of_place (h : Consistent s) (ht : t.sent = s.sent)
    (hc : t.confirmed = s.confirmed) (ho : t.updateOffset = s.updateOffset)
    (hk : t.considered = s.considered) (hp : t.past = s.past) (hb : t.base = s.base)
    (hr : t.place.left <+: s.place.left) : Consistent t := by
  have hf : t.front = s.front := by rw [State.front, State.front, hb, ho]
  have hu : t.unconfirmed = s.unconfirmed := by
    funext o
    rw [State.unconfirmed, State.unconfirmed, ht]
  refine ⟨ht ▸ h.ordered, ?_, ?_, ?_, ?_, ?_, hb ▸ h.nonneg⟩
  · rw [hk, h.considered, ht, hb, ho]
  · rw [hb, hc, hf]
    exact h.confirmed
  · rw [hu, hf]
    exact hr.trans h.left
  · rw [ht, hb, hp]
    exact h.past
  · rw [ht, hf]
    exact h.bound

/-- A sorted list is what lies below an id and then the rest. -/
theorem ordered_split {l : List (Update truncate)} (hl : Ordered l) (lo : ℤ) :
    l.filter (fun v => v.id < lo) ++ l.filter (fun v => lo ≤ v.id) = l := by
  induction l with
  | nil => rfl
  | cons v l ih =>
    rw [Ordered, List.pairwise_cons] at hl
    by_cases hv : v.id < lo
    · rw [List.filter_cons_of_pos (by simpa using hv), List.filter_cons_of_neg (by simpa using hv),
        List.cons_append, ih hl.2]
    · have hnone : l.filter (fun w => w.id < lo) = [] := by
        apply List.filter_eq_nil_iff.mpr
        intro w hw
        have := hl.1 w hw
        simp only [decide_eq_true_eq]
        omega
      have hall : l.filter (fun w => lo ≤ w.id) = l := by
        apply List.filter_eq_self.mpr
        intro w hw
        have := hl.1 w hw
        simp only [decide_eq_true_eq]
        omega
      rw [List.filter_cons_of_neg (by simpa using hv), hnone,
        List.filter_cons_of_pos (by simpa using hv), hall, List.nil_append]

/-- The first update from an offset on, between those below and those behind. -/
theorem split_first {l : List (Update truncate)} (hl : Ordered l) {lo : ℤ}
    (hfirst : l.filter (fun v => lo ≤ v.id) = u :: rest) :
    ∃ below, l = below ++ u :: rest ∧ (∀ v ∈ below, v.id < lo) ∧ lo ≤ u.id ∧
      ∀ v ∈ rest, u.id < v.id := by
  have hsplit := ordered_split hl lo
  rw [hfirst] at hsplit
  refine ⟨_, hsplit.symm, ?_, ?_, ?_⟩
  · intro v hv
    simpa using (List.mem_filter.mp hv).2
  · have hm : u ∈ l.filter (fun v => lo ≤ v.id) := hfirst ▸ List.mem_cons_self
    simpa using (List.mem_filter.mp hm).2
  · have hsorted : Ordered (u :: rest) := hfirst ▸ hl.filter _
    exact (List.pairwise_cons.mp hsorted).1

theorem filter_all {l : List (Update truncate)} {p : Update truncate → Bool}
    (h : ∀ v ∈ l, p v = true) : l.filter p = l := List.filter_eq_self.mpr h

theorem filter_none {l : List (Update truncate)} {p : Update truncate → Bool}
    (h : ∀ v ∈ l, p v = false) : l.filter p = [] :=
  List.filter_eq_nil_iff.mpr fun v hv => by simp [h v hv]

/-- Going over the first update that is left. -/
theorem Consistent.consider (h : Consistent s) (hp : s.place.left = u :: rest)
    (ht : t.sent = s.sent) (hc : t.confirmed = s.confirmed) (ho : t.updateOffset = u.id + 1)
    (hk : t.considered = s.considered ++ [u]) (hpast : t.past = s.past) (hb : t.base = s.base)
    (hr : t.place.left <+: rest) : Consistent t := by
  obtain ⟨more, hmore⟩ := h.left
  rw [hp, List.cons_append] at hmore
  obtain ⟨below, hsent, hbelow, hlo, hbehind⟩ := split_first h.ordered hmore.symm
  have hbase : s.base ≤ u.id := (le_max_left _ _).trans hlo
  have hfront : t.front = u.id + 1 := by
    rw [State.front, hb, ho]
    omega
  refine ⟨ht ▸ h.ordered, ?_, ?_, ?_, ?_, ?_, hb ▸ h.nonneg⟩
  · have hold : s.considered = below.filter fun v => s.base ≤ v.id ∧ v.id < s.updateOffset := by
      rw [h.considered, hsent, List.filter_append, filter_none (l := u :: (rest ++ more)),
        List.append_nil]
      intro v hv
      have hge : s.updateOffset ≤ v.id := by
        have hou : s.updateOffset ≤ u.id := (le_max_right _ _).trans hlo
        rcases List.mem_cons.mp hv with rfl | hv
        · exact hou
        · exact hou.trans (hbehind v hv).le
      simp only [decide_eq_false_iff_not]
      omega
    rw [hk, ht, hb, ho, hold, hsent, List.filter_append, List.filter_cons_of_pos (by simpa using hbase),
      filter_none (l := rest ++ more)]
    · congr 1
      apply List.filter_congr
      intro v hv
      have hv' := hbelow v hv
      rw [decide_eq_decide]
      unfold State.front at hv'
      constructor
      · intro hin
        have := hlo
        unfold State.front at this
        omega
      · intro hin
        rcases lt_max_iff.mp hv' with hlt | hlt
        · omega
        · exact ⟨hin.1, hlt⟩
    · intro v hv
      have := hbehind v hv
      simp only [decide_eq_false_iff_not]
      omega
  · have hconf := h.confirmed
    have : s.front ≤ u.id := hlo
    rw [hb, hc, hfront]
    omega
  · rw [hfront]
    have hnext : t.unconfirmed (u.id + 1) = rest ++ more := by
      rw [State.unconfirmed, ht, hsent, List.filter_append, filter_none (l := below),
        List.filter_cons_of_neg (by simp), filter_all (l := rest ++ more), List.nil_append]
      · intro v hv
        have := hbehind v hv
        simp only [decide_eq_true_eq]
        omega
      · intro v hv
        have := hbelow v hv
        simp only [decide_eq_false_iff_not]
        omega
    rw [hnext]
    exact hr.trans (List.prefix_append rest more)
  · rw [ht, hb, hpast]
    exact h.past
  · intro id _ hid
    have hu : u ∈ t.sent := by
      rw [ht, hsent]
      exact List.mem_append_right _ List.mem_cons_self
    have := hid u hu
    omega

theorem Consistent.back (h : Consistent s) (seconds backoff : ℕ) :
    Consistent (s.back seconds backoff) := by
  unfold State.back
  split_ifs
  · exact h.of_place rfl rfl rfl rfl rfl rfl List.nil_prefix
  · exact h.of_place rfl rfl rfl rfl rfl rfl List.nil_prefix

/-- Looking into an item moves the place, whatever is found. -/
theorem consider_left (s : State truncate) (u : Update truncate) (rest : List (Update truncate)) :
    (s.consider allowed u rest).place.left <+: rest := by
  unfold State.consider
  dsimp only
  split
  · exact List.nil_prefix
  · exact List.prefix_refl rest
  · split_ifs
    · exact List.prefix_refl rest
    · exact List.prefix_refl rest

theorem consider_fields (allowed : List ℤ) (s : State truncate) (u : Update truncate)
    (rest : List (Update truncate)) :
    let t := s.consider allowed u rest
    t.sent = s.sent ∧ t.confirmed = s.confirmed ∧ t.updateOffset = u.id + 1 ∧
      t.considered = s.considered ++ [u] ∧ t.past = s.past ∧ t.base = s.base ∧
      t.started = s.started ∧ t.activeHandlers = s.activeHandlers ∧ t.running = s.running ∧
      t.conflictBackoffSec = s.conflictBackoffSec := by
  unfold State.consider
  dsimp only
  split
  · exact ⟨rfl, rfl, rfl, rfl, rfl, rfl, rfl, rfl, rfl, rfl⟩
  · exact ⟨rfl, rfl, rfl, rfl, rfl, rfl, rfl, rfl, rfl, rfl⟩
  · split_ifs
    · exact ⟨rfl, rfl, rfl, rfl, rfl, rfl, rfl, rfl, rfl, rfl⟩
    · exact ⟨rfl, rfl, rfl, rfl, rfl, rfl, rfl, rfl, rfl, rfl⟩

theorem Consistent.arrive (h : Consistent s) (hpos : 0 < u.id) (hu : ∀ v ∈ s.sent, v.id < u.id) :
    Consistent { s with sent := s.sent ++ [u] } := by
  have hfront : s.front ≤ u.id := h.bound u.id hpos hu
  have hoff : s.updateOffset ≤ u.id := (le_max_right _ _).trans hfront
  have hbase : s.base ≤ u.id := (le_max_left _ _).trans hfront
  refine ⟨?_, ?_, h.confirmed, ?_, ?_, ?_, h.nonneg⟩
  · refine List.pairwise_append.mpr ⟨h.ordered, List.pairwise_singleton _ _, ?_⟩
    intro v hv w hw
    obtain rfl := List.mem_singleton.mp hw
    exact hu v hv
  · rw [h.considered, List.filter_append, filter_none (l := [u]), List.append_nil]
    intro v hv
    obtain rfl := List.mem_singleton.mp hv
    simp only [decide_eq_false_iff_not]
    omega
  · have hsent : State.unconfirmed { s with sent := s.sent ++ [u] } s.front =
        s.unconfirmed s.front ++ [u] := by
      rw [State.unconfirmed, List.filter_append, filter_all (l := [u])]
      · rfl
      · intro v hv
        obtain rfl := List.mem_singleton.mp hv
        simpa using hfront
    exact h.left.trans (hsent ▸ List.prefix_append _ _)
  · intro v hv hlt
    rcases List.mem_append.mp hv with hv | hv
    · exact h.past v hv hlt
    · obtain rfl := List.mem_singleton.mp hv
      exact absurd hlt (not_lt.mpr hbase)
  · intro id hid hall
    exact h.bound id hid fun v hv => hall v (List.mem_append_left _ hv)

/-- The server forgets what lies below the offset, and sends some of the rest. -/
theorem Consistent.request (h : Consistent s) (count : ℕ) :
    Consistent { s with
      confirmed := max s.confirmed s.updateOffset
      place := .waiting (some ((s.unconfirmed (max s.confirmed s.updateOffset)).take count)) } := by
  obtain ⟨hlo, hhi⟩ := h.confirmed
  have hmax : max s.confirmed s.updateOffset = s.front := by
    unfold State.front at hhi ⊢
    omega
  refine ⟨h.ordered, h.considered, ?_, ?_, h.past, h.bound, h.nonneg⟩
  · dsimp only
    rw [hmax]
    exact ⟨le_max_left _ _, le_refl _⟩
  · dsimp only [Place.left]
    rw [hmax]
    exact List.take_prefix count _

theorem Consistent.restart (h : Consistent s) : Consistent
    { sent := s.sent, confirmed := s.confirmed, base := s.confirmed
      past := s.past ++ s.considered : State truncate } := by
  have hnonneg : 0 ≤ s.confirmed := h.nonneg.trans h.confirmed.1
  refine ⟨h.ordered, ?_, ⟨le_refl _, le_max_left _ _⟩, List.nil_prefix, ?_, ?_, hnonneg⟩
  · refine (filter_none fun v _ => ?_).symm
    simp only [decide_eq_false_iff_not]
    omega
  · intro v hv hlt
    dsimp only at hlt
    by_cases hbase : v.id < s.base
    · exact List.mem_append_left _ (h.past v hv hbase)
    · apply List.mem_append_right
      rw [h.considered, List.mem_filter]
      refine ⟨hv, ?_⟩
      have := h.confirmed.2
      unfold State.front at this
      simp only [decide_eq_true_eq]
      omega
  · intro id hid hall
    have := h.confirmed.2.trans (h.bound id hid hall)
    exact max_le this hid.le

theorem consistent_step {e : Event truncate} (h : Consistent s) (hs : step allowed s e = some t) :
    Consistent t := by
  cases step_moves hs with
  | arrive u hpos hu => exact h.arrive hpos hu
  | leave | miss | ignore | done | wake | resume =>
    exact h.of_place rfl rfl rfl rfl rfl rfl List.nil_prefix
  | ask count => exact h.request count
  | receive batch hp hrun =>
    exact h.of_place rfl rfl rfl rfl rfl rfl (by rw [hp]; exact List.prefix_refl batch)
  | conflict | failure | unusable => exact h.back _ _
  | item u rest hp =>
    obtain ⟨h1, h2, h3, h4, h5, h6, -⟩ := consider_fields allowed s u rest
    exact h.consider (by rw [hp]; rfl) h1 h2 h3 h4 h5 h6 (consider_left s u rest)
  | start u chatId text rest hp =>
    exact h.of_place rfl rfl rfl rfl rfl rfl (by rw [hp]; exact List.prefix_refl rest)
  | finish | stop => exact h.of_place rfl rfl rfl rfl rfl rfl (List.prefix_refl _)
  | restart => exact h.restart

theorem consistent_initial : Consistent ({} : State truncate) := by
  refine ⟨List.Pairwise.nil, rfl, ⟨le_refl _, le_max_left _ _⟩, List.nil_prefix, ?_, ?_, le_refl _⟩
  · intro v hv
    cases hv
  · intro id hid _
    exact max_le hid.le hid.le

theorem consistent_run {tr : List (State truncate × Event truncate)}
    (hr : Run (telegram allowed) tr s) : Consistent s := by
  apply hr.invariant
  · rintro s rfl
    exact consistent_initial
  · intro s e t h hs
    exact consistent_step h hs

/-- A message of a chat. -/
def sampleUpdate (n : ℕ) : Update fun _ => 0 where
  item := .obj [
    (bytes "message", .obj [
      (bytes "chat", .obj [(bytes "id", .int 5)]),
      (bytes "text", .str (bytes "hi"))]),
    (bytes "update_id", .int (n + 1 : ℕ))]
  id := ((n + 1 : ℕ) : ℤ).bmod (2 ^ 64)
  updateId_eq := rfl

/-- Four messages at once are one more than the handlers that may run. -/
def sampleEvents : List (Event fun _ => 0) :=
  (List.range 4).map (fun n => .arrive (sampleUpdate n)) ++
    [.request true 4, .receive, .item, .start, .item, .start, .item, .start, .item, .item,
      .request true 4]

end Updates

section Handlers

/-- The handler that the polling thread is about to start. -/
def Place.next : Place truncate → List (Update truncate × ℤ × Bytes)
  | .starting u chatId text _ => [(u, chatId, text)]
  | _ => []

structure Capped (allowed : List ℤ) (s : State truncate) : Prop where
  count : s.activeHandlers + s.place.next.length ≤ kMaxConcurrentHandlers
  order : ((s.started ++ s.place.next).map Prod.fst).Sublist s.considered
  read : ∀ x ∈ s.started ++ s.place.next, readMessage truncate allowed x.1.item = .ok (some x.2)

/-- A step that starts nothing. -/
theorem Capped.of_place (h : Capped allowed s) (hn : t.place.next = [])
    (ha : t.activeHandlers ≤ s.activeHandlers) (hs : t.started = s.started)
    (hc : s.considered.Sublist t.considered) : Capped allowed t := by
  refine ⟨?_, ?_, ?_⟩
  · rw [hn, List.length_nil]
    have := h.count
    omega
  · rw [hn, List.append_nil, hs]
    refine List.Sublist.trans ?_ (h.order.trans hc)
    exact (List.sublist_append_left _ _).map _
  · rw [hn, List.append_nil, hs]
    exact fun x hx => h.read x (List.mem_append_left _ hx)

theorem Capped.same (h : Capped allowed s) (hn : t.place = s.place)
    (ha : t.activeHandlers ≤ s.activeHandlers) (hs : t.started = s.started)
    (hc : t.considered = s.considered) : Capped allowed t := by
  refine ⟨?_, ?_, ?_⟩
  · rw [hn]
    have := h.count
    omega
  · rw [hn, hs, hc]
    exact h.order
  · rw [hn, hs]
    exact h.read

theorem Capped.consider (h : Capped allowed s) (hn : s.place.next = []) (u : Update truncate)
    (rest : List (Update truncate)) : Capped allowed (s.consider allowed u rest) := by
  have hgrow : s.considered.Sublist (s.considered ++ [u]) := List.sublist_append_left _ _
  unfold State.consider
  dsimp only
  split
  · exact h.of_place rfl (le_refl _) rfl hgrow
  · exact h.of_place rfl (le_refl _) rfl hgrow
  next chatId text hread =>
    split_ifs with hmax
    · exact h.of_place rfl (le_refl _) rfl hgrow
    · rw [not_le] at hmax
      have horder := h.order
      have hold := h.read
      rw [hn, List.append_nil] at horder hold
      refine ⟨hmax, ?_, ?_⟩
      · simp only [Place.next, List.map_append, List.map_singleton]
        exact horder.append (List.Sublist.refl [u])
      · intro x hx
        rcases List.mem_append.mp hx with hx | hx
        · exact hold x hx
        · obtain rfl := List.mem_singleton.mp hx
          exact hread

theorem capped_back (h : Capped allowed s) (seconds backoff : ℕ) :
    Capped allowed (s.back seconds backoff) := by
  unfold State.back
  split_ifs
  · exact h.of_place rfl (le_refl _) rfl (List.Sublist.refl _)
  · exact h.of_place rfl (le_refl _) rfl (List.Sublist.refl _)

theorem capped_step {e : Event truncate} (h : Capped allowed s) (hs : step allowed s e = some t) :
    Capped allowed t := by
  cases step_moves hs with
  | arrive | stop => exact h.same rfl (le_refl _) rfl rfl
  | leave | ask | miss | receive | ignore | done | wake | resume =>
    exact h.of_place rfl (le_refl _) rfl (List.Sublist.refl _)
  | conflict | failure | unusable => exact capped_back h _ _
  | item u rest hp => exact h.consider (by rw [hp]; rfl) u rest
  | start u chatId text rest hp =>
    have hnext : s.place.next = [(u, chatId, text)] := by rw [hp]; rfl
    obtain ⟨hcount, horder, hread⟩ := h
    rw [hnext] at hcount horder hread
    exact ⟨hcount, (List.append_nil _).symm ▸ horder, (List.append_nil _).symm ▸ hread⟩
  | finish hpos => exact h.same rfl (Nat.sub_le _ _) rfl rfl
  | restart => exact ⟨Nat.zero_le _, List.Sublist.refl _, fun x hx => by cases hx⟩

theorem readMessage_admits {item : Json} {chatId : ℤ} {text : Bytes}
    (h : readMessage truncate allowed item = .ok (some (chatId, text))) :
    text ≠ [] ∧ chatId ≠ 0 ∧ (allowed = [] ∨ chatId ∈ allowed) := by
  unfold readMessage at h
  split at h
  · cases h
  · split at h
    · obtain ⟨t, -, h⟩ := bind_eq_ok.mp h
      obtain ⟨c, -, h⟩ := bind_eq_ok.mp h
      have hsome := Except.ok.inj h
      split_ifs at hsome with hempty hblocked
      obtain ⟨rfl, rfl⟩ := Prod.mk.inj (Option.some.inj hsome)
      rw [not_or] at hempty
      refine ⟨hempty.1, hempty.2, ?_⟩
      by_contra hno
      rw [not_or] at hno
      exact hblocked hno
    · cases h

end Handlers

section Backoff

/-- The conflicts that a running client has met since its last other answer. -/
def conflictsInRow (tr : List (State truncate × Event truncate)) : ℕ :=
  tr.foldl (fun n x => match x.2 with
    | .conflict => if x.1.running then n + 1 else n
    | .receive | .failure | .unusable => if x.1.running then 0 else n
    | .restart => 0
    | _ => n) 0

theorem conflictsInRow_snoc (tr : List (State truncate × Event truncate)) (s : State truncate)
    (e : Event truncate) : conflictsInRow (tr ++ [(s, e)]) = match e with
      | .conflict => if s.running then conflictsInRow tr + 1 else conflictsInRow tr
      | .receive | .failure | .unusable => if s.running then 0 else conflictsInRow tr
      | .restart => 0
      | _ => conflictsInRow tr := by
  rw [conflictsInRow, List.foldl_append]
  rfl

theorem back_backoff (s : State truncate) (seconds backoff : ℕ) :
    (s.back seconds backoff).conflictBackoffSec =
      if s.running then backoff else s.conflictBackoffSec := by
  unfold State.back
  split_ifs <;> rfl

theorem min_double (n : ℕ) : min (min (5 * 2 ^ n) 60 * 2) 60 = min (5 * 2 ^ (n + 1)) 60 := by
  have : 5 * 2 ^ (n + 1) = 5 * 2 ^ n * 2 := by ring
  omega

theorem backoff_step {e : Event truncate} {tr : List (State truncate × Event truncate)}
    (h : s.conflictBackoffSec = min (5 * 2 ^ conflictsInRow tr) 60)
    (hs : step allowed s e = some t) :
    t.conflictBackoffSec = min (5 * 2 ^ conflictsInRow (tr ++ [(s, e)])) 60 := by
  rw [conflictsInRow_snoc]
  cases step_moves hs with
  | arrive | leave | ask | miss | done | start | finish | wake | stop | resume => exact h
  | receive batch hp hrun =>
    rw [hrun]
    rfl
  | ignore hrun =>
    rw [hrun]
    exact h
  | conflict =>
    rw [back_backoff]
    split_ifs
    · rw [h]
      exact min_double _
    · exact h
  | failure | unusable =>
    rw [back_backoff]
    split_ifs
    · rfl
    · exact h
  | item u rest hp =>
    obtain ⟨-, -, -, -, -, -, -, -, -, hb⟩ := consider_fields allowed s u rest
    exact hb.trans h
  | restart => rfl

end Backoff

section Progress

/-- The steps of a client and a server that answers. -/
inductive Smooth : Event truncate → Prop where
  | request (count : ℕ) : Smooth (.request true count)
  | receive : Smooth .receive
  | item : Smooth .item
  | start : Smooth .start
  | wake : Smooth .wake

/-- The client gets from one state to another without help or failure. -/
inductive Gets (allowed : List ℤ) : State truncate → State truncate → Prop where
  | refl (s : State truncate) : Gets allowed s s
  | step {s t u : State truncate} {e : Event truncate} : Smooth e → step allowed s e = some t →
      Gets allowed t u → Gets allowed s u

theorem Gets.trans {s t u : State truncate} (h : Gets allowed s t) (h' : Gets allowed t u) :
    Gets allowed s u := by
  induction h with
  | refl s => exact h'
  | step he hs _ ih => exact .step he hs (ih h')

theorem Gets.consistent (h : Gets allowed s t) (hc : Consistent s) : Consistent t := by
  induction h with
  | refl s => exact hc
  | step _ hs _ ih => exact ih (consistent_step hc hs)

/-- Nothing is lost on the way, and the client stays where it can go on. -/
structure Onward (s t : State truncate) : Prop where
  place : t.place = .polling
  running : t.running = true
  sent : t.sent = s.sent
  offset : s.updateOffset ≤ t.updateOffset
  base : t.base = s.base

theorem Onward.trans {r s t : State truncate} (h : Onward r s) (h' : Onward s t) : Onward r t :=
  ⟨h'.place, h'.running, h'.sent.trans h.sent, h.offset.trans h'.offset, h'.base.trans h.base⟩

/-- An item that throws costs the rest of its batch, not its own place in the queue. -/
theorem gets_through (allowed : List ℤ) (hrun : s.running = true) (hp : s.place = .items rest)
    (hids : ∀ u ∈ rest, s.updateOffset ≤ u.id) (hord : Ordered rest) :
    ∃ t, Gets allowed s t ∧ Onward s t ∧ ∀ u ∈ rest.head?, u.id < t.updateOffset := by
  induction rest generalizing s with
  | nil =>
    refine ⟨{ s with place := .polling }, .step .item (by simp [step, hp]) (.refl _),
      ⟨rfl, hrun, rfl, le_refl _, rfl⟩, by simp⟩
  | cons u rest ih =>
    have hitem : step allowed s .item = some (s.consider allowed u rest) := by simp [step, hp]
    obtain ⟨h1, -, h3, -, -, h6, -, -, h9, -⟩ := consider_fields allowed s u rest
    rw [Ordered, List.pairwise_cons] at hord
    have hoff : s.updateOffset ≤ u.id + 1 := by
      have := hids u List.mem_cons_self
      omega
    -- Whatever the item was, the client gets to the polling place with the offset behind it.
    have hgo : ∀ t', Gets allowed s t' → t'.place = .items rest → t'.sent = s.sent →
        t'.updateOffset = u.id + 1 → t'.running = true → t'.base = s.base →
        ∃ t, Gets allowed s t ∧ Onward s t ∧ ∀ v ∈ (u :: rest).head?, v.id < t.updateOffset := by
      intro t' hgets hp' hsent' hoff' hrun' hbase'
      have hids' : ∀ v ∈ rest, t'.updateOffset ≤ v.id := by
        intro v hv
        have := hord.1 v hv
        omega
      obtain ⟨t, hgets', hon, -⟩ := ih hrun' hp' hids' hord.2
      refine ⟨t, hgets.trans hgets', ⟨hon.place, hon.running, hon.sent.trans hsent', ?_,
        hon.base.trans hbase'⟩, ?_⟩
      · have := hon.offset
        omega
      · intro v hv
        obtain rfl := Option.some.inj hv
        have := hon.offset
        omega
    have hstep := hitem
    unfold State.consider at hstep
    dsimp only at hstep
    split at hstep
    · refine ⟨_, .step .item hstep (.step .wake rfl (.refl _)), ⟨rfl, hrun, rfl, hoff, rfl⟩, ?_⟩
      intro v hv
      obtain rfl := Option.some.inj hv
      exact lt_add_one _
    · exact hgo _ (.step .item hstep (.refl _)) rfl rfl rfl hrun rfl
    · split_ifs at hstep
      · exact hgo _ (.step .item hstep (.refl _)) rfl rfl rfl hrun rfl
      · exact hgo _ (.step .item hstep (.step .start rfl (.refl _))) rfl rfl rfl hrun rfl

/-- The offset behind the first update leaves fewer of them. -/
theorem unconfirmed_fewer (h : Consistent s) (hfirst : s.unconfirmed s.front = u :: rest)
    (hon : Onward s t) (hu : u.id < t.updateOffset) :
    (t.unconfirmed t.front).length ≤ rest.length := by
  obtain ⟨below, hsent, hbelow, -, hbehind⟩ := split_first h.ordered hfirst
  have hfront : u.id + 1 ≤ t.front := by
    rw [State.front]
    omega
  have hnext : s.sent.filter (fun v => u.id + 1 ≤ v.id) = rest := by
    have hlo : s.front ≤ u.id := by
      have hm : u ∈ s.unconfirmed s.front := hfirst ▸ List.mem_cons_self
      simpa [State.unconfirmed] using (List.mem_filter.mp hm).2
    rw [hsent, List.filter_append, filter_none (l := below), List.filter_cons_of_neg (by simp),
      filter_all (l := rest), List.nil_append]
    · intro v hv
      have := hbehind v hv
      simp only [decide_eq_true_eq]
      omega
    · intro v hv
      have := hbelow v hv
      simp only [decide_eq_false_iff_not]
      omega
  rw [State.unconfirmed, hon.sent, ← hnext]
  apply List.Sublist.length_le
  apply List.monotone_filter_right
  intro v hv
  rw [decide_eq_true_eq] at hv ⊢
  exact hfront.trans hv

theorem considered_all (h : Consistent s) (hnil : s.unconfirmed s.front = []) :
    s.considered = s.sent.filter fun u => s.base ≤ u.id := by
  rw [h.considered]
  apply List.filter_congr
  intro u hu
  have hlt : ¬ s.front ≤ u.id := by
    intro hle
    have hm : u ∈ s.unconfirmed s.front := List.mem_filter.mpr ⟨hu, by simpa using hle⟩
    rw [hnil] at hm
    cases hm
  rw [decide_eq_decide]
  unfold State.front at hlt
  omega

/-- A round of polling that the server answers in full. -/
theorem gets_round (allowed : List ℤ) (h : Consistent s) (hrun : s.running = true)
    (hp : s.place = .polling) :
    ∃ t, Gets allowed s t ∧ Onward s t ∧
      ∀ u ∈ (s.unconfirmed s.front).head?, u.id < t.updateOffset := by
  obtain ⟨hlo, hhi⟩ := h.confirmed
  have hmax : max s.confirmed s.updateOffset = s.front := by
    unfold State.front at hhi ⊢
    omega
  have hrequest : step allowed s (.request true s.sent.length) = some { s with
      confirmed := s.front
      place := .waiting (some (s.unconfirmed s.front)) } := by
    have htake : (s.unconfirmed s.front).take s.sent.length = s.unconfirmed s.front :=
      List.take_of_length_le (List.length_filter_le _ _)
    simp [step, hp, hrun, hmax, htake]
  have hreceive : step allowed { s with
      confirmed := s.front
      place := .waiting (some (s.unconfirmed s.front)) } .receive = some { s with
      confirmed := s.front
      place := .items (s.unconfirmed s.front)
      conflictBackoffSec := 5 } := by
    simp [step, hrun]
  obtain ⟨t, hgets, hon, hhead⟩ := gets_through allowed
    (s := { s with
      confirmed := s.front
      place := .items (s.unconfirmed s.front)
      conflictBackoffSec := 5 }) hrun rfl
    (fun u hu => by
      have hle : s.front ≤ u.id := by simpa [State.unconfirmed] using (List.mem_filter.mp hu).2
      exact (le_max_right _ _).trans hle)
    (h.ordered.filter _)
  exact ⟨t, .step (.request _) hrequest (.step .receive hreceive hgets),
    ⟨hon.place, hon.running, hon.sent, hon.offset, hon.base⟩, hhead⟩

end Progress

end TelegramPolling
