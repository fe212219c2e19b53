import TizenClaw.HistoryCompaction
import TizenClaw.TransitionSystem

/-! One session under any number of concurrent prompts. Each locked section of a prompt is one
step; the model, the tools and the summaries run between them. -/
namespace SessionHistory

open ByteString JsonValue LlmTypes HistoryCompaction TransitionSystem

/-- A message with the number of the exchange it belongs to; other messages carry any number. -/
structure Entry where
  exchange : ℕ
  msg : LlmMessage
  deriving DecidableEq

def entries : Messages Entry where
  view := Entry.msg
  compressed text := ⟨0, assistantMessage (bytes "[compressed] " ++ text) []⟩
  view_compressed _ := rfl

def plain (msg : LlmMessage) : Entry := ⟨0, msg⟩

/-- Where a prompt goes on after `TrimHistory`. -/
inductive After where
  | asking
  | returned
  deriving DecidableEq

/-- How far a prompt is. `trimming` keeps the clearing count of the moment the lock was released,
because `TrimHistory` holds a reference into the session. -/
inductive Phase where
  | entering
  | asking
  | acting (exchange : ℕ) (calls : List LlmToolCall)
  | trimming (epoch count : ℕ) (after : After)
  | returned
  deriving DecidableEq

def After.phase : After → Phase
  | .asking => .asking
  | .returned => .returned

/-- `disk` is what `LoadSession` finds when the session is not in memory, which is the case at
the start and after a clear only. -/
structure State where
  session : Option (List Entry)
  disk : List Entry := []
  epoch : ℕ := 0
  compacting : Bool := false
  exchanges : ℕ := 0
  calls : List Phase := []
  deriving DecidableEq

/-- `content` gives the name and the result of each call of a round. -/
inductive Event where
  | enter
  | prompt (p : ℕ) (text : Bytes)
  | chat (p : ℕ) (text : Bytes) (calls : List LlmToolCall)
  | results (p : ℕ) (content : ℕ → Bytes × Json)
  | throwOut (p : ℕ)
  | final (p : ℕ) (text : Bytes)
  | reply (p : ℕ) (text : Bytes)
  | rollback (p : ℕ)
  | giveUp (p : ℕ)
  | trimEnd (p : ℕ) (answer : Answer)
  | clear

section Step

variable (hasBackend : Bool)

/-- `sessions_[session_id]`, which makes an empty session when there is none. -/
def history (s : State) : List Entry := s.session.getD []

/-- A push followed by `TrimHistory`, up to the release of the lock if it is released. -/
def trimAfter (s : State) (p : ℕ) (h : List Entry) (after : After) : State :=
  match compactBegin entries hasBackend s.compacting h with
  | (flag, none) =>
    { s with
      session := some (hardTrim h)
      compacting := flag
      calls := s.calls.set p after.phase }
  | (flag, some count) =>
    { s with
      session := some h
      compacting := flag
      calls := s.calls.set p (.trimming s.epoch count after) }

def toolMessages (exchange : ℕ) (calls : List LlmToolCall) (content : ℕ → Bytes × Json) :
    List Entry :=
  calls.mapIdx fun i tc =>
    { exchange := exchange
      msg :=
        { role := .tool
          toolName := (content i).1
          toolCallId := tc.id
          toolResult := (content i).2 } }

def step (s : State) : Event → Option State
  | .enter => some { s with calls := s.calls ++ [.entering] }
  | .prompt p text => match s.calls[p]? with
    | some .entering =>
      some (trimAfter hasBackend s p (s.session.getD s.disk ++ [plain (userMessage text)]) .asking)
    | _ => none
  | .chat p text calls => match s.calls[p]? with
    | some .asking =>
      if calls = [] then none
      else some { s with
        session := some (history s ++ [⟨s.exchanges, assistantMessage text calls⟩])
        exchanges := s.exchanges + 1
        calls := s.calls.set p (.acting s.exchanges calls) }
    | _ => none
  | .results p content => match s.calls[p]? with
    | some (.acting exchange calls) =>
      some (trimAfter hasBackend s p (history s ++ toolMessages exchange calls content) .asking)
    | _ => none
  | .throwOut p => match s.calls[p]? with
    | some (.acting _ _) => some { s with calls := s.calls.set p .returned }
    | _ => none
  | .final p text => match s.calls[p]? with
    | some .asking =>
      some (trimAfter hasBackend s p (history s ++ [plain (assistantMessage text [])]) .returned)
    | _ => none
  | .reply p text => match s.calls[p]? with
    | some .asking => some { s with
        session := some (history s ++ [plain (assistantMessage text [])])
        calls := s.calls.set p .returned }
    | _ => none
  | .rollback p => match s.calls[p]? with
    | some .asking => some { s with
        session := some (history s).dropLast
        calls := s.calls.set p .returned }
    | _ => none
  | .giveUp p => match s.calls[p]? with
    | some .asking => some { s with
        session := some (history s)
        calls := s.calls.set p .returned }
    | _ => none
  | .trimEnd p answer => match s.calls[p]? with
    | some (.trimming epoch count after) =>
      -- after a clear the reference dangles, and nothing can be said of what follows
      if epoch ≠ s.epoch then none
      else
        let outcome := compactEnd entries answer count s.session
        some { s with
          session := outcome.session.map hardTrim
          compacting := outcome.compacting
          calls := s.calls.set p after.phase }
    | _ => none
  | .clear => some { s with session := none, disk := [], epoch := s.epoch + 1 }

end Step

/-- An entry that is no part of an exchange. -/
def Plain (e : Entry) : Prop := callsTools e.msg = false ∧ isToolMessage e.msg = false

/-- One tool message for each call, in order, and of the same exchange. -/
def Answers (a : Entry) (rs : List Entry) : Prop :=
  rs.map (fun r => (r.exchange, r.msg.role, r.msg.toolCallId)) =
    a.msg.toolCalls.map fun tc => (a.exchange, Role.tool, tc.id)

/-- A sequence of plain messages and whole exchanges. -/
inductive WellFormed : List Entry → Prop where
  | nil : WellFormed []
  | plain {e l} : Plain e → WellFormed l → WellFormed (e :: l)
  | exchange {a rs l} : callsTools a.msg = true → Answers a rs → WellFormed l →
      WellFormed (a :: (rs ++ l))

/-- Any state that is well-formed in memory and on disk and has no prompt in it. -/
def sessions (hasBackend : Bool) : System State Event where
  Init s := s.calls = [] ∧ WellFormed (history s) ∧ WellFormed s.disk
  Step s e t := step hasBackend s e = some t

/-- The prompt is between its two sections. -/
def Acting (s : State) (q : ℕ) : Prop :=
  ∃ exchange calls, s.calls[q]? = some (.acting exchange calls)

def Trimming (s : State) (q : ℕ) : Prop :=
  ∃ epoch count after, s.calls[q]? = some (.trimming epoch count after)

/-- Cutting at `k` leaves no tool message at the front. -/
def CleanCut (h : List Entry) (k : ℕ) : Prop :=
  ∀ t ∈ (h.drop k).head?, isToolMessage t.msg = false

instance (h : List Entry) (k : ℕ) : Decidable (CleanCut h k) :=
  inferInstanceAs (Decidable (∀ t ∈ (h.drop k).head?, _))

/-- A history that is trimmed at once, because no summary is begun, is cut cleanly. -/
def CleanTrim (hasBackend : Bool) (s : State) (h : List Entry) : Prop :=
  ¬ Begins hasBackend s.compacting h → CleanCut h (h.length - kMaxHistorySize)

def trimEndCut (answer : Answer) (count n : ℕ) : ℕ :=
  max (endCut answer count n) (n - kMaxHistorySize)

/-- While a prompt is between its two sections nobody else appends, clears or takes a message
back, no exception ends it there, and every truncation falls between exchanges. -/
def Undisturbed (hasBackend : Bool) (s : State) : Event → Prop
  | .enter | .giveUp _ => True
  | .prompt _ text => (∀ q, ¬ Acting s q) ∧
      CleanTrim hasBackend s (s.session.getD s.disk ++ [plain (userMessage text)])
  | .chat _ _ _ | .reply _ _ => ∀ q, ¬ Acting s q
  | .results p content => (∀ q, Acting s q → q = p) ∧
      ∀ exchange calls, s.calls[p]? = some (.acting exchange calls) →
        CleanTrim hasBackend s (history s ++ toolMessages exchange calls content)
  | .throwOut _ => False
  | .final _ text => (∀ q, ¬ Acting s q) ∧
      CleanTrim hasBackend s (history s ++ [plain (assistantMessage text [])])
  | .rollback _ => (∀ q, ¬ Acting s q) ∧ ∀ e ∈ (history s).getLast?, Plain e
  | .trimEnd p answer =>
    ∀ epoch count after, s.calls[p]? = some (.trimming epoch count after) →
      CleanCut (history s) (trimEndCut answer count (history s).length) ∧
      ((∃ q, Acting s q) → trimEndCut answer count (history s).length < (history s).length)
  | .clear => ∀ q, ¬ Acting s q ∧ ¬ Trimming s q

section WellFormedHistories

theorem plain_append {l l' : List Entry} (h : WellFormed l) (h' : WellFormed l') :
    WellFormed (l ++ l') := by
  induction h with
  | nil => exact h'
  | plain hp _ ih => exact .plain hp ih
  | @exchange a rs l hc ha _ ih =>
    rw [List.cons_append, List.append_assoc]
    exact .exchange hc ha ih

theorem WellFormed.append_plain {l : List Entry} (h : WellFormed l) {e : Entry} (he : Plain e) :
    WellFormed (l ++ [e]) := plain_append h (.plain he .nil)

theorem WellFormed.append_exchange {l rs : List Entry} (h : WellFormed l) {a : Entry}
    (hc : callsTools a.msg = true) (ha : Answers a rs) : WellFormed (l ++ a :: rs) := by
  have : WellFormed (a :: (rs ++ [])) := .exchange hc ha .nil
  rw [List.append_nil] at this
  exact plain_append h this

theorem Answers.isTool {a r : Entry} {rs : List Entry} (h : Answers a rs) (hr : r ∈ rs) :
    isToolMessage r.msg = true := by
  have hm : (r.exchange, r.msg.role, r.msg.toolCallId) ∈
      a.msg.toolCalls.map fun tc => (a.exchange, Role.tool, tc.id) :=
    h ▸ List.mem_map_of_mem hr
  obtain ⟨tc, -, he⟩ := List.mem_map.mp hm
  simp only [Prod.mk.injEq] at he
  simp [isToolMessage, ← he.2.1]

/-- A clean cut of a well-formed history falls between exchanges. -/
theorem WellFormed.drop {l : List Entry} (h : WellFormed l) {k : ℕ} (hc : CleanCut l k) :
    WellFormed (l.drop k) := by
  induction h generalizing k with
  | nil => simpa using WellFormed.nil
  | @plain e l hp hl ih =>
    cases k with
    | zero => exact .plain hp hl
    | succ k => exact ih hc
  | @exchange a rs l hcalls ha hl ih =>
    cases k with
    | zero => exact .exchange hcalls ha hl
    | succ k =>
      unfold CleanCut at hc
      rw [List.drop_succ_cons] at hc ⊢
      by_cases hk : k < rs.length
      · exfalso
        have hhead : ((rs ++ l).drop k).head? = some rs[k] := by
          rw [List.head?_drop, List.getElem?_append_left hk, List.getElem?_eq_getElem hk]
        have := hc rs[k] hhead
        rw [ha.isTool (List.getElem_mem hk)] at this
        cases this
      · rw [List.drop_append, List.drop_eq_nil_of_le (Nat.not_lt.mp hk), List.nil_append] at hc ⊢
        exact ih hc

theorem WellFormed.dropLast {l : List Entry} {e : Entry} (h : WellFormed (l ++ [e]))
    (he : Plain e) : WellFormed l := by
  generalize hL : l ++ [e] = L at h
  induction h generalizing l with
  | nil => simp at hL
  | @plain x L' hp _ ih =>
    cases l with
    | nil => exact .nil
    | cons y l =>
      obtain ⟨rfl, ht⟩ : y = x ∧ l ++ [e] = L' := by simpa using hL
      exact .plain hp (ih ht)
  | @exchange a rs m hcalls ha hm ih =>
    cases l with
    | nil =>
      obtain ⟨rfl, -⟩ : e = a ∧ _ := by simpa using hL
      rw [he.1] at hcalls
      cases hcalls
    | cons y l =>
      obtain ⟨rfl, ht⟩ : y = a ∧ l ++ [e] = rs ++ m := by simpa using hL
      rcases List.eq_nil_or_concat m with rfl | ⟨m', x, rfl⟩
      · have hmem : e ∈ rs := by
          rw [List.append_nil] at ht
          rw [← ht]
          simp
        have hplain := he.2
        rw [ha.isTool hmem] at hplain
        cases hplain
      · rw [List.concat_eq_append, ← List.append_assoc] at ht
        obtain ⟨rfl, hx⟩ := List.append_inj' ht rfl
        obtain rfl : e = x := by simpa using hx
        exact .exchange hcalls ha (ih (List.concat_eq_append ▸ rfl))

theorem WellFormed.tail {e : Entry} {l : List Entry} (h : WellFormed (e :: l))
    (he : callsTools e.msg = false) : WellFormed l := by
  cases h with
  | plain _ hl => exact hl
  | exchange hc =>
    rw [he] at hc
    cases hc

theorem WellFormed.answered {a : Entry} {l : List Entry} (h : WellFormed (a :: l))
    (ha : callsTools a.msg = true) : ∃ rs m, l = rs ++ m ∧ Answers a rs := by
  cases h with
  | plain hp => exact absurd (ha.symm.trans hp.1) (by decide)
  | exchange _ ha _ => exact ⟨_, _, rfl, ha⟩

end WellFormedHistories

section Invariant

/-- Nobody is between two sections. -/
structure Settled (s : State) : Prop where
  idle : ∀ q, ¬ Acting s q
  wellFormed : WellFormed (history s)

/-- One prompt is, and its assistant message is the last one. -/
structure Pending (s : State) (p : ℕ) (h : List Entry) (a : Entry) : Prop where
  acting : s.calls[p]? = some (.acting a.exchange a.msg.toolCalls)
  only : ∀ q, Acting s q → q = p
  session : s.session = some (h ++ [a])
  calls : callsTools a.msg = true
  wellFormed : WellFormed h

structure Inv (s : State) : Prop where
  disk : WellFormed s.disk
  shape : Settled s ∨ ∃ p h a, Pending s p h a

variable {hasBackend : Bool} {s t : State} {p : ℕ}

theorem Pending.isActing {h : List Entry} {a : Entry} (hp : Pending s p h a) : Acting s p :=
  ⟨_, _, hp.acting⟩

theorem Inv.settled (hI : Inv s) (h : ∀ q, ¬ Acting s q) : Settled s := by
  rcases hI.shape with hs | ⟨p, h', a, hp⟩
  · exact hs
  · exact absurd hp.isActing (h p)

theorem acting_set {ph : Phase} (ht : t.calls = s.calls.set p ph)
    (hph : ∀ exchange calls, ph ≠ .acting exchange calls) {q : ℕ} (hq : Acting t q) :
    q ≠ p ∧ Acting s q := by
  obtain ⟨exchange, calls, h⟩ := hq
  rw [ht] at h
  by_cases hqp : p = q
  · subst hqp
    rw [List.getElem?_set_self'] at h
    cases hs : s.calls[p]? with
    | none => simp [hs] at h
    | some x =>
      rw [hs] at h
      exact absurd (Option.some.inj h) (hph exchange calls)
  · rw [List.getElem?_set_ne hqp] at h
    exact ⟨Ne.symm hqp, exchange, calls, h⟩

theorem after_ne_acting (after : After) (exchange : ℕ) (calls : List LlmToolCall) :
    after.phase ≠ .acting exchange calls := by
  cases after <;> exact Phase.noConfusion

theorem settled_set {ph : Phase} (ht : t.calls = s.calls.set p ph)
    (hph : ∀ exchange calls, ph ≠ .acting exchange calls) (hq : ∀ q, Acting s q → q = p)
    (hw : WellFormed (history t)) : Settled t where
  idle q ha := (acting_set ht hph ha).1 (hq q (acting_set ht hph ha).2)
  wellFormed := hw

/-- A section of another prompt that keeps the last message in its place. -/
theorem Pending.set {q : ℕ} {h h' : List Entry} {a : Entry} (hp : Pending s q h a) {ph : Phase}
    (ht : t.calls = s.calls.set p ph) (hph : ∀ exchange calls, ph ≠ .acting exchange calls)
    (hne : p ≠ q) (hs : t.session = some (h' ++ [a])) (hw : WellFormed h') : Pending t q h' a where
  acting := by rw [ht, List.getElem?_set_ne hne, hp.acting]
  only r ha := hp.only r (acting_set ht hph ha).2
  session := hs
  calls := hp.calls
  wellFormed := hw

/-- `TrimHistory` after a push that completes a well-formed history. -/
theorem trimAfter_settled {h : List Entry} {after : After} (hq : ∀ q, Acting s q → q = p)
    (hw : WellFormed h) (hc : CleanTrim hasBackend s h) :
    Settled (trimAfter hasBackend s p h after) := by
  have hb := compactBegin_snd entries hasBackend s.compacting h
  unfold trimAfter
  split
  · rename_i flag hbegin
    have hn : ¬ Begins hasBackend s.compacting h := by
      intro hB
      rw [if_pos hB, hbegin] at hb
      cases hb
    refine settled_set rfl (after_ne_acting after) hq ?_
    have hdrop := hw.drop (hc hn)
    rwa [← eraseFront_eq] at hdrop
  · exact settled_set rfl (fun _ _ => Phase.noConfusion) hq hw

theorem Inv.trimAfter {h : List Entry} {after : After} (hI : Inv s)
    (hs : Settled (trimAfter hasBackend s p h after)) : Inv (trimAfter hasBackend s p h after) where
  disk := by
    have hd : (SessionHistory.trimAfter hasBackend s p h after).disk = s.disk := by
      unfold SessionHistory.trimAfter
      split <;> rfl
    rw [hd]
    exact hI.disk
  shape := .inl hs

theorem plain_userMessage (text : Bytes) : Plain (plain (userMessage text)) := ⟨rfl, rfl⟩

theorem plain_assistantMessage (text : Bytes) : Plain (plain (assistantMessage text [])) :=
  ⟨rfl, rfl⟩

theorem toolMessages_answers {a : Entry} (content : ℕ → Bytes × Json) :
    Answers a (toolMessages a.exchange a.msg.toolCalls content) := by
  unfold Answers toolMessages
  apply List.ext_getElem?
  intro i
  simp only [List.getElem?_map, List.getElem?_mapIdx, Option.map_map]
  rfl

/-- What `TrimHistory` leaves once the summary has come, if the session is still there. -/
theorem trimEnd_history (answer : Answer) (count : ℕ) (h : List Entry) :
    ∃ front : List Entry, (∀ e ∈ front, Plain e) ∧
      ((compactEnd entries answer count (some h)).session.map hardTrim) =
        some (front ++ h.drop (trimEndCut answer count h.length)) := by
  obtain ⟨front, hf, hs⟩ := compactEnd_session entries answer count h
  refine ⟨front.drop (front.length + (h.length - endCut answer count h.length) -
    kMaxHistorySize), ?_, ?_⟩
  · intro e he
    obtain ⟨text, rfl⟩ := hf e (List.mem_of_mem_drop he)
    exact plain_assistantMessage _
  · rw [hs, Option.map_some, hardTrim_front]
    rfl

theorem wellFormed_front {front l : List Entry} (hf : ∀ e ∈ front, Plain e)
    (h : WellFormed l) : WellFormed (front ++ l) := by
  induction front with
  | nil => exact h
  | cons e front ih =>
    exact .plain (hf e (by simp)) (ih fun x hx => hf x (List.mem_cons_of_mem e hx))

theorem cleanCut_of_append {h l : List Entry} {k : ℕ} (hk : k ≤ h.length)
    (hc : CleanCut (h ++ l) k) : CleanCut h k := by
  intro e he
  refine hc e ?_
  rw [List.drop_append_of_le_length hk, List.head?_append, he]
  rfl

theorem trimEnd_inv {answer : Answer} (hI : Inv s)
    (hu : Undisturbed hasBackend s (.trimEnd p answer))
    (h : step hasBackend s (.trimEnd p answer) = some t) : Inv t := by
  simp only [step] at h
  split at h
  · rename_i epoch count after hp
    split_ifs at h
    obtain rfl := Option.some.inj h
    obtain ⟨hcut, hkeep⟩ := hu epoch count after hp
    refine ⟨hI.disk, ?_⟩
    rcases hI.shape with hs | ⟨q, h', a, hpend⟩
    · refine .inl (settled_set rfl (after_ne_acting after) (fun q ha => absurd ha (hs.idle q)) ?_)
      cases hsess : s.session with
      | none =>
        have hnone : (compactEnd entries answer count none).session = none := by
          cases answer <;> rfl
        simp only [history, hnone, Option.map_none]
        exact .nil
      | some l =>
        obtain ⟨front, hf, he⟩ := trimEnd_history answer count l
        have hw := hs.wellFormed
        simp only [history, hsess, Option.getD_some] at hw hcut ⊢
        rw [he]
        exact wellFormed_front hf (hw.drop hcut)
    · have hne : p ≠ q := by
        rintro rfl
        rw [hpend.acting] at hp
        cases hp
      have hlast := hkeep ⟨q, hpend.isActing⟩
      obtain ⟨front, hf, he⟩ := trimEnd_history answer count (h' ++ [a])
      simp only [history, hpend.session, Option.getD_some] at hcut hlast
      have hk : trimEndCut answer count (h' ++ [a]).length ≤ h'.length := by
        rw [List.length_append] at hlast ⊢
        exact Nat.lt_succ_iff.mp hlast
      refine .inr ⟨q, front ++ h'.drop (trimEndCut answer count (h' ++ [a]).length), a,
        hpend.set rfl (after_ne_acting after) hne ?_ ?_⟩
      · dsimp only
        rw [hpend.session, he, List.drop_append_of_le_length hk, List.append_assoc]
      · exact wellFormed_front hf (hpend.wellFormed.drop (cleanCut_of_append hk hcut))
  · cases h

/-- One case per section. -/
theorem step_inv {e : Event} (hI : Inv s) (hu : Undisturbed hasBackend s e)
    (h : step hasBackend s e = some t) : Inv t := by
  cases e with
  | trimEnd p answer => exact trimEnd_inv hI hu h
  | throwOut p => exact absurd hu id
  | clear =>
    obtain rfl := Option.some.inj h
    exact ⟨.nil, .inl ⟨fun q => (hu q).1, .nil⟩⟩
  | enter =>
    obtain rfl := Option.some.inj h
    have hback : ∀ q, Acting { s with calls := s.calls ++ [.entering] } q → Acting s q := by
      rintro q ⟨exchange, calls, ha⟩
      dsimp only at ha
      rw [List.getElem?_append] at ha
      split_ifs at ha with hlt
      · exact ⟨exchange, calls, ha⟩
      · obtain ⟨hlt', he⟩ := List.getElem?_eq_some_iff.mp ha
        simp at he
    refine ⟨hI.disk, ?_⟩
    rcases hI.shape with hs | ⟨q, h', a, hp⟩
    · exact .inl ⟨fun q ha => hs.idle q (hback q ha), hs.wellFormed⟩
    · refine .inr ⟨q, h', a, ?_, fun r ha => hp.only r (hback r ha), hp.session, hp.calls,
        hp.wellFormed⟩
      rw [List.getElem?_append_left (List.getElem?_eq_some_iff.mp hp.acting).1, hp.acting]
  | prompt p text =>
    simp only [step] at h
    split at h
    · obtain rfl := Option.some.inj h
      have hw : WellFormed (s.session.getD s.disk) := by
        have := (hI.settled hu.1).wellFormed
        unfold history at this
        cases hs : s.session with
        | none => exact hI.disk
        | some l => rwa [hs] at this
      exact hI.trimAfter (trimAfter_settled (fun q ha => absurd ha (hu.1 q))
        (hw.append_plain (plain_userMessage text)) hu.2)
    · cases h
  | chat p text calls =>
    simp only [step] at h
    split at h
    · rename_i hp
      split_ifs at h with hc
      obtain rfl := Option.some.inj h
      have hw := (hI.settled hu).wellFormed
      refine ⟨hI.disk, .inr ⟨p, history s, ⟨s.exchanges, assistantMessage text calls⟩, ?_, ?_, rfl,
        by simp [callsTools, assistantMessage, hc], hw⟩⟩
      · exact List.getElem?_set_self (List.getElem?_eq_some_iff.mp hp).1
      · rintro q ⟨exchange, calls', ha⟩
        by_contra hq
        dsimp only at ha
        rw [List.getElem?_set_ne (Ne.symm hq)] at ha
        exact hu q ⟨exchange, calls', ha⟩
    · cases h
  | results p content =>
    simp only [step] at h
    split at h
    · rename_i exchange calls hp
      obtain rfl := Option.some.inj h
      have hact : Acting s p := ⟨exchange, calls, hp⟩
      rcases hI.shape with hs | ⟨q, h', a, hpend⟩
      · exact absurd hact (hs.idle p)
      · obtain rfl := hu.1 q hpend.isActing
        rw [hpend.acting] at hp
        obtain ⟨rfl, rfl⟩ := Phase.acting.inj (Option.some.inj hp)
        have hclean := hu.2 _ _ hpend.acting
        refine hI.trimAfter (trimAfter_settled hu.1 ?_ hclean)
        rw [history, hpend.session, Option.getD_some, List.append_assoc]
        exact hpend.wellFormed.append_exchange hpend.calls (toolMessages_answers content)
    · cases h
  | final p text =>
    simp only [step] at h
    split at h
    · obtain rfl := Option.some.inj h
      have hw := (hI.settled hu.1).wellFormed
      exact hI.trimAfter (trimAfter_settled (fun q ha => absurd ha (hu.1 q))
        (hw.append_plain (plain_assistantMessage text)) hu.2)
    · cases h
  | reply p text =>
    simp only [step] at h
    split at h
    · obtain rfl := Option.some.inj h
      have hw := (hI.settled hu).wellFormed
      exact ⟨hI.disk, .inl (settled_set rfl (fun _ _ => Phase.noConfusion)
        (fun q ha => absurd ha (hu q)) (hw.append_plain (plain_assistantMessage text)))⟩
    · cases h
  | rollback p =>
    simp only [step] at h
    split at h
    · obtain rfl := Option.some.inj h
      have hw := (hI.settled hu.1).wellFormed
      refine ⟨hI.disk, .inl (settled_set rfl (fun _ _ => Phase.noConfusion)
        (fun q ha => absurd ha (hu.1 q)) ?_)⟩
      have hlast := hu.2
      change WellFormed (history s).dropLast
      rcases List.eq_nil_or_concat (history s) with hn | ⟨l, e, hl⟩
      · rw [hn]
        exact .nil
      · rw [List.concat_eq_append] at hl
        rw [hl, List.getLast?_concat] at hlast
        rw [hl, List.dropLast_concat]
        rw [hl] at hw
        exact hw.dropLast (hlast e rfl)
    · cases h
  | giveUp p =>
    simp only [step] at h
    split at h
    · rename_i hp
      obtain rfl := Option.some.inj h
      refine ⟨hI.disk, ?_⟩
      rcases hI.shape with hs | ⟨q, h', a, hpend⟩
      · exact .inl (settled_set rfl (fun _ _ => Phase.noConfusion)
          (fun q ha => absurd ha (hs.idle q)) hs.wellFormed)
      · have hne : p ≠ q := by
          rintro rfl
          rw [hpend.acting] at hp
          cases hp
        refine .inr ⟨q, h', a, hpend.set rfl (fun _ _ => Phase.noConfusion) hne ?_
          hpend.wellFormed⟩
        simp [history, hpend.session]
    · cases h

/-- In a run whose steps all leave the open exchange alone, the history is well-formed in every
state in which no prompt is between its two sections. -/
theorem history_wellFormed {tr} (h : Run (sessions hasBackend) tr s)
    (hu : ∀ x ∈ tr, Undisturbed hasBackend x.1 x.2) (hn : ∀ q, ¬ Acting s q) :
    WellFormed (history s) := by
  have hI : Inv s := by
    refine h.guarded_invariant (I := Inv) (P := Undisturbed hasBackend) ?_ ?_ hu
    · rintro s ⟨hc, hw, hd⟩
      refine ⟨hd, .inl ⟨?_, hw⟩⟩
      rintro q ⟨exchange, calls, ha⟩
      simp [hc] at ha
    · exact fun s e t hI hu hs => step_inv hI hu hs
  exact (hI.settled hn).wellFormed

end Invariant

namespace Counterexample

def call : LlmToolCall := ⟨bytes "call_1", bytes "list_tasks", .null⟩
def content (_ : ℕ) : Bytes × Json := (bytes "list_tasks", .null)

def start : State := { session := none }

theorem start_init : (sessions true).Init start := ⟨rfl, .nil, .nil⟩

def ask : Entry := plain (userMessage (bytes "hello"))
def other : Entry := plain (userMessage (bytes "are you there?"))
def request : Entry := ⟨0, assistantMessage [] [call]⟩
def result : Entry :=
  ⟨0, { role := .tool, toolName := bytes "list_tasks", toolCallId := bytes "call_1" }⟩

theorem not_acting {s : State} (h : ∀ ph ∈ s.calls, ∀ exchange calls, ph ≠ .acting exchange calls) :
    ∀ q, ¬ Acting s q := by
  rintro q ⟨exchange, calls, ha⟩
  exact h _ (List.mem_of_getElem? ha) exchange calls rfl

/-- A second prompt comes in while the tool of the first one runs. -/
def overlapping : List Event :=
  [.enter, .enter, .prompt 0 (bytes "hello"), .chat 0 [] [call],
    .prompt 1 (bytes "are you there?"), .results 0 content]

def overlapped : State :=
  { session := some [ask, request, other, result]
    exchanges := 1
    calls := [.asking, .asking] }

theorem overlapping_prompts_split_exchange :
    ∃ tr s, Run (sessions true) tr s ∧ (∀ q, ¬ Acting s q) ∧ ¬ WellFormed (history s) := by
  have he : (execute (step true) start overlapping).map Prod.snd = some overlapped := by
    decide
  obtain ⟨⟨tr, s⟩, hx, rfl⟩ := Option.map_eq_some_iff.mp he
  refine ⟨tr, _, by simpa using Run.execute (fun _ _ _ h => h) (Run.init start_init) hx, ?_, ?_⟩
  · exact not_acting (by simp [overlapped])
  · intro h
    have htail : WellFormed [request, other, result] := WellFormed.tail h rfl
    obtain ⟨rs, m, hl, ha⟩ := htail.answered rfl
    cases rs with
    | nil => cases ha
    | cons r rs =>
      obtain ⟨rfl, -⟩ := List.cons.inj hl
      revert ha
      simp [Answers, other, plain, userMessage, request, assistantMessage, call]

/-- The same prompt alone. -/
theorem single_prompt_wellFormed : WellFormed [ask, request, result] := by
  let s₁ : State := { start with calls := [.entering] }
  let s₂ : State := { start with session := some [ask], calls := [.asking] }
  let s₃ : State :=
    { session := some [ask, request], exchanges := 1, calls := [.acting 0 [call]] }
  let s₄ : State := { session := some [ask, request, result], exchanges := 1, calls := [.asking] }
  have h₁ : step true start .enter = some s₁ := rfl
  have h₂ : step true s₁ (.prompt 0 (bytes "hello")) = some s₂ := by decide
  have h₃ : step true s₂ (.chat 0 [] [call]) = some s₃ := by decide
  have h₄ : step true s₃ (.results 0 content) = some s₄ := by decide
  have hrun := (((Run.init (M := sessions true) start_init).step h₁).step h₂).step h₃ |>.step h₄
  refine history_wellFormed hrun ?_ (not_acting (by simp [s₄]))
  intro x hx
  simp only [List.nil_append, List.cons_append, List.mem_cons, List.not_mem_nil, or_false] at hx
  rcases hx with rfl | rfl | rfl | rfl
  · trivial
  · exact ⟨not_acting (by simp [s₁]), fun _ => by decide⟩
  · exact not_acting (by simp [s₂])
  · refine ⟨?_, ?_⟩
    · rintro q ⟨exchange, calls, ha⟩
      obtain ⟨hq, -⟩ := List.getElem?_eq_some_iff.mp ha
      exact Nat.lt_one_iff.mp hq
    · intro exchange calls ha
      obtain ⟨rfl, rfl⟩ := Phase.acting.inj (Option.some.inj ha)
      exact fun _ => by decide

end Counterexample

end SessionHistory
