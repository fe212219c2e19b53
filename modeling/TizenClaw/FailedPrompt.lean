import TizenClaw.OfflineFallback
import TizenClaw.SessionHistory

/-! A prompt that ends because all backends failed, and what it leaves in the history. Messages
carry their origin, so that a new message never counts as an old one with the same content. -/
namespace FailedPrompt

open ByteString JsonValue LlmTypes HistoryCompaction OfflineFallback ToolDispatch

inductive Origin where
  | before (i : ℕ)
  | pushed
  | summary
  deriving DecidableEq

structure Item where
  origin : Origin
  msg : LlmMessage
  deriving DecidableEq

def items : Messages Item where
  view := Item.msg
  compressed text := ⟨.summary, assistantMessage (bytes "[compressed] " ++ text) []⟩
  view_compressed _ := rfl

def push (msg : LlmMessage) : Item := ⟨.pushed, msg⟩

/-- The messages of the history before the prompt. -/
def original (history : List LlmMessage) : List Item :=
  history.mapIdx fun i msg => ⟨.before i, msg⟩

/-- An iteration in which a backend answered with tool calls, and what a summary made in its
`TrimHistory` would come to. -/
structure Round where
  text : Bytes
  calls : List LlmToolCall
  called : calls ≠ []
  content : ℕ → Bytes × Json
  answer : Answer

def Round.messages (r : Round) : List Item :=
  push (assistantMessage r.text r.calls) ::
    (SessionHistory.toolMessages 0 r.calls r.content).map fun e => push e.msg

/-- A prompt up to the call at which all backends fail, after any number of rounds. -/
structure Prompt where
  session : Option (List LlmMessage)
  disk : List LlmMessage
  hasBackend : Bool
  compacting : Bool
  id : Bytes
  text : Bytes
  answer : Answer
  rounds : List Round
  rules : List FallbackRule
  codeGenerator : Bool
  handler : HandlerCall → Except ToolException Bytes

section Run

/-- `TrimHistory` on the mark for compaction and the history. -/
def trimHistory (hasBackend : Bool) (answer : Answer) (s : Bool × List Item) : Bool × List Item :=
  match compactBegin items hasBackend s.1 s.2 with
  | (flag, none) => (flag, hardTrim s.2)
  | (_, some count) =>
    let outcome := compactEnd items answer count (some s.2)
    (outcome.compacting, hardTrim (outcome.session.getD []))

variable (p : Prompt)

/-- The history before the prompt, which is loaded if it is not in memory. -/
def Prompt.history : List LlmMessage := p.session.getD p.disk

def Prompt.begin : Bool × List Item :=
  trimHistory p.hasBackend p.answer
    (p.compacting, original p.history ++ [push (userMessage p.text)])

def Prompt.round (s : Bool × List Item) (r : Round) : Bool × List Item :=
  trimHistory p.hasBackend r.answer (s.1, s.2 ++ r.messages)

/-- The history at the call that fails. -/
def Prompt.asked : List Item := (p.rounds.foldl p.round p.begin).2

/-- The history when the prompt returns: an offline reply is kept, otherwise one message is taken
back. A handler that throws ends the prompt without a return. -/
def Prompt.returned : Option (List Item) :=
  match fallback p.codeGenerator p.handler p.rules p.id p.text with
  | some (_, .ok reply) => some (p.asked ++ [push (assistantMessage reply [])])
  | some (_, .error _) => none
  | none => some p.asked.dropLast

end Run

/-- The history has the messages it had before, and no others. -/
def Restored (p : Prompt) (after : List Item) : Prop := after = original p.history

section Trim

variable {hasBackend flag : Bool} {answer : Answer} {l : List Item}

theorem trimHistory_at_once (h : ¬ Begins hasBackend flag l) :
    (trimHistory hasBackend answer (flag, l)).2 = l.drop (l.length - kMaxHistorySize) := by
  have hn := compactBegin_snd items hasBackend flag l
  rw [if_neg h] at hn
  unfold trimHistory
  split
  · exact eraseFront_eq _ _
  · rename_i he
    rw [he] at hn
    cases hn

theorem trimHistory_begun (h : Begins hasBackend flag l) :
    (trimHistory hasBackend answer (flag, l)).2 =
      hardTrim ((compactEnd items answer (boundary items l) (some l)).session.getD []) := by
  have hn := compactBegin_snd items hasBackend flag l
  rw [if_pos h] at hn
  unfold trimHistory
  split
  · rename_i he
    rw [he] at hn
    cases hn
  · rename_i he
    rw [he] at hn
    obtain rfl := Option.some.inj hn
    rfl

theorem boundary_bounds (h : Begins hasBackend flag l) :
    kCompactionCount ≤ boundary items l ∧ boundary items l + 2 ≤ l.length := by
  have hlen := h.1
  simp only [kCompactionThreshold] at hlen
  have hend : kCompactionCount ≤ exchangeEnd items l (kCompactionCount - 1) := by
    unfold exchangeEnd
    dsimp only [kCompactionCount]
    split_ifs
    · omega
    · omega
  unfold boundary
  simp only [kCompactionCount] at *
  omega

/-- The last two messages survive every trimming. -/
theorem trimHistory_suffix (hlen : 2 ≤ l.length) :
    ∃ front k, k + 2 ≤ l.length ∧
      (trimHistory hasBackend answer (flag, l)).2 = front ++ l.drop k := by
  by_cases hb : Begins hasBackend flag l
  · obtain ⟨front, -, hs⟩ := compactEnd_session items answer (boundary items l) l
    rw [trimHistory_begun hb, hs, Option.getD_some, hardTrim_front]
    refine ⟨_, _, ?_, rfl⟩
    have hbound := (boundary_bounds hb).2
    have hcut : endCut answer (boundary items l) l.length + 2 ≤ l.length := by
      cases answer with
      | threw => exact hlen
      | replied success text =>
        dsimp only [endCut, kCompactionThreshold]
        split_ifs
        · omega
        · omega
        · omega
    simp only [kMaxHistorySize]
    omega
  · rw [trimHistory_at_once hb]
    refine ⟨[], l.length - kMaxHistorySize, ?_, rfl⟩
    simp only [kMaxHistorySize]
    omega

/-- A trimming that cuts nothing off. -/
def Keeps (hasBackend flag : Bool) (answer : Answer) (l : List Item) : Prop :=
  l.length ≤ kMaxHistorySize ∧ (Begins hasBackend flag l → answer = .threw)

theorem trimHistory_keeps (h : Keeps hasBackend flag answer l) :
    (trimHistory hasBackend answer (flag, l)).2 = l := by
  by_cases hb : Begins hasBackend flag l
  · rw [trimHistory_begun hb, h.2 hb]
    change hardTrim l = l
    rw [hardTrim, eraseFront_eq, Nat.sub_eq_zero_of_le h.1, List.drop_zero]
  · rw [trimHistory_at_once hb, Nat.sub_eq_zero_of_le h.1, List.drop_zero]

/-- Any other trimming makes the history shorter. -/
theorem trimHistory_length (h : ¬ Keeps hasBackend flag answer l) :
    (trimHistory hasBackend answer (flag, l)).2.length < l.length := by
  by_cases hb : Begins hasBackend flag l
  · have hbound := boundary_bounds hb
    have hlen := hb.1
    rw [trimHistory_begun hb]
    cases answer with
    | threw =>
      have hmax : ¬ l.length ≤ kMaxHistorySize := fun hle => h ⟨hle, fun _ => rfl⟩
      change (hardTrim l).length < l.length
      rw [hardTrim, eraseFront_eq, List.length_drop]
      simp only [kMaxHistorySize] at *
      omega
    | replied success text =>
      have hshort : ∀ m : List Item, m.length < l.length → (hardTrim m).length < l.length := by
        intro m hm
        rw [hardTrim, eraseFront_eq, List.length_drop]
        omega
      apply hshort
      simp only [compactEnd]
      simp only [kCompactionThreshold, kCompactionCount] at *
      split_ifs
      · rw [Option.getD_some, eraseFront_eq, List.length_drop]
        omega
      · omega
      · rw [Option.getD_some, List.length_cons, List.length_drop]
        omega
  · have hmax : ¬ l.length ≤ kMaxHistorySize := fun hle => h ⟨hle, fun hb' => absurd hb' hb⟩
    rw [trimHistory_at_once hb, List.length_drop]
    simp only [kMaxHistorySize] at *
    omega

end Trim

section Rounds

variable {p : Prompt}

theorem pushed_not_original {history : List LlmMessage} {x : Item} (hx : x.origin = .pushed) :
    x ∉ original history := by
  intro hm
  obtain ⟨i, hi, rfl⟩ := List.mem_iff_getElem.mp hm
  simp only [original, List.getElem_mapIdx] at hx
  cases hx

theorem original_length (history : List LlmMessage) :
    (original history).length = history.length := List.length_mapIdx

theorem round_messages_pushed (r : Round) : ∀ x ∈ r.messages, x.origin = .pushed := by
  intro x hx
  rcases List.mem_cons.mp hx with rfl | hx
  · rfl
  · obtain ⟨e, -, rfl⟩ := List.mem_map.mp hx
    rfl

theorem round_messages_length (r : Round) : 2 ≤ r.messages.length := by
  have hpos := List.length_pos_iff.mpr r.called
  rw [Round.messages, List.length_cons, List.length_map, SessionHistory.toolMessages,
    List.length_mapIdx]
  omega

theorem last_two {α : Type*} {l : List α} (h : 2 ≤ l.length) : ∃ m a b, l = m ++ [a, b] := by
  have hd : (l.drop (l.length - 2)).length = 2 := by
    rw [List.length_drop]
    omega
  obtain ⟨a, b, hab⟩ := List.length_eq_two.mp hd
  exact ⟨l.take (l.length - 2), a, b, by rw [← hab, List.take_append_drop]⟩

/-- After a round the history ends in two new messages. -/
theorem round_ends (s : Bool × List Item) (r : Round) :
    ∃ m a b, (p.round s r).2 = m ++ [a, b] ∧ a.origin = .pushed := by
  obtain ⟨m, a, b, hr⟩ := last_two (round_messages_length r)
  have ha : a.origin = .pushed := by
    apply round_messages_pushed r
    rw [hr]
    simp
  have hl : s.2 ++ r.messages = (s.2 ++ m) ++ [a, b] := by rw [hr, List.append_assoc]
  have hlen : 2 ≤ (s.2 ++ r.messages).length := by
    rw [List.length_append]
    exact (round_messages_length r).trans (Nat.le_add_left _ _)
  obtain ⟨front, k, hk, he⟩ : ∃ front k, k + 2 ≤ (s.2 ++ r.messages).length ∧
      (trimHistory p.hasBackend r.answer (s.1, s.2 ++ r.messages)).2 =
        front ++ (s.2 ++ r.messages).drop k := trimHistory_suffix hlen
  rw [hl, List.length_append, List.length_cons, List.length_singleton] at hk
  refine ⟨front ++ (s.2 ++ m).drop k, a, b, ?_, ha⟩
  rw [Prompt.round, he, hl, List.drop_append_of_le_length (by omega), List.append_assoc]

theorem asked_ends (h : p.rounds ≠ []) :
    ∃ m a b, p.asked = m ++ [a, b] ∧ a.origin = .pushed := by
  obtain ⟨rs, r, hr⟩ : ∃ rs r, p.rounds = rs ++ [r] :=
    ⟨_, _, (List.dropLast_append_getLast h).symm⟩
  rw [Prompt.asked, hr, List.foldl_append]
  exact round_ends _ r

theorem asked_first (h : p.rounds = []) : p.asked = p.begin.2 := by
  rw [Prompt.asked, h, List.foldl_nil]

end Rounds

section Exits

variable {p : Prompt}

theorem returned_rollback (h : matchRule p.rules p.text = none) :
    p.returned = some p.asked.dropLast := by
  have hf : fallback p.codeGenerator p.handler p.rules p.id p.text = none := by
    unfold fallback
    rw [h]
    exact Option.map_none _
  unfold Prompt.returned
  rw [hf]

theorem returned_offline {rule : FallbackRule} (h : matchRule p.rules p.text = some rule)
    {after : List Item} (hr : p.returned = some after) :
    ∃ reply, after = p.asked ++ [push (assistantMessage reply [])] := by
  unfold Prompt.returned at hr
  split at hr
  · rename_i call reply hf
    exact ⟨reply, (Option.some.inj hr).symm⟩
  · cases hr
  · rename_i hf
    unfold fallback at hf
    rw [h] at hf
    cases hf

theorem rollback_after_rounds (h : p.rounds ≠ []) : ¬ Restored p p.asked.dropLast := by
  intro hr
  obtain ⟨m, a, b, he, ha⟩ := asked_ends h
  have hd : p.asked.dropLast = m ++ [a] := by
    rw [he, show m ++ [a, b] = (m ++ [a]) ++ [b] by rw [List.append_assoc]; rfl,
      List.dropLast_concat]
  have hn : a ∉ original p.history := pushed_not_original ha
  apply hn
  rw [← hr, hd]
  exact List.mem_append_right m (List.mem_singleton_self a)

theorem rollback_at_first (h : p.rounds = []) :
    Restored p p.asked.dropLast ↔ Keeps p.hasBackend p.compacting p.answer
      (original p.history ++ [push (userMessage p.text)]) := by
  rw [asked_first h]
  constructor
  · intro hr
    by_contra hk
    have hlt : p.begin.2.length < _ := trimHistory_length hk
    have hlen : p.begin.2.dropLast.length = p.history.length := by
      rw [hr, original_length]
    have hpos : p.begin.2.length = 0 → 0 < p.history.length := by
      intro hz
      by_contra hn
      apply hk
      have hone : (original p.history ++ [push (userMessage p.text)]).length = 1 := by
        rw [List.length_append, original_length, List.length_singleton]
        omega
      refine ⟨?_, fun hb => ?_⟩
      · rw [hone]
        decide
      · have := hb.1
        rw [hone] at this
        exact absurd this (by decide)
    rw [List.length_append, original_length, List.length_singleton] at hlt
    rw [List.length_dropLast] at hlen
    omega
  · intro hk
    have hb : p.begin.2 = original p.history ++ [push (userMessage p.text)] := trimHistory_keeps hk
    rw [hb, List.dropLast_concat]
    rfl

end Exits

/-- When all backends fail, exactly those prompts leave the history as it was that fail at the
first call, match no offline rule and trimmed nothing when they came in. -/
theorem restored_iff {p : Prompt} {after : List Item} (h : p.returned = some after) :
    Restored p after ↔ p.rounds = [] ∧ matchRule p.rules p.text = none ∧
      Keeps p.hasBackend p.compacting p.answer
        (original p.history ++ [push (userMessage p.text)]) := by
  cases hm : matchRule p.rules p.text with
  | some rule =>
    obtain ⟨reply, rfl⟩ := returned_offline hm h
    constructor
    · intro hr
      have hmem : push (assistantMessage reply []) ∈ original p.history := by
        rw [← hr]
        exact List.mem_append_right _ (List.mem_singleton_self _)
      exact absurd hmem (pushed_not_original rfl)
    · rintro ⟨-, hn, -⟩
      cases hn
  | none =>
    rw [returned_rollback hm] at h
    obtain rfl := Option.some.inj h
    by_cases hr : p.rounds = []
    · rw [rollback_at_first hr]
      simp [hr]
    · exact iff_of_false (rollback_after_rounds hr) fun hc => hr hc.1

namespace Counterexample

def call : LlmToolCall := ⟨bytes "call_1", bytes "list_tasks", .obj []⟩

/-- One round of tools. -/
def listing : Round where
  text := []
  calls := [call]
  called := by decide
  content _ := (bytes "list_tasks", .arr [])
  answer := .threw

def prompt (rounds : List Round) : Prompt where
  session := some []
  disk := []
  hasBackend := true
  compacting := false
  id := bytes "default"
  text := bytes "which tasks are there?"
  answer := .threw
  rounds := rounds
  rules := []
  codeGenerator := true
  handler _ := .ok []

/-- The backends fail after the tools have run; the user turn and the turn with the call stay. -/
theorem call_left_behind :
    (prompt [listing]).returned = some [push (userMessage (bytes "which tasks are there?")),
      push (assistantMessage [] [call])] ∧
    ¬ Restored (prompt [listing]) [push (userMessage (bytes "which tasks are there?")),
      push (assistantMessage [] [call])] := by
  refine ⟨by decide, ?_⟩
  intro h
  cases h

/-- The backends fail at the first call. -/
theorem first_call_restored :
    (prompt []).returned = some [] ∧ Restored (prompt []) [] := by
  have hr : (prompt []).returned = some [] := by decide
  refine ⟨hr, (restored_iff hr).mpr ⟨rfl, rfl, ?_⟩⟩
  refine ⟨by decide, fun _ => rfl⟩

end Counterexample

end FailedPrompt
