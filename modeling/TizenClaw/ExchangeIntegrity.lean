import TizenClaw.HistoryCompaction
import Mathlib.Data.List.Nodup

/-! What compaction and trimming keep of the tool exchanges of a history. Every truncation cuts a
prefix of all that was ever appended, so all depends on where the cut falls. -/
namespace ExchangeIntegrity

open ByteString LlmTypes HistoryCompaction

variable {α : Type} (M : Messages α)

/-- `t` answers a call of the assistant message `a`. -/
def Issues (a t : α) : Prop :=
  (M.view a).role = .assistant ∧
    (M.view t).toolCallId ∈ (M.view a).toolCalls.map LlmToolCall.id

/-- Every tool message has an assistant message that issued it before it. -/
def Issued (l : List α) : Prop :=
  ∀ l₁ t l₂, l = l₁ ++ t :: l₂ → isToolMessage (M.view t) = true → ∃ a ∈ l₁, Issues M a t

/-- An assistant message that is left still has the results it had. -/
def KeepsResults (before after : List α) : Prop :=
  ∀ l₁ a l₂, before = l₁ ++ a :: l₂ → a ∈ after →
    ∀ t ∈ l₂, isToolMessage (M.view t) = true → Issues M a t → t ∈ after

section Cuts

/-- An entry that neither answers nor issues anything, as a summary. -/
structure Inert (a : α) : Prop where
  not_tool : isToolMessage (M.view a) = false
  issues_none : ∀ t, ¬ Issues M a t

theorem compressed_inert (text : Bytes) : Inert M (M.compressed text) where
  not_tool := by rw [M.view_compressed]; rfl
  issues_none t h := by
    rw [Issues, M.view_compressed] at h
    simp [assistantMessage] at h

variable {M}

theorem issued_cons_inert {a : α} (ha : Inert M a) (l : List α) :
    Issued M (a :: l) ↔ Issued M l := by
  constructor
  · rintro h l₁ t l₂ rfl ht
    obtain ⟨b, hb, hi⟩ := h (a :: l₁) t l₂ rfl ht
    rcases List.mem_cons.mp hb with rfl | hb
    · exact absurd hi (ha.issues_none t)
    · exact ⟨b, hb, hi⟩
  · intro h l₁ t l₂ hl ht
    cases l₁ with
    | nil =>
      obtain ⟨rfl, rfl⟩ : a = t ∧ l = l₂ := by simpa using hl
      rw [ha.not_tool] at ht
      cases ht
    | cons b l₁ =>
      obtain ⟨rfl, rfl⟩ : a = b ∧ l = l₁ ++ t :: l₂ := by simpa using hl
      obtain ⟨c, hc, hi⟩ := h l₁ t l₂ rfl ht
      exact ⟨c, List.mem_cons_of_mem _ hc, hi⟩

theorem issued_front {front : List α} (hf : ∀ a ∈ front, Inert M a) (l : List α) :
    Issued M (front ++ l) ↔ Issued M l := by
  induction front with
  | nil => rfl
  | cons a front ih =>
    rw [List.cons_append, issued_cons_inert (hf a (by simp)),
      ih fun b hb => hf b (List.mem_cons_of_mem a hb)]

/-- Results come after their call, so cutting at the front never takes them from it. -/
theorem keepsResults_drop {l front : List α} (hl : l.Nodup) (hf : ∀ a ∈ front, Inert M a)
    (k : ℕ) : KeepsResults M l (front ++ l.drop k) := by
  rintro l₁ a l₂ rfl ha t ht - hi
  rcases List.mem_append.mp ha with ha | ha
  · exact absurd hi ((hf a ha).issues_none t)
  · apply List.mem_append_right
    by_cases hk : k ≤ l₁.length
    · rw [List.drop_append_of_le_length hk]
      simp [ht]
    · exfalso
      obtain ⟨j, rfl⟩ : ∃ j, k = l₁.length + (j + 1) := ⟨k - l₁.length - 1, by omega⟩
      rw [List.drop_append, List.drop_eq_nil_of_le (by omega), List.nil_append,
        Nat.add_sub_cancel_left, List.drop_succ_cons] at ha
      have hnd : (a :: l₂).Nodup := (List.nodup_append.mp hl).2.1
      exact (List.nodup_cons.mp hnd).1 (List.mem_of_mem_drop ha)

end Cuts

/-- A section of another call while the summary is made. -/
structure Push (α : Type) where
  messages : List α
  trims : Bool

/-- The other call finds the flag set, so its `TrimHistory` only applies the hard limit. -/
def push (h : List α) (p : Push α) : List α :=
  if p.trims then hardTrim (h ++ p.messages) else h ++ p.messages

/-- How far the sections that trim run over the hard limit. -/
def overrun : ℕ → List (Push α) → ℕ
  | _, [] => 0
  | n, p :: ps =>
    max (if p.trims then n + p.messages.length - kMaxHistorySize else 0)
      (overrun (n + p.messages.length) ps)

theorem push_drop (l : List α) {k : ℕ} (hk : k ≤ l.length) (p : Push α) :
    push (l.drop k) p = (l ++ p.messages).drop
      (max k (if p.trims then l.length + p.messages.length - kMaxHistorySize else 0)) := by
  unfold push
  rw [← List.drop_append_of_le_length hk]
  split_ifs
  · rw [hardTrim, eraseFront_eq, List.drop_drop, List.length_drop, List.length_append]
    congr 1
    omega
  · rw [Nat.max_zero]

theorem foldl_push (ps : List (Push α)) (l : List α) {k : ℕ} (hk : k ≤ l.length) :
    ps.foldl push (l.drop k) =
      (l ++ ps.flatMap Push.messages).drop (max k (overrun l.length ps)) := by
  induction ps generalizing l k with
  | nil => simp [overrun]
  | cons p ps ih =>
    have hbound : max k (if p.trims then l.length + p.messages.length - kMaxHistorySize else 0) ≤
        (l ++ p.messages).length := by
      rw [List.length_append]
      split_ifs <;> omega
    rw [List.foldl_cons, push_drop l hk, ih _ hbound, List.flatMap_cons, ← List.append_assoc,
      List.length_append, overrun, Nat.max_assoc]

/-- One call of `TrimHistory`: the history it finds, what the model answers to a prompt, and
what other calls append meanwhile. -/
structure Situation (M : Messages α) where
  history : List α
  hasBackend : Bool
  compacting : Bool
  chat : LlmMessage → Answer
  pushes : List (Push α)
  distinct : (history ++ pushes.flatMap Push.messages).Nodup

section Operations

variable {M} (c : Situation M)

/-- What the model says to the oldest messages. -/
def answer (count : ℕ) : Answer :=
  c.chat (compactPrompt ((c.history.take count).map M.view))

def compactHistory : Outcome α :=
  match compactBegin M c.hasBackend c.compacting c.history with
  | (flag, none) => ⟨some c.history, [], flag⟩
  | (_, some count) => compactEnd M (answer c count) count (some (c.pushes.foldl push c.history))

def trimHistory : Option (List α) :=
  (if kCompactionThreshold < c.history.length then (compactHistory c).session
    else some c.history).map hardTrim

abbrev Starts : Prop := Begins c.hasBackend c.compacting c.history

def Succeeded (a : Answer) : Prop := ∃ text ≠ [], a = .replied true text

/-- Everything that was in the history before or has been appended. -/
def total : List α :=
  if Starts c then c.history ++ c.pushes.flatMap Push.messages else c.history

/-- What the claim asks of one call. -/
structure Faithful : Prop where
  compacted : ∀ l ∈ (compactHistory c).session, Issued M l ∧ KeepsResults M (total c) l
  trimmed : ∀ l ∈ trimHistory c, Issued M l ∧ KeepsResults M (total c) l
  summarized : ∀ count, (compactBegin M c.hasBackend c.compacting c.history).2 = some count →
    Succeeded (answer c count) → (compactHistory c).removed = c.history.take count

/-- Where `CompactHistory` cuts: behind the overrun of the other calls. -/
def compactCut : ℕ :=
  if Starts c then
    let k := overrun c.history.length c.pushes
    k + endCut (answer c (boundary M c.history)) (boundary M c.history) ((total c).length - k)
  else 0

def trimCut : ℕ := max (compactCut c) ((total c).length - kMaxHistorySize)

end Operations

section Main

variable {M}

variable (c : Situation M)

theorem compactHistory_of_not_starts (h : ¬ Starts c) :
    (compactHistory c).session = some c.history := by
  have hb := compactBegin_snd M c.hasBackend c.compacting c.history
  rw [if_neg h] at hb
  unfold compactHistory
  split
  · rfl
  · rename_i count hc
    rw [hc] at hb
    cases hb

theorem compactHistory_of_starts (h : Starts c) :
    compactHistory c = compactEnd M (answer c (boundary M c.history)) (boundary M c.history)
      (some ((total c).drop (overrun c.history.length c.pushes))) := by
  have hb := compactBegin_snd M c.hasBackend c.compacting c.history
  have hpush := foldl_push c.pushes c.history (Nat.zero_le _)
  rw [List.drop_zero, Nat.zero_max] at hpush
  rw [if_pos h] at hb
  unfold compactHistory
  split
  · rename_i hc
    rw [hc] at hb
    cases hb
  · rename_i count hc
    rw [hc] at hb
    obtain rfl := Option.some.inj hb
    rw [hpush, total, if_pos h]

theorem compactHistory_session : ∃ front : List α, (∀ a ∈ front, Inert M a) ∧
    (compactHistory c).session = some (front ++ (total c).drop (compactCut c)) := by
  by_cases h : Starts c
  · obtain ⟨front, hf, hs⟩ := compactEnd_session M (answer c (boundary M c.history))
      (boundary M c.history) ((total c).drop (overrun c.history.length c.pushes))
    refine ⟨front, ?_, ?_⟩
    · intro a ha
      obtain ⟨text, rfl⟩ := hf a ha
      exact compressed_inert M text
    · rw [compactHistory_of_starts c h, hs, List.drop_drop, List.length_drop, compactCut,
        if_pos h]
  · rw [compactHistory_of_not_starts c h, compactCut, if_neg h, total, if_neg h]
    exact ⟨[], by simp, rfl⟩

theorem trimHistory_eq : ∃ front : List α, (∀ a ∈ front, Inert M a) ∧
    trimHistory c = some (front ++ (total c).drop (trimCut c)) := by
  obtain ⟨front, hf, hs⟩ := compactHistory_session c
  have hsession : (if kCompactionThreshold < c.history.length then (compactHistory c).session
      else some c.history) = some (front ++ (total c).drop (compactCut c)) := by
    split_ifs with hn
    · exact hs
    · rw [← hs, compactHistory_of_not_starts c fun h => hn h.1]
  refine ⟨front.drop (front.length + ((total c).length - compactCut c) - kMaxHistorySize), ?_, ?_⟩
  · exact fun a ha => hf a (List.mem_of_mem_drop ha)
  · rw [trimHistory, hsession, Option.map_some, hardTrim_front]
    rfl

theorem total_nodup : (total c).Nodup := by
  unfold total
  split_ifs
  · exact c.distinct
  · exact (List.nodup_append.mp c.distinct).1

/-- Removed and summarized are the same exactly when nothing was trimmed meanwhile. -/
theorem removed_eq_summarized_iff (h : Starts c)
    (hs : Succeeded (answer c (boundary M c.history))) :
    (compactHistory c).removed = c.history.take (boundary M c.history) ↔
      overrun c.history.length c.pushes = 0 := by
  obtain ⟨text, ht, ha⟩ := hs
  have hn := h.1
  have hpos : 0 < boundary M c.history := by
    have hend : kCompactionCount - 1 < exchangeEnd M c.history (kCompactionCount - 1) := by
      unfold exchangeEnd
      dsimp only
      split_ifs <;> omega
    simp only [kCompactionThreshold] at hn
    simp only [boundary]
    omega
  have hle : boundary M c.history ≤ c.history.length := by
    simp only [boundary]
    omega
  have htotal : total c = c.history ++ c.pushes.flatMap Push.messages := if_pos h
  rw [compactHistory_of_starts c h, ha]
  simp only [compactEnd, ht, Bool.true_eq_false, or_self, if_false]
  generalize overrun c.history.length c.pushes = k
  constructor
  · intro he
    by_contra hk
    split_ifs at he with hlen
    · have := congrArg List.length he
      rw [List.length_nil, List.length_take] at this
      omega
    · rw [List.length_drop] at hlen
      have hlt : k < (total c).length := by omega
      have hget : (total c)[k]? = (total c)[0]? := by
        have := congrArg (fun l => l[0]?) he
        simp only [List.getElem?_take, hpos, if_true, List.getElem?_drop, Nat.add_zero] at this
        rw [this, htotal, List.getElem?_append_left (by omega)]
      exact hk ((List.getElem?_inj hlt (total_nodup c)).mp hget)
  · rintro rfl
    rw [List.drop_zero, if_neg, htotal, List.take_append_of_le_length hle]
    rw [htotal, List.length_append]
    omega

/-- A call splits no exchange and loses no message exactly when no tool message behind one of
the cuts has its assistant message before it, and a summary that succeeds was made while no
other call trimmed. -/
theorem faithful_iff : Faithful c ↔
    Issued M ((total c).drop (compactCut c)) ∧ Issued M ((total c).drop (trimCut c)) ∧
      (Starts c → Succeeded (answer c (boundary M c.history)) →
        overrun c.history.length c.pushes = 0) := by
  obtain ⟨front, hf, hs⟩ := compactHistory_session c
  obtain ⟨front', hf', ht⟩ := trimHistory_eq c
  have hb := compactBegin_snd M c.hasBackend c.compacting c.history
  constructor
  · intro h
    refine ⟨?_, ?_, fun hst hok => ?_⟩
    · exact (issued_front hf _).mp (h.compacted _ hs).1
    · exact (issued_front hf' _).mp (h.trimmed _ ht).1
    · rw [if_pos hst] at hb
      exact (removed_eq_summarized_iff c hst hok).mp (h.summarized _ hb hok)
  · rintro ⟨hc, htr, hover⟩
    refine ⟨?_, ?_, ?_⟩
    · intro l hl
      obtain rfl := Option.some.inj (hs.symm.trans hl)
      exact ⟨(issued_front hf _).mpr hc, keepsResults_drop (total_nodup c) hf _⟩
    · intro l hl
      obtain rfl := Option.some.inj (ht.symm.trans hl)
      exact ⟨(issued_front hf' _).mpr htr, keepsResults_drop (total_nodup c) hf' _⟩
    · intro count hcount hok
      by_cases hst : Starts c
      · rw [if_pos hst, hcount] at hb
        obtain rfl := Option.some.inj hb
        exact (removed_eq_summarized_iff c hst hok).mpr (hover hst hok)
      · rw [if_neg hst, hcount] at hb
        cases hb

end Main

namespace Counterexample

/-- Messages with a serial number. -/
def numbered : Messages (ℕ × LlmMessage) where
  view := Prod.snd
  compressed text := (100, assistantMessage (bytes "[compressed] " ++ text) [])
  view_compressed _ := rfl

def prompts (n : ℕ) : List (ℕ × LlmMessage) :=
  (List.range n).map fun i => (i, userMessage (bytes "go on"))

def calls : List LlmToolCall :=
  ["a", "b", "c", "d", "e", "f"].map fun id => ⟨bytes id, bytes "read", .null⟩

def results : List (ℕ × LlmMessage) :=
  calls.mapIdx fun i tc => (10 + i, { role := .tool, toolName := tc.name, toolCallId := tc.id })

/-- The tenth message calls six tools, so that its exchange reaches into the last two. -/
def longExchange : Situation numbered where
  history := prompts 9 ++ (9, assistantMessage [] calls) :: results
  hasBackend := true
  compacting := false
  chat _ := .replied true (bytes "summary")
  pushes := []
  distinct := by decide

/-- A full history, and another prompt while the summary is made. -/
def fullHistory : Situation numbered where
  history := prompts 30
  hasBackend := true
  compacting := false
  chat _ := .replied true (bytes "summary")
  pushes := [⟨[(30, userMessage (bytes "hello"))], true⟩]
  distinct := by decide

/-- Results are left without their call, and an unsummarized message is erased. -/
theorem exchange_split_and_message_lost : ¬ Faithful longExchange ∧ ¬ Faithful fullHistory := by
  constructor
  · intro h
    have hs : (compactHistory longExchange).session =
        some (numbered.compressed (bytes "summary") :: results.drop 4) := by decide
    obtain ⟨a, ha, hi⟩ := (h.compacted _ hs).1 [numbered.compressed (bytes "summary")]
      (14, { role := .tool, toolName := bytes "read", toolCallId := bytes "e" })
      (results.drop 5) (by decide) rfl
    obtain rfl := List.mem_singleton.mp ha
    exact (compressed_inert numbered _).issues_none _ hi
  · intro h
    have hb : (compactBegin numbered true false fullHistory.history).2 = some 10 := by
      decide
    have hr := h.summarized 10 hb ⟨bytes "summary", by decide, rfl⟩
    revert hr
    decide

end Counterexample

end ExchangeIntegrity
