import TizenClaw.LlmTypes
import Mathlib.Data.List.TakeWhile

/-! Compaction and trimming of a session's history. The entries are messages with an identity,
so that equal messages at two places stay apart. While the model summarizes, the lock is free
and other calls append. -/
namespace HistoryCompaction

open ByteString LlmTypes

def kMaxHistorySize : ℕ := 30
def kCompactionThreshold : ℕ := 15
def kCompactionCount : ℕ := 10

structure Messages (α : Type) where
  view : α → LlmMessage
  compressed : Bytes → α
  view_compressed : ∀ text,
    view (compressed text) = assistantMessage (bytes "[compressed] " ++ text) []

def callsTools (msg : LlmMessage) : Bool := msg.role = .assistant ∧ msg.toolCalls ≠ []
def isToolMessage (msg : LlmMessage) : Bool := msg.role = .tool

/-- What a message adds to the text that is summarized. -/
def summaryLine (msg : LlmMessage) : Bytes :=
  roleText msg.role ++ bytes ": " ++ msg.text ++
    (if msg.toolCalls = [] then []
      else bytes "[called tools: " ++ msg.toolCalls.flatMap (fun tc => tc.name ++ bytes " ") ++
        bytes "]") ++
    (if msg.role = .tool ∧ msg.toolName ≠ [] then bytes "[" ++ msg.toolName ++ bytes " result]"
      else []) ++ [newline]

def compactPrompt (msgs : List LlmMessage) : LlmMessage :=
  userMessage (bytes "Summarize this conversation concisely in 2-3 sentences. Preserve key facts, decisions, and results. Respond ONLY with the summary, nothing else:\n\n" ++ msgs.flatMap summaryLine)

/-- What the model makes of it. -/
inductive Answer where
  | threw
  | replied (success : Bool) (text : Bytes)
  deriving DecidableEq, Repr

variable {α : Type} (M : Messages α)

section Scan

variable (h : List α)

/-- The loop over the results of a call; `room` is what is left up to the last two messages. -/
def takeResults : ℕ → ℕ → ℕ
  | 0, count => count
  | room + 1, count =>
    if (h[count]?).any (fun a => isToolMessage (M.view a)) then takeResults room (count + 1)
    else count

def extendCount : ℕ → ℕ → ℕ
  | 0, count => count
  | room + 1, count =>
    match h[count - 1]? with
    | none => count
    | some last =>
      if callsTools (M.view last) then takeResults M h (room + 1) count
      else if isToolMessage (M.view last) then extendCount room (count + 1)
      else count

/-- How many messages are summarized. -/
def compactCount : ℕ :=
  let count := min kCompactionCount (h.length - 2)
  extendCount M h (h.length - 2 - count) count

end Scan

/-- `CompactHistory` up to the call of the model: the flag and the number of messages. -/
def compactBegin (hasBackend compacting : Bool) (h : List α) : Bool × Option ℕ :=
  if h.length ≤ kCompactionThreshold then (compacting, none)
  else if hasBackend = false then (compacting, none)
  else if compacting then (compacting, none)
  else if min kCompactionCount (h.length - 2) < 2 then (true, none)
  else (true, some (compactCount M h))

/-- Erasing at the front while there are too many. -/
def eraseFront (limit : ℕ) : List α → List α
  | [] => []
  | a :: l => if limit < l.length + 1 then eraseFront limit l else a :: l

/-- The session after `CompactHistory`, what it erased, and the flag. -/
structure Outcome (α : Type) where
  session : Option (List α)
  removed : List α
  compacting : Bool

/-- `CompactHistory` from the moment it has the lock again. -/
def compactEnd (answer : Answer) (count : ℕ) (session : Option (List α)) : Outcome α :=
  match answer with
  | .threw => ⟨session, [], true⟩
  | .replied success text =>
    match session with
    | none => ⟨none, [], false⟩
    | some hist =>
      if success = false ∨ text = [] then
        let kept := eraseFront kCompactionThreshold hist
        ⟨some kept, hist.take (hist.length - kept.length), false⟩
      else if hist.length < count then ⟨some hist, [], false⟩
      else ⟨some (M.compressed text :: hist.drop count), hist.take count, false⟩

/-- The loop at the end of `TrimHistory`. -/
def hardTrim (h : List α) : List α := eraseFront kMaxHistorySize h

theorem eraseFront_eq (limit : ℕ) (l : List α) :
    eraseFront limit l = l.drop (l.length - limit) := by
  induction l with
  | nil => simp [eraseFront]
  | cons a l ih =>
    unfold eraseFront
    split_ifs with h
    · rw [ih, List.length_cons, show l.length + 1 - limit = (l.length - limit) + 1 by omega,
        List.drop_succ_cons]
    · rw [List.length_cons, show l.length + 1 - limit = 0 by omega, List.drop_zero]

section Boundary

variable (h : List α)

def resultRun (l : List α) : ℕ := (l.takeWhile fun a => isToolMessage (M.view a)).length

/-- The position after the message that ends the results from `i` on, and after its own results
when it calls tools. -/
def exchangeEnd (i : ℕ) : ℕ :=
  let q := i + resultRun M (h.drop i)
  if (h[q]?).any (fun a => callsTools (M.view a)) then q + 1 + resultRun M (h.drop (q + 1))
  else q + 1

/-- Where the compressed part ends: behind the exchange of the tenth message, but never among
the last two. -/
def boundary : ℕ := min (h.length - 2) (exchangeEnd M h (kCompactionCount - 1))

variable {h}

theorem resultRun_drop {i : ℕ} {a : α} (ha : h[i]? = some a) :
    resultRun M (h.drop i) =
      if isToolMessage (M.view a) then 1 + resultRun M (h.drop (i + 1)) else 0 := by
  obtain ⟨hi, rfl⟩ := List.getElem?_eq_some_iff.mp ha
  rw [resultRun, List.drop_eq_getElem_cons hi, List.takeWhile_cons]
  split_ifs
  · rw [List.length_cons, resultRun, Nat.add_comm]
  · rfl

theorem takeResults_eq {room count : ℕ} (hroom : count + room ≤ h.length) :
    takeResults M h room count = min (count + room) (count + resultRun M (h.drop count)) := by
  induction room generalizing count with
  | zero =>
    rw [takeResults]
    omega
  | succ room ih =>
    obtain ⟨a, ha⟩ : ∃ a, h[count]? = some a := ⟨_, List.getElem?_eq_getElem (by omega)⟩
    rw [takeResults, ha, Option.any_some, resultRun_drop M ha]
    split_ifs
    · rw [ih (by omega)]
      omega
    · omega

/-- The scan finds the end of the exchange. -/
theorem extendCount_eq {room count : ℕ} (hpos : 0 < count) (hroom : count + room ≤ h.length) :
    extendCount M h room count = min (count + room) (exchangeEnd M h (count - 1)) := by
  induction room generalizing count with
  | zero =>
    have : count ≤ exchangeEnd M h (count - 1) := by
      unfold exchangeEnd
      dsimp only
      split_ifs <;> omega
    rw [extendCount]
    omega
  | succ room ih =>
    obtain ⟨a, ha⟩ : ∃ a, h[count - 1]? = some a := ⟨_, List.getElem?_eq_getElem (by omega)⟩
    have hrun := resultRun_drop M ha
    have hcount : count - 1 + 1 = count := by omega
    rw [hcount] at hrun
    rw [extendCount, ha]
    dsimp only
    by_cases hc : callsTools (M.view a) = true
    · have ht : isToolMessage (M.view a) = false := by
        simp only [callsTools, decide_eq_true_eq] at hc
        simp [isToolMessage, hc.1]
      rw [if_pos hc, takeResults_eq M hroom]
      simp [exchangeEnd, hrun, ht, ha, hc, hcount]
    · rw [if_neg hc]
      by_cases ht : isToolMessage (M.view a) = true
      · rw [if_pos ht, ih (by omega) (by omega)]
        have hnext : exchangeEnd M h (count - 1) = exchangeEnd M h (count + 1 - 1) := by
          simp only [exchangeEnd, hrun, ht, if_true, Nat.add_sub_cancel,
            show count - 1 + (1 + resultRun M (h.drop count)) =
              count + resultRun M (h.drop count) by omega]
        rw [hnext, show count + 1 + room = count + (room + 1) by omega]
      · rw [if_neg ht]
        simp only [exchangeEnd, hrun, ht, Bool.false_eq_true, if_false, Nat.add_zero, ha,
          Option.any_some, hc, hcount]
        omega

theorem compactCount_eq (hn : kCompactionThreshold < h.length) :
    compactCount M h = boundary M h := by
  have hmin : min kCompactionCount (h.length - 2) = kCompactionCount := by
    simp only [kCompactionThreshold] at hn
    simp only [kCompactionCount]
    omega
  have hle : kCompactionCount ≤ h.length - 2 := by omega
  rw [compactCount, hmin, extendCount_eq M (by decide) (by omega), boundary]
  congr 1
  omega

end Boundary

section Cuts

/-- A summary is begun, so that the lock is released. -/
def Begins (hasBackend compacting : Bool) (h : List α) : Prop :=
  kCompactionThreshold < h.length ∧ hasBackend = true ∧ compacting = false

instance (hasBackend compacting : Bool) (h : List α) : Decidable (Begins hasBackend compacting h) :=
  inferInstanceAs (Decidable (_ ∧ _))

theorem compactBegin_snd (hasBackend compacting : Bool) (h : List α) :
    (compactBegin M hasBackend compacting h).2 =
      if Begins hasBackend compacting h then some (boundary M h) else none := by
  by_cases hs : Begins hasBackend compacting h
  · obtain ⟨hn, rfl, rfl⟩ := hs
    have hcount : ¬ min kCompactionCount (h.length - 2) < 2 := by
      simp only [kCompactionThreshold] at hn
      simp only [kCompactionCount]
      omega
    rw [if_pos ⟨hn, rfl, rfl⟩, compactBegin, if_neg (Nat.not_le.mpr hn), if_neg (by decide),
      if_neg (by decide), if_neg hcount, compactCount_eq M hn]
  · rw [if_neg hs]
    unfold compactBegin
    split_ifs with hn hb hc
    · rfl
    · rfl
    · rfl
    · rfl
    · exact absurd ⟨Nat.lt_of_not_le hn, by simpa using hb, by simpa using hc⟩ hs

/-- How much of a history of `n` messages `CompactHistory` erases when it has the lock again. -/
def endCut (answer : Answer) (count n : ℕ) : ℕ :=
  match answer with
  | .threw => 0
  | .replied success text =>
    if success = false ∨ text = [] then n - kCompactionThreshold
    else if n < count then 0 else count

/-- What is left stands behind a summary at most. -/
theorem compactEnd_session (answer : Answer) (count : ℕ) (h : List α) :
    ∃ front : List α, (∀ a ∈ front, ∃ text, a = M.compressed text) ∧
      (compactEnd M answer count (some h)).session =
        some (front ++ h.drop (endCut answer count h.length)) := by
  cases answer with
  | threw => exact ⟨[], by simp, rfl⟩
  | replied success text =>
    dsimp only [compactEnd, endCut]
    split_ifs with hf hlen
    · exact ⟨[], by simp, by rw [eraseFront_eq, List.nil_append]⟩
    · exact ⟨[], by simp, rfl⟩
    · refine ⟨[M.compressed text], ?_, rfl⟩
      intro a ha
      exact ⟨text, List.mem_singleton.mp ha⟩

theorem hardTrim_front (front l : List α) (k : ℕ) :
    hardTrim (front ++ l.drop k) =
      front.drop (front.length + (l.length - k) - kMaxHistorySize) ++
        l.drop (max k (l.length - kMaxHistorySize)) := by
  rw [hardTrim, eraseFront_eq, List.length_append, List.length_drop, List.drop_append,
    List.drop_drop]
  congr 2
  omega

end Cuts

end HistoryCompaction
