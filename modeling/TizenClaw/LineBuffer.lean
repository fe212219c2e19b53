import Mathlib.Data.List.TakeWhile
import Mathlib.Order.Basic

/-! A stream that arrives in chunks and is handled by lines. The loop cuts the complete lines off
a buffer; taking the stream in one element at a time is the abstract view of it. -/
namespace LineBuffer

variable {α σ : Type*} [DecidableEq α]

structure Buffered (α σ : Type*) where
  buffer : List α := []
  state : σ

section Feed

variable (sep : α) (step : σ → List α → σ)

/-- The loop over the complete lines of the buffer; the fuel bounds their number. -/
def drain : ℕ → Buffered α σ → Buffered α σ
  | 0, s => s
  | n + 1, s =>
    match s.buffer.dropWhile (· ≠ sep) with
    | [] => s
    | _ :: rest => drain n ⟨rest, step s.state (s.buffer.takeWhile (· ≠ sep))⟩

def feed (s : Buffered α σ) (chunk : List α) : Buffered α σ :=
  drain sep step (s.buffer ++ chunk).length { s with buffer := s.buffer ++ chunk }

def push (s : Buffered α σ) (a : α) : Buffered α σ :=
  if a = sep then ⟨[], step s.state s.buffer⟩ else { s with buffer := s.buffer ++ [a] }

end Feed

section Push

variable {sep : α} {step : σ → List α → σ}

theorem foldl_push_open {l : List α} (h : sep ∉ l) (s : Buffered α σ) :
    l.foldl (push sep step) s = { s with buffer := s.buffer ++ l } := by
  induction l generalizing s with
  | nil => simp
  | cons a l ih =>
    rw [List.mem_cons, not_or] at h
    rw [List.foldl_cons, push, if_neg (Ne.symm h.1), ih h.2]
    simp

theorem foldl_push_line {l : List α} (h : sep ∉ l) (s : Buffered α σ) :
    (l ++ [sep]).foldl (push sep step) s = ⟨[], step s.state (s.buffer ++ l)⟩ := by
  rw [List.foldl_append, foldl_push_open h, List.foldl_cons, push, if_pos rfl, List.foldl_nil]

theorem foldl_push_lines {ls : List (List α)} (h : ∀ l ∈ ls, sep ∉ l) (st : σ) :
    (ls.flatMap (· ++ [sep])).foldl (push sep step) ⟨[], st⟩ = ⟨[], ls.foldl step st⟩ := by
  induction ls generalizing st with
  | nil => rfl
  | cons l ls ih =>
    rw [List.forall_mem_cons] at h
    rw [List.flatMap_cons, List.foldl_append, foldl_push_line h.1, ih h.2]
    rfl

theorem foldl_push_buffer (l : List α) {s : Buffered α σ} (hs : sep ∉ s.buffer) :
    sep ∉ (l.foldl (push sep step) s).buffer := by
  induction l generalizing s with
  | nil => exact hs
  | cons a l ih =>
    rw [List.foldl_cons]
    apply ih
    unfold push
    split_ifs with ha
    · exact List.not_mem_nil
    · rw [List.mem_append, List.mem_singleton, not_or]
      exact ⟨hs, Ne.symm ha⟩

/-- A stream is complete lines and a last one that is not finished. -/
theorem exists_lines (sep : α) (s : List α) : ∃ (ls : List (List α)) (rest : List α),
    s = ls.flatMap (· ++ [sep]) ++ rest ∧ (∀ l ∈ ls, sep ∉ l) ∧ sep ∉ rest := by
  induction s with
  | nil => exact ⟨[], [], rfl, by simp, List.not_mem_nil⟩
  | cons a s ih =>
    obtain ⟨ls, rest, rfl, hls, hrest⟩ := ih
    by_cases ha : a = sep
    · refine ⟨[] :: ls, rest, by simp [ha], ?_, hrest⟩
      rw [List.forall_mem_cons]
      exact ⟨List.not_mem_nil, hls⟩
    · cases ls with
      | nil =>
        refine ⟨[], a :: rest, by simp, by simp, ?_⟩
        rw [List.mem_cons, not_or]
        exact ⟨Ne.symm ha, hrest⟩
      | cons l ls =>
        refine ⟨(a :: l) :: ls, rest, by simp, ?_, hrest⟩
        rw [List.forall_mem_cons] at hls ⊢
        rw [List.mem_cons, not_or]
        exact ⟨⟨Ne.symm ha, hls.1⟩, hls.2⟩

end Push

section Loop

variable {sep : α} {step : σ → List α → σ}

/-- The loop handles the lines that end in the buffer and keeps the rest. -/
theorem drain_eq {n : ℕ} {s : Buffered α σ} (hn : s.buffer.length ≤ n) :
    drain sep step n s = s.buffer.foldl (push sep step) { s with buffer := [] } := by
  induction n generalizing s with
  | zero =>
    obtain ⟨buffer, state⟩ := s
    obtain rfl := List.eq_nil_of_length_eq_zero (Nat.le_zero.mp hn)
    rfl
  | succ n ih =>
    have hopen : sep ∉ s.buffer.takeWhile (· ≠ sep) := by
      intro h
      simpa using List.mem_takeWhile_imp h
    unfold drain
    split
    · next hd =>
      have hall : s.buffer.takeWhile (· ≠ sep) = s.buffer := by
        have := List.takeWhile_append_dropWhile (p := (· ≠ sep)) (l := s.buffer)
        rwa [hd, List.append_nil] at this
      rw [hall] at hopen
      rw [foldl_push_open hopen]
      rfl
    · next b rest hd =>
      have hsplit : s.buffer.takeWhile (· ≠ sep) ++ b :: rest = s.buffer := by
        rw [← hd]
        exact List.takeWhile_append_dropWhile
      obtain rfl : b = sep := by
        have := List.head?_dropWhile_not (· ≠ sep) s.buffer
        rw [hd] at this
        simpa using this
      have hlen := congrArg List.length hsplit
      rw [List.length_append, List.length_cons] at hlen
      rw [ih (show rest.length ≤ n by omega)]
      calc rest.foldl (push b step) ⟨[], step s.state (s.buffer.takeWhile (· ≠ b))⟩
        _ = (s.buffer.takeWhile (· ≠ b) ++ [b] ++ rest).foldl (push b step) ⟨[], s.state⟩ := by
          rw [List.foldl_append, foldl_push_line hopen]
          rfl
        _ = s.buffer.foldl (push b step) ⟨[], s.state⟩ := by
          rw [List.append_assoc, List.singleton_append, hsplit]

/-- However the stream is cut into chunks, the lines and the rest are the same. -/
theorem foldl_feed (chunks : List (List α)) {s : Buffered α σ} (hs : sep ∉ s.buffer) :
    chunks.foldl (feed sep step) s = chunks.flatten.foldl (push sep step) s := by
  induction chunks generalizing s with
  | nil => rfl
  | cons chunk chunks ih =>
    have hfeed : feed sep step s chunk = chunk.foldl (push sep step) s := by
      unfold feed
      rw [drain_eq (s := { s with buffer := s.buffer ++ chunk }) le_rfl, List.foldl_append,
        foldl_push_open hs]
      rfl
    rw [List.foldl_cons, List.flatten_cons, List.foldl_append, hfeed]
    exact ih (foldl_push_buffer chunk hs)

end Loop

end LineBuffer
