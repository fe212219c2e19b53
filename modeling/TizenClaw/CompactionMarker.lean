import TizenClaw.HistoryCompaction
import TizenClaw.TransitionSystem
import Mathlib.Logic.Function.Basic

/-! The marks of sessions that are being compacted, over the calls of all threads. The lock is free
while the model summarizes, so that sessions change and other calls begin meanwhile. -/
namespace CompactionMarker

open ByteString HistoryCompaction TransitionSystem

variable {α : Type} (M : Messages α)

/-- A call of `CompactHistory` that waits for the model, with the number of messages it sent. -/
structure Call where
  session : Bytes
  count : ℕ

/-- `sessions_`, `session_compacting_` and the calls that wait. -/
structure State (α : Type) where
  sessions : Bytes → Option (List α)
  compacting : Bytes → Bool
  calls : List Call

/-- `change` stands for what other calls do to a session, its removal included. -/
inductive Event (α : Type) where
  | compact (session : Bytes) (hasBackend : Bool)
  | answered (session : Bytes) (answer : Answer)
  | change (session : Bytes) (history : Option (List α))

def step (s : State α) : Event α → Option (State α)
  | .compact session hasBackend =>
    let history := (s.sessions session).getD []
    let start := compactBegin M hasBackend (s.compacting session) history
    some
      { sessions := Function.update s.sessions session (some history)
        compacting := Function.update s.compacting session start.1
        calls := match start.2 with
          | none => s.calls
          | some count => s.calls ++ [⟨session, count⟩] }
  | .answered session answer =>
    (s.calls.find? fun call => call.session = session).map fun call =>
      let after := compactEnd M answer call.count (s.sessions session)
      { sessions := Function.update s.sessions session after.session
        compacting := Function.update s.compacting session after.compacting
        calls := s.calls.filter fun call => call.session ≠ session }
  | .change session history =>
    some { s with sessions := Function.update s.sessions session history }

/-- Runs of the calls from an agent that compacts nothing. -/
def compactions : System (State α) (Event α) where
  Init s := (∀ session, s.compacting session = false) ∧ s.calls = []
  Step s e t := step M s e = some t

/-- A mark stands for a call that waits for the model, and not for one that is over. -/
def Released (s : State α) : Prop :=
  ∀ session, s.compacting session = true → ∃ call ∈ s.calls, call.session = session

/-- Calls that wait are of different sessions, and each of them is marked. -/
structure Marked (s : State α) : Prop where
  distinct : (s.calls.map Call.session).Nodup
  marked : ∀ call ∈ s.calls, s.compacting call.session = true

variable {M} {s t : State α} {e : Event α}

/-- What happens to the mark, and that a summary is begun only where there is none. -/
theorem compactBegin_mark (hasBackend compacting : Bool) (h : List α) :
    (∃ count, compactBegin M hasBackend compacting h = (true, some count) ∧ compacting = false) ∨
      compactBegin M hasBackend compacting h = (compacting, none) := by
  unfold compactBegin
  split_ifs with hn hb hc hcount
  · exact .inr rfl
  · exact .inr rfl
  · exact .inr rfl
  · simp only [kCompactionThreshold, kCompactionCount] at hn hcount
    omega
  · exact .inl ⟨_, rfl, by simpa using hc⟩

theorem compactEnd_mark (answer : Answer) (count : ℕ) (session : Option (List α)) :
    (compactEnd M answer count session).compacting = decide (answer = .threw) := by
  cases answer with
  | threw => rfl
  | replied success text =>
    cases session with
    | none => rfl
    | some hist =>
      dsimp only [compactEnd]
      split_ifs <;> rfl

section Steps

theorem no_call {session : Bytes} (hJ : Marked s) (h : s.compacting session = false) :
    session ∉ s.calls.map Call.session := by
  intro hmem
  obtain ⟨call, hcall, rfl⟩ := List.mem_map.mp hmem
  rw [hJ.marked call hcall] at h
  cases h

/-- A call is begun, or nothing happens to marks and calls. -/
theorem compact_spec {session : Bytes} {hasBackend : Bool}
    (h : step M s (.compact session hasBackend) = some t) :
    (∃ count, s.compacting session = false ∧
        t.compacting = Function.update s.compacting session true ∧
        t.calls = s.calls ++ [⟨session, count⟩]) ∨
      t.compacting = s.compacting ∧ t.calls = s.calls := by
  obtain rfl := Option.some.inj h
  rcases compactBegin_mark (M := M) hasBackend (s.compacting session)
      ((s.sessions session).getD []) with ⟨count, hbegin, hfree⟩ | hbegin
  · refine .inl ⟨count, hfree, ?_⟩
    simp only [hbegin, and_self]
  · refine .inr ?_
    simp only [hbegin, Function.update_eq_self, and_self]

theorem answered_spec {session : Bytes} {answer : Answer}
    (h : step M s (.answered session answer) = some t) :
    (∃ call ∈ s.calls, call.session = session) ∧
      t.compacting = Function.update s.compacting session (decide (answer = .threw)) ∧
      t.calls = s.calls.filter fun call => call.session ≠ session := by
  obtain ⟨call, hcall, rfl⟩ := Option.map_eq_some_iff.mp h
  refine ⟨⟨call, List.mem_of_find?_eq_some hcall, ?_⟩, ?_, rfl⟩
  · simpa using List.find?_some hcall
  · rw [← compactEnd_mark (M := M)]

theorem marked_step (hJ : Marked s) (h : step M s e = some t) : Marked t := by
  cases e with
  | compact session hasBackend =>
    rcases compact_spec h with ⟨count, hfree, hmark, hcalls⟩ | ⟨hmark, hcalls⟩
    · have hnot := no_call hJ hfree
      refine ⟨?_, fun call hcall => ?_⟩
      · rw [hcalls, List.map_append, List.nodup_append']
        exact ⟨hJ.distinct, List.nodup_singleton session,
          List.disjoint_singleton.mpr hnot⟩
      · rw [hmark]
        rw [hcalls, List.mem_append, List.mem_singleton] at hcall
        rcases hcall with hcall | rfl
        · rw [Function.update_of_ne]
          · exact hJ.marked call hcall
          · rintro rfl
            exact hnot (List.mem_map_of_mem hcall)
        · exact Function.update_self ..
    · exact ⟨hcalls ▸ hJ.distinct, fun call hcall => hmark ▸ hJ.marked call (hcalls ▸ hcall)⟩
  | answered session answer =>
    obtain ⟨-, hmark, hcalls⟩ := answered_spec h
    refine ⟨?_, fun call hcall => ?_⟩
    · rw [hcalls]
      exact hJ.distinct.sublist (List.filter_sublist.map _)
    · rw [hcalls, List.mem_filter, decide_eq_true_eq] at hcall
      rw [hmark, Function.update_of_ne hcall.2]
      exact hJ.marked call hcall.1
  | change session history =>
    obtain rfl := Option.some.inj h
    exact ⟨hJ.distinct, hJ.marked⟩

/-- A step keeps to the marks of waiting calls, unless it ends a call by an exception. -/
theorem released_step_iff (hI : Released s) (h : step M s e = some t) :
    Released t ↔ ∀ session, e ≠ .answered session .threw := by
  cases e with
  | compact session hasBackend =>
    refine iff_of_true ?_ fun _ => nofun
    rcases compact_spec h with ⟨count, -, hmark, hcalls⟩ | ⟨hmark, hcalls⟩
    · intro k hk
      rw [hcalls]
      by_cases hks : k = session
      · exact ⟨⟨session, count⟩, by simp, hks.symm⟩
      · rw [hmark, Function.update_of_ne hks] at hk
        obtain ⟨call, hcall, hsession⟩ := hI k hk
        exact ⟨call, List.mem_append_left _ hcall, hsession⟩
    · intro k hk
      rw [hmark] at hk
      rw [hcalls]
      exact hI k hk
  | answered session answer =>
    obtain ⟨-, hmark, hcalls⟩ := answered_spec h
    by_cases hthrew : answer = .threw
    · refine iff_of_false (fun ht => ?_) fun hne => hne session (by rw [hthrew])
      obtain ⟨call, hcall, hsession⟩ := ht session (by
        rw [hmark, Function.update_self, hthrew]
        rfl)
      rw [hcalls, List.mem_filter, decide_eq_true_eq] at hcall
      exact hcall.2 hsession
    · refine iff_of_true (fun k hk => ?_) fun k hk => hthrew (Event.answered.inj hk).2
      rw [hmark] at hk
      by_cases hks : k = session
      · rw [hks, Function.update_self, decide_eq_true_eq] at hk
        exact absurd hk hthrew
      · rw [Function.update_of_ne hks] at hk
        obtain ⟨call, hcall, hsession⟩ := hI k hk
        rw [hcalls]
        refine ⟨call, List.mem_filter.mpr ⟨hcall, ?_⟩, hsession⟩
        rw [hsession]
        exact decide_eq_true hks
  | change session history =>
    obtain rfl := Option.some.inj h
    exact iff_of_true hI fun _ => nofun

end Steps

/-- In a run every mark is of a call that still waits for the model, at all times, exactly if no
model call of a compaction throws. -/
theorem marks_released_iff (M : Messages α) {tr : List (State α × Event α)} {s : State α}
    (h : Run (compactions M) tr s) :
    ((∀ x ∈ tr, Released x.1) ∧ Released s) ↔
      ∀ x ∈ tr, ∀ session, x.2 ≠ .answered session .threw :=
  h.invariant_iff
    (fun s hs session hmark => by
      rw [hs.1 session] at hmark
      cases hmark)
    fun _ _ _ hI hstep => released_step_iff hI hstep

/-- There is one call for a session at most, so that an answer is for the call it names. -/
theorem marked_run {tr : List (State α × Event α)} (h : Run (compactions M) tr s) : Marked s :=
  h.invariant (I := Marked)
    (fun s hs => ⟨by simp [hs.2], fun call hcall => by simp [hs.2] at hcall⟩)
    fun _ _ _ hJ hstep => marked_step hJ hstep

/-- A mark without a call. -/
def Stuck (session : Bytes) (s : State α) : Prop :=
  s.compacting session = true ∧ session ∉ s.calls.map Call.session

/-- Such a mark lets no compaction of its session begin, and nothing takes it away. -/
theorem stuck_step {session : Bytes} (hstuck : Stuck session s) (h : step M s e = some t) :
    Stuck session t := by
  obtain ⟨hmark, hcall⟩ := hstuck
  cases e with
  | compact k hasBackend =>
    rcases compact_spec h with ⟨count, hfree, hmark', hcalls⟩ | ⟨hmark', hcalls⟩
    · have hne : session ≠ k := by
        rintro rfl
        rw [hmark] at hfree
        cases hfree
      refine ⟨by rw [hmark', Function.update_of_ne hne, hmark], ?_⟩
      rw [hcalls, List.map_append, List.mem_append, not_or]
      exact ⟨hcall, by simpa using hne⟩
    · exact ⟨hmark' ▸ hmark, hcalls ▸ hcall⟩
  | answered k answer =>
    obtain ⟨⟨call, hmem, hk⟩, hmark', hcalls⟩ := answered_spec h
    have hne : session ≠ k := by
      rintro rfl
      exact hcall (hk ▸ List.mem_map_of_mem hmem)
    refine ⟨by rw [hmark', Function.update_of_ne hne, hmark], fun hmem' => hcall ?_⟩
    rw [hcalls] at hmem'
    exact (List.filter_sublist.map _).subset hmem'
  | change k history =>
    obtain rfl := Option.some.inj h
    exact ⟨hmark, hcall⟩

/-- After an exception of the model the session is never compacted again. -/
theorem stuck_since {tr₁ tr₂ : List (State α × Event α)} {x : State α × Event α} {session : Bytes}
    (h : Run (compactions M) (tr₁ ++ x :: tr₂) s) (hx : x.2 = .answered session .threw) :
    Stuck session s := by
  refine (h.since (P := fun _ _ => True) (fun t _ hstep => ?_)
    (fun _ _ _ hstuck _ hstep => stuck_step hstuck hstep) fun _ _ => trivial).1
  have hspec := answered_spec (M := M) (t := t) (hx ▸ hstep)
  refine ⟨by rw [hspec.2.1, Function.update_self]; rfl, fun hmem => ?_⟩
  rw [hspec.2.2] at hmem
  obtain ⟨call, hcall, hsession⟩ := List.mem_map.mp hmem
  exact of_decide_eq_true (List.mem_filter.mp hcall).2 hsession

namespace Counterexample

/-- Messages that are told apart by nothing. -/
def plain : Messages LlmTypes.LlmMessage where
  view := id
  compressed text := LlmTypes.assistantMessage (bytes "[compressed] " ++ text) []
  view_compressed _ := rfl

def session : Bytes := bytes "default"

def start : State LlmTypes.LlmMessage where
  sessions k := if k = session then some (List.replicate 16 (LlmTypes.userMessage (bytes "hi")))
    else none
  compacting _ := false
  calls := []

/-- The model throws while it summarizes: the mark stays. -/
theorem mark_left : ∃ tr s, Run (compactions plain) tr s ∧
    (s.compacting session && s.calls.isEmpty) = true :=
  Run.of_execute (M := compactions plain) (s := start) (fun _ _ _ h => h) ⟨fun _ => rfl, rfl⟩
    [.compact session true, .answered session .threw] _ (by decide)

def calm : Event LlmTypes.LlmMessage → Bool
  | .answered _ .threw => false
  | _ => true

/-- With a reply of the model the mark is taken away. -/
theorem mark_released : ∃ tr s, Run (compactions plain) tr s ∧
    ((∀ x ∈ tr, Released x.1) ∧ Released s) ∧ (s.sessions session).map List.length = some 7 := by
  obtain ⟨tr, s, h, hp⟩ := Run.of_execute (M := compactions plain) (s := start)
    (fun _ _ _ h => h) ⟨fun _ => rfl, rfl⟩
    [.compact session true, .answered session (.replied true (bytes "hi"))]
    (fun tr s => tr.all (fun x => calm x.2) && (s.sessions session).map List.length = some 7)
    (by decide)
  rw [Bool.and_eq_true, List.all_eq_true, decide_eq_true_eq] at hp
  refine ⟨tr, s, h, (marks_released_iff plain h).mpr fun x hx k hk => ?_, hp.2⟩
  have hcalm := hp.1 x hx
  rw [hk] at hcalm
  cases hcalm

end Counterexample

end CompactionMarker
