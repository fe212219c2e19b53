import TizenClaw.SafetyChecks
import TizenClaw.SlidingWindow
import Mathlib.Algebra.Order.Group.Int

/-! The rate limit of the actions over any sequence of calls: the history of a tool is its log of
allowed calls, as far as a call can still see it. -/
namespace RateWindow

open ByteString SafetyChecks SlidingWindow

structure Call where
  name : Bytes
  time : ℤ

/-- The calls that were allowed are kept beside the history, which the limit does not read. -/
structure State where
  history : RateHistory := fun _ => []
  allowed : Bytes → List ℤ := fun _ => []

variable (g : SafetyGuard)

def step (s : State) (c : Call) : State :=
  let r := checkActionRateLimit g s.history c.time c.name
  { history := r.2
    allowed := if r.1 then s.allowed
      else Function.update s.allowed c.name (s.allowed c.name ++ [c.time]) }

/-- The state after some calls. -/
def after (calls : List Call) : State := calls.foldl (step g) {}

/-- Whether a call after these is allowed. -/
def Allowed (calls : List Call) (c : Call) : Prop :=
  (checkActionRateLimit g (after g calls).history c.time c.name).1 = false

instance (calls : List Call) (c : Call) : Decidable (Allowed g calls c) :=
  inferInstanceAs (Decidable (_ = _))

/-- The history of a tool is the end of its log; what is missing has expired by the given time. -/
structure Kept (rule : ActionRateRule) (now : ℤ) (history allowed : List ℤ) : Prop where
  limited : Limited (rule.windowSeconds : ℤ) rule.maxCalls allowed
  past : ∀ t ∈ allowed, t ≤ now
  suffix : ∃ expired, allowed = expired ++ history ∧ ∀ t ∈ expired, t < now - rule.windowSeconds

variable {g} {rule : ActionRateRule} {now now' : ℤ} {history allowed : List ℤ}

theorem Kept.later (h : Kept rule now history allowed) (hle : now ≤ now') :
    Kept rule now' history allowed := by
  obtain ⟨expired, heq, hexp⟩ := h.suffix
  refine ⟨h.limited, fun t ht => (h.past t ht).trans hle, expired, heq, fun t ht => ?_⟩
  have hlt := hexp t ht
  omega

/-- What is left of the history is as much as the log has in the window. -/
theorem Kept.length_recent (h : Kept rule now history allowed) :
    (history.dropWhile fun t => t < now - rule.windowSeconds).length =
      within (now - rule.windowSeconds) now allowed := by
  obtain ⟨expired, rfl, hexp⟩ := h.suffix
  have hsorted := (List.pairwise_append.mp h.limited.pairwise).2.1
  rw [within_append, within_eq_zero hexp, zero_add]
  exact length_dropWhile hsorted fun t ht => h.past t (List.mem_append_right _ ht)

theorem Kept.drop (h : Kept rule now history allowed) :
    Kept rule now (history.dropWhile fun t => t < now - rule.windowSeconds) allowed := by
  obtain ⟨expired, heq, hexp⟩ := h.suffix
  obtain ⟨more, hmore, hlt⟩ := dropWhile_split (now - rule.windowSeconds) history
  refine ⟨h.limited, h.past, expired ++ more, ?_, fun t ht => ?_⟩
  · rw [List.append_assoc, ← hmore, heq]
  · rcases List.mem_append.mp ht with ht | ht
    · exact hexp t ht
    · exact hlt t ht

theorem Kept.add (h : Kept rule now history allowed)
    (hlt : (within (now - rule.windowSeconds) now allowed : ℤ) < rule.maxCalls) :
    Kept rule now (history ++ [now]) (allowed ++ [now]) := by
  obtain ⟨expired, heq, hexp⟩ := h.suffix
  refine ⟨h.limited.snoc h.past hlt, fun t ht => ?_, expired, ?_, hexp⟩
  · rcases List.mem_append.mp ht with ht | ht
    · exact h.past t ht
    · exact (List.mem_singleton.mp ht).le
  · rw [heq, List.append_assoc]

section Calls

variable {s : State} {c : Call} {name : Bytes}

theorem limited_iff (hrule : g.rateRules.lookup c.name = some rule)
    (h : Kept rule c.time (s.history c.name) (s.allowed c.name)) :
    (checkActionRateLimit g s.history c.time c.name).1 = false ↔
      (within (c.time - rule.windowSeconds) c.time (s.allowed c.name) : ℤ) < rule.maxCalls := by
  rw [← h.length_recent, checkActionRateLimit, hrule]
  dsimp only
  split_ifs with hmax
  · exact iff_of_false (by simp) hmax.not_gt
  · exact iff_of_true rfl (not_le.mp hmax)

theorem step_of_ne (hne : name ≠ c.name) :
    (step g s c).history name = s.history name ∧ (step g s c).allowed name = s.allowed name := by
  unfold step checkActionRateLimit
  cases g.rateRules.lookup c.name with
  | none => simp [Function.update_of_ne hne]
  | some rule => dsimp only; split_ifs <;> simp [Function.update_of_ne hne]

theorem kept_step (hrule : g.rateRules.lookup name = some rule)
    (h : Kept rule c.time (s.history name) (s.allowed name)) :
    Kept rule c.time ((step g s c).history name) ((step g s c).allowed name) := by
  by_cases hne : name = c.name
  · subst hne
    have hiff := limited_iff hrule h
    by_cases hmax : rule.maxCalls ≤
        ((s.history c.name).dropWhile fun t => t < c.time - rule.windowSeconds).length
    · simpa [step, checkActionRateLimit, hrule, hmax] using h.drop
    · have hlt := hiff.mp (by simp [checkActionRateLimit, hrule, hmax])
      simpa [step, checkActionRateLimit, hrule, hmax] using h.drop.add hlt
  · rw [(step_of_ne hne).1, (step_of_ne hne).2]
    exact h

theorem kept_after (hrule : g.rateRules.lookup name = some rule) {calls : List Call}
    (h : calls.Pairwise fun a b => a.time ≤ b.time) (hle : ∀ c ∈ calls, c.time ≤ now) :
    Kept rule now ((after g calls).history name) ((after g calls).allowed name) := by
  induction calls using List.reverseRecOn generalizing now with
  | nil => exact ⟨.nil, by simp [after], [], rfl, by simp⟩
  | append_singleton calls c ih =>
    obtain ⟨hcalls, -, hlast⟩ := List.pairwise_append.mp h
    rw [after, List.foldl_append]
    refine (kept_step hrule (ih hcalls fun b hb => ?_)).later ?_
    · exact hlast b hb c (List.mem_singleton_self c)
    · exact hle c (by simp)

end Calls

/-- A call is allowed exactly if the window that ends with it has fewer allowed calls of its tool
than the maximum, and no window of that length ever has more of them; a tool without a rule is not
limited. -/
theorem sliding_window (g : SafetyGuard) (calls : List Call) (c : Call)
    (h : (calls ++ [c]).Pairwise fun a b => a.time ≤ b.time) :
    (Allowed g calls c ↔ ∀ rule ∈ g.rateRules.lookup c.name,
      (within (c.time - rule.windowSeconds) c.time ((after g calls).allowed c.name) : ℤ) <
        rule.maxCalls) ∧
    ∀ name, ∀ rule ∈ g.rateRules.lookup name, ∀ start,
      (within start (start + rule.windowSeconds) ((after g (calls ++ [c])).allowed name) : ℤ) ≤
        max rule.maxCalls 0 := by
  obtain ⟨hcalls, -, hlast⟩ := List.pairwise_append.mp h
  constructor
  · cases hrule : g.rateRules.lookup c.name with
    | none =>
      refine iff_of_true ?_ (by simp)
      rw [Allowed, checkActionRateLimit, hrule]
    | some rule =>
      have hkept := kept_after hrule hcalls fun b hb => hlast b hb c (List.mem_singleton_self c)
      simpa [Allowed] using limited_iff hrule hkept
  · intro name rule hrule start
    rw [Option.mem_def] at hrule
    have hle : ∀ b ∈ calls ++ [c], b.time ≤ c.time := by
      intro b hb
      rcases List.mem_append.mp hb with hb | hb
      · exact hlast b hb c (List.mem_singleton_self c)
      · rw [List.mem_singleton.mp hb]
    exact (kept_after hrule h hle).limited.window start

namespace Example

def tool : Bytes := bytes "send_sms"

/-- Two calls within ten seconds. -/
def guard : SafetyGuard where
  rateRules := [(tool, ⟨2, 10⟩)]

/-- The third call comes at the last second of the window. -/
def calls : List Call := [⟨tool, 0⟩, ⟨tool, 5⟩, ⟨tool, 10⟩]

theorem third_denied : ¬ Allowed guard (calls.take 2) ⟨tool, 10⟩ ∧
    (Allowed guard calls ⟨tool, 11⟩ ↔ ∀ rule ∈ guard.rateRules.lookup tool,
      (within (11 - rule.windowSeconds) 11 ((after guard calls).allowed tool) : ℤ) <
        rule.maxCalls) :=
  ⟨by decide, (sliding_window guard calls ⟨tool, 11⟩ (by decide)).1⟩

end Example

end RateWindow
