import TizenClaw.PipelineExecutor
import TizenClaw.ToolPolicy

/-! The guards against loops, over any sequence of calls and resets of any sessions: repeated calls
with the 32-bit counts of the code, and idle rounds. -/
namespace LoopGuards

open ByteString JsonValue JsonDump PipelineExecutor ToolPolicy

section Guards

/-- `call_history_` with its counts of type `int`. -/
abbrev CountHistory := Bytes → Bytes → ℤ

structure State where
  callHistory : CountHistory := fun _ _ => 0
  idleHistory : IdleHistory := fun _ => []

/-- The text of a refusal names the count as it stands, which may have wrapped around. -/
def countText (cfg : ToolPolicyConfig) (name : Bytes) (count : ℤ) : Bytes :=
  bytes "Tool '" ++ name ++ bytes "' with identical arguments has been called " ++
    decimalInt count ++ bytes " times (limit: " ++ decimalInt cfg.maxRepeatCount ++
    bytes "). Execution blocked to prevent infinite loop. Please try a different approach."

variable (cfg : ToolPolicyConfig) (stdHash : Bytes → ℕ)

/-- `CheckPolicy` with the wrapping count. -/
def checkPolicy (history : CountHistory) (session name : Bytes) (args : Json) :
    Bytes × CountHistory :=
  if name ∈ cfg.blockedSkills then (blockedText name, history)
  else
    let hash := hashCall stdHash name args
    let count := wrap32 (history session hash + 1)
    let history := Function.update history session (Function.update (history session) hash count)
    if cfg.maxRepeatCount < count then (countText cfg name count, history) else ([], history)

inductive Op where
  | checkPolicy (session name : Bytes) (args : Json)
  | checkIdleProgress (session output : Bytes)
  | resetSession (session : Bytes)
  | resetIdleTracking (session : Bytes)

def Op.session : Op → Bytes
  | .checkPolicy session _ _ => session
  | .checkIdleProgress session _ => session
  | .resetSession session => session
  | .resetIdleTracking session => session

def step (s : State) : Op → State
  | .checkPolicy session name args =>
    { s with callHistory := (checkPolicy cfg stdHash s.callHistory session name args).2 }
  | .checkIdleProgress session output =>
    let idle := (checkIdleProgress (s.idleHistory session) output).2
    { s with idleHistory := Function.update s.idleHistory session idle }
  | .resetSession session =>
    { callHistory := resetSession s.callHistory session fun _ => 0
      idleHistory := resetSession s.idleHistory session [] }
  | .resetIdleTracking session =>
    { s with idleHistory := resetSession s.idleHistory session [] }

def after (ops : List Op) : State := ops.foldl (step cfg stdHash) {}

/-- A call is denied after these operations. -/
def Denied (ops : List Op) (session name : Bytes) (args : Json) : Prop :=
  (checkPolicy cfg stdHash (after cfg stdHash ops).callHistory session name args).1 ≠ []

/-- Rounds are idle after these operations. -/
def Idle (ops : List Op) (session output : Bytes) : Prop :=
  (checkIdleProgress ((after cfg stdHash ops).idleHistory session) output).1 = true

instance (ops : List Op) (session name : Bytes) (args : Json) :
    Decidable (Denied cfg stdHash ops session name args) := inferInstanceAs (Decidable (_ ≠ _))

instance (ops : List Op) (session output : Bytes) :
    Decidable (Idle cfg stdHash ops session output) := inferInstanceAs (Decidable (_ = _))

end Guards

section Histories

/-- The operations of a session since its last reset, by the ends of it that count. -/
def since (reset : Op → Bool) (session : Bytes) (ops : List Op) : List Op :=
  (ops.filter fun op => op.session = session).rtakeWhile fun op => ¬ reset op

def Op.resetsCalls : Op → Bool
  | .resetSession _ => true
  | _ => false

def Op.resetsIdle : Op → Bool
  | .resetSession _ | .resetIdleTracking _ => true
  | _ => false

/-- The operation asks for a call that is not blocked. -/
def Op.requests (cfg : ToolPolicyConfig) (name : Bytes) (args : Json) : Op → Bool
  | .checkPolicy _ name' args' => name' = name ∧ args' = args ∧ name' ∉ cfg.blockedSkills
  | _ => false

def Op.output? : Op → Option Bytes
  | .checkIdleProgress _ output => some output
  | _ => none

/-- How often a session asked for a call since it was reset. -/
def requested (cfg : ToolPolicyConfig) (ops : List Op) (session name : Bytes) (args : Json) : ℕ :=
  (since Op.resetsCalls session ops).countP (Op.requests cfg name args)

/-- The outputs of a session since it was reset. -/
def outputs (ops : List Op) (session : Bytes) : List Bytes :=
  (since Op.resetsIdle session ops).filterMap Op.output?

/-- The calls that are asked for. -/
def Op.call? : Op → Option (Bytes × Json)
  | .checkPolicy _ name args => some (name, args)
  | _ => none

/-- No two different calls of these operations have one hash. -/
def Distinguishes (stdHash : Bytes → ℕ) (ops : List Op) : Prop :=
  ∀ c ∈ ops.filterMap Op.call?, ∀ d ∈ ops.filterMap Op.call?,
    hashCall stdHash c.1 c.2 = hashCall stdHash d.1 d.2 → c = d

instance (stdHash : Bytes → ℕ) (ops : List Op) : Decidable (Distinguishes stdHash ops) :=
  inferInstanceAs (Decidable (∀ c ∈ _, ∀ d ∈ _, _ → _))

end Histories

section Since

variable {reset : Op → Bool} {session : Bytes} {ops : List Op} {op : Op}

theorem since_other (h : op.session ≠ session) :
    since reset session (ops ++ [op]) = since reset session ops := by
  simp [since, h]

theorem since_reset (h : op.session = session) (hr : reset op = true) :
    since reset session (ops ++ [op]) = [] := by
  simp [since, h, hr]

theorem since_snoc (h : op.session = session) (hr : reset op = false) :
    since reset session (ops ++ [op]) = since reset session ops ++ [op] := by
  simp [since, h, hr]

theorem mem_since (h : op ∈ since reset session ops) : op ∈ ops :=
  List.mem_of_mem_filter ((List.rtakeWhile_suffix _ _).subset h)

end Since

section Sessions

variable {cfg : ToolPolicyConfig} {stdHash : Bytes → ℕ} {session : Bytes} {s t : State}
  {ops : List Op} {op : Op}

theorem after_snoc :
    after cfg stdHash (ops ++ [op]) = step cfg stdHash (after cfg stdHash ops) op := by
  rw [after, List.foldl_append]
  rfl

theorem checkPolicy_other {h : CountHistory} {name : Bytes} {args : Json} {k : Bytes}
    (hne : k ≠ session) : (checkPolicy cfg stdHash h k name args).2 session = h session := by
  unfold checkPolicy
  split_ifs
  · rfl
  · dsimp only
    split <;> exact Function.update_of_ne (Ne.symm hne) ..

/-- An operation leaves the other sessions as they are. -/
theorem step_other (h : op.session ≠ session) :
    (step cfg stdHash s op).callHistory session = s.callHistory session ∧
      (step cfg stdHash s op).idleHistory session = s.idleHistory session := by
  have hne : session ≠ op.session := Ne.symm h
  cases op with
  | checkPolicy k name args => exact ⟨checkPolicy_other h, rfl⟩
  | checkIdleProgress k output => exact ⟨rfl, Function.update_of_ne hne ..⟩
  | resetSession k => exact ⟨Function.update_of_ne hne .., Function.update_of_ne hne ..⟩
  | resetIdleTracking k => exact ⟨rfl, Function.update_of_ne hne ..⟩

/-- What an operation does to its session depends on this session alone. -/
theorem step_congr (h : op.session = session) (hc : s.callHistory session = t.callHistory session)
    (hi : s.idleHistory session = t.idleHistory session) :
    (step cfg stdHash s op).callHistory session = (step cfg stdHash t op).callHistory session ∧
      (step cfg stdHash s op).idleHistory session = (step cfg stdHash t op).idleHistory session := by
  subst h
  cases op with
  | checkPolicy k name args =>
    refine ⟨?_, hi⟩
    simp only [Op.session] at hc
    simp only [step, checkPolicy, Op.session]
    split_ifs
    · exact hc
    all_goals simp only [Function.update_self, hc]
  | checkIdleProgress k output =>
    simp only [Op.session] at hi
    simp only [step, Op.session, Function.update_self, hi]
    exact ⟨hc, trivial⟩
  | resetSession k => simp [step, resetSession, Op.session]
  | resetIdleTracking k =>
    refine ⟨hc, ?_⟩
    simp [step, resetSession, Op.session]

/-- What is kept of a session is a function of its own operations. -/
theorem after_filter (session : Bytes) (ops : List Op) :
    (after cfg stdHash (ops.filter fun op => op.session = session)).callHistory session =
        (after cfg stdHash ops).callHistory session ∧
      (after cfg stdHash (ops.filter fun op => op.session = session)).idleHistory session =
        (after cfg stdHash ops).idleHistory session := by
  induction ops using List.reverseRecOn with
  | nil => exact ⟨rfl, rfl⟩
  | append_singleton ops op ih =>
    rw [List.filter_append]
    by_cases h : op.session = session
    · rw [List.filter_cons_of_pos (by simpa using h), List.filter_nil, after_snoc, after_snoc]
      exact step_congr h ih.1 ih.2
    · rw [List.filter_cons_of_neg (by simpa using h), List.filter_nil, List.append_nil,
        after_snoc, (step_other h).1, (step_other h).2]
      exact ih

end Sessions

section Counts

variable {cfg : ToolPolicyConfig} {stdHash : Bytes → ℕ} {session name hash : Bytes} {args : Json}
  {ops : List Op} {op : Op}

/-- The operation is counted under a hash. -/
def Op.counts (cfg : ToolPolicyConfig) (stdHash : Bytes → ℕ) (hash : Bytes) : Op → Bool
  | .checkPolicy _ name args => hashCall stdHash name args = hash ∧ name ∉ cfg.blockedSkills
  | _ => false

theorem checkPolicy_count (h : CountHistory) (session name : Bytes) (args : Json) (hash : Bytes) :
    (checkPolicy cfg stdHash h session name args).2 session hash =
      if Op.counts cfg stdHash hash (.checkPolicy session name args) = true then
        wrap32 (h session hash + 1)
      else h session hash := by
  by_cases hb : name ∈ cfg.blockedSkills
  · simp [checkPolicy, Op.counts, hb]
  have hw : (checkPolicy cfg stdHash h session name args).2 =
      Function.update h session (Function.update (h session) (hashCall stdHash name args)
        (wrap32 (h session (hashCall stdHash name args) + 1))) := by
    rw [checkPolicy, if_neg hb]
    dsimp only
    split <;> rfl
  rw [hw, Function.update_self]
  by_cases hh : hashCall stdHash name args = hash
  · subst hh
    simp [Op.counts, hb]
  · simp [Op.counts, hh, Function.update_of_ne (Ne.symm hh)]

theorem wrap32_add_one (n : ℤ) : wrap32 (wrap32 n + 1) = wrap32 (n + 1) := by
  unfold wrap32
  exact Int.bmod_add_bmod

/-- The table holds the counts of each session since its reset, in 32 bits. -/
theorem callHistory_after (session hash : Bytes) :
    (after cfg stdHash ops).callHistory session hash =
      wrap32 ((since Op.resetsCalls session ops).countP (Op.counts cfg stdHash hash) : ℕ) := by
  induction ops using List.reverseRecOn with
  | nil => simp [after, since, wrap32]
  | append_singleton ops op ih =>
    rw [after_snoc]
    by_cases hs : op.session = session
    · cases op with
      | checkPolicy k name args =>
        have hk : k = session := hs
        subst hk
        rw [since_snoc hs rfl, List.countP_append, List.countP_singleton]
        refine (checkPolicy_count _ _ name args hash).trans ?_
        rw [ih]
        split_ifs
        · exact wrap32_add_one _
        · rfl
      | checkIdleProgress k output =>
        rw [since_snoc hs rfl, List.countP_append]
        simpa [step, Op.counts] using ih
      | resetSession k =>
        have hk : k = session := hs
        subst hk
        rw [since_reset hs rfl]
        simp [step, resetSession, wrap32]
      | resetIdleTracking k =>
        rw [since_snoc hs rfl, List.countP_append]
        simpa [step, Op.counts] using ih
    · rw [since_other hs, ← ih, (step_other hs).1]

/-- Where calls have hashes of their own, they have counts of their own. -/
theorem requested_eq (h : Distinguishes stdHash (ops ++ [.checkPolicy session name args])) :
    (since Op.resetsCalls session ops).countP
        (Op.counts cfg stdHash (hashCall stdHash name args)) =
      requested cfg ops session name args := by
  refine List.countP_congr fun op hop => ?_
  cases op with
  | checkPolicy k name' args' =>
    have hmem : (name', args') ∈ (ops ++ [Op.checkPolicy session name args]).filterMap Op.call? :=
      List.mem_filterMap.mpr ⟨_, List.mem_append_left _ (mem_since hop), rfl⟩
    have hself : (name, args) ∈ (ops ++ [Op.checkPolicy session name args]).filterMap Op.call? :=
      List.mem_filterMap.mpr ⟨_, List.mem_append_right _ (List.mem_singleton_self _), rfl⟩
    simp only [Op.counts, Op.requests, decide_eq_true_eq]
    constructor
    · rintro ⟨hh, hb⟩
      obtain ⟨rfl, rfl⟩ := Prod.mk.inj (h _ hmem _ hself hh)
      exact ⟨rfl, rfl, hb⟩
    · rintro ⟨rfl, rfl, hb⟩
      exact ⟨rfl, hb⟩
  | checkIdleProgress | resetSession | resetIdleTracking => rfl

theorem denied_iff (h : Distinguishes stdHash (ops ++ [.checkPolicy session name args])) :
    Denied cfg stdHash ops session name args ↔
      name ∈ cfg.blockedSkills ∨
        cfg.maxRepeatCount < wrap32 (requested cfg ops session name args + 1) := by
  have hne : bytes "Tool '" ≠ [] := by decide
  unfold Denied
  by_cases hb : name ∈ cfg.blockedSkills
  · simp [checkPolicy, hb, blockedText, hne]
  · simp only [checkPolicy, if_neg hb, callHistory_after, requested_eq h, wrap32_add_one]
    split_ifs with hc
    · simp [hc, countText, hne]
    · simp [hc, hb]

end Counts

section Idling

variable {cfg : ToolPolicyConfig} {stdHash : Bytes → ℕ} {session output : Bytes} {ops : List Op}

/-- The window after one more output. -/
theorem checkIdleProgress_window (l : List Bytes) (output : Bytes) :
    (checkIdleProgress (l.drop (l.length - idleWindowSize)) output).2 =
      (l ++ [output]).drop ((l ++ [output]).length - idleWindowSize) := by
  simp only [checkIdleProgress]
  rw [← List.drop_append_of_le_length (by omega), List.drop_drop]
  congr 1
  simp only [List.length_drop, List.length_append, List.length_singleton]
  omega

/-- The history holds the last outputs. -/
theorem idleHistory_after (session : Bytes) :
    (after cfg stdHash ops).idleHistory session =
      (outputs ops session).drop ((outputs ops session).length - idleWindowSize) := by
  induction ops using List.reverseRecOn with
  | nil => rfl
  | append_singleton ops op ih =>
    rw [after_snoc, outputs]
    by_cases hs : op.session = session
    · cases op with
      | checkPolicy k name args =>
        rw [since_snoc hs rfl, List.filterMap_append]
        simpa [step, Op.output?, outputs, List.filterMap_cons] using ih
      | checkIdleProgress k output =>
        have hk : k = session := hs
        subst hk
        rw [since_snoc hs rfl, List.filterMap_append]
        refine (Function.update_self ..).trans ?_
        rw [ih]
        exact checkIdleProgress_window ..
      | resetSession k =>
        have hk : k = session := hs
        subst hk
        rw [since_reset hs rfl]
        exact Function.update_self ..
      | resetIdleTracking k =>
        have hk : k = session := hs
        subst hk
        rw [since_reset hs rfl]
        exact Function.update_self ..
    · rw [since_other hs, (step_other hs).2]
      exact ih

/-- The end of a list is a repetition exactly if as many of its last entries are equal. -/
theorem drop_eq_replicate_iff {l : List Bytes} {n : ℕ} {a : Bytes} :
    ((l.drop (l.length - n)).length = n ∧ ∀ b ∈ l.drop (l.length - n), b = a) ↔
      ∃ earlier, l = earlier ++ List.replicate n a := by
  rw [← List.eq_replicate_iff]
  constructor
  · intro h
    refine ⟨l.take (l.length - n), ?_⟩
    rw [← h, List.take_append_drop]
  · rintro ⟨earlier, rfl⟩
    simp

theorem idle_iff : Idle cfg stdHash ops session output ↔
    ∃ earlier, outputs ops session ++ [output] =
      earlier ++ List.replicate idleWindowSize output := by
  have hw := checkIdleProgress_window (outputs ops session) output
  have hmem : output ∈ (outputs ops session ++ [output]).drop
      ((outputs ops session ++ [output]).length - idleWindowSize) := by
    rw [List.length_append, List.length_singleton, List.drop_append_of_le_length]
    · simp
    · rw [idleWindowSize]
      omega
  rw [← drop_eq_replicate_iff, Idle, idleHistory_after]
  simp only [checkIdleProgress] at hw ⊢
  rw [hw, decide_eq_true_eq]
  refine and_congr_right fun _ => ⟨fun h entry he => ?_, fun h entry he => ?_⟩
  · exact Option.some.inj ((h entry he).trans (h output hmem).symm)
  · obtain ⟨first, rest, hcons⟩ := List.exists_cons_of_ne_nil (List.ne_nil_of_mem hmem)
    rw [hcons] at h he ⊢
    rw [h entry he, List.head?_cons, h first List.mem_cons_self]

end Idling

section Requests

variable {cfg : ToolPolicyConfig} {stdHash : Bytes → ℕ} {session name output : Bytes} {args : Json}
  {ops : List Op}

theorem countText_eq (name : Bytes) (n : ℕ) : countText cfg name n = repeatText cfg name n := by
  simp [countText, repeatText, decimalInt]

/-- Counts without bounds, as integers. -/
def counts (history : CallHistory) : CountHistory := fun session hash => history session hash

theorem counts_update (history : CallHistory) (session hash : Bytes) (n : ℕ) :
    counts (Function.update history session (Function.update (history session) hash n)) =
      Function.update (counts history) session
        (Function.update (counts history session) hash n) := by
  funext k key
  by_cases hk : k = session
  · subst hk
    simp only [counts, Function.update_self]
    exact Function.apply_update (fun _ (n : ℕ) => (n : ℤ)) _ _ _ _
  · simp only [counts, Function.update_of_ne hk]

/-- Counts that stay within 32 bits are those of the unbounded counts. -/
theorem checkPolicy_counts (history : CallHistory) (session name : Bytes) (args : Json)
    (h : history session (hashCall stdHash name args) + 1 < 2 ^ 31) :
    checkPolicy cfg stdHash (counts history) session name args =
      ((ToolPolicy.checkPolicy cfg stdHash history session name args).1,
        counts (ToolPolicy.checkPolicy cfg stdHash history session name args).2) := by
  have hwrap : wrap32 (counts history session (hashCall stdHash name args) + 1) =
      (history session (hashCall stdHash name args) + 1 : ℕ) := by
    rw [counts, wrap32_of_range (by omega) (by omega)]
    rfl
  unfold checkPolicy ToolPolicy.checkPolicy
  split_ifs with hb
  · rfl
  · dsimp only
    rw [hwrap, ← counts_update, countText_eq]
    split_ifs <;> rfl

theorem denied_filter : Denied cfg stdHash (ops.filter fun op => op.session = session) session name
    args ↔ Denied cfg stdHash ops session name args := by
  simp only [Denied, checkPolicy, (after_filter session ops).1]
  split_ifs <;> rfl

theorem idle_filter : Idle cfg stdHash (ops.filter fun op => op.session = session) session output ↔
    Idle cfg stdHash ops session output := by
  rw [Idle, (after_filter session ops).2]
  rfl

/-- The claims of the guards about one more call of a session: it is denied if its tool is blocked
or the call was asked for as often as the limit, the other sessions do not matter, and its rounds
are idle if the last outputs are equal. -/
theorem guards_iff (cfg : ToolPolicyConfig) (hmax : cfg.maxRepeatCount < 2 ^ 31)
    (stdHash : Bytes → ℕ) (ops : List Op) (session name : Bytes) (args : Json)
    (h : Distinguishes stdHash (ops ++ [.checkPolicy session name args])) :
    ((Denied cfg stdHash ops session name args ↔
        name ∈ cfg.blockedSkills ∨
          cfg.maxRepeatCount ≤ requested cfg ops session name args) ↔
      (name ∈ cfg.blockedSkills ∨ requested cfg ops session name args + 1 < 2 ^ 31 ∨
        cfg.maxRepeatCount < wrap32 (requested cfg ops session name args + 1))) ∧
    (Denied cfg stdHash (ops.filter fun op => op.session = session) session name args ↔
      Denied cfg stdHash ops session name args) ∧
    ∀ output,
      (Idle cfg stdHash (ops.filter fun op => op.session = session) session output ↔
        Idle cfg stdHash ops session output) ∧
      (Idle cfg stdHash ops session output ↔ ∃ earlier,
        outputs ops session ++ [output] = earlier ++ List.replicate idleWindowSize output) := by
  refine ⟨?_, denied_filter, fun output => ⟨idle_filter, idle_iff⟩⟩
  rw [denied_iff h]
  by_cases hb : name ∈ cfg.blockedSkills
  · simp [hb]
  simp only [hb, false_or]
  by_cases hlt : requested cfg ops session name args + 1 < 2 ^ 31
  · rw [wrap32_of_range (by omega) (by omega)]
    omega
  · have hle : cfg.maxRepeatCount ≤ requested cfg ops session name args := by omega
    simp only [hle, hlt, iff_true, false_or]

end Requests

namespace Counterexample

def session : Bytes := bytes "default"

def tool : Bytes := bytes "get_battery_info"

def call : Op := .checkPolicy session tool (.obj [])

theorem since_repeated (k : ℕ) :
    since Op.resetsCalls session (List.replicate k call) = List.replicate k call := by
  have hown : (List.replicate k call).filter (fun op => op.session = session) =
      List.replicate k call := by
    refine List.filter_eq_self.mpr fun op hop => ?_
    rw [List.eq_of_mem_replicate hop]
    rfl
  rw [since, hown, List.rtakeWhile_eq_self_iff]
  intro op hop
  rw [List.eq_of_mem_replicate hop]
  rfl

theorem requested_repeated (k : ℕ) :
    requested {} (List.replicate k call) session tool (.obj []) = k := by
  have hrequests : Op.requests {} tool (.obj []) call = true := by decide
  rw [requested, since_repeated, List.countP_replicate, if_pos hrequests]

theorem distinguishes_repeated (stdHash : Bytes → ℕ) (k : ℕ) :
    Distinguishes stdHash (List.replicate k call ++ [call]) := by
  have hall : ∀ c ∈ (List.replicate k call ++ [call]).filterMap Op.call?, c = (tool, .obj []) := by
    intro c hc
    obtain ⟨op, hop, hcall⟩ := List.mem_filterMap.mp hc
    rw [← List.replicate_succ'] at hop
    rw [List.eq_of_mem_replicate hop] at hcall
    exact (Option.some.inj hcall).symm
  intro c hc d hd _
  rw [hall c hc, hall d hd]

/-- The count of a call that was asked for 2^31 times is negative, and the call is allowed. -/
theorem count_wraps : ¬ ∀ (cfg : ToolPolicyConfig), cfg.maxRepeatCount < 2 ^ 31 →
    ∀ (stdHash : Bytes → ℕ) (ops : List Op) (session name : Bytes) (args : Json),
      Distinguishes stdHash (ops ++ [.checkPolicy session name args]) →
      (Denied cfg stdHash ops session name args ↔
        name ∈ cfg.blockedSkills ∨
          cfg.maxRepeatCount ≤ requested cfg ops session name args) := by
  intro h
  have hdist := distinguishes_repeated List.length (2 ^ 31 - 1)
  have hdenied := (h {} (by decide) List.length (List.replicate (2 ^ 31 - 1) call) session tool
    (.obj []) hdist).mpr (Or.inr (by rw [requested_repeated]; decide))
  rw [denied_iff hdist, requested_repeated] at hdenied
  exact absurd hdenied (by decide)

/-- The fourth call with a limit of three, with a call of another session in between. -/
theorem fourth_denied : Denied {} List.length
    [call, call, .checkPolicy (bytes "other") tool (.obj []), call] session tool (.obj []) :=
  ((guards_iff {} (by decide) List.length
    [call, call, .checkPolicy (bytes "other") tool (.obj []), call] session tool (.obj [])
    (by decide)).1.mpr (by decide)).mpr (by decide)

end Counterexample

end LoopGuards
