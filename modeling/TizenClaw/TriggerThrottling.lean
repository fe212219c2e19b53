import TizenClaw.AutonomousTrigger

/-! The limits of the trigger in time: what the cooldowns in whole minutes, the hourly count and the
order in which they are checked and recorded make of any sequence of events. -/
namespace TriggerThrottling

open ByteString JsonValue AutonomousTrigger TransitionSystem
open EventDispatch (SystemEvent)

section Limits

/-- `NowMinutes` of a time in milliseconds. -/
def minute (time : ℤ) : ℤ := time / 60000

/-- How far into its minute a time is. -/
def phase (time : ℤ) : ℤ := time % 60000

/-- A rule that an event is held against. -/
structure Entry where
  rule : EventRule
  event : SystemEvent
  time : ℤ

inductive Outcome where
  | unmatched
  | cooling
  | direct
  | evaluated
  | refused
  | other
  deriving DecidableEq, Repr

/-- An action or an evaluation is started. -/
def Outcome.fires : Outcome → Bool
  | .direct | .evaluated => true
  | _ => false

/-- The time of the rule is recorded. -/
def Outcome.records : Outcome → Bool
  | .unmatched | .cooling => false
  | _ => true

/-- The evaluations that are counted for the hour of a time in minutes. -/
def countAt (s : Limits) (now : ℤ) : ℤ := if now / 60 ≠ s.hourStart / 60 then 0 else s.evalCount

def startAt (s : Limits) (now : ℤ) : ℤ := if now / 60 ≠ s.hourStart / 60 then now else s.hourStart

variable {D : Type} [LinearOrder D] (v : Values D) (cfg : Config)

/-- The rule is matched and is not in its cooldown. -/
def Passes (s : Limits) (e : Entry) : Prop :=
  matchRule v e.rule e.event = true ∧ isCoolingDown cfg s (minute e.time) e.rule.name = false

instance (s : Limits) (e : Entry) : Decidable (Passes v cfg s e) :=
  inferInstanceAs (Decidable (_ ∧ _))

/-- What becomes of a rule. -/
def outcome (s : Limits) (e : Entry) : Outcome :=
  if matchRule v e.rule e.event = false then .unmatched
  else if isCoolingDown cfg s (minute e.time) e.rule.name then .cooling
  else if e.rule.action = bytes "direct" then .direct
  else if e.rule.action = bytes "evaluate" then
    if countAt s (minute e.time) < cfg.maxEvalsPerHour then .evaluated else .refused
  else .other

/-- What is started for a rule. -/
def Entry.jobs (e : Entry) : Outcome → List Job
  | .direct =>
    [.execute (directText e.rule e.event) (bytes "direct_rule:" ++ e.rule.name)]
  | .evaluated => [.evaluate e.rule e.event]
  | _ => []

/-- The limits after a rule. -/
def limitsAfter (s : Limits) (e : Entry) : Limits :=
  let o := outcome v cfg s e
  let recorded := if o.records then recordTrigger s (minute e.time) e.rule.name else s
  match o with
  | .evaluated => { recorded with
      hourStart := startAt s (minute e.time)
      evalCount := countAt s (minute e.time) + 1 }
  | .refused => { recorded with
      hourStart := startAt s (minute e.time)
      evalCount := countAt s (minute e.time) }
  | _ => recorded

variable {v cfg}

theorem checkRateLimit_eq (s : Limits) (now : ℤ) : checkRateLimit cfg s now =
    if countAt s now < cfg.maxEvalsPerHour then
      (true, { s with hourStart := startAt s now, evalCount := countAt s now + 1 })
    else (false, { s with hourStart := startAt s now, evalCount := countAt s now }) := by
  unfold checkRateLimit countAt startAt
  by_cases hour : now / 60 ≠ s.hourStart / 60
  · simp only [if_pos hour]
    by_cases hmax : 0 < cfg.maxEvalsPerHour
    · rw [if_neg (not_le.mpr hmax), if_pos hmax]
    · rw [if_pos (not_lt.mp hmax), if_neg hmax]
  · simp only [if_neg hour]
    by_cases hmax : s.evalCount < cfg.maxEvalsPerHour
    · rw [if_neg (not_le.mpr hmax), if_pos hmax]
    · rw [if_pos (not_lt.mp hmax), if_neg hmax]

theorem countAt_recordTrigger (s : Limits) (now : ℤ) (name : Bytes) :
    countAt (recordTrigger s now name) now = countAt s now := rfl

/-- The loop of `OnEvent` does what the outcome of each rule says. -/
theorem onRule_eq (e : Entry) (s : Limits) (jobs : List Job) :
    onRule v cfg e.event (minute e.time) (s, jobs) e.rule =
      (limitsAfter v cfg s e, jobs ++ e.jobs (outcome v cfg s e)) := by
  by_cases hmatch : matchRule v e.rule e.event = false
  · simp [onRule, limitsAfter, outcome, hmatch, Outcome.records, Entry.jobs]
  by_cases hcool : isCoolingDown cfg s (minute e.time) e.rule.name = true
  · simp [onRule, limitsAfter, outcome, hmatch, hcool, Outcome.records, Entry.jobs]
  by_cases hdirect : e.rule.action = bytes "direct"
  · simp [onRule, limitsAfter, outcome, hmatch, hcool, hdirect, Outcome.records, Entry.jobs]
  by_cases heval : e.rule.action = bytes "evaluate"
  swap
  · simp [onRule, limitsAfter, outcome, hmatch, hcool, hdirect, heval, Outcome.records, Entry.jobs]
  have hor : ¬ (matchRule v e.rule e.event = false ∨
      isCoolingDown cfg s (minute e.time) e.rule.name = true) := not_or.mpr ⟨hmatch, hcool⟩
  rw [onRule, if_neg hor, if_neg hdirect, if_pos heval, checkRateLimit_eq, countAt_recordTrigger]
  by_cases hmax : countAt s (minute e.time) < cfg.maxEvalsPerHour
  · have ho : outcome v cfg s e = .evaluated := by
      rw [outcome, if_neg hmatch, if_neg hcool, if_neg hdirect, if_pos heval, if_pos hmax]
    rw [if_pos hmax, limitsAfter, ho]
    rfl
  · have ho : outcome v cfg s e = .refused := by
      rw [outcome, if_neg hmatch, if_neg hcool, if_neg hdirect, if_pos heval, if_neg hmax]
    rw [if_neg hmax, limitsAfter, ho]
    simp only [Entry.jobs, List.append_nil]
    rfl

theorem outcome_of_passes {s : Limits} {e : Entry} (h : Passes v cfg s e) : outcome v cfg s e =
    if e.rule.action = bytes "direct" then .direct
    else if e.rule.action = bytes "evaluate" then
      if countAt s (minute e.time) < cfg.maxEvalsPerHour then .evaluated else .refused
    else .other := by
  rw [outcome, if_neg (by simp [h.1]), if_neg (by simp [h.2])]

theorem outcome_of_not_passes {s : Limits} {e : Entry} (h : ¬ Passes v cfg s e) :
    outcome v cfg s e = .unmatched ∨ outcome v cfg s e = .cooling := by
  unfold outcome
  by_cases hmatch : matchRule v e.rule e.event = false
  · exact Or.inl (if_pos hmatch)
  · have hcool : isCoolingDown cfg s (minute e.time) e.rule.name = true := by
      by_contra hc
      exact h ⟨by simpa using hmatch, by simpa using hc⟩
    exact Or.inr (by rw [if_neg hmatch, if_pos hcool])

theorem records_iff {s : Limits} {e : Entry} :
    (outcome v cfg s e).records = true ↔ Passes v cfg s e := by
  by_cases h : Passes v cfg s e
  · refine iff_of_true ?_ h
    rw [outcome_of_passes h]
    split_ifs <;> rfl
  · refine iff_of_false ?_ h
    rcases outcome_of_not_passes h with ho | ho
    · simp [ho, Outcome.records]
    · simp [ho, Outcome.records]

theorem evaluate_ne_direct : bytes "evaluate" ≠ bytes "direct" := by decide

theorem fires_iff {s : Limits} {e : Entry} : (outcome v cfg s e).fires = true ↔
    Passes v cfg s e ∧ (e.rule.action = bytes "direct" ∨ e.rule.action = bytes "evaluate" ∧
      countAt s (minute e.time) < cfg.maxEvalsPerHour) := by
  by_cases h : Passes v cfg s e
  · rw [outcome_of_passes h]
    split_ifs <;> simp_all [Outcome.fires]
  · refine iff_of_false ?_ fun hc => h hc.1
    rcases outcome_of_not_passes h with ho | ho
    · simp [ho, Outcome.fires]
    · simp [ho, Outcome.fires]

theorem evaluated_iff {s : Limits} {e : Entry} : outcome v cfg s e = .evaluated ↔
    Passes v cfg s e ∧ e.rule.action = bytes "evaluate" ∧
      countAt s (minute e.time) < cfg.maxEvalsPerHour := by
  by_cases h : Passes v cfg s e
  · rw [outcome_of_passes h]
    split_ifs <;> simp_all [evaluate_ne_direct.symm]
  · refine iff_of_false ?_ fun hc => h hc.1
    rcases outcome_of_not_passes h with ho | ho <;> simp [ho]

theorem refused_iff {s : Limits} {e : Entry} : outcome v cfg s e = .refused ↔
    Passes v cfg s e ∧ e.rule.action = bytes "evaluate" ∧
      ¬ countAt s (minute e.time) < cfg.maxEvalsPerHour := by
  by_cases h : Passes v cfg s e
  · rw [outcome_of_passes h]
    split_ifs <;> simp_all [evaluate_ne_direct.symm]
  · refine iff_of_false ?_ fun hc => h hc.1
    rcases outcome_of_not_passes h with ho | ho <;> simp [ho]

theorem startAt_hour (s : Limits) (now : ℤ) : startAt s now / 60 = now / 60 := by
  unfold startAt
  split_ifs with h
  · rfl
  · exact (not_not.mp h).symm

/-- Only evaluations, allowed or refused, touch the hour and its count. -/
theorem limitsAfter_hour (v : Values D) (cfg : Config) (s : Limits) (e : Entry) :
    ((limitsAfter v cfg s e).hourStart = startAt s (minute e.time) ∧
      (limitsAfter v cfg s e).evalCount =
        countAt s (minute e.time) + if outcome v cfg s e = .evaluated then 1 else 0) ∨
    (outcome v cfg s e ≠ .evaluated ∧ (limitsAfter v cfg s e).hourStart = s.hourStart ∧
      (limitsAfter v cfg s e).evalCount = s.evalCount) := by
  unfold limitsAfter
  cases outcome v cfg s e <;> simp [Outcome.records, recordTrigger]

theorem records_of_fires {o : Outcome} (h : o.fires = true) : o.records = true := by
  cases o <;> first | rfl | cases h

@[simp] theorem limitsAfter_lastTrigger (s : Limits) (e : Entry) :
    (limitsAfter v cfg s e).lastTrigger = if (outcome v cfg s e).records then
      Function.update s.lastTrigger e.rule.name (some (minute e.time)) else s.lastTrigger := by
  unfold limitsAfter
  cases outcome v cfg s e <;> simp [Outcome.records, recordTrigger]

end Limits

section Runs

/-- What is known of an entry behind it: what became of the rule, and whether it is in its cooldown
then. -/
structure Record extends Entry where
  outcome : Outcome
  coolingAfter : Bool

/-- The records do not influence the limits. -/
structure State where
  limits : Limits := ⟨fun _ => none, 0, 0⟩
  log : List Record := []

variable {D : Type} [LinearOrder D] (v : Values D) (cfg : Config)

def step (s : State) (e : Entry) : State :=
  let limits := limitsAfter v cfg s.limits e
  { limits := limits
    log := s.log ++ [⟨e, outcome v cfg s.limits e,
      isCoolingDown cfg limits (minute e.time) e.rule.name⟩] }

/-- Events of a trigger with these rules, at times that do not decrease. -/
def throttling : System State Entry where
  Init s := s = {}
  Step s e t := e.rule ∈ cfg.rules ∧ (∀ x ∈ s.log, x.time ≤ e.time) ∧ t = step v cfg s e

/-- The limits that the trigger is to keep. -/
structure Throttled (s : State) : Prop where
  spaced : s.log.Pairwise fun x y => x.rule = y.rule → x.outcome.fires → y.outcome.fires →
    x.rule.cooldownMinutes * 60000 ≤ y.time - x.time
  hourly : ∀ hour, (s.log.countP fun x => x.outcome = .evaluated ∧ minute x.time / 60 = hour : ℤ) ≤
    max cfg.maxEvalsPerHour 0
  refused : ∀ x ∈ s.log, x.outcome = .refused → x.coolingAfter = false

/-- A rule that passes at exactly its cooldown in whole minutes after it fired is not earlier in its
minute, and an evaluation for a rule with a cooldown is within the hourly limit. -/
structure Meets (s : State) (e : Entry) : Prop where
  phase : Passes v cfg s.limits e →
    e.rule.action = bytes "direct" ∨ e.rule.action = bytes "evaluate" →
    ∀ x ∈ s.log, x.rule = e.rule → x.outcome.fires →
      minute e.time - minute x.time = e.rule.cooldownMinutes → phase x.time ≤ phase e.time
  budget : Passes v cfg s.limits e → e.rule.action = bytes "evaluate" →
    0 < e.rule.cooldownMinutes → countAt s.limits (minute e.time) < cfg.maxEvalsPerHour

/-- What the limits know of the log. -/
structure Tracked (s : State) : Prop where
  recorded : ∀ x ∈ s.log, x.outcome.records → ∃ last,
    s.limits.lastTrigger x.rule.name = some last ∧ minute x.time ≤ last
  hours : ∀ x ∈ s.log, x.outcome = .evaluated → minute x.time / 60 ≤ s.limits.hourStart / 60
  counted : (s.log.countP fun x => x.outcome = .evaluated ∧
    minute x.time / 60 = s.limits.hourStart / 60 : ℤ) = s.limits.evalCount
  started : ∀ x ∈ s.log, x.outcome = .evaluated → ∃ y ∈ s.log,
    s.limits.hourStart / 60 ≤ minute y.time / 60

variable {v cfg} {s t : State} {e : Entry}

theorem minute_mono {a b : ℤ} (h : a ≤ b) : minute a ≤ minute b := by
  unfold minute
  omega

/-- A number of whole minutes lies between two times that differ by more in whole minutes, or as
much if the later one is not earlier in its minute. -/
theorem minutes_between_iff {a b c : ℤ} (h : c ≤ minute b - minute a) :
    c * 60000 ≤ b - a ↔ (minute b - minute a = c → phase a ≤ phase b) := by
  unfold minute phase at *
  constructor <;> omega

theorem find_own {rules : List EventRule} (h : (rules.map EventRule.name).Nodup) {rule : EventRule}
    (hmem : rule ∈ rules) : rules.find? (fun r => r.name = rule.name) = some rule := by
  induction rules with
  | nil => cases hmem
  | cons r rules ih =>
    rw [List.map_cons, List.nodup_cons] at h
    rcases List.mem_cons.mp hmem with rfl | hmem
    · simp
    · have hne : r.name ≠ rule.name := by
        intro heq
        exact h.1 (heq ▸ List.mem_map_of_mem hmem)
      rw [List.find?_cons_of_neg (by simpa using hne), ih h.2 hmem]

section Names

variable (hnames : (cfg.rules.map EventRule.name).Nodup)

include hnames

/-- With a name of its own, a rule is in its own cooldown. -/
theorem isCoolingDown_own (l : Limits) (now : ℤ) {rule : EventRule} (hmem : rule ∈ cfg.rules) :
    isCoolingDown cfg l now rule.name = true ↔
      ∃ last, l.lastTrigger rule.name = some last ∧ now - last < rule.cooldownMinutes := by
  rw [isCoolingDown, find_own hnames hmem]
  cases l.lastTrigger rule.name with
  | none => simp
  | some last => simp

theorem cooled_down (hJ : Tracked s) (hmem : e.rule ∈ cfg.rules) (hpass : Passes v cfg s.limits e)
    {x : Record} (hx : x ∈ s.log) (hrule : x.rule = e.rule) (hrec : x.outcome.records = true) :
    e.rule.cooldownMinutes ≤ minute e.time - minute x.time := by
  obtain ⟨last, hlast, hle⟩ := hJ.recorded x hx hrec
  have hcool : ¬ isCoolingDown cfg s.limits (minute e.time) e.rule.name = true := by simp [hpass.2]
  rw [isCoolingDown_own hnames _ _ hmem] at hcool
  have hge : ¬ minute e.time - last < e.rule.cooldownMinutes :=
    fun hlt => hcool ⟨last, hrule ▸ hlast, hlt⟩
  omega

/-- A refused evaluation starts the cooldown, if the rule has one. -/
theorem cooling_after (hmem : e.rule ∈ cfg.rules) (hpass : Passes v cfg s.limits e) :
    isCoolingDown cfg (limitsAfter v cfg s.limits e) (minute e.time) e.rule.name = true ↔
      0 < e.rule.cooldownMinutes := by
  rw [isCoolingDown_own hnames _ _ hmem, limitsAfter_lastTrigger, if_pos (records_iff.mpr hpass),
    Function.update_self]
  simp

end Names

/-- The count of the limiter is the number of evaluations in the hour. -/
theorem Tracked.count_now (hJ : Tracked s) (htime : ∀ x ∈ s.log, x.time ≤ e.time) :
    (s.log.countP fun x => x.outcome = .evaluated ∧ minute x.time / 60 = minute e.time / 60 : ℤ) =
      countAt s.limits (minute e.time) := by
  unfold countAt
  split_ifs with h
  · have hnone : s.log.countP (fun x => x.outcome = .evaluated ∧
        minute x.time / 60 = minute e.time / 60) = 0 := by
      refine List.countP_eq_zero.mpr fun x hx hin => ?_
      obtain ⟨ho, hhour⟩ := of_decide_eq_true hin
      obtain ⟨y, hy, hstart⟩ := hJ.started x hx ho
      have hle := hJ.hours x hx ho
      have hmono := Int.ediv_le_ediv (by decide : (0 : ℤ) < 60) (minute_mono (htime y hy))
      omega
    rw [hnone]
    rfl
  · rw [not_not.mp h]
    exact hJ.counted

theorem recorded_step (hJ : Tracked s) (htime : ∀ x ∈ s.log, x.time ≤ e.time) :
    ∀ x ∈ (step v cfg s e).log, x.outcome.records → ∃ last,
      (step v cfg s e).limits.lastTrigger x.rule.name = some last ∧ minute x.time ≤ last := by
  intro x hx hrec
  simp only [step, limitsAfter_lastTrigger]
  rcases List.mem_append.mp hx with hx | hx
  · obtain ⟨last, hlast, hle⟩ := hJ.recorded x hx hrec
    split_ifs with ho
    · by_cases hname : x.rule.name = e.rule.name
      · rw [hname, Function.update_self]
        exact ⟨_, rfl, minute_mono (htime x hx)⟩
      · rw [Function.update_of_ne hname]
        exact ⟨last, hlast, hle⟩
    · exact ⟨last, hlast, hle⟩
  · obtain rfl := List.mem_singleton.mp hx
    rw [if_pos hrec, Function.update_self]
    exact ⟨_, rfl, le_rfl⟩

theorem tracked_step (hJ : Tracked s) (htime : ∀ x ∈ s.log, x.time ≤ e.time) :
    Tracked (step v cfg s e) := by
  have hhour : ∀ x ∈ s.log, minute x.time / 60 ≤ minute e.time / 60 := fun x hx =>
    Int.ediv_le_ediv (by decide) (minute_mono (htime x hx))
  have hcount := hJ.count_now htime
  rcases limitsAfter_hour v cfg s.limits e with ⟨hstart, heval⟩ | ⟨ho, hstart, heval⟩
  · refine ⟨recorded_step hJ htime, fun x hx hev => ?_, ?_, fun x hx hev => ?_⟩
    all_goals simp only [step, hstart, heval, startAt_hour]
    · rcases List.mem_append.mp hx with hx | hx
      · exact hhour x hx
      · rw [List.mem_singleton.mp hx]
    · rw [List.countP_append, List.countP_singleton]
      push_cast
      rw [hcount]
      simp
    · exact ⟨_, List.mem_append_right _ (List.mem_singleton_self _), le_rfl⟩
  · refine ⟨recorded_step hJ htime, fun x hx hev => ?_, ?_, fun x hx hev => ?_⟩
    all_goals simp only [step, hstart, heval]
    · rcases List.mem_append.mp hx with hx | hx
      · exact hJ.hours x hx hev
      · rw [List.mem_singleton.mp hx] at hev
        exact absurd hev ho
    · rw [List.countP_append, List.countP_singleton, ← hJ.counted]
      simp [ho]
    · rcases List.mem_append.mp hx with hx | hx
      · obtain ⟨y, hy, hle⟩ := hJ.started x hx hev
        exact ⟨y, List.mem_append_left _ hy, hle⟩
      · rw [List.mem_singleton.mp hx] at hev
        exact absurd hev ho

/-- No hour gets more evaluations than the maximum, whatever the events are. -/
theorem hourly_step (hI : Throttled cfg s) (hJ : Tracked s)
    (htime : ∀ x ∈ s.log, x.time ≤ e.time) (hour : ℤ) :
    ((step v cfg s e).log.countP fun x => x.outcome = .evaluated ∧ minute x.time / 60 = hour : ℤ) ≤
      max cfg.maxEvalsPerHour 0 := by
  have hold := hI.hourly hour
  simp only [step, List.countP_append, List.countP_singleton]
  push_cast
  split_ifs with hnew
  · obtain ⟨ho, rfl⟩ := of_decide_eq_true hnew
    rw [hJ.count_now htime]
    have hlt := (evaluated_iff.mp ho).2.2
    omega
  · simpa using hold

section Names

variable (hnames : (cfg.rules.map EventRule.name).Nodup)

include hnames

/-- What a step has to meet for the cooldowns and the refusals to stay as they are asked for. -/
theorem meets_of_throttled (hJ : Tracked s) (hmem : e.rule ∈ cfg.rules)
    (htime : ∀ x ∈ s.log, x.time ≤ e.time) (h : Throttled cfg (step v cfg s e)) :
    Meets v cfg s e := by
  have hspaced := (List.pairwise_append.mp h.spaced).2.2
  have hrefused := h.refused _ (List.mem_append_right _ (List.mem_singleton_self _))
  have hbudget : Passes v cfg s.limits e → e.rule.action = bytes "evaluate" →
      0 < e.rule.cooldownMinutes → countAt s.limits (minute e.time) < cfg.maxEvalsPerHour := by
    intro hpass heval hpos
    by_contra hmax
    have hcool := hrefused (refused_iff.mpr ⟨hpass, heval, hmax⟩)
    rw [(cooling_after hnames hmem hpass).mpr hpos] at hcool
    cases hcool
  refine ⟨fun hpass hact x hx hrule hfires hdiff => ?_, hbudget⟩
  have hge := cooled_down hnames hJ hmem hpass hx hrule (records_of_fires hfires)
  by_cases hnow : (outcome v cfg s.limits e).fires = true
  · have hdist := hspaced x hx _ (List.mem_singleton_self _) hrule hfires hnow
    rw [hrule] at hdist
    exact (minutes_between_iff hge).mp hdist hdiff
  · -- The evaluation is refused, so the rule has no cooldown.
    have heval : e.rule.action = bytes "evaluate" := by
      refine hact.resolve_left fun hd => hnow (fires_iff.mpr ⟨hpass, Or.inl hd⟩)
    have hzero : ¬ 0 < e.rule.cooldownMinutes := fun hpos =>
      hnow (fires_iff.mpr ⟨hpass, Or.inr ⟨heval, hbudget hpass heval hpos⟩⟩)
    have hle := htime x hx
    unfold minute at hdiff
    unfold phase
    omega

theorem throttled_of_meets (hI : Throttled cfg s) (hJ : Tracked s) (hmem : e.rule ∈ cfg.rules)
    (htime : ∀ x ∈ s.log, x.time ≤ e.time) (h : Meets v cfg s e) :
    Throttled cfg (step v cfg s e) := by
  refine ⟨?_, hourly_step hI hJ htime, fun x hx hrefused => ?_⟩
  · refine List.pairwise_append.mpr ⟨hI.spaced, List.pairwise_singleton _ _, ?_⟩
    intro x hx y hy hrule hfires hnow
    obtain rfl := List.mem_singleton.mp hy
    obtain ⟨hpass, hact⟩ := fires_iff.mp hnow
    have hact' : e.rule.action = bytes "direct" ∨ e.rule.action = bytes "evaluate" :=
      hact.imp_right And.left
    have hge := cooled_down hnames hJ hmem hpass hx hrule (records_of_fires hfires)
    rw [hrule]
    exact (minutes_between_iff hge).mpr (h.phase hpass hact' x hx hrule hfires)
  · rcases List.mem_append.mp hx with hx | hx
    · exact hI.refused x hx hrefused
    · obtain rfl := List.mem_singleton.mp hx
      obtain ⟨hpass, heval, hmax⟩ := refused_iff.mp hrefused
      rw [Bool.eq_false_iff]
      intro hcool
      exact hmax (h.budget hpass heval ((cooling_after hnames hmem hpass).mp hcool))

theorem throttled_step (hI : Throttled cfg s) (hJ : Tracked s) (hmem : e.rule ∈ cfg.rules)
    (htime : ∀ x ∈ s.log, x.time ≤ e.time) :
    Throttled cfg (step v cfg s e) ↔ Meets v cfg s e :=
  ⟨meets_of_throttled hnames hJ hmem htime, throttled_of_meets hnames hI hJ hmem htime⟩

end Names

/-- With names of their own, the rules keep their cooldowns and the hourly limit in a whole run, and
no refused evaluation starts a cooldown, exactly if each step meets its condition. -/
theorem throttled_iff {D : Type} [LinearOrder D] (v : Values D) (cfg : Config)
    (hnames : (cfg.rules.map EventRule.name).Nodup) {tr : List (State × Entry)} {s : State}
    (h : Run (throttling v cfg) tr s) :
    ((∀ x ∈ tr, Throttled cfg x.1) ∧ Throttled cfg s) ↔ ∀ x ∈ tr, Meets v cfg x.1 x.2 := by
  refine (h.relative_invariant_iff (J := Tracked) ?_ ?_ ?_).1
  · rintro s rfl
    refine ⟨⟨List.Pairwise.nil, fun hour => by simp, by simp⟩, ⟨by simp, by simp, ?_, by simp⟩⟩
    rfl
  · rintro s e t - hJ ⟨-, htime, rfl⟩
    exact tracked_step hJ htime
  · rintro s e t hI hJ ⟨hmem, htime, rfl⟩
    exact throttled_step hnames hI hJ hmem htime

/-- The loop over some rules, by induction along them. -/
theorem run_onRules (event : SystemEvent) (time : ℤ) {rules : List EventRule}
    (hmem : ∀ r ∈ rules, r ∈ cfg.rules) {tr : List (State × Entry)} (jobs : List Job)
    (h : Run (throttling v cfg) tr s) (htime : ∀ x ∈ s.log, x.time ≤ time) :
    ∃ tr' t new, Run (throttling v cfg) (tr ++ tr') t ∧ t.log = s.log ++ new ∧
      (∀ x ∈ new, x.time = time) ∧
      rules.foldl (onRule v cfg event (minute time)) (s.limits, jobs) =
        (t.limits, jobs ++ new.flatMap fun x => x.toEntry.jobs x.outcome) := by
  induction rules generalizing tr s jobs with
  | nil => exact ⟨[], s, [], by simpa using h, by simp, by simp, by simp⟩
  | cons rule rules ih =>
    rw [List.forall_mem_cons] at hmem
    have hstep : (throttling v cfg).Step s ⟨rule, event, time⟩ (step v cfg s ⟨rule, event, time⟩) :=
      ⟨hmem.1, htime, rfl⟩
    have hlater : ∀ x ∈ (step v cfg s ⟨rule, event, time⟩).log, x.time ≤ time := by
      intro x hx
      rcases List.mem_append.mp hx with hx | hx
      · exact htime x hx
      · rw [List.mem_singleton.mp hx]
    obtain ⟨tr', t, new, hrun, hlog, hnew, hfold⟩ := ih hmem.2
      (jobs ++ (⟨rule, event, time⟩ : Entry).jobs (outcome v cfg s.limits ⟨rule, event, time⟩))
      (h.step hstep) hlater
    refine ⟨_ :: tr', t, ⟨⟨rule, event, time⟩, _, _⟩ :: new, by simpa using hrun,
      hlog.trans (List.append_assoc ..), ?_, ?_⟩
    · rw [List.forall_mem_cons]
      exact ⟨rfl, hnew⟩
    · rw [List.foldl_cons]
      refine (congrArg (rules.foldl (onRule v cfg event (minute time)))
        (onRule_eq ⟨rule, event, time⟩ s.limits jobs)).trans (hfold.trans ?_)
      rw [List.flatMap_cons, List.append_assoc]

/-- `OnEvent` is a run over the rules at one time, whose records tell what it starts. -/
theorem run_onEvent {tr : List (State × Entry)} (h : Run (throttling v cfg) tr s)
    (event : SystemEvent) (time : ℤ) (htime : ∀ x ∈ s.log, x.time ≤ time) :
    ∃ tr' t new, Run (throttling v cfg) (tr ++ tr') t ∧ t.log = s.log ++ new ∧
      (∀ x ∈ new, x.time = time) ∧
      onEvent v cfg event (minute time) s.limits =
        (t.limits, new.flatMap fun x => x.toEntry.jobs x.outcome) :=
  run_onRules event time (fun _ h => h) [] h htime

end Runs

namespace Counterexample

open AutonomousTrigger.Counterexample

def directConfig : Config := config (bytes "Save power.")

/-- The event of the example at a time. -/
def entry (time : ℤ) : Entry := ⟨rule (bytes "Save power."), event, time⟩

/-- Two events for a rule with a cooldown of ten minutes. -/
def twice (first second : ℤ) : State :=
  step noNumbers directConfig (step noNumbers directConfig {} (entry first)) (entry second)

theorem run_twice {first second : ℤ} (h : first ≤ second) :
    Run (throttling noNumbers directConfig)
      [(({} : State), entry first), (step noNumbers directConfig {} (entry first), entry second)]
      (twice first second) := by
  have hmem : ∀ time, (entry time).rule ∈ directConfig.rules := fun _ => List.mem_singleton_self _
  have hone : Run (throttling noNumbers directConfig) ([] ++ [(({} : State), entry first)])
      (step noNumbers directConfig {} (entry first)) :=
    (Run.init rfl).step ⟨hmem first, fun _ hx => absurd hx List.not_mem_nil, rfl⟩
  refine hone.step ⟨hmem second, fun x hx => ?_, rfl⟩
  rw [List.mem_singleton.mp hx]
  exact h

/-- From the last millisecond of a minute to the first of the tenth one behind it. -/
theorem cooldown_cut_short : ¬ ∀ {D : Type} [LinearOrder D] (v : Values D) (cfg : Config),
    (cfg.rules.map EventRule.name).Nodup → ∀ (tr : List (State × Entry)) (s : State),
      Run (throttling v cfg) tr s → Throttled cfg s := by
  intro h
  have hspaced := (h noNumbers directConfig (by decide) _ _
    (run_twice (by decide : (59999 : ℤ) ≤ 600000))).spaced
  rw [twice, step, List.pairwise_append] at hspaced
  have hdist := hspaced.2.2 _ (List.mem_singleton_self _) _ (List.mem_singleton_self _) rfl
    (by decide) (by decide)
  exact absurd hdist (by decide)

/-- Two events at the beginnings of their minutes. -/
theorem whole_minutes_throttled : Throttled directConfig (twice 0 600000) := by
  have hiff := throttled_iff noNumbers directConfig (by decide)
    (run_twice (by decide : (0 : ℤ) ≤ 600000))
  refine (hiff.mpr fun x hx => ?_).2
  rcases List.mem_cons.mp hx with rfl | hx
  · exact ⟨fun _ _ y hy => absurd hy List.not_mem_nil, fun _ hact => absurd hact (by decide)⟩
  · obtain rfl := List.mem_singleton.mp hx
    refine ⟨fun _ _ y hy _ _ _ => ?_, fun _ hact => absurd hact (by decide)⟩
    obtain rfl := List.mem_singleton.mp hy
    decide

end Counterexample

end TriggerThrottling
