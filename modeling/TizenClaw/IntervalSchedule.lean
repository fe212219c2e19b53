import TizenClaw.TaskFrontmatter

/-! Interval schedules: the number before the unit, and the seconds that become of it. -/
namespace IntervalSchedule

open ByteString JsonValue JsonParse TaskSchedule TaskFrontmatter

section Properties

/-- An integer and nothing else, with or without a plus sign. -/
def Numeral (s : Bytes) (n : ℕ) : Prop :=
  ∃ ds, (s = ds ∨ s = 0x2B :: ds) ∧ ds ≠ [] ∧ (∀ d ∈ ds, isDigit d = true) ∧ digitsValue ds = n

/-- The seconds of a unit. -/
def unitSeconds (unit : UInt8) : Option ℕ :=
  if unit = 0x73 then some 1
  else if unit = 0x6D then some 60
  else if unit = 0x68 then some 3600
  else none

/-- A token is a number and a unit. -/
def Token (token : Bytes) (n seconds : ℕ) : Prop :=
  ∃ unit ∈ token.getLast?, unitSeconds unit = some seconds ∧ Numeral token.dropLast n

/-- The task waits as long as the token says, from any instant on. -/
structure Exact (cal : Calendar) (n seconds : ℕ) (task : ScheduledTask) : Prop where
  positive : 0 < n
  interval : task.intervalSeconds = n * seconds
  interval_pos : 0 < task.intervalSeconds
  next : ∀ now, now < nextRun cal task now

end Properties

section Parse

variable {cal : Calendar} {expr token : Bytes} {task task' : ScheduledTask}

/-- The token of an interval expression. -/
def intervalToken (expr : Bytes) : Bytes := (word (word expr).2).1

theorem withType_accepted {type : ScheduleType} {x : ScheduledTask × Bool}
    (h : withType type x = (task', true)) :
    x.2 = true ∧ task' = { x.1 with scheduleType := some type } := by
  unfold withType at h
  split_ifs at h with hx
  · exact ⟨hx, (Prod.ext_iff.mp h).1.symm⟩
  · exact absurd (congrArg Prod.snd h) hx

theorem parseSchedule_interval (h : parseSchedule cal expr task = (task', true))
    (ht : task'.scheduleType = some .interval) :
    (parseInterval (intervalToken expr) task).2 = true ∧
      task' = { (parseInterval (intervalToken expr) task).1 with
        scheduleType := some .interval } := by
  have hother : ∀ {type x}, type ≠ .interval → withType type x ≠ (task', true) := by
    intro type x hne hx
    rw [(withType_accepted hx).2] at ht
    exact hne (Option.some.inj ht)
  unfold parseSchedule at h
  dsimp only at h
  split_ifs at h
  · exact absurd h (hother (by decide))
  · exact withType_accepted h
  · exact absurd h (hother (by decide))
  · cases hd : dayMap.lookup ((word (word expr).2).1.map toLower) with
    | none =>
      rw [hd] at h
      cases congrArg Prod.snd h
    | some weekday =>
      rw [hd] at h
      exact absurd h (hother (by decide))
  · cases congrArg Prod.snd h

theorem stoi_range {s : Bytes} {v : ℤ} (h : stoi s = some v) : -2 ^ 31 ≤ v ∧ v < 2 ^ 31 := by
  unfold stoi at h
  dsimp only at h
  split_ifs at h
  · exact Option.some.inj h ▸ ‹_ ∧ _›
  · exact Option.some.inj h ▸ ‹_ ∧ _›

theorem times32_of_range {a b : ℤ} (h : -2 ^ 31 ≤ a * b) (hlt : a * b < 2 ^ 31) :
    times32 a b = a * b := by
  unfold times32
  exact Int.bmod_eq_of_le (by omega) (by omega)

theorem times32_lt (a b : ℤ) : times32 a b < 2 ^ 31 := by
  have h := Int.bmod_lt (x := a * b) (m := 2 ^ 32) (by decide)
  exact h.trans_le (by decide)

/-- What an accepted token sets: the product of what `stoi` makes of its number and the unit, as
far as 32 bits have it. -/
theorem parseInterval_accepted (h : (parseInterval token task).2 = true) :
    ∃ unit ∈ token.getLast?, ∃ seconds val, unitSeconds unit = some seconds ∧
      stoi token.dropLast = some val ∧ 0 < val ∧
      (parseInterval token task).1.intervalSeconds = times32 val seconds := by
  unfold parseInterval at h ⊢
  cases hu : token.getLast? with
  | none =>
    rw [hu] at h
    cases h
  | some unit =>
    cases hv : stoi token.dropLast with
    | none =>
      rw [hu, hv] at h
      cases h
    | some val =>
      rw [hu, hv] at h
      dsimp only at h ⊢
      split_ifs at h ⊢ with hpos hs hm hh
      · have hone : times32 val 1 = val := by
          rw [times32_of_range, mul_one]
          · rw [mul_one]
            exact (stoi_range hv).1
          · rw [mul_one]
            exact (stoi_range hv).2
        exact ⟨unit, rfl, 1, val, if_pos hs, rfl, not_le.mp hpos, hone.symm⟩
      · refine ⟨unit, rfl, 60, val, ?_, rfl, not_le.mp hpos, rfl⟩
        rw [unitSeconds, if_neg hs, if_pos hm]
      · refine ⟨unit, rfl, 3600, val, ?_, rfl, not_le.mp hpos, rfl⟩
        rw [unitSeconds, if_neg hs, if_neg hm, if_pos hh]

end Parse

section Intervals

theorem unitSeconds_pos {unit : UInt8} {seconds : ℕ} (h : unitSeconds unit = some seconds) :
    0 < seconds := by
  unfold unitSeconds at h
  split_ifs at h
  all_goals
    rw [← Option.some.inj h]
    decide

theorem stoi_numeral {s : Bytes} {n : ℕ} (h : Numeral s n) (hn : n < 2 ^ 31) :
    stoi s = some (n : ℤ) := by
  obtain ⟨ds, hs, hne, hd, rfl⟩ := h
  have hds : stoi ds = some (digitsValue ds : ℤ) := by
    rw [stoi_digits hne hd, if_pos hn]
  rcases hs with rfl | rfl
  · exact hds
  · rw [stoi_plus hne hd, hds]

/-- An accepted interval is exact exactly if its token is a number and a unit, and their product is
within 32 bits. -/
theorem interval_exact_iff (cal : Calendar) (expr : Bytes) (task task' : ScheduledTask)
    (h : parseSchedule cal expr task = (task', true))
    (ht : task'.scheduleType = some .interval) :
    (∃ n seconds, Token (intervalToken expr) n seconds ∧ Exact cal n seconds task') ↔
      ∃ n seconds, Token (intervalToken expr) n seconds ∧ n * seconds < 2 ^ 31 := by
  obtain ⟨haccepted, rfl⟩ := parseSchedule_interval h ht
  obtain ⟨unit, hunit, seconds, val, hseconds, hval, hpos, hset⟩ :=
    parseInterval_accepted haccepted
  constructor
  · rintro ⟨n, k, htoken, hexact⟩
    refine ⟨n, k, htoken, ?_⟩
    have hlt := times32_lt val seconds
    rw [← hset] at hlt
    have hinterval : _ = (n : ℤ) * k := hexact.interval
    rw [hinterval] at hlt
    exact_mod_cast hlt
  · rintro ⟨n, k, ⟨unit', hunit', hk, hnumeral⟩, hlt⟩
    obtain rfl : unit' = unit := Option.some.inj (hunit'.symm.trans hunit)
    obtain rfl : k = seconds := Option.some.inj (hk.symm.trans hseconds)
    have hk0 := unitSeconds_pos hk
    have hn : n < 2 ^ 31 := (Nat.le_mul_of_pos_right n hk0).trans_lt hlt
    rw [stoi_numeral hnumeral hn] at hval
    obtain rfl := Option.some.inj hval
    have hn0 : 0 < n := by exact_mod_cast hpos
    have hprod : 0 < n * k := Nat.mul_pos hn0 hk0
    have hinterval : (parseInterval (intervalToken expr) task).1.intervalSeconds = n * k := by
      rw [hset, times32_of_range]
      · exact_mod_cast (by omega : (-2 ^ 31 : ℤ) ≤ (n * k : ℕ))
      · exact_mod_cast hlt
    have hinterval_pos : 0 < (parseInterval (intervalToken expr) task).1.intervalSeconds := by
      rw [hinterval]
      exact_mod_cast hprod
    refine ⟨n, k, ⟨unit', hunit', hk, hnumeral⟩, hn0, hinterval, hinterval_pos, fun now => ?_⟩
    exact lt_add_of_pos_right now (mul_pos hinterval_pos (by decide))

end Intervals

namespace Counterexample

/-- Forty million minutes are more seconds than 32 bits hold. -/
theorem minutes_overflow :
    parseSchedule utc (bytes "interval 40000000m") {} =
        ({ scheduleType := some .interval, intervalSeconds := -1894967296 }, true) ∧
      ¬ ∃ n seconds, Token (intervalToken (bytes "interval 40000000m")) n seconds ∧
        Exact utc n seconds { scheduleType := some .interval, intervalSeconds := -1894967296 } := by
  refine ⟨by decide, ?_⟩
  rintro ⟨n, seconds, -, hexact⟩
  exact absurd hexact.interval_pos (by decide)

theorem ten_minutes_exact :
    ∃ n seconds, Token (intervalToken (bytes "interval 10m")) n seconds ∧
      Exact utc n seconds { scheduleType := some .interval, intervalSeconds := 600 } := by
  refine (interval_exact_iff utc (bytes "interval 10m") {} _ (by decide) rfl).mpr ⟨10, 60, ?_, ?_⟩
  · exact ⟨0x6D, by decide, by decide, bytes "10", .inl (by decide), by decide, by decide,
      by decide⟩
  · decide

end Counterexample

end IntervalSchedule
