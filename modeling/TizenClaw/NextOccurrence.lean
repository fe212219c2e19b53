import TizenClaw.CivilCalendar
import Mathlib.Order.Bounds.Basic

/-! The next run of daily and weekly tasks against the next occurrence of their local time, in any
time zone. -/
namespace NextOccurrence

open TaskSchedule CivilCalendar

section Zones

/-- The offsets of a time zone: between two changes goes by more time than either of them moves the
clock. -/
structure Zone where
  offset : ℤ → ℤ
  changes : ∀ s t u, s ≤ t → t ≤ u → offset s = offset t ∨ offset t = offset u ∨
    |offset t - offset s| < u - s ∧ |offset u - offset t| < u - s

def Zone.local (z : Zone) (t : ℤ) : ℤ := t + z.offset t

/-- Days are counted from the epoch. -/
def Zone.day (z : Zone) (t : ℤ) : ℤ := (z.local t).fdiv 86400

variable (z : Zone)

/-- The library keeps the time of the zone: `localtime` gives the local fields, and `mktime`, left
to find out about daylight saving, an instant with the fields it is asked for if there is one. -/
structure Zone.Keeps (cal : Calendar) : Prop where
  localtime : ∀ t, ∃ isdst, cal.localtime t = { gmtime (z.local t) with isdst := isdst }
  mktime : ∀ tm t, tm.isdst = -1 → z.local t = timegm tm → z.local (cal.mktime tm).1 = timegm tm
  normalized : ∀ tm t, tm.isdst = -1 → z.local t = timegm tm →
    ∃ isdst, (cal.mktime tm).2 = { gmtime (timegm tm) with isdst := isdst }

variable {z}

/-- Around an instant whose local time comes only once, instants are ordered as their local
times. -/
theorem lt_iff_local_lt {x y : ℤ} (hy : ∀ t, z.local t = z.local y → t = y) :
    x < y ↔ z.local x < z.local y := by
  unfold Zone.local at hy ⊢
  constructor
  · intro hlt
    by_contra hle
    -- the clock went back between them, so it had shown the time of `y` before `x`
    obtain hc | hc | ⟨-, hc⟩ := z.changes (y - (z.offset x - z.offset y)) x y (by omega) (by omega)
    · have := hy (y - (z.offset x - z.offset y)) (by omega)
      omega
    · omega
    · have := neg_abs_le (z.offset y - z.offset x)
      omega
  · intro hlt
    by_contra hle
    -- the clock went back between them, so it shows the time of `y` again behind `x`
    obtain hc | hc | ⟨hc, -⟩ := z.changes y x (y + (z.offset y - z.offset x)) (by omega) (by omega)
    · omega
    · have := hy (y + (z.offset y - z.offset x)) (by omega)
      omega
    · have := neg_abs_le (z.offset x - z.offset y)
      omega

end Zones

section Occurrences

variable (z : Zone) (cal : Calendar) (task : ScheduledTask)

/-- The local time at an instant is the one of the task. -/
def At (t : ℤ) : Prop :=
  (cal.localtime t).hour = task.hour ∧ (cal.localtime t).min = task.minute ∧
    (cal.localtime t).sec = 0 ∧
    (task.scheduleType = some .weekly → (cal.localtime t).wday = task.weekday)

/-- The instants of the clock at which the task is due. -/
def Occurs (x : Time) : Prop := ∃ t, x = fromTimeT t ∧ At cal task t

/-- The next run is the first occurrence after now. -/
def NextRunLeast (now : Time) : Prop :=
  IsLeast {x | now < x ∧ Occurs cal task x} (nextRun cal task now)

/-- Hour, minute and weekday are what a schedule may have. -/
structure Valid : Prop where
  repeating : task.scheduleType = some .daily ∨ task.scheduleType = some .weekly
  hour : 0 ≤ task.hour ∧ task.hour ≤ 23
  minute : 0 ≤ task.minute ∧ task.minute ≤ 59
  weekday : task.scheduleType = some .weekly → 0 ≤ task.weekday ∧ task.weekday ≤ 6

/-- The day is one of the task's, all days for a daily task. -/
def OnDay (d : ℤ) : Prop := task.scheduleType = some .weekly → (d + 4).fmod 7 = task.weekday

/-- The task's time on a day, as the local clock shows it. -/
def timeOn (d : ℤ) : ℤ := d * 86400 + task.hour * 3600 + task.minute * 60

/-- The days the next occurrence depends on: from today, or an earlier day that the clock goes back
to, up to the first day of the task whose time is still ahead. -/
def Concerned (now d : ℤ) : Prop :=
  OnDay task d ∧ (z.day now ≤ d ∨ ∃ t, now < t ∧ z.day t = d) ∧
    ∀ e, OnDay task e → z.local now < timeOn task e → d ≤ e

/-- On the days concerned the task's time comes exactly once. -/
def Once (now : ℤ) : Prop :=
  ∀ d, Concerned z task now d → ∃! t, z.local t = timeOn task d

/-- A daily task whose time is past today is due a day later by the clock of the zone too. -/
def Steady (now : ℤ) : Prop :=
  task.scheduleType = some .daily → ∀ t, t ≤ now → z.local t = timeOn task (z.day now) →
    z.offset (t + 86400) = z.offset t

/-- Before the epoch the seconds of `to_time_t` are rounded up, but not to an occurrence. -/
def NotRoundedUp (now : Time) : Prop :=
  At cal task (toTimeT now) → fromTimeT (toTimeT now) ≤ now

variable {z cal task}

/-- The local clock shows the task's time just when the instant is an occurrence. -/
theorem at_iff (hcal : z.Keeps cal) (hv : Valid task) (t : ℤ) :
    At cal task t ↔ OnDay task (z.day t) ∧ z.local t = timeOn task (z.day t) := by
  obtain ⟨isdst, h⟩ := hcal.localtime t
  unfold At OnDay timeOn Zone.day
  rw [h]
  have hhours := hv.hour
  have hminutes := hv.minute
  have hclock := Int.mul_fdiv_add_fmod (z.local t) 86400
  have hpos := Int.fmod_nonneg_of_pos (z.local t) (by decide : (0 : ℤ) < 86400)
  have hlt := Int.fmod_lt_of_pos (z.local t) (by decide : (0 : ℤ) < 86400)
  dsimp only [gmtime]
  constructor
  · rintro ⟨hh, hm, hs, hw⟩
    exact ⟨hw, by omega⟩
  · rintro ⟨hw, ht⟩
    exact ⟨by omega, by omega, by omega, hw⟩

theorem day_of_local_eq (hv : Valid task) {t d : ℤ} (h : z.local t = timeOn task d) :
    z.day t = d := by
  have hhours := hv.hour
  have hminutes := hv.minute
  unfold Zone.day
  rw [h, Int.fdiv_eq_ediv_of_nonneg _ (by decide)]
  unfold timeOn
  omega

theorem at_of_local_eq (hcal : z.Keeps cal) (hv : Valid task) {t d : ℤ} (hd : OnDay task d)
    (h : z.local t = timeOn task d) : At cal task t := by
  have hday := day_of_local_eq hv h
  rw [at_iff hcal hv, hday]
  exact ⟨hd, h⟩

theorem day_le_of_local_lt (hv : Valid task) {now d : ℤ} (h : z.local now < timeOn task d) :
    z.day now ≤ d := by
  have hhours := hv.hour
  have hminutes := hv.minute
  unfold Zone.day timeOn at *
  rw [Int.fdiv_eq_ediv_of_nonneg _ (by decide)]
  omega

theorem timeOn_lt_iff {d e : ℤ} : timeOn task d < timeOn task e ↔ d < e := by
  unfold timeOn
  omega

/-- The first day of the task whose time is still ahead. -/
structure First (z : Zone) (task : ScheduledTask) (now d : ℤ) : Prop where
  onDay : OnDay task d
  ahead : z.local now < timeOn task d
  least : ∀ e, OnDay task e → z.local now < timeOn task e → d ≤ e

theorem First.concerned (hv : Valid task) {now d : ℤ} (h : First z task now d) :
    Concerned z task now d :=
  ⟨h.onDay, .inl (day_le_of_local_lt hv h.ahead), h.least⟩

/-- The instant of the task's time on that day is the first occurrence. -/
theorem First.isLeast (hcal : z.Keeps cal) (hv : Valid task) {now d t : ℤ}
    (honce : Once z task now) (h : First z task now d) (ht : z.local t = timeOn task d) :
    IsLeast {u | now < u ∧ At cal task u} t := by
  have huniq : ∀ u, z.local u = z.local t → u = t := by
    intro u hu
    exact (honce d (h.concerned hv)).unique (hu.trans ht) ht
  refine ⟨⟨?_, at_of_local_eq hcal hv h.onDay ht⟩, ?_⟩
  · rw [lt_iff_local_lt huniq, ht]
    exact h.ahead
  · rintro u ⟨hnow, hu⟩
    obtain ⟨hday, hlocal⟩ := (at_iff hcal hv u).mp hu
    by_contra hlt
    have hbefore : z.day u < d := by
      rw [not_le, lt_iff_local_lt huniq, ht, hlocal] at hlt
      exact timeOn_lt_iff.mp hlt
    -- an occurrence on an earlier day would be past by the local clock, yet still to come
    have hconcerned : Concerned z task now (z.day u) := by
      refine ⟨hday, .inr ⟨u, hnow, rfl⟩, ?_⟩
      intro e he hahead
      exact hbefore.le.trans (h.least e he hahead)
    have hu' : ∀ v, z.local v = z.local u → v = u := fun v hv' =>
      (honce _ hconcerned).unique (hv'.trans hlocal) hlocal
    rw [lt_iff_local_lt hu', hlocal] at hnow
    exact absurd (h.least _ hday hnow) (not_le.mpr hbefore)

end Occurrences

section Today

variable {z : Zone} {cal : Calendar} {task : ScheduledTask} {now : Time}

theorem timegm_todayAt (hcal : z.Keeps cal) (task : ScheduledTask) (now : Time) :
    timegm (todayAt cal task now) = timeOn task (z.day (toTimeT now)) := by
  obtain ⟨isdst, h⟩ := hcal.localtime (toTimeT now)
  have hfields := timegm_gmtime (z.local (toTimeT now)) task.hour task.minute 0 0 (-1)
  unfold todayAt timeOn Zone.day
  rw [h]
  simpa only [add_zero] using hfields

/-- Days may be added to the fields of the day, before or after `mktime` has normalized them. -/
theorem timegm_todayAt_add (hcal : z.Keeps cal) (task : ScheduledTask) (now : Time) (n : ℤ) :
    timegm { todayAt cal task now with mday := (todayAt cal task now).mday + n, isdst := -1 } =
      timeOn task (z.day (toTimeT now) + n) := by
  obtain ⟨isdst, h⟩ := hcal.localtime (toTimeT now)
  have hfields := timegm_gmtime (z.local (toTimeT now)) task.hour task.minute 0 n (-1)
  unfold todayAt timeOn Zone.day
  rw [h]
  simpa only [add_zero] using hfields

theorem timegm_gmtime_timeOn (hv : Valid task) (d n isdst : ℤ) :
    timegm { gmtime (timeOn task d) with
      mday := (gmtime (timeOn task d)).mday + n, isdst := isdst } = timeOn task (d + n) := by
  have hhours := hv.hour
  have hminutes := hv.minute
  have hfields := timegm_gmtime (timeOn task d) task.hour task.minute 0 n isdst
  have hclock : gmtime (timeOn task d) =
      { gmtime (timeOn task d) with hour := task.hour, min := task.minute, sec := 0 } := by
    have hmod : (timeOn task d).fmod 86400 = task.hour * 3600 + task.minute * 60 := by
      rw [Int.fmod_eq_emod_of_nonneg _ (by decide)]
      unfold timeOn
      omega
    unfold gmtime
    rw [hmod]
    dsimp only
    have hsec : (task.hour * 3600 + task.minute * 60) % 60 = 0 := by omega
    have hmin : (task.hour * 3600 + task.minute * 60) / 60 % 60 = task.minute := by omega
    have hhour : (task.hour * 3600 + task.minute * 60) / 3600 = task.hour := by omega
    rw [hsec, hmin, hhour]
  have hday : (timeOn task d).fdiv 86400 = d := by
    rw [Int.fdiv_eq_ediv_of_nonneg _ (by decide)]
    unfold timeOn
    omega
  rw [hclock]
  rw [hday, add_zero] at hfields
  exact hfields

theorem today_concerned (hv : Valid task) {now : ℤ} (hd : OnDay task (z.day now)) :
    Concerned z task now (z.day now) :=
  ⟨hd, .inl le_rfl, fun _ _ h => day_le_of_local_lt hv h⟩

theorem mktime_todayAt (hcal : z.Keeps cal) (hv : Valid task)
    (honce : Once z task (toTimeT now)) (hd : OnDay task (z.day (toTimeT now))) :
    z.local (cal.mktime (todayAt cal task now)).1 = timeOn task (z.day (toTimeT now)) := by
  obtain ⟨t, ht, -⟩ := honce _ (today_concerned hv hd)
  have htoday := timegm_todayAt hcal task now
  rw [hcal.mktime (todayAt cal task now) t rfl (ht.trans htoday.symm), htoday]

/-- The comparison with `now` asks whether today's time is still ahead. -/
theorem lt_mktime_todayAt (hcal : z.Keeps cal) (hv : Valid task)
    (honce : Once z task (toTimeT now)) (hd : OnDay task (z.day (toTimeT now))) :
    toTimeT now < (cal.mktime (todayAt cal task now)).1 ↔
      z.local (toTimeT now) < timeOn task (z.day (toTimeT now)) := by
  have hlocal := mktime_todayAt hcal hv honce hd
  have huniq : ∀ t, z.local t = z.local (cal.mktime (todayAt cal task now)).1 →
      t = (cal.mktime (todayAt cal task now)).1 := by
    intro t ht
    exact (honce _ (today_concerned hv hd)).unique (ht.trans hlocal) hlocal
  rw [lt_iff_local_lt huniq, hlocal]

theorem local_lt_timeOn_add (hv : Valid task) (now : ℤ) {n : ℤ} (hn : 0 < n) :
    z.local now < timeOn task (z.day now + n) := by
  have hhours := hv.hour
  have hminutes := hv.minute
  unfold timeOn Zone.day
  rw [Int.fdiv_eq_ediv_of_nonneg _ (by decide)]
  omega

end Today

section Daily

variable {z : Zone} {cal : Calendar} {task : ScheduledTask} {now : Time}

theorem onDay_daily (hdaily : task.scheduleType = some .daily) (d : ℤ) : OnDay task d := by
  intro h
  rw [hdaily] at h
  cases h

/-- A daily task is due tomorrow once today's time is past. -/
theorem first_tomorrow (hv : Valid task) (hdaily : task.scheduleType = some .daily) {now : ℤ}
    (hpast : ¬ z.local now < timeOn task (z.day now)) : First z task now (z.day now + 1) := by
  refine ⟨onDay_daily hdaily _, local_lt_timeOn_add hv now one_pos, ?_⟩
  intro e he hahead
  have hle := day_le_of_local_lt hv hahead
  have hne : z.day now ≠ e := by
    rintro rfl
    exact hpast hahead
  omega

theorem nextDaily_least_iff (hcal : z.Keeps cal) (hv : Valid task)
    (hdaily : task.scheduleType = some .daily) (honce : Once z task (toTimeT now)) :
    IsLeast {t | toTimeT now < t ∧ At cal task t} (nextDaily cal task now) ↔
      Steady z task (toTimeT now) := by
  have hd := onDay_daily hdaily
  obtain ⟨t, ht⟩ : ∃ t, (cal.mktime (todayAt cal task now)).1 = t := ⟨_, rfl⟩
  have hlocal := mktime_todayAt hcal hv honce (hd _)
  have hlt := lt_mktime_todayAt hcal hv honce (hd _)
  have huniq : ∀ u, z.local u = timeOn task (z.day (toTimeT now)) → u = t := by
    intro u hu
    exact (honce _ (today_concerned hv (hd _))).unique hu (ht ▸ hlocal)
  unfold nextDaily
  rw [ht] at hlocal hlt ⊢
  dsimp only
  by_cases hnow : toTimeT now < t
  · rw [if_neg (not_le.mpr hnow)]
    have hfirst : First z task (toTimeT now) (z.day (toTimeT now)) :=
      ⟨hd _, hlt.mp hnow, fun _ _ h => day_le_of_local_lt hv h⟩
    refine iff_of_true (hfirst.isLeast hcal hv honce hlocal) ?_
    intro _ u hu hulocal
    rw [huniq u hulocal] at hu
    exact absurd hnow (not_lt.mpr hu)
  · rw [if_pos (not_lt.mp hnow)]
    have hfirst := first_tomorrow hv hdaily (fun h => hnow (hlt.mpr h))
    obtain ⟨next, hnext, hunique⟩ := honce _ (hfirst.concerned hv)
    have hleast := hfirst.isLeast hcal hv honce hnext
    -- a day later by the seconds is the next occurrence where the clock is not moved meanwhile
    have hstep : z.local (t + 24 * 3600) = timeOn task (z.day (toTimeT now) + 1) ↔
        z.offset (t + 86400) = z.offset t := by
      have hstart : t + z.offset t = timeOn task (z.day (toTimeT now)) := hlocal
      unfold Zone.local timeOn at *
      norm_num
      omega
    constructor
    · intro h _ u _ hulocal
      rw [huniq u hulocal, ← hstep, h.unique hleast]
      exact hnext
    · intro h
      have hsteady := hstep.mpr (h hdaily t (not_lt.mp hnow) hlocal)
      rw [hunique _ hsteady]
      exact hleast

end Daily

section Weekly

variable {z : Zone} {cal : Calendar} {task : ScheduledTask} {now : Time}

/-- Days from today to the task's next weekday whose time is still ahead. -/
theorem first_ahead (hv : Valid task) (hweekly : task.scheduleType = some .weekly) {now n : ℤ}
    (hday : (z.day now + n + 4).fmod 7 = task.weekday) (hnonneg : 0 ≤ n)
    (hzero : n = 0 → z.local now < timeOn task (z.day now))
    (hseven : n ≤ 7 ∧ (n = 7 → ¬ z.local now < timeOn task (z.day now))) :
    First z task now (z.day now + n) := by
  refine ⟨fun _ => hday, ?_, ?_⟩
  · by_cases hn : n = 0
    · rw [hn, add_zero]
      exact hzero hn
    · exact local_lt_timeOn_add hv now (by omega)
  · intro e he hahead
    have hle := day_le_of_local_lt hv hahead
    have he' : (e + 4).fmod 7 = task.weekday := he hweekly
    have hlast : n = 7 → e ≠ z.day now := by
      rintro hn rfl
      exact hseven.2 hn hahead
    rw [Int.fmod_eq_emod_of_nonneg _ (by decide)] at he' hday
    omega

theorem localtime_wday (hcal : z.Keeps cal) (t : ℤ) :
    (cal.localtime t).wday = (z.day t + 4).fmod 7 := by
  obtain ⟨isdst, h⟩ := hcal.localtime t
  rw [h]
  rfl

/-- The second call of `mktime`, on the fields of today or on those the first has normalized. -/
theorem mktime_ahead (hcal : z.Keeps cal) (hv : Valid task) (honce : Once z task (toTimeT now))
    {n : ℤ} (hfirst : First z task (toTimeT now) (z.day (toTimeT now) + n)) {tm : Tm}
    (htm : timegm { tm with mday := tm.mday + n, isdst := -1 } =
      timeOn task (z.day (toTimeT now) + n)) :
    z.local (cal.mktime { tm with mday := tm.mday + n, isdst := -1 }).1 =
      timeOn task (z.day (toTimeT now) + n) := by
  obtain ⟨t, ht, -⟩ := honce _ (hfirst.concerned hv)
  rw [hcal.mktime _ t rfl (ht.trans htm.symm), htm]

theorem nextWeekly_least (hcal : z.Keeps cal) (hv : Valid task)
    (hweekly : task.scheduleType = some .weekly) (honce : Once z task (toTimeT now)) :
    IsLeast {t | toTimeT now < t ∧ At cal task t} (nextWeekly cal task now) ∧
      nextWeekly cal task now ≠ toTimeT now := by
  suffices h : ∃ d, First z task (toTimeT now) d ∧
      z.local (nextWeekly cal task now) = timeOn task d by
    obtain ⟨d, hfirst, hlocal⟩ := h
    have hleast := hfirst.isLeast hcal hv honce hlocal
    exact ⟨hleast, hleast.1.1.ne'⟩
  have hweekday := hv.weekday hweekly
  obtain ⟨wday, hwday⟩ : ∃ wday, (z.day (toTimeT now) + 4).fmod 7 = wday := ⟨_, rfl⟩
  have hwday' := hwday
  rw [Int.fmod_eq_emod_of_nonneg _ (by decide)] at hwday'
  unfold nextWeekly
  rw [localtime_wday hcal, hwday]
  dsimp only
  obtain ⟨n, hn⟩ : ∃ n, (if task.weekday - wday < 0 then task.weekday - wday + 7
    else task.weekday - wday) = n := ⟨_, rfl⟩
  rw [hn]
  have hbounds : 0 ≤ n ∧ n < 7 ∧ (n = task.weekday - wday ∨ n = task.weekday - wday + 7) := by
    split_ifs at hn <;> omega
  have hday : ∀ k, k = n ∨ k = n + 7 →
      (z.day (toTimeT now) + k + 4).fmod 7 = task.weekday := by
    intro k hk
    rw [Int.fmod_eq_emod_of_nonneg _ (by decide)]
    omega
  by_cases hzero : n = 0
  · rw [if_pos hzero]
    dsimp only
    have hd : OnDay task (z.day (toTimeT now)) := by
      intro _
      have h := hday 0 (by omega)
      rwa [add_zero] at h
    have hlocal := mktime_todayAt hcal hv honce hd
    have hlt := lt_mktime_todayAt hcal hv honce hd
    have htoday := timegm_todayAt hcal task now
    obtain ⟨isdst, hfields⟩ := hcal.normalized (todayAt cal task now) _ rfl
      (hlocal.trans htoday.symm)
    rw [hfields, htoday]
    by_cases hnow : toTimeT now < (cal.mktime (todayAt cal task now)).1
    · have hfirst : First z task (toTimeT now) (z.day (toTimeT now) + 0) :=
        first_ahead hv hweekly (hday 0 (by omega)) le_rfl (fun _ => hlt.mp hnow)
          ⟨by decide, fun h => by cases h⟩
      rw [if_neg (not_le.mpr hnow)]
      exact ⟨_, hfirst, mktime_ahead hcal hv honce hfirst (timegm_gmtime_timeOn hv _ _ _)⟩
    · have hfirst : First z task (toTimeT now) (z.day (toTimeT now) + 7) :=
        first_ahead hv hweekly (hday 7 (by omega)) (by decide) (fun h => by cases h)
          ⟨le_rfl, fun _ h => hnow (hlt.mpr h)⟩
      rw [if_pos (not_lt.mp hnow)]
      exact ⟨_, hfirst, mktime_ahead hcal hv honce hfirst (timegm_gmtime_timeOn hv _ _ _)⟩
  · rw [if_neg hzero]
    have hfirst : First z task (toTimeT now) (z.day (toTimeT now) + n) :=
      first_ahead hv hweekly (hday n (by omega)) hbounds.1 (fun h => absurd h hzero)
        ⟨by omega, fun h => by omega⟩
    exact ⟨_, hfirst, mktime_ahead hcal hv honce hfirst (timegm_todayAt_add hcal task now n)⟩

end Weekly

section Seconds

variable {z : Zone} {cal : Calendar} {task : ScheduledTask} {now : Time}

/-- `to_time_t` drops the fraction towards zero. -/
theorem lt_fromTimeT_iff (now : Time) (t : ℤ) :
    now < fromTimeT t ↔ toTimeT now < t ∨ toTimeT now = t ∧ now < fromTimeT t := by
  have hsplit := Int.mul_tdiv_add_tmod now (10 ^ 9)
  have hlt := Int.tmod_lt_of_pos now (by decide : (0 : ℤ) < 10 ^ 9)
  have hgt := Int.lt_tmod_of_pos now (by decide : (0 : ℤ) < 10 ^ 9)
  unfold toTimeT fromTimeT at *
  unfold Time at *
  omega

theorem fromTimeT_le_iff {s t : ℤ} : fromTimeT s ≤ fromTimeT t ↔ s ≤ t := by
  unfold fromTimeT Time
  omega

theorem fromTimeT_injective {s t : ℤ} (h : fromTimeT s = fromTimeT t) : s = t := by
  unfold fromTimeT Time at h
  omega

/-- In seconds of the clock the next occurrence is the same, unless now is rounded up to one. -/
theorem isLeast_fromTimeT_iff (cal : Calendar) (task : ScheduledTask) (now : Time) {t : ℤ}
    (hrounded : NotRoundedUp cal task now) :
    IsLeast {x | now < x ∧ Occurs cal task x} (fromTimeT t) ↔
      IsLeast {u | toTimeT now < u ∧ At cal task u} t := by
  have hlater : ∀ u, At cal task u → (now < fromTimeT u ↔ toTimeT now < u) := by
    intro u hu
    rw [lt_fromTimeT_iff]
    constructor
    · rintro (h | ⟨rfl, h⟩)
      · exact h
      · exact absurd (hrounded hu) (not_le.mpr h)
    · exact .inl
  constructor
  · rintro ⟨⟨hnow, u, hu, hat⟩, hleast⟩
    obtain rfl := fromTimeT_injective hu
    refine ⟨⟨(hlater _ hat).mp hnow, hat⟩, ?_⟩
    rintro u ⟨hu, hatu⟩
    exact fromTimeT_le_iff.mp (hleast ⟨(hlater u hatu).mpr hu, u, rfl, hatu⟩)
  · rintro ⟨⟨hnow, hat⟩, hleast⟩
    refine ⟨⟨(hlater _ hat).mpr hnow, _, rfl, hat⟩, ?_⟩
    rintro _ ⟨hx, u, rfl, hatu⟩
    exact fromTimeT_le_iff.mpr (hleast ⟨(hlater u hatu).mp hx, hatu⟩)

/-- Rounded up to an occurrence, now is taken for it, and the one after it is not the next. -/
theorem not_isLeast_of_rounded (cal : Calendar) (task : ScheduledTask) (now : Time) {t : ℤ}
    (hrounded : ¬ NotRoundedUp cal task now) (hne : t ≠ toTimeT now) :
    ¬ IsLeast {x | now < x ∧ Occurs cal task x} (fromTimeT t) := by
  rintro ⟨⟨hnow, -⟩, hleast⟩
  unfold NotRoundedUp at hrounded
  obtain ⟨hat, hlt⟩ := Classical.not_imp.mp hrounded
  rw [not_le] at hlt
  have hle := fromTimeT_le_iff.mp (hleast ⟨hlt, _, rfl, hat⟩)
  rcases (lt_fromTimeT_iff now t).mp hnow with h | ⟨h, -⟩
  · omega
  · exact hne h.symm

theorem nextDaily_ne (hcal : z.Keeps cal) (hv : Valid task)
    (hdaily : task.scheduleType = some .daily) (honce : Once z task (toTimeT now))
    (hat : At cal task (toTimeT now)) : nextDaily cal task now ≠ toTimeT now := by
  have hd := onDay_daily hdaily (z.day (toTimeT now))
  obtain ⟨-, hnow⟩ := (at_iff hcal hv _).mp hat
  -- the occurrence on this day is now
  have heq := (honce _ (today_concerned hv hd)).unique hnow (mktime_todayAt hcal hv honce hd)
  unfold nextDaily
  dsimp only
  rw [← heq, if_pos le_rfl]
  omega

end Seconds

section NextRun

variable {z : Zone} {cal : Calendar} {task : ScheduledTask} {now : Time}

theorem nextRun_least_iff (hcal : z.Keeps cal) (hv : Valid task)
    (honce : Once z task (toTimeT now)) :
    NextRunLeast cal task now ↔ Steady z task (toTimeT now) ∧ NotRoundedUp cal task now := by
  unfold NextRunLeast nextRun
  rcases hv.repeating with hdaily | hweekly
  · rw [hdaily]
    dsimp only
    by_cases hrounded : NotRoundedUp cal task now
    · rw [isLeast_fromTimeT_iff cal task now hrounded,
        nextDaily_least_iff hcal hv hdaily honce]
      exact ⟨fun h => ⟨h, hrounded⟩, And.left⟩
    · have hat : At cal task (toTimeT now) := by
        by_contra hat
        exact hrounded fun h => absurd h hat
      refine iff_of_false ?_ fun h => hrounded h.2
      exact not_isLeast_of_rounded cal task now hrounded (nextDaily_ne hcal hv hdaily honce hat)
  · rw [hweekly]
    dsimp only
    obtain ⟨hleast, hne⟩ := nextWeekly_least hcal hv hweekly honce
    have hsteady : Steady z task (toTimeT now) := by
      intro h
      rw [hweekly] at h
      cases h
    by_cases hrounded : NotRoundedUp cal task now
    · rw [isLeast_fromTimeT_iff cal task now hrounded]
      exact iff_of_true hleast ⟨hsteady, hrounded⟩
    · refine iff_of_false ?_ fun h => hrounded h.2
      exact not_isLeast_of_rounded cal task now hrounded hne

end NextRun

namespace Counterexample

/-- An hour ahead until the clock goes back, at two in the morning of the second day. -/
def autumn : Zone where
  offset t := if t < 90000 then 3600 else 0
  changes s t u hst htu := by
    split_ifs <;> omega

def autumnCalendar : Calendar where
  localtime t := { gmtime (autumn.local t) with isdst := if t < 90000 then 1 else 0 }
  mktime tm :=
    let t := if timegm tm - 3600 < 90000 then timegm tm - 3600 else timegm tm
    (t, { gmtime (autumn.local t) with isdst := if t < 90000 then 1 else 0 })
  strptime format text := scanTm {} format text
  strftime format tm := formatTm tm format

theorem autumn_local_eq (t l : ℤ) :
    autumn.local t = l ↔ t < 90000 ∧ t = l - 3600 ∨ 90000 ≤ t ∧ t = l := by
  unfold Zone.local autumn
  dsimp only
  split_ifs <;> omega

theorem autumn_keeps : autumn.Keeps autumnCalendar := by
  have hmktime : ∀ tm t, autumn.local t = timegm tm →
      autumn.local (autumnCalendar.mktime tm).1 = timegm tm := by
    intro tm t h
    rw [autumn_local_eq] at h ⊢
    unfold autumnCalendar
    dsimp only
    split_ifs <;> omega
  refine ⟨fun t => ⟨_, rfl⟩, fun tm t _ => hmktime tm t, fun tm t _ h => ?_⟩
  rw [← hmktime tm t h]
  exact ⟨_, rfl⟩

def nine : ScheduledTask := { scheduleType := some .daily, hour := 9 }

theorem nine_valid : Valid nine :=
  ⟨.inl rfl, by decide, by decide, fun h => by cases h⟩

/-- The hour that comes twice is not nine o'clock. -/
theorem nine_once (now : ℤ) : Once autumn nine now := by
  intro d _
  have hnine : timeOn nine d = d * 86400 + 32400 := by
    unfold timeOn nine
    norm_num
  rw [hnine]
  by_cases hd : d * 86400 + 28800 < 90000
  · refine ⟨d * 86400 + 28800, (autumn_local_eq _ _).mpr (by omega), ?_⟩
    intro t ht
    have := (autumn_local_eq _ _).mp ht
    omega
  · refine ⟨d * 86400 + 32400, (autumn_local_eq _ _).mpr (by omega), ?_⟩
    intro t ht
    have := (autumn_local_eq _ _).mp ht
    omega

/-- At eleven o'clock the day before the clock goes back, the next run is set for eight. -/
theorem eight_o_clock :
    autumn.Keeps autumnCalendar ∧ Valid nine ∧ Once autumn nine (toTimeT (fromTimeT 36000)) ∧
      nextRun autumnCalendar nine (fromTimeT 36000) = fromTimeT 115200 ∧
      ¬ NextRunLeast autumnCalendar nine (fromTimeT 36000) := by
  have hrun : nextRun autumnCalendar nine (fromTimeT 36000) = fromTimeT 115200 := by decide
  refine ⟨autumn_keeps, nine_valid, nine_once _, hrun, ?_⟩
  rintro ⟨⟨-, t, ht, hhour, -⟩, -⟩
  rw [hrun] at ht
  obtain rfl := fromTimeT_injective ht
  exact absurd hhour (by decide)

theorem nine_o_clock : NextRunLeast autumnCalendar nine 0 := by
  refine (nextRun_least_iff autumn_keeps nine_valid (nine_once _)).mpr ⟨?_, fun _ => by decide⟩
  intro _ t ht hlocal
  have := (autumn_local_eq _ _).mp hlocal
  have htime : timeOn nine (autumn.day (toTimeT 0)) = 32400 := by decide
  have hnow : toTimeT 0 = 0 := rfl
  omega

end Counterexample

end NextOccurrence
