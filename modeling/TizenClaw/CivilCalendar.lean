import TizenClaw.TaskSchedule

/-! The proleptic Gregorian calendar: dates and day numbers are inverse to each other, and the days
of a month may be counted beyond its end. -/
namespace CivilCalendar

open TaskSchedule

section Eras

/-- Years and days within an era of 400 years that begins with a March. -/
theorem dayOfYear_bounds {doe yoe : ℤ} (h0 : 0 ≤ doe) (hlt : doe < 146097)
    (hy : (doe - doe / 1460 + doe / 36524 - doe / 146096) / 365 = yoe) :
    0 ≤ yoe ∧ yoe < 400 ∧ 0 ≤ doe - (365 * yoe + yoe / 4 - yoe / 100) ∧
      doe - (365 * yoe + yoe / 4 - yoe / 100) ≤ 365 := by
  have hyoe : 0 ≤ yoe ∧ yoe < 400 := by omega
  refine ⟨hyoe.1, hyoe.2, ?_⟩
  obtain ⟨b, hb⟩ : ∃ b, doe / 36524 = b := ⟨_, rfl⟩
  obtain ⟨e, he⟩ : ∃ e, doe / 146096 = e := ⟨_, rfl⟩
  obtain ⟨c, hc⟩ : ∃ c, yoe / 100 = c := ⟨_, rfl⟩
  rw [hb, he] at hy
  rw [hc]
  -- the century of the days may be one ahead of the century of the years
  have hbs : b = 0 ∨ b = 1 ∨ b = 2 ∨ b = 3 ∨ b = 4 := by omega
  have hes : e = 0 ∨ e = 1 := by omega
  have hcs : c = 0 ∨ c = 1 ∨ c = 2 ∨ c = 3 := by omega
  rcases hbs with rfl | rfl | rfl | rfl | rfl <;> rcases hes with rfl | rfl <;>
    rcases hcs with rfl | rfl | rfl | rfl <;> omega

theorem daysFromCivil_civilFromDays (days : ℤ) :
    daysFromCivil (civilFromDays days).1 (civilFromDays days).2.1 (civilFromDays days).2.2 =
      days := by
  unfold civilFromDays daysFromCivil
  dsimp only
  simp only [Int.fdiv_eq_ediv_of_nonneg _ (by decide : (0 : ℤ) ≤ 146097),
    Int.fmod_eq_emod_of_nonneg _ (by decide : (0 : ℤ) ≤ 146097),
    Int.fdiv_eq_ediv_of_nonneg _ (by decide : (0 : ℤ) ≤ 12),
    Int.fmod_eq_emod_of_nonneg _ (by decide : (0 : ℤ) ≤ 12),
    Int.fdiv_eq_ediv_of_nonneg _ (by decide : (0 : ℤ) ≤ 400),
    Int.fmod_eq_emod_of_nonneg _ (by decide : (0 : ℤ) ≤ 400)]
  obtain ⟨era, hera⟩ : ∃ era, (days + 719468) / 146097 = era := ⟨_, rfl⟩
  obtain ⟨doe, hdoe⟩ : ∃ doe, (days + 719468) % 146097 = doe := ⟨_, rfl⟩
  obtain ⟨yoe, hyoe⟩ : ∃ yoe, (doe - doe / 1460 + doe / 36524 - doe / 146096) / 365 = yoe :=
    ⟨_, rfl⟩
  rw [hera, hdoe, hyoe]
  have hbounds := dayOfYear_bounds (by omega) (by omega) hyoe
  obtain ⟨doy, hdoy⟩ : ∃ doy, doe - (365 * yoe + yoe / 4 - yoe / 100) = doy := ⟨_, rfl⟩
  rw [hdoy] at hbounds ⊢
  obtain ⟨m, hm⟩ : ∃ m, (5 * doy + 2) / 153 = m := ⟨_, rfl⟩
  rw [hm]
  have hm12 : 0 ≤ m ∧ m < 12 := by omega
  -- counted from March, the month before a January belongs to the year before
  have hmonths : (era * 400 + yoe + if (if m < 10 then m + 2 else m - 10) ≤ 1 then 1 else 0) * 12 +
      (if m < 10 then m + 2 else m - 10) - 2 = (era * 400 + yoe) * 12 + m := by
    split_ifs <;> omega
  rw [hmonths]
  have hy : ((era * 400 + yoe) * 12 + m) / 12 = era * 400 + yoe := by omega
  have hmod : ((era * 400 + yoe) * 12 + m) % 12 = m := by omega
  have hera' : (era * 400 + yoe) / 400 = era := by omega
  have hyoe' : (era * 400 + yoe) % 400 = yoe := by omega
  rw [hy, hmod, hera', hyoe']
  omega

theorem daysFromCivil_add (year mon mday n : ℤ) :
    daysFromCivil year mon (mday + n) = daysFromCivil year mon mday + n := by
  unfold daysFromCivil
  dsimp only
  omega

end Eras

section Fields

/-- The fields of an instant on another clock, and so many days on. -/
theorem timegm_gmtime (t hour min sec n isdst : ℤ) :
    timegm { gmtime t with
      hour := hour, min := min, sec := sec, mday := (gmtime t).mday + n, isdst := isdst } =
      (t.fdiv 86400 + n) * 86400 + hour * 3600 + min * 60 + sec := by
  unfold timegm gmtime
  dsimp only
  rw [sub_add_cancel, daysFromCivil_add, daysFromCivil_civilFromDays]

end Fields

end CivilCalendar
