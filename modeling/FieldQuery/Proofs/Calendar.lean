import FieldQuery.CivilTime

/-!
# The days of the calendar

The days of the calendar follow one another without a gap, and their numbers count them: the next
day has the next number, at the end of every month and in leap years too. Every day is the next one
of some day. A later year, a later month of the same year or a later day of the same month has the
greater number, so no two days share one.
-/
namespace FieldQuery.Date

variable {d e : Date} {y z : Int}

theorem monthLength_pos (year : Int) (month : Nat) : 1 ≤ monthLength year month := by
  unfold monthLength
  split
  · split <;> decide
  · split <;> decide

theorem daysBeforeMonth_pred (year : Int) {month : Nat} (h : 1 ≤ month) :
    daysBeforeMonth year (month - 1) + monthLength year month = daysBeforeMonth year month := by
  obtain ⟨months, rfl⟩ := Nat.exists_eq_add_of_le' h
  rfl

theorem daysBeforeMonth_mono (year : Int) {m n : Nat} (h : m ≤ n) :
    daysBeforeMonth year m ≤ daysBeforeMonth year n := by
  induction h with
  | refl => exact Nat.le_refl _
  | step _ ih => exact Nat.le_trans ih (Nat.le_add_right _ _)

/-- A year has the days of its twelve months. -/
theorem daysBeforeYear_succ (year : Int) :
    daysBeforeYear (year + 1) = daysBeforeYear year + daysBeforeMonth year 12 := by
  have hlength : daysBeforeMonth year 12 = if isLeap year then 366 else 365 := by
    cases h : isLeap year <;> simp [daysBeforeMonth, monthLength, h]
  rw [hlength]
  simp only [daysBeforeYear, isLeap, Bool.and_eq_true, Bool.or_eq_true, decide_eq_true_eq]
  split <;> omega

theorem daysBeforeYear_mono (h : y ≤ z) : daysBeforeYear y ≤ daysBeforeYear z := by
  rcases Int.le_iff_eq_or_lt.mp h with rfl | h
  · exact Int.le_refl _
  · unfold daysBeforeYear
    omega

/-- The number of a day in its year, counted from one. -/
def dayOfYear (d : Date) : Nat := daysBeforeMonth d.year (d.month - 1) + d.day

theorem dayNumber_eq (d : Date) :
    d.dayNumber = daysBeforeYear d.year + d.dayOfYear - 1 - daysBeforeYear 1970 := by
  rw [dayNumber, dayOfYear]
  omega

theorem dayOfYear_le (h : d.Valid) : d.dayOfYear ≤ daysBeforeMonth d.year d.month := by
  rw [dayOfYear, ← daysBeforeMonth_pred d.year h.1]
  exact Nat.add_le_add_left h.2.2.2 _

theorem daysBeforeMonth_lt_dayOfYear (h : d.Valid) :
    daysBeforeMonth d.year (d.month - 1) < d.dayOfYear :=
  Nat.lt_add_of_pos_right h.2.2.1

/-- The number of a day lies in its year. -/
theorem dayNumber_mem_year (h : d.Valid) :
    daysBeforeYear d.year ≤ d.dayNumber + daysBeforeYear 1970 ∧
      d.dayNumber + daysBeforeYear 1970 < daysBeforeYear (d.year + 1) := by
  have hstart := daysBeforeMonth_lt_dayOfYear h
  have hend := Nat.le_trans (dayOfYear_le h) (daysBeforeMonth_mono d.year h.2.1)
  rw [daysBeforeYear_succ, dayNumber_eq]
  constructor <;> omega

theorem valid_next (h : d.Valid) : d.next.Valid := by
  obtain ⟨hmonth, hmonth', hday, hday'⟩ := h
  rw [next]
  split
  · next hlt => exact ⟨hmonth, hmonth', Nat.le_add_left 1 _, hlt⟩
  · split
    · next hlt => exact ⟨Nat.le_add_left 1 _, hlt, Nat.le_refl 1, monthLength_pos _ _⟩
    · exact ⟨Nat.le_refl 1, by simp, Nat.le_refl 1, monthLength_pos _ _⟩

theorem dayNumber_next (h : d.Valid) : d.next.dayNumber = d.dayNumber + 1 := by
  have hmonths := daysBeforeMonth_pred d.year h.1
  have hday := h.2.2.2
  rw [dayNumber_eq, dayNumber_eq, next]
  split
  · simp only [dayOfYear]
    omega
  · split
    · simp only [dayOfYear, Nat.add_sub_cancel]
      omega
    · next hmonth =>
      have hdecember : d.month = 12 := Nat.le_antisymm h.2.1 (Nat.le_of_not_lt hmonth)
      have hlast : d.dayOfYear = daysBeforeMonth d.year 12 := by
        rw [dayOfYear, ← hdecember, ← hmonths]
        omega
      have hfirst : dayOfYear ⟨d.year + 1, 1, 1⟩ = 1 := rfl
      dsimp only
      rw [hfirst, hlast, daysBeforeYear_succ]
      omega

/-- The day before. -/
def previous (d : Date) : Date :=
  if 1 < d.day then { d with day := d.day - 1 }
  else if 1 < d.month then
    { d with month := d.month - 1, day := monthLength d.year (d.month - 1) }
  else ⟨d.year - 1, 12, 31⟩

theorem valid_previous (h : d.Valid) : d.previous.Valid := by
  obtain ⟨hmonth, hmonth', hday, hday'⟩ := h
  rw [previous]
  split
  · next hlt =>
    exact ⟨hmonth, hmonth', Nat.le_sub_one_of_lt hlt, Nat.le_trans (Nat.sub_le _ 1) hday'⟩
  · split
    · next hlt =>
      have hle : d.month - 1 ≤ 12 := Nat.le_trans (Nat.sub_le _ 1) hmonth'
      exact ⟨Nat.le_sub_one_of_lt hlt, hle, monthLength_pos _ _, Nat.le_refl _⟩
    · exact ⟨by simp, Nat.le_refl 12, by simp, Nat.le_refl 31⟩

theorem next_previous (h : d.Valid) : d.previous.next = d := by
  obtain ⟨year, month, day⟩ := d
  obtain ⟨hmonth, hmonth', hday, hday'⟩ := h
  dsimp only at hmonth hmonth' hday hday'
  rw [previous]
  dsimp only
  split
  · rw [next, if_pos (by dsimp only; omega), Nat.sub_add_cancel hday]
  · obtain rfl : day = 1 := by omega
    split
    · rw [next, if_neg (Nat.lt_irrefl _), if_pos (by dsimp only; omega)]
      dsimp only
      rw [Nat.sub_add_cancel hmonth]
    · obtain rfl : month = 1 := by omega
      have hdecember : ¬ 31 < monthLength (year - 1) 12 := Nat.lt_irrefl 31
      rw [next, if_neg hdecember, if_neg (Nat.lt_irrefl 12)]
      dsimp only
      rw [Int.sub_add_cancel]

theorem dayNumber_previous (h : d.Valid) : d.previous.dayNumber = d.dayNumber - 1 := by
  have hnext := dayNumber_next (valid_previous h)
  rw [next_previous h] at hnext
  omega

/-- The order of the calendar. -/
def Before (d e : Date) : Prop :=
  d.year < e.year ∨ d.year = e.year ∧ (d.month < e.month ∨ d.month = e.month ∧ d.day < e.day)

theorem before_trichotomy (d e : Date) : d.Before e ∨ d = e ∨ e.Before d := by
  obtain ⟨year, month, day⟩ := d
  obtain ⟨year', month', day'⟩ := e
  simp only [Before, Date.mk.injEq]
  omega

theorem dayNumber_lt_of_before (hd : d.Valid) (he : e.Valid) (h : d.Before e) :
    d.dayNumber < e.dayNumber := by
  rcases h with hyear | ⟨hyear, hmonth | ⟨hmonth, hday⟩⟩
  · have hend := (dayNumber_mem_year hd).2
    have hyears := daysBeforeYear_mono (Int.add_one_le_of_lt hyear)
    have hstart := (dayNumber_mem_year he).1
    omega
  · have hend := dayOfYear_le hd
    have hmonths := daysBeforeMonth_mono d.year (Nat.le_sub_one_of_lt hmonth)
    have hstart := daysBeforeMonth_lt_dayOfYear he
    rw [dayNumber_eq, dayNumber_eq]
    rw [← hyear] at hstart ⊢
    omega
  · rw [dayNumber_eq, dayNumber_eq, dayOfYear, dayOfYear, ← hyear, ← hmonth]
    omega

theorem dayNumber_inj (hd : d.Valid) (he : e.Valid) (h : d.dayNumber = e.dayNumber) : d = e := by
  rcases before_trichotomy d e with hbefore | heq | hafter
  · exact absurd h (Int.ne_of_lt (dayNumber_lt_of_before hd he hbefore))
  · exact heq
  · exact absurd h.symm (Int.ne_of_lt (dayNumber_lt_of_before he hd hafter))

theorem year_le_of_dayNumber_le (hd : d.Valid) (he : e.Valid) (h : d.dayNumber ≤ e.dayNumber) :
    d.year ≤ e.year := by
  apply Int.not_lt.mp
  intro hlt
  exact absurd (dayNumber_lt_of_before he hd (.inl hlt)) (Int.not_lt.mpr h)

end FieldQuery.Date
