import FieldQuery.Proofs.Calendar
import FieldQuery.Proofs.Conversion
import Mathlib.Data.Rat.Floor

/-!
# Civil times become whole seconds

A civil time is converted to the whole seconds of its instant since the start of 1970. What this
count is can be said without a formula: it is zero at that moment, grows by the length of a day from
one day to the next, by an hour, a minute and a second as the clock does, shrinks by the offset of
the zone, and knows of no fraction. There is just one such count on the times that exist.
-/
namespace FieldQuery

/-- The dates of the times that exist. -/
def Date.Admitted (d : Date) : Prop :=
  d.Valid ∧ CivilTime.firstDay.year ≤ d.year ∧ d.year ≤ CivilTime.lastDay.year

instance (d : Date) : Decidable d.Admitted := inferInstanceAs (Decidable (_ ∧ _))

theorem Date.dayNumber_epoch : Date.dayNumber ⟨1970, 1, 1⟩ = 0 := by decide

theorem Date.admitted_epoch : Date.Admitted ⟨1970, 1, 1⟩ := by decide

/-- The admitted days leave no gap. -/
theorem Date.Admitted.of_between {d e f : Date} (hd : d.Valid) (he : e.Admitted) (hf : f.Admitted)
    (hed : e.dayNumber ≤ d.dayNumber) (hdf : d.dayNumber ≤ f.dayNumber) : d.Admitted :=
  ⟨hd, Int.le_trans he.2.1 (year_le_of_dayNumber_le he.1 hd hed),
    Int.le_trans (year_le_of_dayNumber_le hd hf.1 hdf) hf.2.2⟩

namespace CivilTime

variable {d : Date} {t u : CivilTime}

theorem Valid.admitted (ht : t.Valid) : t.date.Admitted := ⟨ht.1, ht.2.1, ht.2.2.1⟩

/-- The exact instant, in seconds since the start of 1970. -/
def instant (t : CivilTime) : ℚ :=
  86400 * t.date.dayNumber + (t.secondOfDay + t.nanos / 1000000000) - t.offset

/-- What a count of seconds obeys on the times that exist. -/
structure CountsSeconds (count : CivilTime → ℤ) : Prop where
  epoch : count ⟨⟨1970, 1, 1⟩, 0, 0, 0, 0, 0⟩ = 0
  next_day : ∀ t : CivilTime, t.Valid → { t with date := t.date.next }.Valid →
    count { t with date := t.date.next } = count t + 86400
  next_hour : ∀ t : CivilTime, t.Valid → { t with hour := t.hour + 1 }.Valid →
    count { t with hour := t.hour + 1 } = count t + 3600
  next_minute : ∀ t : CivilTime, t.Valid → { t with minute := t.minute + 1 }.Valid →
    count { t with minute := t.minute + 1 } = count t + 60
  next_second : ∀ t : CivilTime, t.Valid → { t with second := t.second + 1 }.Valid →
    count { t with second := t.second + 1 } = count t + 1
  offset : ∀ t : CivilTime, t.Valid → count t = count { t with offset := 0 } - t.offset
  nanos : ∀ t : CivilTime, t.Valid → count t = count { t with nanos := 0 }

theorem countsSeconds_unixSeconds : CountsSeconds unixSeconds where
  epoch := by decide
  next_day t ht _ := by
    have hnext := Date.dayNumber_next ht.1
    simp only [unixSeconds, secondOfDay, hnext]
    omega
  next_hour t _ _ := by simp only [unixSeconds, secondOfDay]; omega
  next_minute t _ _ := by simp only [unixSeconds, secondOfDay]; omega
  next_second t _ _ := by simp only [unixSeconds, secondOfDay]; omega
  offset t _ := by simp only [unixSeconds, secondOfDay]; omega
  nanos t _ := rfl

theorem dayNumber_bounds (hd : d.Admitted) :
    firstDay.dayNumber ≤ d.dayNumber ∧ d.dayNumber ≤ lastDay.dayNumber := by
  obtain ⟨hvalid, hfirst, hlast⟩ := hd
  obtain ⟨hstart, hend⟩ := Date.dayNumber_mem_year hvalid
  have hstart' := Date.daysBeforeYear_mono hfirst
  have hend' := Date.daysBeforeYear_mono (Int.add_le_add_right hlast 1)
  have hfirstNumber :
    firstDay.dayNumber = Date.daysBeforeYear firstDay.year - Date.daysBeforeYear 1970 := rfl
  have hlastNumber :
    lastDay.dayNumber = Date.daysBeforeYear (lastDay.year + 1) - Date.daysBeforeYear 1970 - 1 := rfl
  constructor <;> omega

/-- At offset zero every time of an admitted day exists. -/
theorem valid_of_admitted {hour minute second nanos : ℕ} (hd : d.Admitted) (hhour : hour < 24)
    (hminute : minute < 60) (hsecond : second < 60)
    (hnanos : nanos < 1000000000 ∨ second = 59 ∧ nanos < 2000000000) :
    Valid ⟨d, hour, minute, second, nanos, 0⟩ := by
  have hbounds := dayNumber_bounds hd
  refine ⟨hd.1, hd.2.1, hd.2.2, hhour, hminute, hsecond, hnanos, ?_, ?_, ?_, ?_⟩
  all_goals
    simp only [unixSeconds, secondOfDay]
    omega

theorem valid_midnight (hd : d.Admitted) : Valid ⟨d, 0, 0, 0, 0, 0⟩ :=
  valid_of_admitted hd (by omega) (by omega) (by omega) (by omega)

theorem eq_add_mul_of_step {f : ℕ → ℤ} {c : ℤ} {bound : ℕ}
    (hstep : ∀ i, i + 1 < bound → f (i + 1) = f i + c) :
    ∀ i < bound, f i = f 0 + c * i := by
  intro i
  induction i with
  | zero => simp
  | succ i ih =>
    intro hi
    rw [hstep i hi, ih (Nat.lt_of_succ_lt hi)]
    push_cast
    ring

namespace CountsSeconds

variable {count : CivilTime → ℤ} {hour minute second : ℕ}

theorem midnight_next (hcount : CountsSeconds count) (hd : d.Admitted) (hnext : d.next.Admitted) :
    count ⟨d.next, 0, 0, 0, 0, 0⟩ = count ⟨d, 0, 0, 0, 0, 0⟩ + 86400 :=
  hcount.next_day ⟨d, 0, 0, 0, 0, 0⟩ (valid_midnight hd) (valid_midnight hnext)

/-- From the start of 1970 every midnight is reached day by day, forwards or backwards. -/
theorem midnight (hcount : CountsSeconds count) (hd : d.Admitted) :
    count ⟨d, 0, 0, 0, 0, 0⟩ = 86400 * d.dayNumber := by
  -- The day before lies nearer to 1970 for later days, the next one for earlier days.
  generalize hn : d.dayNumber = n
  induction n using Int.induction_on generalizing d with
  | zero =>
    rw [Date.dayNumber_inj hd.1 (by decide) (hn.trans Date.dayNumber_epoch.symm)]
    exact hcount.epoch
  | succ n ih =>
    have hnumber : d.previous.dayNumber = n := by
      rw [Date.dayNumber_previous hd.1, hn, Int.add_sub_cancel]
    have hprevious : d.previous.Admitted :=
      .of_between (Date.valid_previous hd.1) Date.admitted_epoch hd
        (by rw [hnumber, Date.dayNumber_epoch]; omega) (by omega)
    have hnext := Date.next_previous hd.1
    have hstep := hcount.midnight_next hprevious (by rwa [hnext])
    rw [hnext, ih hprevious hnumber] at hstep
    linarith only [hstep]
  | pred n ih =>
    have hnumber : d.next.dayNumber = -n := by
      rw [Date.dayNumber_next hd.1, hn, Int.sub_add_cancel]
    have hnext : d.next.Admitted :=
      .of_between (Date.valid_next hd.1) hd Date.admitted_epoch (by omega)
        (by rw [hnumber, Date.dayNumber_epoch]; omega)
    have hstep := hcount.midnight_next hd hnext
    rw [ih hnext hnumber] at hstep
    linarith only [hstep]

/-- From midnight the clock is reached hour by hour, then minute by minute, second by second. -/
theorem clock (hcount : CountsSeconds count) (hd : d.Admitted) (hhour : hour < 24)
    (hminute : minute < 60) (hsecond : second < 60) :
    count ⟨d, hour, minute, second, 0, 0⟩ =
      count ⟨d, 0, 0, 0, 0, 0⟩ + 3600 * hour + 60 * minute + second := by
  have hwhole {h m s : ℕ} (hh : h < 24) (hm : m < 60) (hs : s < 60) : Valid ⟨d, h, m, s, 0, 0⟩ :=
    valid_of_admitted hd hh hm hs (.inl (by decide))
  have hpos : 0 < 60 := by decide
  have hhours := eq_add_mul_of_step (f := fun h => count ⟨d, h, 0, 0, 0, 0⟩)
    (fun h hh => hcount.next_hour ⟨d, h, 0, 0, 0, 0⟩
      (hwhole (Nat.lt_of_succ_lt hh) hpos hpos) (hwhole hh hpos hpos)) hour hhour
  have hminutes := eq_add_mul_of_step (f := fun m => count ⟨d, hour, m, 0, 0, 0⟩)
    (fun m hm => hcount.next_minute ⟨d, hour, m, 0, 0, 0⟩
      (hwhole hhour (Nat.lt_of_succ_lt hm) hpos) (hwhole hhour hm hpos)) minute hminute
  have hseconds := eq_add_mul_of_step (f := fun s => count ⟨d, hour, minute, s, 0, 0⟩)
    (fun s hs => hcount.next_second ⟨d, hour, minute, s, 0, 0⟩
      (hwhole hhour hminute (Nat.lt_of_succ_lt hs)) (hwhole hhour hminute hs)) second hsecond
  linarith only [hhours, hminutes, hseconds]

/-- The laws leave no choice: zone and fraction go first, then the clock, then the days. -/
theorem eq_unixSeconds (hcount : CountsSeconds count) (ht : t.Valid) :
    count t = t.unixSeconds := by
  have hadmitted := ht.admitted
  obtain ⟨-, -, -, hhour, hminute, hsecond, hnanos, -⟩ := id ht
  have hfraction := hcount.nanos _ (valid_of_admitted hadmitted hhour hminute hsecond hnanos)
  rw [hcount.offset t ht, hfraction, hcount.clock hadmitted hhour hminute hsecond,
    hcount.midnight hadmitted]
  simp only [unixSeconds, secondOfDay]
  push_cast
  ring

end CountsSeconds

theorem instant_eq (t : CivilTime) : t.instant = t.unixSeconds + (t.nanos : ℚ) / 1000000000 := by
  simp only [instant, unixSeconds]
  push_cast
  ring

theorem floor_instant (hnanos : t.nanos < 1000000000) : ⌊t.instant⌋ = t.unixSeconds := by
  have hfraction : (t.nanos : ℚ) / 1000000000 < 1 := by
    rw [div_lt_one (by norm_num)]
    exact_mod_cast hnanos
  rw [instant_eq, Int.floor_intCast_add, Int.floor_eq_zero_iff.mpr ⟨by positivity, hfraction⟩,
    Int.add_zero]

/-- The admitted days are far from the ends of 64 bits. -/
theorem fits_unixSeconds (ht : t.Valid) : Fits t.unixSeconds := by
  obtain ⟨-, -, -, -, -, -, -, -, -, hmin, hmax⟩ := ht
  have hfirst : -2 ^ 63 ≤ 86400 * firstDay.dayNumber := by decide
  have hlast : 86400 * (lastDay.dayNumber + 1) ≤ 2 ^ 63 := by decide
  exact ⟨Int.le_trans hfirst hmin, Int.le_sub_one_of_lt (Int.lt_of_lt_of_le hmax hlast)⟩

end CivilTime

namespace Operand
open CivilTime

variable {t : CivilTime}

theorem number_time (ht : t.Valid) :
    ∃ w : Int64, (time t).number = .ok (.integer w) ∧
      (Argument.operand (time t)).value = .ok (.number (.integer w)) ∧
      w.toInt = t.unixSeconds :=
  ⟨Int64.ofInt t.unixSeconds, rfl, rfl, toInt_ofInt_of_fits (fits_unixSeconds ht)⟩

/-- A time that exists is converted to an integer number, as an operand and as a value. Its integer
is the count of seconds that is zero at the start of 1970, grows by the length of a day from a day
to the next of the calendar, by an hour, a minute and a second with the clock, shrinks by the offset
and knows of no fraction; there is such a count and no other. So it is the floor of the instant,
equal instants have equal numbers, a later instant never has a smaller one, and 64 bits hold all. -/
theorem time_conversion :
    CountsSeconds unixSeconds ∧
    (∀ count, CountsSeconds count → ∀ t, t.Valid →
      ∃ w : Int64, (time t).number = .ok (.integer w) ∧
        (Argument.operand (time t)).value = .ok (.number (.integer w)) ∧ w.toInt = count t) ∧
    (∀ t : CivilTime, t.Valid → t.nanos < 1000000000 →
      ∃ w : Int64, (time t).number = .ok (.integer w) ∧ w.toInt = ⌊t.instant⌋) ∧
    (∀ t u : CivilTime, t.Valid → u.Valid → t.nanos < 1000000000 → u.nanos < 1000000000 →
      t.instant = u.instant → (time t).number = (time u).number) ∧
    (∀ t u : CivilTime, t.Valid → u.Valid → t.nanos < 1000000000 → u.nanos < 1000000000 →
      t.instant ≤ u.instant →
      ∃ v w : Int64, (time t).number = .ok (.integer v) ∧ (time u).number = .ok (.integer w) ∧
        v.toInt ≤ w.toInt) ∧
    ∀ t : CivilTime, t.Valid → Fits t.unixSeconds := by
  refine ⟨countsSeconds_unixSeconds, ?_, ?_, ?_, ?_, ?_⟩
  · intro count hcount t ht
    rw [hcount.eq_unixSeconds ht]
    exact number_time ht
  · intro t ht hnanos
    obtain ⟨w, hnumber, -, hw⟩ := number_time ht
    exact ⟨w, hnumber, by rw [hw, floor_instant hnanos]⟩
  · intro t u _ _ htnanos hunanos hinstant
    have hseconds : t.unixSeconds = u.unixSeconds := by
      rw [← floor_instant htnanos, ← floor_instant hunanos, hinstant]
    rw [number, number, hseconds]
  · intro t u ht hu htnanos hunanos hinstant
    obtain ⟨v, hv, -, hvalue⟩ := number_time ht
    obtain ⟨w, hw, -, hvalue'⟩ := number_time hu
    refine ⟨v, w, hv, hw, ?_⟩
    rw [hvalue, hvalue', ← floor_instant htnanos, ← floor_instant hunanos]
    exact Int.floor_mono hinstant
  · intro t ht
    exact fits_unixSeconds ht

/-- Half past eleven at night on a leap day is an early morning in March further east. Half a second
before 1970 is converted to minus one. -/
theorem time_conversion_across_zones :
    (time ⟨⟨2000, 2, 29⟩, 23, 30, 0, 0, -3600⟩).number =
      (time ⟨⟨2000, 3, 1⟩, 5, 30, 0, 0, 18000⟩).number ∧
    (∃ w : Int64, (time ⟨⟨2000, 2, 29⟩, 23, 30, 0, 0, -3600⟩).number = .ok (.integer w) ∧
      w.toInt = 951870600) ∧
    ∃ w : Int64, (time ⟨⟨1969, 12, 31⟩, 23, 59, 59, 500000000, 0⟩).number = .ok (.integer w) ∧
      w.toInt = -1 := by
  obtain ⟨hcounts, hnumber, -, hsame, -⟩ := time_conversion
  refine ⟨?_, ?_, ?_⟩
  · have hseconds : unixSeconds ⟨⟨2000, 2, 29⟩, 23, 30, 0, 0, -3600⟩ =
        unixSeconds ⟨⟨2000, 3, 1⟩, 5, 30, 0, 0, 18000⟩ := by decide
    refine hsame _ _ (by decide) (by decide) (by decide) (by decide) ?_
    rw [instant_eq, instant_eq, hseconds]
  · obtain ⟨w, hw, -, hvalue⟩ := hnumber _ hcounts ⟨⟨2000, 2, 29⟩, 23, 30, 0, 0, -3600⟩ (by decide)
    exact ⟨w, hw, hvalue⟩
  · obtain ⟨w, hw, -, hvalue⟩ :=
      hnumber _ hcounts ⟨⟨1969, 12, 31⟩, 23, 59, 59, 500000000, 0⟩ (by decide)
    exact ⟨w, hw, hvalue⟩

end Operand

end FieldQuery
