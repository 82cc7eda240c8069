import FieldQuery.Binary64.Nearest
import Mathlib.Algebra.Order.Field.Power
import Mathlib.Tactic.Linarith
import Mathlib.Tactic.Positivity

/-!
# Correctly rounded reading

The finite magnitudes are rational numbers, and a rational number rounds to the magnitude nearest to
it; of two that are equally near, to the one of even rank. What reads a decimal fraction does just
that, for any digits and any power of ten: it gives a double exactly if the fraction rounds to a
finite one, and then that double.

Rounding is told by comparing twice the number with the sums of neighbouring magnitudes, which are
whole numbers of units. So all comparisons are made between natural numbers in the end.
-/
namespace FieldQuery

-- Powers are the built-in ones, whatever other structure is in scope.
attribute [local instance (high)] instPowNat

theorem Magnitude.units_mono {p j k : ℕ} (h : j ≤ k) : units p j ≤ units p k := by
  rcases Nat.eq_or_lt_of_le h with rfl | h
  · exact Nat.le_refl _
  · exact Nat.le_of_lt (units_strictMono h)

namespace Binary64
open Magnitude

/-- The magnitude of a rank as a rational number. Ranks from infinity on go on in the same way. -/
def magnitude (k : ℕ) : ℚ := units precision k / 2 ^ scale

/-- The rank to which a number that is not negative rounds. -/
structure Rounds (q : ℚ) (k : ℕ) : Prop where
  nearest : ∀ j, |q - magnitude k| ≤ |q - magnitude j|
  even : ∀ j, j ≠ k → |q - magnitude j| = |q - magnitude k| → k % 2 = 0

theorem magnitude_strictMono {j k : ℕ} (h : j < k) : magnitude j < magnitude k := by
  have hunits : (units precision j : ℚ) < units precision k := by
    exact_mod_cast units_strictMono h
  exact div_lt_div_of_pos_right hunits (by positivity)

theorem magnitude_mono {j k : ℕ} (h : j ≤ k) : magnitude j ≤ magnitude k := by
  rcases Nat.eq_or_lt_of_le h with rfl | h
  · exact le_refl _
  · exact (magnitude_strictMono h).le

theorem magnitude_zero : magnitude 0 = 0 := by
  simp [magnitude, units]

/-- The magnitude in terms of the two fields that make up a rank: the exponent field, which is zero
for the subnormals, and the fraction field. -/
theorem magnitude_fields (exponent : ℕ) {fraction : ℕ} (h : fraction < 2 ^ precision) :
    magnitude (exponent * 2 ^ precision + fraction) =
      if exponent = 0 then (fraction / 2 ^ scale : ℚ)
      else (2 ^ precision + fraction) * 2 ^ (exponent - 1) / 2 ^ scale := by
  cases exponent with
  | zero =>
    rw [if_pos rfl, magnitude, units_add (.inl rfl) (by omega), pow_zero, Nat.mul_one]
  | succ exponent =>
    rw [if_neg (Nat.succ_ne_zero _), Nat.add_sub_cancel, magnitude, Nat.succ_mul, Nat.add_assoc,
      units_add (.inr (by omega)) (by omega)]
    push_cast
    rfl

/-- The exponent field of a word, between the sign and the fraction field. -/
def exponentField (word : UInt64) : ℕ := word.toNat / 2 ^ precision % 2048

def fractionField (word : UInt64) : ℕ := word.toNat % 2 ^ precision

theorem fractionField_lt (word : UInt64) : fractionField word < 2 ^ precision :=
  Nat.mod_lt _ (Nat.two_pow_pos _)

theorem rank_ofBits (word : UInt64) :
    (ofBits word).rank = exponentField word * 2 ^ precision + fractionField word := by
  have hweight : signWeight = 2 ^ precision * 2048 := by decide
  change word.toNat % signWeight = _
  rw [hweight, Nat.mod_mul, exponentField, fractionField, Nat.mul_comm (_ % 2048), Nat.add_comm]

/-- The greatest exponent field belongs to infinity and to what is not a number. -/
theorem isFinite_ofBits (word : UInt64) :
    (ofBits word).isFinite = true ↔ exponentField word < 2047 := by
  have hdiv : (exponentField word * 2 ^ precision + fractionField word) / 2 ^ precision =
      exponentField word := by
    rw [Nat.mul_comm, Nat.mul_add_div (Nat.two_pow_pos _), Nat.div_eq_of_lt (fractionField_lt word),
      Nat.add_zero]
  rw [isFinite, decide_eq_true_eq, rank_ofBits, infinityRank,
    ← Nat.div_lt_iff_lt_mul (Nat.two_pow_pos precision), hdiv]

theorem magnitude_ofBits (word : UInt64) :
    magnitude (ofBits word).rank =
      if exponentField word = 0 then (fractionField word / 2 ^ scale : ℚ)
      else (2 ^ precision + fractionField word) * 2 ^ (exponentField word - 1) / 2 ^ scale := by
  rw [rank_ofBits]
  exact magnitude_fields _ (fractionField_lt word)

section
variable {q a b : ℚ}

/-- A number is nearer to the greater of two others if it is beyond their midpoint. -/
theorem abs_sub_le_right_iff (h : a < b) : |q - b| ≤ |q - a| ↔ a + b ≤ 2 * q := by
  rw [← sq_le_sq]
  constructor
  · intro hsq
    nlinarith
  · intro hmiddle
    nlinarith

theorem abs_sub_le_left_iff (h : a < b) : |q - a| ≤ |q - b| ↔ 2 * q ≤ a + b := by
  rw [← sq_le_sq]
  constructor
  · intro hsq
    nlinarith
  · intro hmiddle
    nlinarith

end

variable {q : ℚ} {j k : ℕ}

theorem Rounds.le_below (h : Rounds q k) (hq : 0 ≤ q) :
    magnitude (k - 1) + magnitude k ≤ 2 * q := by
  cases k with
  | zero => simpa [magnitude_zero] using hq
  | succ k => exact (abs_sub_le_right_iff (magnitude_strictMono k.lt_succ_self)).mp (h.nearest k)

theorem Rounds.le_above (h : Rounds q k) : 2 * q ≤ magnitude k + magnitude (k + 1) :=
  (abs_sub_le_left_iff (magnitude_strictMono k.lt_succ_self)).mp (h.nearest (k + 1))

/-- A number rounds to a rank if it lies between the midpoints to the neighbours of the rank. The
midpoints themselves belong to an even rank. -/
theorem rounds_iff (hq : 0 ≤ q) :
    Rounds q k ↔ if k % 2 = 0 then
        magnitude (k - 1) + magnitude k ≤ 2 * q ∧ 2 * q ≤ magnitude k + magnitude (k + 1)
      else magnitude (k - 1) + magnitude k < 2 * q ∧ 2 * q < magnitude k + magnitude (k + 1) := by
  constructor
  · intro h
    split
    · exact ⟨h.le_below hq, h.le_above⟩
    · next hodd =>
      have hbelow : magnitude (k - 1) < magnitude k := magnitude_strictMono (by omega)
      have habove : magnitude k < magnitude (k + 1) := magnitude_strictMono k.lt_succ_self
      refine ⟨lt_of_le_of_ne (h.le_below hq) ?_, lt_of_le_of_ne h.le_above ?_⟩
      · intro htie
        have hle := (abs_sub_le_left_iff hbelow).mpr htie.ge
        exact hodd (h.even (k - 1) (by omega) (le_antisymm hle (h.nearest _)))
      · intro htie
        have hle := (abs_sub_le_right_iff habove).mpr htie.ge
        exact hodd (h.even (k + 1) (by omega) (le_antisymm hle (h.nearest _)))
  · intro h
    have hbelow : magnitude (k - 1) + magnitude k ≤ 2 * q := by
      split at h
      · exact h.1
      · exact h.1.le
    have habove : 2 * q ≤ magnitude k + magnitude (k + 1) := by
      split at h
      · exact h.2
      · exact h.2.le
    refine ⟨?_, ?_⟩
    · intro j
      rcases Nat.lt_trichotomy j k with hj | rfl | hj
      · have hle : magnitude j ≤ magnitude (k - 1) := magnitude_mono (by omega)
        exact (abs_sub_le_right_iff (magnitude_strictMono hj)).mpr (by linarith)
      · exact le_refl _
      · have hle : magnitude (k + 1) ≤ magnitude j := magnitude_mono hj
        exact (abs_sub_le_left_iff (magnitude_strictMono hj)).mpr (by linarith)
    · intro j hj htie
      by_contra hodd
      rw [if_neg hodd] at h
      rcases Nat.lt_or_gt_of_ne hj with hj | hj
      · have hle : magnitude j ≤ magnitude (k - 1) := magnitude_mono (by omega)
        have := (abs_sub_le_left_iff (magnitude_strictMono hj)).mp htie.le
        linarith [h.1]
      · have hle : magnitude (k + 1) ≤ magnitude j := magnitude_mono hj
        have := (abs_sub_le_right_iff (magnitude_strictMono hj)).mp htie.le
        linarith [h.2]

/-- No number rounds to two ranks. -/
theorem Rounds.unique (hj : Rounds q j) (hk : Rounds q k) (hq : 0 ≤ q) : j = k := by
  by_contra hne
  have htie : |q - magnitude j| = |q - magnitude k| := le_antisymm (hj.nearest k) (hk.nearest j)
  have heven := hj.even k (Ne.symm hne) htie.symm
  have heven' := hk.even j hne htie
  -- Two ranks that share a midpoint are neighbours, and one of them is odd.
  rcases Nat.lt_or_gt_of_ne hne with hlt | hlt
  · have hgap : magnitude (j + 1) < magnitude k := magnitude_strictMono (by omega)
    have hgap' : magnitude j < magnitude (k - 1) := magnitude_strictMono (by omega)
    linarith [hj.le_above, hk.le_below hq]
  · have hgap : magnitude (k + 1) < magnitude j := magnitude_strictMono (by omega)
    have hgap' : magnitude k < magnitude (j - 1) := magnitude_strictMono (by omega)
    linarith [hk.le_above, hj.le_below hq]

section
variable {num den : ℕ}

theorem sum_magnitude_le_iff (hden : 0 < den) :
    magnitude j + magnitude k ≤ 2 * (num / (den * 2 ^ scale)) ↔
      den * (units precision j + units precision k) ≤ 2 * num := by
  have hscale : (0 : ℚ) < 2 ^ scale := by positivity
  have hden' : (0 : ℚ) < den := by exact_mod_cast hden
  rw [magnitude, magnitude, ← add_div, ← mul_div_assoc, ← div_div,
    div_le_div_iff_of_pos_right hscale, le_div_iff₀' hden']
  exact_mod_cast Iff.rfl

theorem le_sum_magnitude_iff (hden : 0 < den) :
    2 * (num / (den * 2 ^ scale)) ≤ magnitude j + magnitude k ↔
      2 * num ≤ den * (units precision j + units precision k) := by
  have hscale : (0 : ℚ) < 2 ^ scale := by positivity
  have hden' : (0 : ℚ) < den := by exact_mod_cast hden
  rw [magnitude, magnitude, ← add_div, ← mul_div_assoc, ← div_div,
    div_le_div_iff_of_pos_right hscale, div_le_iff₀' hden']
  exact_mod_cast Iff.rfl

/-- A fraction of units rounds to a rank if its numerator lies between the midpoints. -/
theorem rounds_div_iff (hden : 0 < den) :
    Rounds (num / (den * 2 ^ scale)) k ↔ if k % 2 = 0 then
        den * (units precision (k - 1) + units precision k) ≤ 2 * num ∧
          2 * num ≤ den * (units precision k + units precision (k + 1))
      else den * (units precision (k - 1) + units precision k) < 2 * num ∧
          2 * num < den * (units precision k + units precision (k + 1)) := by
  rw [rounds_iff (by positivity), sum_magnitude_le_iff hden, le_sum_magnitude_iff hden, ← not_le,
    le_sum_magnitude_iff hden, ← not_le, sum_magnitude_le_iff hden, not_le, not_le]

theorem rounds_nearest (hden : 0 < den) :
    Rounds (num / (den * 2 ^ scale)) (nearest precision num den) := by
  have hfloor : den * units precision (Magnitude.rank precision (num / den)) ≤ num :=
    (Nat.mul_le_mul_left den (units_rank_le _ _)).trans (Nat.mul_div_le num den)
  have hceil : num < den * units precision (Magnitude.rank precision (num / den) + 1) :=
    Nat.mul_comm _ den ▸ (Nat.div_lt_iff_lt_mul hden).mp (lt_units_rank_succ _ _)
  rw [rounds_div_iff hden, nearest]
  generalize Magnitude.rank precision (num / den) = r at hfloor hceil ⊢
  have hbelow : den * units precision (r - 1) ≤ den * units precision r :=
    Nat.mul_le_mul_left den (units_mono (Nat.sub_le r 1))
  have hodd : r % 2 = 0 ∨ den * units precision (r - 1) < den * units precision r := by
    by_cases heven : r % 2 = 0
    · exact .inl heven
    · exact .inr (Nat.mul_lt_mul_of_pos_left (units_strictMono (by omega)) hden)
  have habove : den * units precision (r + 1) < den * units precision (r + 1 + 1) :=
    Nat.mul_lt_mul_of_pos_left (units_strictMono (by omega)) hden
  rcases Nat.lt_trichotomy (2 * num) (den * (units precision r + units precision (r + 1)))
    with hlow | htie | hhigh
  · rw [if_pos hlow]
    simp only [Nat.mul_add] at hlow ⊢
    split <;> omega
  · rw [if_neg htie.not_lt, if_neg htie.not_gt]
    by_cases heven : r % 2 = 0
    · rw [if_pos heven, if_pos heven]
      simp only [Nat.mul_add] at htie ⊢
      omega
    · rw [if_neg heven, if_pos (by omega), Nat.add_sub_cancel]
      simp only [Nat.mul_add] at htie ⊢
      omega
  · rw [if_neg hhigh.not_gt, if_pos hhigh, Nat.add_sub_cancel]
    simp only [Nat.mul_add] at hhigh ⊢
    split <;> omega

end

section
variable {digits : ℕ} {power : ℤ}

/-- A fraction is below the power of ten that its number of places gives. -/
theorem decimal_lt (digits : ℕ) (power : ℤ) :
    (digits * 10 ^ power : ℚ) < 10 ^ (Numeral.length digits + power) := by
  have hdigits : (digits : ℚ) < 10 ^ Numeral.length digits := by
    exact_mod_cast Numeral.lt_pow_length digits
  rw [zpow_add₀ (by norm_num), zpow_natCast]
  exact mul_lt_mul_of_pos_right hdigits (by positivity)

theorem le_decimal (h : digits ≠ 0) :
    (10 : ℚ) ^ (Numeral.length digits + power - 1) ≤ digits * 10 ^ power := by
  have hdigits : (10 : ℚ) ^ Numeral.length digits ≤ 10 * digits := by
    exact_mod_cast Numeral.pow_length_le h
  have hpower : (0 : ℚ) < 10 ^ power := by positivity
  rw [zpow_sub_one₀ (by norm_num), zpow_add₀ (by norm_num), zpow_natCast]
  nlinarith

theorem magnitude_one : magnitude 1 = 1 / 2 ^ scale := by
  have hunits : units precision 1 = 1 := by decide +kernel
  rw [magnitude, hunits, Nat.cast_one]

/-- The magnitudes that are not finite begin at this power of two. -/
def topExponent : ℕ := 1024

theorem magnitude_infinityRank : magnitude infinityRank = 2 ^ topExponent := by
  have hunits : units precision infinityRank = 2 ^ (precision + 1 + 2045) :=
    units_binade precision 2045
  have hexponent : precision + 1 + 2045 = topExponent + scale := by decide
  rw [magnitude, hunits, hexponent, Nat.cast_pow, pow_add, Nat.cast_ofNat]
  exact mul_div_cancel_right₀ _ (by positivity)

theorem two_pow_le_ten_pow {s t : ℕ} (h : 2 ^ s ≤ 10 ^ t) : (2 ^ s : ℚ) ≤ 10 ^ t := by
  exact_mod_cast h

/-- Below half the least subnormal there is only zero. -/
theorem rounds_zero_of_lt {t : ℕ} (ht : 2 ^ (scale + 1) ≤ 10 ^ t) (hq : 0 ≤ q)
    (h : q < 10 ^ (-t : ℤ)) : Rounds q 0 := by
  have hsmall : q * 10 ^ t < 1 := by
    rw [zpow_neg, zpow_natCast, ← one_div] at h
    exact (lt_div_iff₀ (by positivity)).mp h
  rw [rounds_iff hq, if_pos rfl, magnitude_zero, Nat.zero_add, magnitude_one]
  simp only [zero_add]
  rw [le_div_iff₀ (by positivity)]
  constructor
  · linarith
  · calc 2 * q * 2 ^ scale = q * 2 ^ (scale + 1) := by
          rw [pow_succ, mul_comm 2 q, mul_assoc, mul_comm 2]
      _ ≤ q * 10 ^ t := mul_le_mul_of_nonneg_left (two_pow_le_ten_pow ht) hq
      _ ≤ 1 := hsmall.le

/-- What does not lie below the least infinite magnitude rounds to no finite one. -/
theorem Rounds.infinityRank_le {t : ℕ} (hk : Rounds q k) (ht : 2 ^ topExponent ≤ 10 ^ t)
    (h : 10 ^ (t : ℤ) ≤ q) : infinityRank ≤ k := by
  have htop := two_pow_le_ten_pow ht
  rw [zpow_natCast] at h
  by_contra hfinite
  have hbelow : magnitude k < magnitude infinityRank := magnitude_strictMono (by omega)
  have habove : magnitude (k + 1) ≤ magnitude infinityRank := magnitude_mono (by omega)
  rw [magnitude_infinityRank] at hbelow habove
  linarith [hk.le_above]

/-- The rank that is found for a fraction is the one it rounds to, but for fractions far beyond all
finite magnitudes, which share the rank of infinity. -/
theorem rounds_nearestRank (digits : ℕ) (power : ℤ) :
    Rounds (digits * 10 ^ power) (nearestRank digits power) ∨
      nearestRank digits power = infinityRank ∧
        ∀ k, Rounds (digits * 10 ^ power) k → infinityRank ≤ k := by
  have hq : (0 : ℚ) ≤ digits * 10 ^ power := by positivity
  unfold nearestRank
  dsimp only
  split
  · next h =>
    left
    rcases h with rfl | h
    · exact rounds_zero_of_lt (t := 330) (by decide +kernel) hq (by simp)
    · refine rounds_zero_of_lt (t := 330) (by decide +kernel) hq ?_
      exact (decimal_lt digits power).trans_le (zpow_le_zpow_right₀ (by norm_num) (by omega))
  · next h =>
    rw [not_or] at h
    split
    · refine .inr ⟨rfl, fun k hk => hk.infinityRank_le (t := 309) (by decide +kernel) ?_⟩
      exact (zpow_le_zpow_right₀ (by norm_num) (by omega)).trans (le_decimal h.1)
    · left
      split
      · next hpower =>
        obtain ⟨n, rfl⟩ := Int.eq_ofNat_of_zero_le hpower
        have hround : Rounds ((digits * 10 ^ n * 2 ^ scale : ℕ) / ((1 : ℕ) * 2 ^ scale))
          (nearest precision (digits * 10 ^ n * 2 ^ scale) 1) := rounds_nearest (by decide)
        rw [Nat.cast_mul, Nat.cast_mul, Nat.cast_pow, Nat.cast_pow, Nat.cast_one, one_mul,
          Nat.cast_ofNat, Nat.cast_ofNat, mul_div_cancel_right₀ _ (by positivity)] at hround
        rwa [Int.toNat_natCast, zpow_natCast]
      · next hpower =>
        obtain ⟨n, rfl⟩ : ∃ n : ℕ, power = -n := ⟨power.natAbs, by omega⟩
        have hround : Rounds ((digits * 2 ^ scale : ℕ) / ((10 ^ n : ℕ) * 2 ^ scale))
          (nearest precision (digits * 2 ^ scale) (10 ^ n)) := rounds_nearest (by positivity)
        rw [Nat.cast_mul, Nat.cast_pow, Nat.cast_pow, Nat.cast_ofNat, Nat.cast_ofNat,
          mul_div_mul_right _ _ (by positivity), div_eq_mul_inv] at hround
        rwa [Int.natAbs_neg, Int.natAbs_natCast, zpow_neg, zpow_natCast]

theorem finite?_eq_some_iff {negative : Bool} {rank : ℕ} {x : Binary64} :
    finite? negative rank = some x ↔
      x.negative = negative ∧ x.isFinite = true ∧ x.rank = rank := by
  obtain ⟨sign, k, hk⟩ := x
  unfold finite? isFinite
  split
  · next h =>
    simp only [Option.some.injEq, mk.injEq, decide_eq_true_eq]
    constructor
    · rintro ⟨rfl, rfl⟩
      exact ⟨rfl, h, rfl⟩
    · rintro ⟨rfl, -, rfl⟩
      exact ⟨rfl, rfl⟩
  · next h =>
    constructor
    · intro hsome
      cases hsome
    · rintro ⟨-, hfinite, rfl⟩
      exact absurd (of_decide_eq_true hfinite) h

/-- A decimal fraction is read as the finite double of its sign that it rounds to, and not at all if
it rounds to none. -/
theorem ofDecimal?_eq_some_iff {negative : Bool} {x : Binary64} :
    ofDecimal? negative digits power = some x ↔
      x.negative = negative ∧ x.isFinite = true ∧ Rounds (digits * 10 ^ power) x.rank := by
  have hq : (0 : ℚ) ≤ digits * 10 ^ power := by positivity
  rw [ofDecimal?, finite?_eq_some_iff]
  refine and_congr_right fun _ => and_congr_right fun hfinite => ?_
  have hrank : x.rank < infinityRank := of_decide_eq_true hfinite
  rcases rounds_nearestRank digits power with hround | ⟨hinfinity, hlarge⟩
  · constructor
    · intro h
      rwa [h]
    · intro h
      exact h.unique hround hq
  · constructor
    · intro h
      omega
    · intro h
      exact absurd (hlarge _ h) (by omega)

end

end Binary64
end FieldQuery
