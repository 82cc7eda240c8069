/-!
# Magnitudes of binary floating point

The non-negative values of a binary format, listed in increasing order, are numbered from zero; the
number of a magnitude is its rank. With `p` bits after the leading one, the ranks of one binade are
the next `2 ^ p` numbers, and the lowest two binades share one spacing. That spacing is the unit:
every magnitude is a whole number of units, so no fraction is needed anywhere.

The list goes on for ever. Where a format ends is a bound on the rank, set by the format.
-/

namespace FieldQuery.Magnitude

-- Powers are the built-in ones, whatever other structure is in scope.
attribute [local instance (high)] instPowNat

/-- The magnitude of a rank, in units. -/
def units (p k : Nat) : Nat :=
  if k < 2 ^ p then k else (2 ^ p + k % 2 ^ p) * 2 ^ (k / 2 ^ p - 1)

/-- The greatest rank whose magnitude does not exceed `n` units. -/
def rank (p n : Nat) : Nat :=
  let e := n.log2 - p
  e * 2 ^ p + n / 2 ^ e

/-- The rank whose magnitude is nearest to `num / den` units. Halfway between two ranks the even
one is taken. -/
def nearest (p num den : Nat) : Nat :=
  let k := rank p (num / den)
  let middle := den * (units p k + units p (k + 1))
  if 2 * num < middle then k
  else if middle < 2 * num then k + 1
  else if k % 2 = 0 then k else k + 1

/-- The coordinates of a rank: the exponent of its unit and the whole number of such units. -/
theorem units_add {p e m : Nat} (h : e = 0 ∨ 2 ^ p ≤ m) (hm : m ≤ 2 * 2 ^ p) :
    units p (e * 2 ^ p + m) = m * 2 ^ e := by
  have hp : 0 < 2 ^ p := Nat.two_pow_pos p
  by_cases hlow : m < 2 ^ p
  · have he : e = 0 := by omega
    simp [units, he, hlow]
  · obtain ⟨r, rfl⟩ := Nat.exists_eq_add_of_le (Nat.le_of_not_lt hlow)
    have hk : ¬ e * 2 ^ p + (2 ^ p + r) < 2 ^ p := by omega
    rw [units, if_neg hk, ← Nat.add_assoc, ← Nat.succ_mul, Nat.mul_comm e.succ,
      Nat.mul_add_div hp, Nat.mul_add_mod]
    by_cases hr : r < 2 ^ p
    · simp [Nat.div_eq_of_lt hr, Nat.mod_eq_of_lt hr]
    · have : r = 2 ^ p := by omega
      subst this
      simp [Nat.div_self hp, Nat.pow_succ]
      grind

theorem exists_coordinates (p k : Nat) :
    ∃ e m, k = e * 2 ^ p + m ∧ (e = 0 ∨ 2 ^ p ≤ m) ∧ m < 2 * 2 ^ p := by
  have hk := Nat.div_add_mod' k (2 ^ p)
  have hr := Nat.mod_lt k (Nat.two_pow_pos p)
  cases hq : k / 2 ^ p with
  | zero => exact ⟨0, k, by simp, .inl rfl, by rw [hq] at hk; omega⟩
  | succ e =>
    rw [hq, Nat.succ_mul] at hk
    exact ⟨e, 2 ^ p + k % 2 ^ p, by omega, .inr (by omega), by omega⟩

theorem units_lt_succ (p k : Nat) : units p k < units p (k + 1) := by
  obtain ⟨e, m, rfl, h, hm⟩ := exists_coordinates p k
  rw [Nat.add_assoc, units_add h (by omega), units_add (by omega) (by omega)]
  exact Nat.mul_lt_mul_of_pos_right (Nat.lt_succ_self m) (Nat.two_pow_pos e)

/-- From one rank to the next, a magnitude other than zero at most doubles. -/
theorem units_succ_le {p k : Nat} (hk : k ≠ 0) : units p (k + 1) ≤ 2 * units p k := by
  have hp : 0 < 2 ^ p := Nat.two_pow_pos p
  obtain ⟨e, m, rfl, h, hm⟩ := exists_coordinates p k
  rw [Nat.add_assoc, units_add h (by omega), units_add (by omega) (by omega), ← Nat.mul_assoc]
  have hpos : m ≠ 0 := by
    rintro rfl
    rcases h with rfl | h
    · simp at hk
    · omega
  exact Nat.mul_le_mul_right _ (by omega)

/-- A greater rank has a greater magnitude. -/
theorem units_strictMono {p j k : Nat} (h : j < k) : units p j < units p k := by
  induction h with
  | refl => exact units_lt_succ p j
  | step _ ih => exact Nat.lt_trans ih (units_lt_succ p _)

theorem div_log2_bounds (p n : Nat) :
    (n.log2 - p = 0 ∨ 2 ^ p ≤ n / 2 ^ (n.log2 - p)) ∧ n / 2 ^ (n.log2 - p) < 2 * 2 ^ p := by
  constructor
  · by_cases he : n.log2 - p = 0
    · exact .inl he
    · refine .inr ((Nat.le_div_iff_mul_le (Nat.two_pow_pos _)).mpr ?_)
      rw [← Nat.pow_add, Nat.add_sub_cancel' (by omega)]
      exact Nat.log2_self_le (by rintro rfl; simp at he)
  · rw [Nat.div_lt_iff_lt_mul (Nat.two_pow_pos _), ← Nat.pow_succ', ← Nat.pow_add]
    exact Nat.lt_of_lt_of_le Nat.lt_log2_self (Nat.pow_le_pow_right (by decide) (by omega))

theorem units_rank_le (p n : Nat) : units p (rank p n) ≤ n := by
  have ⟨h, hm⟩ := div_log2_bounds p n
  rw [rank, units_add h (Nat.le_of_lt hm)]
  exact Nat.div_mul_le_self n _

theorem lt_units_rank_succ (p n : Nat) : n < units p (rank p n + 1) := by
  have ⟨h, hm⟩ := div_log2_bounds p n
  rw [rank, Nat.add_assoc, units_add (by omega) hm]
  exact (Nat.div_lt_iff_lt_mul (Nat.two_pow_pos _)).mp (Nat.lt_succ_self _)

theorem lt_of_units_lt {p j k : Nat} (h : units p j < units p k) : j < k := by
  rcases Nat.lt_trichotomy j k with hj | rfl | hj
  · exact hj
  · exact absurd h (Nat.lt_irrefl _)
  · exact absurd h (Nat.lt_asymm (units_strictMono hj))

/-- Where the binade begins whose unit is `2 ^ (m + 1)`. -/
theorem units_binade (p m : Nat) : units p ((m + 2) * 2 ^ p) = 2 ^ (p + 1 + m) := by
  rw [Nat.add_mul, units_add (.inr (by omega)) (Nat.le_refl _), ← Nat.pow_succ', ← Nat.pow_add]

theorem units_lt {p k m : Nat} (h : k < (m + 2) * 2 ^ p) : units p k < 2 ^ (p + 1 + m) :=
  units_binade p m ▸ units_strictMono h

theorem rank_lt {p n m : Nat} (h : n < 2 ^ (p + 1 + m)) : rank p n < (m + 2) * 2 ^ p :=
  lt_of_units_lt (Nat.lt_of_le_of_lt (units_rank_le p n) (units_binade p m ▸ h))

/-- In a unit that is `2 ^ s` times finer, a magnitude needs `s` bits more. -/
theorem rank_mul_lt {p n b s m : Nat} (h : n < 2 ^ b) (hb : b + s = p + 1 + m) :
    rank p (n * 2 ^ s) < (m + 2) * 2 ^ p := by
  apply rank_lt
  rw [← hb, Nat.pow_add]
  exact Nat.mul_lt_mul_of_pos_right h (Nat.two_pow_pos s)

end FieldQuery.Magnitude
