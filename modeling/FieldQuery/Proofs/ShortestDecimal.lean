import FieldQuery.Binary64.Shortest
import FieldQuery.Proofs.Rounding

/-!
# The digits of a double

The digits that are written for a double stand on the coarsest grid of powers of ten that has a
point which rounds to the double. So they read back, and the last of them is not zero, because a
point that ends in zero stands on a coarser grid as well.

On each grid it is enough to try the two neighbours of the double: what rounds to it is an interval
around it, and an interval that has any point of the grid has one of these.
-/
namespace FieldQuery.Binary64

-- Powers are the built-in ones, whatever other structure is in scope.
attribute [local instance (high)] instPowNat

variable {k l m n grid : ℕ}

theorem steps_lt_succ (k : ℕ) : steps k < steps (k + 1) :=
  Nat.mul_lt_mul_of_pos_right (Magnitude.units_lt_succ _ k) (Nat.pow_pos (by decide))

theorem steps_succ_le (hk : k ≠ 0) : steps (k + 1) ≤ 2 * steps k := by
  rw [steps, steps, ← Nat.mul_assoc]
  exact Nat.mul_le_mul_right _ (Magnitude.units_succ_le hk)

/-- A decimal reads back as a rank if it rounds to it. -/
theorem readsBack_iff : ReadsBack k n ↔ Rounds (n / 10 ^ scale) k := by
  have hten : (10 : ℚ) ^ scale = (5 ^ scale : ℕ) * 2 ^ scale := by
    rw [Nat.cast_pow, Nat.cast_ofNat, ← mul_pow]
    norm_num
  rw [hten, rounds_div_iff (Nat.pow_pos (by decide)), ReadsBack]
  simp only [steps, Nat.mul_comm (5 ^ scale), Nat.add_mul]

theorem readsBack_steps (k : ℕ) : ReadsBack k (steps k) := by
  have habove := steps_lt_succ k
  unfold ReadsBack
  cases k with
  | zero => simp only [Nat.zero_mod, if_true, Nat.zero_sub]; omega
  | succ k =>
    have hbelow := steps_lt_succ k
    simp only [Nat.add_sub_cancel]
    split <;> omega

theorem ReadsBack.between (hl : ReadsBack k l) (hn : ReadsBack k n) (hlm : l ≤ m) (hmn : m ≤ n) :
    ReadsBack k m := by
  unfold ReadsBack at hl hn ⊢
  dsimp only at hl hn ⊢
  split at hl
  · next heven =>
    rw [if_pos heven] at hn ⊢
    omega
  · next hodd =>
    rw [if_neg hodd] at hn ⊢
    omega

theorem not_readsBack_zero (hk : k ≠ 0) : ¬ ReadsBack k 0 := by
  have hpos : 0 < steps k := by
    obtain ⟨j, rfl⟩ := Nat.exists_eq_succ_of_ne_zero hk
    exact Nat.lt_of_le_of_lt (Nat.zero_le _) (steps_lt_succ j)
  intro h
  unfold ReadsBack at h
  dsimp only at h
  split at h <;> omega

/-- What reads back as a rank is less than twice as great. -/
theorem ReadsBack.lt_two_mul (h : ReadsBack k n) (hk : k ≠ 0) : n < 2 * steps k := by
  have hdouble := steps_succ_le hk
  have hpos := steps_lt_succ k
  unfold ReadsBack at h
  dsimp only at h
  split at h <;> omega

theorem candidate?_eq_some {digits : ℕ} (h : candidate? k grid = some digits) :
    ReadsBack k (digits * grid) := by
  unfold candidate? at h
  dsimp only at h
  split at h
  · split at h
    · next habove => cases h; exact habove.1
    · next hbelow _ => cases h; exact hbelow
  · split at h
    · next habove => cases h; exact habove
    · cases h

/-- If neither neighbour on a grid reads back, no point of the grid does. -/
theorem candidate?_eq_none (hgrid : 0 < grid) (h : candidate? k grid = none) (m : ℕ) :
    ¬ ReadsBack k (m * grid) := by
  intro hm
  have hbelow : ¬ ReadsBack k (steps k / grid * grid) := by
    intro hreads
    simp only [candidate?, if_pos hreads] at h
    split at h <;> cases h
  have habove : ¬ ReadsBack k ((steps k / grid + 1) * grid) := by
    intro hreads
    simp only [candidate?, if_neg hbelow, if_pos hreads] at h
    cases h
  have hfloor : steps k / grid * grid ≤ steps k := Nat.div_mul_le_self _ _
  have hceil : steps k < (steps k / grid + 1) * grid :=
    (Nat.div_lt_iff_lt_mul hgrid).mp (Nat.lt_succ_self _)
  rcases Nat.lt_or_ge (steps k / grid) m with hlt | hle
  · exact habove ((readsBack_steps k).between hm hceil.le (Nat.mul_le_mul_right _ hlt))
  · exact hbelow (hm.between (readsBack_steps k) (Nat.mul_le_mul_right _ hle) hfloor)

/-- Digits on the coarsest grid that has a point which reads back. -/
structure Coarsest (k digits j : ℕ) : Prop where
  reads : ReadsBack k (digits * 10 ^ j)
  coarsest : ∀ i, j < i → ∀ m, ¬ ReadsBack k (m * 10 ^ i)

theorem significant_coarsest {j : ℕ} (h : ∀ i, j < i → ∀ m, ¬ ReadsBack k (m * 10 ^ i)) :
    Coarsest k (significant k j).1 (significant k j).2 := by
  induction j with
  | zero => exact ⟨by simpa [significant] using readsBack_steps k, h⟩
  | succ j ih =>
    rw [significant]
    split
    · next hsome => exact ⟨candidate?_eq_some hsome, h⟩
    · next hnone =>
      apply ih
      intro i hi
      rcases Nat.eq_or_lt_of_le hi with rfl | hi
      · exact candidate?_eq_none (Nat.pow_pos (by decide)) hnone
      · exact h i hi

/-- The search begins at a grid that is coarse enough. -/
theorem shortest_coarsest (hk : k ≠ 0) : Coarsest k (shortest k).1 (shortest k).2 := by
  apply significant_coarsest
  intro i hi m hm
  cases m with
  | zero => exact not_readsBack_zero hk (by simpa using hm)
  | succ m =>
    have hbound := Numeral.lt_pow_length (steps k)
    have hpower : 10 ^ (Numeral.length (steps k) + 1) ≤ 10 ^ i :=
      Nat.pow_le_pow_right (by decide) hi
    have hpoint : 10 ^ i ≤ (m + 1) * 10 ^ i := Nat.le_mul_of_pos_left _ (Nat.succ_pos m)
    have hdouble := hm.lt_two_mul hk
    rw [Nat.pow_succ] at hpower
    omega

theorem Coarsest.mod_ten_ne_zero {digits j : ℕ} (h : Coarsest k digits j) : digits % 10 ≠ 0 := by
  intro hzero
  apply h.coarsest (j + 1) (Nat.lt_succ_self j) (digits / 10)
  rw [Nat.pow_succ', ← Nat.mul_assoc, Nat.div_mul_cancel (Nat.dvd_of_mod_eq_zero hzero)]
  exact h.reads

end FieldQuery.Binary64
