/-!
# Decimal numerals

The digits of a natural number, most significant first and without a superfluous leading zero, and
the value that a row of digits stands for. Numerals of a fixed width, as they stand after a decimal
point, keep their leading zeros.
-/

namespace FieldQuery.Numeral

-- Powers are the built-in ones, whatever other structure is in scope.
attribute [local instance (high)] instPowNat

/-- The sign for a number below ten. -/
def digit (d : Nat) : Char := Char.ofNat (48 + d)

/-- What a decimal digit counts for. -/
def worth (c : Char) : Nat := c.toNat - 48

/-- The canonical numeral of a natural number. -/
def ofNat (n : Nat) : List Char :=
  if n < 10 then [digit n] else ofNat (n / 10) ++ [digit (n % 10)]

/-- The canonical numeral of an integer; only a negative one has a sign. -/
def ofInt (v : Int) : List Char :=
  if v < 0 then '-' :: ofNat v.natAbs else ofNat v.natAbs

/-- The last digits of a number, as many as asked for. -/
def padded : Nat → Nat → List Char
  | 0, _ => []
  | width + 1, n => padded width (n / 10) ++ [digit (n % 10)]

/-- The number of digits of the canonical numeral. -/
def length (n : Nat) : Nat := if n < 10 then 1 else length (n / 10) + 1

/-- The number that a row of digits stands for. -/
def value (cs : List Char) : Nat := cs.foldl (fun v c => 10 * v + worth c) 0

@[simp] theorem value_nil : value [] = 0 := rfl

theorem value_concat (cs : List Char) (c : Char) : value (cs ++ [c]) = 10 * value cs + worth c := by
  simp [value]

theorem worth_digit : ∀ d < 10, worth (digit d) = d := by decide

theorem isDigit_digit : ∀ d < 10, (digit d).isDigit = true := by decide

theorem digit_eq_zero : ∀ d < 10, digit d = '0' → d = 0 := by decide

/-- Reading a canonical numeral gives the number back. -/
theorem value_ofNat (n : Nat) : value (ofNat n) = n := by
  fun_induction ofNat n with
  | case1 n h => simpa [value] using worth_digit n h
  | case2 n h ih =>
    rw [value_concat, ih, worth_digit _ (Nat.mod_lt _ (by decide))]
    omega

/-- A numeral of fixed width keeps the number below the power of ten of that width. -/
theorem value_padded (width n : Nat) : value (padded width n) = n % 10 ^ width := by
  induction width generalizing n with
  | zero => simp [padded, Nat.mod_one]
  | succ width ih =>
    rw [padded, value_concat, ih, worth_digit _ (Nat.mod_lt _ (by decide)), Nat.pow_succ,
      Nat.mul_comm (10 ^ width) 10, Nat.mod_mul]
    omega

theorem ofNat_ne_nil (n : Nat) : ofNat n ≠ [] := by
  rw [ofNat]
  split <;> simp

/-- A numeral starts with a zero only if it is the numeral of zero. -/
theorem head?_ofNat {n : Nat} (h : n ≠ 0) : (ofNat n).head? ≠ some '0' := by
  fun_induction ofNat n with
  | case1 n hn =>
    intro hzero
    exact h (digit_eq_zero n hn (Option.some.inj hzero))
  | case2 n hn ih =>
    obtain ⟨c, cs, hcs⟩ := List.exists_cons_of_ne_nil (ofNat_ne_nil (n / 10))
    rw [hcs] at ih ⊢
    exact ih (by omega)

theorem isDigit_ofNat (n : Nat) : ∀ c ∈ ofNat n, c.isDigit = true := by
  fun_induction ofNat n with
  | case1 n h => simpa using isDigit_digit n h
  | case2 n h ih =>
    intro c hc
    rcases List.mem_append.mp hc with hc | hc
    · exact ih c hc
    · rw [List.mem_singleton.mp hc]
      exact isDigit_digit _ (Nat.mod_lt _ (by decide))

theorem isDigit_padded (width n : Nat) : ∀ c ∈ padded width n, c.isDigit = true := by
  induction width generalizing n with
  | zero => simp [padded]
  | succ width ih =>
    intro c hc
    rcases List.mem_append.mp hc with hc | hc
    · exact ih _ c hc
    · rw [List.mem_singleton.mp hc]
      exact isDigit_digit _ (Nat.mod_lt _ (by decide))

theorem length_padded (width n : Nat) : (padded width n).length = width := by
  induction width generalizing n with
  | zero => rfl
  | succ width ih => simp [padded, ih]

theorem lt_pow_length (n : Nat) : n < 10 ^ length n := by
  fun_induction length n with
  | case1 n h => exact h
  | case2 n h ih =>
    rw [Nat.pow_succ]
    omega

theorem pow_length_le {n : Nat} (h : n ≠ 0) : 10 ^ length n ≤ 10 * n := by
  fun_induction length n with
  | case1 n hlow =>
    change 10 ≤ 10 * n
    omega
  | case2 n hlow ih =>
    have := ih (by omega)
    rw [Nat.pow_succ]
    omega

theorem foldl_value (v : Nat) (cs : List Char) :
    cs.foldl (fun v c => 10 * v + worth c) v = v * 10 ^ cs.length + value cs := by
  induction cs generalizing v with
  | nil => simp [value]
  | cons c cs ih =>
    have hshift : 10 * v * 10 ^ cs.length = v * 10 ^ (cs.length + 1) := by
      rw [Nat.pow_succ, Nat.mul_comm 10, Nat.mul_assoc, Nat.mul_comm 10]
    rw [value, List.foldl_cons, List.foldl_cons, ih, ih, List.length_cons, Nat.mul_zero,
      Nat.zero_add, Nat.add_mul, Nat.add_assoc, hshift]

/-- The digits in front count for as many tens as there are digits after them. -/
theorem value_append (cs ds : List Char) :
    value (cs ++ ds) = value cs * 10 ^ ds.length + value ds := by
  rw [value, List.foldl_append]
  exact foldl_value (value cs) ds

end FieldQuery.Numeral
