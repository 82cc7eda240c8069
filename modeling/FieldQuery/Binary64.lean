import FieldQuery.Magnitude

/-!
# Double-precision numbers

A double is a sign and the rank of its magnitude. Ranks below `infinityRank` are the finite
magnitudes in units of the least subnormal, `infinityRank` itself is infinity and every rank above
it is not a number. Sign and rank together are exactly the 64 bits of the interchange format, so two
doubles are the same value here when all their bits agree; the comparison of the floating-point
standard, which tells neither zero from the other and no NaN from itself, is `same`.
-/

namespace FieldQuery

-- Powers are the built-in ones, whatever other structure is in scope.
attribute [local instance (high)] instPowNat

/-- The weight of the sign in a word of 64 bits. -/
def Binary64.signWeight : Nat := 0x8000000000000000

structure Binary64 where
  negative : Bool
  rank : Nat
  rank_lt : rank < Binary64.signWeight
  deriving DecidableEq, Repr

namespace Binary64

/-- The number of bits after the leading one. -/
def precision : Nat := 52

/-- The least subnormal is `2 ^ -1074`; all magnitudes are counted in it. -/
def scale : Nat := 1074

def infinityRank : Nat := 2047 * 2 ^ precision

/-- The sign is the top bit of the word and the rank is all the others. -/
def ofBits (word : UInt64) : Binary64 :=
  ⟨decide (signWeight ≤ word.toNat), word.toNat % signWeight, Nat.mod_lt _ (by decide)⟩

def toBits (x : Binary64) : UInt64 :=
  UInt64.ofNat ((if x.negative then signWeight else 0) + x.rank)

theorem toBits_ofBits (word : UInt64) : (ofBits word).toBits = word := by
  have h := word.toNat_lt
  apply UInt64.toNat_inj.mp
  rw [toBits, UInt64.toNat_ofNat']
  by_cases hs : signWeight ≤ word.toNat
  · simp only [ofBits, hs, decide_true, if_true]
    unfold signWeight at hs ⊢
    omega
  · simp only [ofBits, hs, decide_false, Bool.false_eq_true, if_false]
    unfold signWeight at hs ⊢
    omega

theorem toNat_toBits (x : Binary64) :
    x.toBits.toNat = (if x.negative then signWeight else 0) + x.rank := by
  have h := x.rank_lt
  rw [toBits, UInt64.toNat_ofNat']
  unfold signWeight at h ⊢
  split <;> omega

theorem ofBits_toBits (x : Binary64) : ofBits x.toBits = x := by
  have hx := toNat_toBits x
  obtain ⟨negative, rank, h⟩ := x
  cases negative
  · simp [ofBits, hx, Nat.mod_eq_of_lt h, h]
  · simp [ofBits, hx, Nat.mod_eq_of_lt h]

def isNaN (x : Binary64) : Bool := infinityRank < x.rank

def isInfinite (x : Binary64) : Bool := x.rank = infinityRank

def isFinite (x : Binary64) : Bool := x.rank < infinityRank

/-- Equality of the floating-point standard. -/
def same (x y : Binary64) : Bool :=
  !x.isNaN && !y.isNaN && (x = y || x.rank = 0 && y.rank = 0)

/-- The finite double with a given sign and rank; ranks from infinity on are out of range. -/
def finite? (negative : Bool) (rank : Nat) : Option Binary64 :=
  if h : rank < infinityRank then some ⟨negative, rank, Nat.lt_trans h (by decide)⟩ else none

end Binary64

end FieldQuery
