import FieldQuery.Binary64

/-!
# Single-precision numbers

A single is a sign and the rank of its magnitude, as for doubles but with fewer bits. Every single
is also a double; widening finds the double of the same value.
-/

namespace FieldQuery

-- Powers are the built-in ones, whatever other structure is in scope.
attribute [local instance (high)] instPowNat

/-- The weight of the sign in a word of 32 bits. -/
def Binary32.signWeight : Nat := 0x80000000

structure Binary32 where
  negative : Bool
  rank : Nat
  rank_lt : rank < Binary32.signWeight
  deriving DecidableEq, Repr

namespace Binary32

def precision : Nat := 23

/-- The least subnormal is `2 ^ -149`. -/
def scale : Nat := 149

def infinityRank : Nat := 255 * 2 ^ precision

def ofBits (word : UInt32) : Binary32 :=
  ⟨decide (signWeight ≤ word.toNat), word.toNat % signWeight, Nat.mod_lt _ (by decide)⟩

/-- The rank of the same magnitude among the doubles, which are counted in a finer unit. Infinity
stays infinity, and what is not a number stays so. -/
def widenedRank (k : Nat) : Nat :=
  if k < infinityRank then
    Magnitude.rank Binary64.precision (Magnitude.units precision k * 2 ^ (Binary64.scale - scale))
  else if k = infinityRank then Binary64.infinityRank
  else Binary64.infinityRank + 2 ^ (Binary64.precision - 1)

theorem widenedRank_lt_infinityRank {k : Nat} (h : k < infinityRank) :
    widenedRank k < Binary64.infinityRank := by
  have hu := Magnitude.units_lt (p := precision) (m := 253) h
  have hr := Magnitude.rank_mul_lt (s := Binary64.scale - scale) (p := Binary64.precision)
    (m := 1149) hu (by decide)
  rw [widenedRank, if_pos h]
  exact Nat.lt_trans hr (by decide)

theorem widenedRank_lt (k : Nat) : widenedRank k < Binary64.signWeight := by
  by_cases h : k < infinityRank
  · exact Nat.lt_trans (widenedRank_lt_infinityRank h) (by decide)
  · rw [widenedRank, if_neg h]
    split <;> decide

def widen (x : Binary32) : Binary64 := ⟨x.negative, widenedRank x.rank, widenedRank_lt _⟩

end Binary32

end FieldQuery
