import FieldQuery.Binary64
import FieldQuery.Numeral

/-!
# Reading a decimal fraction as a double

A decimal fraction is a whole number times a power of ten. It is read as the nearest double, a tie
going to the even rank. A fraction that would round to infinity or beyond is out of range; one that
is too small for the least subnormal reads as zero of its sign.
-/

namespace FieldQuery.Binary64

-- Powers are the built-in ones, whatever other structure is in scope.
attribute [local instance (high)] instPowNat

/-- The rank nearest to `digits * 10 ^ power`. A fraction other than zero is below `10 ^ places` and
not below `10 ^ (places - 1)`. One that is far below the least subnormal or far above the greatest
double is settled by that alone, so that no number is built that grows with the power. -/
def nearestRank (digits : Nat) (power : Int) : Nat :=
  let places := Numeral.length digits + power
  if digits = 0 ∨ places < -330 then 0
  else if 310 < places then infinityRank
  else if 0 ≤ power then
    Magnitude.nearest precision (digits * 10 ^ power.toNat * 2 ^ scale) 1
  else
    Magnitude.nearest precision (digits * 2 ^ scale) (10 ^ power.natAbs)

def ofDecimal? (negative : Bool) (digits : Nat) (power : Int) : Option Binary64 :=
  finite? negative (nearestRank digits power)

/-- The double nearest to an integer. -/
def ofInt? (v : Int) : Option Binary64 := ofDecimal? (v < 0) v.natAbs 0

end FieldQuery.Binary64
