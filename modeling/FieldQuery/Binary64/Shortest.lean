import FieldQuery.Binary64
import FieldQuery.Numeral

/-!
# The shortest decimal of a double

A finite double is written with the fewest significant digits that still read back as the same
double; of the decimals with that many digits the one nearest to the double is taken, and the
greater of two that are equally near. The digits are laid out in full, without an exponent, and
without a point when there is no fraction.

Every finite double is a whole number of steps of `10 ^ -scale`, because the least subnormal is
`2 ^ -scale`. The search runs over coarser and coarser grids of powers of ten in these steps.
-/

namespace FieldQuery.Binary64

-- Powers are the built-in ones, whatever other structure is in scope.
attribute [local instance (high)] instPowNat

/-- The magnitude of a rank in steps. -/
def steps (k : Nat) : Nat := Magnitude.units precision k * 5 ^ scale

/-- The decimals that read back as rank `k`: from halfway down to the rank below to halfway up to
the rank above, with the two ends when the rank is even. -/
def ReadsBack (k n : Nat) : Prop :=
  let low := steps (k - 1) + steps k
  let high := steps k + steps (k + 1)
  if k % 2 = 0 then low ≤ 2 * n ∧ 2 * n ≤ high else low < 2 * n ∧ 2 * n < high

instance (k n : Nat) : Decidable (ReadsBack k n) := by
  unfold ReadsBack; infer_instance

/-- Of the two points of a grid around a rank, the one to write, if either reads back: the nearer
one, and the upper one when both are equally near. -/
def candidate? (k grid : Nat) : Option Nat :=
  let below := steps k / grid
  let above := below + 1
  if ReadsBack k (below * grid) then
    if ReadsBack k (above * grid) ∧ above * grid - steps k ≤ steps k - below * grid then some above
    else some below
  else if ReadsBack k (above * grid) then some above
  else none

/-- The significant digits for rank `k` as a number, with the power of ten of its grid, searching
from `10 ^ j` down. The finest grid always holds the magnitude itself. -/
def significant (k : Nat) : Nat → Nat × Nat
  | 0 => (steps k, 0)
  | j + 1 =>
    match candidate? k (10 ^ (j + 1)) with
    | some digits => (digits, j + 1)
    | none => significant k j

def shortest (k : Nat) : Nat × Nat := significant k (Numeral.length (steps k))

/-- Writes `digits * 10 ^ j` steps out in full. -/
def positional (digits j : Nat) : List Char :=
  if scale ≤ j then Numeral.ofNat (digits * 10 ^ (j - scale))
  else
    let places := scale - j
    Numeral.ofNat (digits / 10 ^ places) ++ '.' :: Numeral.padded places digits

/-- The text of the magnitude of a finite rank. -/
def magnitudeText (k : Nat) : List Char :=
  if k = 0 then ['0'] else positional (shortest k).1 (shortest k).2

/-- The text of a double. NaN has no sign, every other negative double has one. -/
def text (x : Binary64) : String :=
  if x.isNaN then "NaN"
  else
    let body := if x.isInfinite then ['i', 'n', 'f'] else magnitudeText x.rank
    String.ofList (if x.negative then '-' :: body else body)

end FieldQuery.Binary64
