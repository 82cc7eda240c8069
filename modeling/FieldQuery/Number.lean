import FieldQuery.Binary64.Shortest

/-!
# Numbers of a query

A number is a signed 64-bit integer or a double, and stays what it is: an integer and a double of
the same value are different numbers. Integers are written in base ten, doubles by their shortest
decimal.
-/

namespace FieldQuery

inductive Number where
  | integer (value : Int64)
  | float (value : Binary64)
  deriving DecidableEq, Repr

namespace Number

/-- The number of an integer, if 64 bits hold it. -/
def ofInt? (v : Int) : Option Number :=
  if Int64.minValue.toInt ≤ v ∧ v ≤ Int64.maxValue.toInt then
    some (.integer (Int64.ofInt v))
  else none

def text : Number → String
  | .integer v => String.ofList (Numeral.ofInt v.toInt)
  | .float x => x.text

/-- Numbers of different kinds differ; doubles compare by the floating-point standard. -/
def same : Number → Number → Bool
  | .integer v, .integer w => v = w
  | .float x, .float y => x.same y
  | _, _ => false

end Number

end FieldQuery
