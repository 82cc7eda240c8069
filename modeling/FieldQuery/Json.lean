import FieldQuery.Binary64.Nearest

/-!
# JSON values

The values that clauses are stored as. A number is kept as an integer or as a double, whichever it
was made from. The members of an object keep their order.
-/

namespace FieldQuery

/-- A numeral without fraction and exponent is an integer of any size, every other one is a double;
the numeral `-0` is a double too, because only a double has a negative zero. -/
inductive JsonNumber where
  | integer (value : Int)
  | float (value : Binary64)
  deriving DecidableEq, Repr

/-- The double nearest to a number, unless it is out of range. -/
def JsonNumber.double? : JsonNumber → Option Binary64
  | .integer v => Binary64.ofInt? v
  | .float x => some x

inductive Json where
  | null
  | bool (value : Bool)
  | number (value : JsonNumber)
  | text (content : String)
  | array (items : List Json)
  | object (members : List (String × Json))
  deriving Repr

end FieldQuery
