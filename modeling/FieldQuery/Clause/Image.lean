import FieldQuery.Clause
import FieldQuery.Json

/-!
# Clauses as JSON

The stored form of clauses. A choice without content is stored by its name, a choice with content as
an object whose one member is named after it, and a field clause as an object of its four parts.
JSON has no infinities and no NaN, so a double that is not finite is stored as null.
-/

namespace FieldQuery

def Operator.name : Operator → String
  | .equals => "Equals"
  | .contains => "Contains"
  | .range .greater => "Greater"
  | .range .lesser => "Lesser"
  | .range .greaterEqual => "GreaterEqual"
  | .range .lesserEqual => "LesserEqual"

def Connective.name : Connective → String
  | .and => "And"
  | .or => "Or"

def Number.image : Number → Json
  | .integer v => .object [("Integer", .number (.integer v.toInt))]
  | .float x => .object [("Float", if x.isFinite then .number (.float x) else .null)]

def Value.image : Value → Json
  | .null => .text "Null"
  | .number n => .object [("Number", n.image)]
  | .text s => .object [("String", .text s)]

def FieldClause.image (c : FieldClause) : Json :=
  .object [("field", .text c.field), ("operator", .text c.operator.name), ("value", c.value.image),
    ("negated", .bool c.negated)]

def Clause.image : Clause → Json
  | .field c => .object [("Field", c.image)]
  | .logical c => .object [("Logical", .text c.name)]

/-- A list of clauses is stored as an array in the same order. -/
def Clause.imageAll (cs : List Clause) : Json := .array (cs.map Clause.image)

end FieldQuery
