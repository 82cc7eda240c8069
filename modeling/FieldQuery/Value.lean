import FieldQuery.Grammar
import FieldQuery.Number
import FieldQuery.Quoted

/-!
# Values

The right-hand side of a comparison: nothing, a number, or a text. Only a text is quoted.
-/

namespace FieldQuery

inductive Value where
  | null
  | number (number : Number)
  | text (content : String)
  deriving DecidableEq, Repr

namespace Value

/-- What an argument stands for that is left out. -/
instance : Inhabited Value := ⟨.null⟩

def isNull : Value → Bool
  | .null => true
  | _ => false

def text? : Value → Option String
  | .text s => some s
  | _ => none

def number? : Value → Option Number
  | .number n => some n
  | _ => none

/-- The value as a query writes it. -/
def written : Value → String
  | .null => Grammar.nullWord
  | .number n => n.text
  | .text s => Quoted.quote s

def same : Value → Value → Bool
  | .null, .null => true
  | .number m, .number n => m.same n
  | .text s, .text t => s = t
  | _, _ => false

end Value

end FieldQuery
