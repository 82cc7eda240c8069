import FieldQuery.Value

/-!
# Clauses

A query is made of field clauses, such as `amount>1000`, and of the connectives between them. A
field clause compares one field with one value and can be negated.
-/

namespace FieldQuery

/-- The comparisons that order numbers. -/
inductive Bound where
  | greater | lesser | greaterEqual | lesserEqual
  deriving DecidableEq, Repr

inductive Operator where
  | equals
  | contains
  | range (bound : Bound)
  deriving DecidableEq, Repr

def Bound.sign : Bound → String
  | .greater => Grammar.greaterSign
  | .lesser => Grammar.lesserSign
  | .greaterEqual => Grammar.greaterEqualSign
  | .lesserEqual => Grammar.lesserEqualSign

def Operator.sign : Operator → String
  | .equals => Grammar.equalsSign
  | .contains => Grammar.containsSign
  | .range bound => bound.sign

inductive Connective where
  | and | or
  deriving DecidableEq, Repr

def Connective.word : Connective → String
  | .and => Grammar.andWord
  | .or => Grammar.orWord

/-- What a comparison is about: a plain field, or a key of the metadata. -/
inductive Subject where
  | field (name : String)
  | metadata (key : String)
  deriving DecidableEq, Repr

/-- A plain field is written as it is named; a metadata key is quoted inside brackets. -/
def Subject.expression : Subject → String
  | .field name => name
  | .metadata key => Grammar.metadataWord ++ "[" ++ Quoted.quote key ++ "]"

/-- One comparison. The field is kept as it is written, so that a metadata key is already quoted. -/
structure FieldClause where
  field : String
  operator : Operator
  value : Value
  negated : Bool
  deriving DecidableEq, Repr

namespace FieldClause

def text (c : FieldClause) : String :=
  (if c.negated then Grammar.negationSign else "") ++ c.field ++ c.operator.sign ++ c.value.written

def same (c d : FieldClause) : Bool :=
  c.field = d.field && c.operator = d.operator && c.value.same d.value && c.negated = d.negated

end FieldClause

inductive Clause where
  | field (clause : FieldClause)
  | logical (connective : Connective)
  deriving DecidableEq, Repr

namespace Clause

def isLogical : Clause → Bool
  | .field _ => false
  | .logical _ => true

def text : Clause → String
  | .field c => c.text
  | .logical c => c.word

def same : Clause → Clause → Bool
  | .field c, .field d => c.same d
  | .logical c, .logical d => c = d
  | _, _ => false

/-- Two lists of clauses agree when they have the same length and agree place by place. -/
def sameAll : List Clause → List Clause → Bool
  | [], [] => true
  | c :: cs, d :: ds => c.same d && sameAll cs ds
  | _, _ => false

end Clause

end FieldQuery
