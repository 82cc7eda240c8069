import FieldQuery.Clause
import FieldQuery.Fault

/-!
# Why something is refused

There are four reasons to refuse: a substring that is too short to search for, a connective of the
other kind than the one in use, an integer that 64 bits do not hold, and an operator with a value
it does not accept. A clause that was not made by the steps of a query is checked here against the
same rules.
-/

namespace FieldQuery

inductive Reason where
  | shortSubstring (field : String)
  | mixedConnective (asked used : Connective)
  | outOfRange (value : Int)
  | rejectedValue (operator : Operator) (field : String) (value : Value)
  deriving DecidableEq, Repr

namespace Reason

def kind : Reason → Fault.Kind
  | .shortSubstring _ => .substringTooShort
  | .mixedConnective _ _ => .mixedConnective
  | .outOfRange _ => .numberOutOfRange
  | .rejectedValue _ _ _ => .invalidClause

def message : Reason → String
  | .shortSubstring field =>
    "Substring for " ++ field ++ " must have at least " ++
      String.ofList (Numeral.ofNat Grammar.leastSubstring) ++ " characters"
  | .mixedConnective asked used =>
    "Cannot use " ++ asked.word ++ " in a query already joined with " ++ used.word ++
      ", reset the builder to switch"
  | .outOfRange value =>
    "Integer " ++ String.ofList (Numeral.ofInt value) ++ " is outside the range of a query number"
  | .rejectedValue operator field value =>
    "Operator " ++ operator.sign ++ " on " ++ field ++ " does not accept value " ++ value.written

def fault (r : Reason) : Fault := .plain r.kind r.message

end Reason

/-- A substring search needs at least three characters. -/
def checkSubstring (field fragment : String) : Except Reason Unit :=
  if fragment.length < Grammar.leastSubstring then .error (.shortSubstring field) else .ok ()

/-- Equality takes any value, a substring search a text that is long enough, and a range comparison
a number. -/
def FieldClause.check (c : FieldClause) : Except Reason Unit :=
  match c.operator, c.value with
  | .equals, _ => .ok ()
  | .contains, .text fragment => checkSubstring c.field fragment
  | .range _, .number _ => .ok ()
  | operator, value => .error (.rejectedValue operator c.field value)

end FieldQuery
