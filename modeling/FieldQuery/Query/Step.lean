import FieldQuery.Query

/-!
# Steps

The ways in which a query grows. Plain fields offer every comparison; metadata holds free text, so
its keys are only compared for equality, searched for a substring, or asked whether they are
absent.
-/

namespace FieldQuery

inductive Step where
  | equals (subject : Subject) (negated : Bool) (value : Value)
  | contains (subject : Subject) (negated : Bool) (fragment : String)
  | isNull (subject : Subject) (negated : Bool)
  | compare (name : String) (negated : Bool) (bound : Bound) (number : Number)
  | between (name : String) (negated : Bool) (least greatest : Number)
  | connect (connective : Connective)
  | reset
  deriving DecidableEq, Repr

namespace Step

def act : Step → Action
  | .equals subject negated value => Query.add ⟨subject.expression, .equals, value, negated⟩
  | .contains subject negated fragment => do
    liftExcept (checkSubstring subject.expression fragment)
    Query.add ⟨subject.expression, .contains, .text fragment, negated⟩
  | .isNull subject negated => Query.add ⟨subject.expression, .equals, .null, negated⟩
  | .compare name negated bound number => Query.add ⟨name, .range bound, .number number, negated⟩
  | .between name negated least greatest => Query.between name negated least greatest
  | .connect c => Query.connect c
  | .reset => Query.reset

/-- Takes steps one after the other and stops at the first that is refused. -/
def actAll (steps : List Step) : Action := steps.forM act

end Step

namespace Query

/-- The query after a step, be it taken or refused. -/
def after (q : Query) (s : Step) : Query := s.act.leaves q

def refusal? (q : Query) (s : Step) : Option Reason := s.act.refusal? q

end Query

end FieldQuery
