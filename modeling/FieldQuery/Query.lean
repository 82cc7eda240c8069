import FieldQuery.Reason

/-!
# Queries

A query keeps its clauses in the order in which they were added, together with the one kind of
connective it may use. The first connective settles the kind; only a reset frees it again.

What is done to a query succeeds or is refused for a reason. A refusal undoes nothing by itself: it
leaves the query as it stands at that moment.
-/

namespace FieldQuery

structure Query where
  clauses : List Clause
  lock : Option Connective
  deriving DecidableEq, Repr

/-- Something done to a query. -/
abbrev Action := EStateM Reason Query Unit

namespace Action

/-- The query that is left behind, be the action taken or refused. -/
def leaves (a : Action) (q : Query) : Query :=
  match a.run q with
  | .ok _ r => r
  | .error _ r => r

/-- Why an action is refused, if it is. -/
def refusal? (a : Action) (q : Query) : Option Reason :=
  match a.run q with
  | .ok _ _ => none
  | .error reason _ => some reason

end Action

namespace Query

def empty : Query := ⟨[], none⟩

def length (q : Query) : Nat := q.clauses.length

def push (c : Clause) : Action := modify fun q => { q with clauses := q.clauses ++ [c] }

def add (c : FieldClause) : Action := push (.field c)

/-- A connective may be used if it is of the kind in use, or if no kind is in use. -/
def allow (c : Connective) : Action := do
  match (← get).lock with
  | none => pure ()
  | some used => if used ≠ c then throw (.mixedConnective c used)

def connect (c : Connective) : Action := do
  allow c
  if (← get).lock.isNone then
    modify fun q => { q with lock := some c }
  push (.logical c)

/-- A range is two bounds joined by the conjunction, both negated or neither. The lock is asked
before the first bound is added. -/
def between (field : String) (negated : Bool) (least greatest : Number) : Action := do
  allow .and
  add ⟨field, .range .greaterEqual, .number least, negated⟩
  connect .and
  add ⟨field, .range .lesserEqual, .number greatest, negated⟩

def reset : Action := set empty

/-- Compares clause by clause, doubles by the floating-point standard. -/
def same (p q : Query) : Bool := Clause.sameAll p.clauses q.clauses && p.lock = q.lock

end Query

end FieldQuery
