import FieldQuery.Query

/-!
# The text of a query

Every field clause is written once and in order. Connectives before the first field clause are
left out, of a run of connectives only the first is written, and a run after the last field clause
is left out as well. Words are separated by single spaces.
-/

namespace FieldQuery

/-- A pass over the clauses: what is to be written so far, the latest first; whether a field clause
is among it; and whether the latest is a connective. -/
structure Pass where
  kept : List Clause
  hasField : Bool
  lastLogical : Bool
  deriving DecidableEq, Repr

namespace Pass

def start : Pass := ⟨[], false, false⟩

def next (p : Pass) : Clause → Pass
  | .field f => ⟨.field f :: p.kept, true, false⟩
  | .logical c =>
    if !p.hasField || p.lastLogical then p
    else { p with kept := .logical c :: p.kept, lastLogical := true }

/-- A connective that no field clause follows is taken back. -/
def finish (p : Pass) : List Clause := (if p.lastLogical then p.kept.tail else p.kept).reverse

end Pass

namespace Query

/-- The clauses that are written, in order. -/
def written (cs : List Clause) : List Clause := (cs.foldl Pass.next .start).finish

def render (q : Query) : String :=
  Grammar.separator.intercalate ((written q.clauses).map Clause.text)

end Query

end FieldQuery
