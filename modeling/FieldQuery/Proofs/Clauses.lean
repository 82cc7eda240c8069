import FieldQuery.Clause

/-!
# Two views of a list of clauses

The field clauses and the connectives of a list, each in order.
-/
namespace FieldQuery

def Connective.other : Connective → Connective
  | .and => .or
  | .or => .and

theorem Connective.ne_iff_eq_other {c d : Connective} : d ≠ c ↔ d = c.other := by
  cases c <;> cases d <;> simp [other]

namespace Clause

def field? : Clause → Option FieldClause
  | .field f => some f
  | .logical _ => none

def connective? : Clause → Option Connective
  | .field _ => none
  | .logical c => some c

end Clause

def fieldClauses (cs : List Clause) : List FieldClause := cs.filterMap Clause.field?

def connectives (cs : List Clause) : List Connective := cs.filterMap Clause.connective?

@[simp] theorem fieldClauses_nil : fieldClauses [] = [] := rfl

@[simp] theorem fieldClauses_field (f : FieldClause) (cs : List Clause) :
    fieldClauses (.field f :: cs) = f :: fieldClauses cs := rfl

@[simp] theorem fieldClauses_logical (c : Connective) (cs : List Clause) :
    fieldClauses (.logical c :: cs) = fieldClauses cs := rfl

@[simp] theorem connectives_nil : connectives [] = [] := rfl

@[simp] theorem connectives_field (f : FieldClause) (cs : List Clause) :
    connectives (.field f :: cs) = connectives cs := rfl

@[simp] theorem connectives_logical (c : Connective) (cs : List Clause) :
    connectives (.logical c :: cs) = c :: connectives cs := rfl

theorem fieldClauses_append (cs ds : List Clause) :
    fieldClauses (cs ++ ds) = fieldClauses cs ++ fieldClauses ds := List.filterMap_append

theorem connectives_append (cs ds : List Clause) :
    connectives (cs ++ ds) = connectives cs ++ connectives ds := List.filterMap_append

theorem mem_connectives {c : Connective} {cs : List Clause} :
    c ∈ connectives cs ↔ Clause.logical c ∈ cs := by
  constructor
  · intro h
    obtain ⟨d, hd, he⟩ := List.mem_filterMap.mp h
    cases d with
    | field _ => cases he
    | logical _ => cases he; exact hd
  · intro h
    exact List.mem_filterMap.mpr ⟨.logical c, h, rfl⟩

theorem mem_fieldClauses {f : FieldClause} {cs : List Clause} :
    f ∈ fieldClauses cs ↔ Clause.field f ∈ cs := by
  constructor
  · intro h
    obtain ⟨d, hd, he⟩ := List.mem_filterMap.mp h
    cases d with
    | field _ => cases he; exact hd
    | logical _ => cases he
  · intro h
    exact List.mem_filterMap.mpr ⟨.field f, h, rfl⟩

end FieldQuery
