import FieldQuery.Proofs.Clauses
import FieldQuery.Query.Step

/-!
# What a step does

Every step has one contribution, the clauses it stands for, and at most one obstacle, the reason
that the query at hand refuses it. A refused step leaves the query untouched. Of the others, a reset
gives the empty query, and every other one adds its contribution at the end and settles the lock
with the first connective in it, if the lock is free.

`Step.run_act` says all this at once. Later modules go by it and open no action again.
-/
namespace FieldQuery

/-- A connective that the query refuses is of the other kind than the one in use. -/
def Query.conflict? (q : Query) (c : Connective) : Option Reason :=
  if q.lock = some c.other then some (.mixedConnective c c.other) else none

theorem Query.conflict?_eq_some_iff {q : Query} {c : Connective} {r : Reason} :
    q.conflict? c = some r ↔ q.lock = some c.other ∧ r = .mixedConnective c c.other := by
  unfold conflict?
  split
  · next h => simp [h, eq_comm]
  · next h => simp [h]

namespace Step

/-- The clauses that a step stands for. -/
def contribution : Step → List Clause
  | .equals subject negated value => [.field ⟨subject.expression, .equals, value, negated⟩]
  | .contains subject negated fragment =>
    [.field ⟨subject.expression, .contains, .text fragment, negated⟩]
  | .isNull subject negated => [.field ⟨subject.expression, .equals, .null, negated⟩]
  | .compare name negated bound number => [.field ⟨name, .range bound, .number number, negated⟩]
  | .between name negated least greatest =>
    [.field ⟨name, .range .greaterEqual, .number least, negated⟩, .logical .and,
      .field ⟨name, .range .lesserEqual, .number greatest, negated⟩]
  | .connect c => [.logical c]
  | .reset => []

/-- The connective that a step brings with it. -/
def connective? : Step → Option Connective
  | .between _ _ _ _ => some .and
  | .connect c => some c
  | _ => none

/-- Why a query refuses a step, if it does. -/
def obstacle? (q : Query) : Step → Option Reason
  | .contains subject _ fragment =>
    if fragment.length < 3 then some (.shortSubstring subject.expression) else none
  | s => s.connective?.bind q.conflict?

/-- The query after a step that meets no obstacle. -/
def effect (q : Query) : Step → Query
  | .reset => .empty
  | s => ⟨q.clauses ++ s.contribution, q.lock.or s.connective?⟩

theorem connectives_contribution (s : Step) :
    connectives s.contribution = s.connective?.toList := by
  cases s <;> rfl

theorem obstacle?_of_connective {s : Step} {q : Query} {c : Connective}
    (h : s.connective? = some c) : s.obstacle? q = q.conflict? c := by
  cases s with
  | contains _ _ _ => cases h
  | _ => simp only [obstacle?, h, Option.bind_some]

/-- A step is refused for a fragment of less than three characters, or for a connective of the other
kind than the one in use. -/
theorem obstacle?_eq_some_iff {s : Step} {q : Query} {r : Reason} :
    s.obstacle? q = some r ↔
      (∃ subject negated fragment, s = .contains subject negated fragment ∧
        fragment.length < 3 ∧ r = .shortSubstring subject.expression) ∨
      ∃ c, s.connective? = some c ∧ q.lock = some c.other ∧ r = .mixedConnective c c.other := by
  cases s with
  | contains subject negated fragment =>
    constructor
    · intro h
      simp only [obstacle?] at h
      split at h
      · next hshort =>
        cases h
        exact .inl ⟨subject, negated, fragment, rfl, hshort, rfl⟩
      · cases h
    · rintro (⟨_, _, _, ⟨⟩, hshort, rfl⟩ | ⟨c, hc, -⟩)
      · exact if_pos hshort
      · cases hc
  | connect c => simp [obstacle?, connective?, Query.conflict?_eq_some_iff]
  | between name negated least greatest =>
    simp [obstacle?, connective?, Query.conflict?_eq_some_iff]
  | _ => simp [obstacle?, connective?]

theorem effect_of_ne_reset {s : Step} (h : s ≠ .reset) (q : Query) :
    s.effect q = ⟨q.clauses ++ s.contribution, q.lock.or s.connective?⟩ := by
  cases s with
  | reset => exact absurd rfl h
  | _ => rfl

end Step

namespace Query

theorem run_add (q : Query) (c : FieldClause) :
    (add c).run q = .ok () ⟨q.clauses ++ [.field c], q.lock⟩ := rfl

theorem run_allow (q : Query) (c : Connective) :
    (allow c).run q =
      match q.conflict? c with
      | some r => .error r q
      | none => .ok () q := by
  obtain ⟨clauses, _ | used⟩ := q
  · rfl
  · by_cases h : used = c
    · subst h
      cases used <;> simp [allow, conflict?, Connective.other]
    · rw [Connective.ne_iff_eq_other.mp h]
      cases c <;> simp [allow, conflict?, Connective.other]

theorem run_connect (q : Query) (c : Connective) :
    (connect c).run q =
      match q.conflict? c with
      | some r => .error r q
      | none => .ok () ⟨q.clauses ++ [.logical c], q.lock.or (some c)⟩ := by
  rw [connect, EStateM.run_bind, run_allow]
  cases q.conflict? c with
  | some r => rfl
  | none =>
    obtain ⟨clauses, _ | used⟩ := q
    · rfl
    · rfl

/-- The first bound leaves the lock as it is, so the connective after it meets no obstacle. -/
theorem run_between (q : Query) (field : String) (negated : Bool) (least greatest : Number) :
    (between field negated least greatest).run q =
      match q.conflict? .and with
      | some r => .error r q
      | none => .ok () ⟨q.clauses ++ (Step.between field negated least greatest).contribution,
          q.lock.or (some .and)⟩ := by
  rw [between, EStateM.run_bind, run_allow]
  cases h : q.conflict? .and with
  | some r => rfl
  | none =>
    have hfirst : ∀ c, (⟨q.clauses ++ [.field c], q.lock⟩ : Query).conflict? .and = none :=
      fun _ => h
    simp only [EStateM.run_bind, run_add, run_connect, hfirst]
    simp [Step.contribution]

end Query

theorem run_checkSubstring (q : Query) (field fragment : String) :
    (liftExcept (checkSubstring field fragment) : Action).run q =
      if fragment.length < 3 then .error (.shortSubstring field) q else .ok () q := by
  unfold checkSubstring
  by_cases h : fragment.length < Grammar.leastSubstring
  · rw [if_pos h, if_pos (show fragment.length < 3 from h)]
    rfl
  · rw [if_neg h, if_neg (show ¬ fragment.length < 3 from h)]
    rfl

theorem Step.run_act (s : Step) (q : Query) :
    s.act.run q =
      match s.obstacle? q with
      | some r => .error r q
      | none => .ok () (s.effect q) := by
  cases s with
  | contains subject negated fragment =>
    simp only [act, EStateM.run_bind, run_checkSubstring, obstacle?]
    by_cases h : fragment.length < 3
    · simp [h]
    · simp [h, Query.run_add, effect, contribution, connective?]
  | between name negated least greatest => exact Query.run_between q name negated least greatest
  | connect c => exact Query.run_connect q c
  | reset => rfl
  | _ => simp [act, Query.run_add, obstacle?, effect, contribution, connective?]

namespace Query

variable {q : Query} {s : Step}

theorem refusal?_eq (q : Query) (s : Step) : q.refusal? s = s.obstacle? q := by
  rw [refusal?, Action.refusal?, Step.run_act]
  cases s.obstacle? q <;> rfl

theorem after_of_obstacle {r : Reason} (h : s.obstacle? q = some r) : q.after s = q := by
  rw [after, Action.leaves, Step.run_act, h]

theorem after_of_clear (h : s.obstacle? q = none) : q.after s = s.effect q := by
  rw [after, Action.leaves, Step.run_act, h]

/-- What holds of all field clauses of a query, and of those of a step if it is taken, holds of all
field clauses after the step. -/
theorem forall_fieldClauses_after {P : FieldClause → Prop} (h : ∀ f ∈ fieldClauses q.clauses, P f)
    (hs : s.obstacle? q = none → ∀ f ∈ fieldClauses s.contribution, P f) :
    ∀ f ∈ fieldClauses (q.after s).clauses, P f := by
  cases ho : s.obstacle? q with
  | some r => rwa [after_of_obstacle ho]
  | none =>
    rw [after_of_clear ho]
    by_cases hreset : s = .reset
    · subst hreset
      exact List.forall_mem_nil _
    · rw [Step.effect_of_ne_reset hreset, fieldClauses_append]
      exact List.forall_mem_append.mpr ⟨h, hs ho⟩

end Query
end FieldQuery
