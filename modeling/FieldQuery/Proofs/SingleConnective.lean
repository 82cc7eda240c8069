import FieldQuery.Proofs.Layout
import FieldQuery.Proofs.Runs

/-!
# One kind of connective

The lock of a query and its list of clauses are kept apart, yet after every run the lock is the
first connective of the list, and all others are of its kind. The lock alone decides whether a
connective is refused, so what is refused can be told from the clauses.
-/
namespace FieldQuery

/-- The lock and the clauses tell the same story. -/
structure Query.Settled (q : Query) : Prop where
  lock_eq : q.lock = (connectives q.clauses).head?
  same_kind : ∀ c ∈ connectives q.clauses, q.lock = some c

/-- A connective without conflict is the one in use afterwards. -/
theorem Query.lock_or_of_conflict?_eq_none {q : Query} {c : Connective}
    (h : q.conflict? c = none) : q.lock.or (some c) = some c := by
  unfold conflict? at h
  split at h
  · cases h
  · next hne =>
    cases hl : q.lock with
    | none => rfl
    | some used =>
      by_cases hused : used = c
      · rw [hused]
        rfl
      · rw [Connective.ne_iff_eq_other.mp hused] at hl
        exact absurd hl hne

namespace Step

theorem connect_or_between_of_mixed {s : Step} {q : Query} {r : Reason}
    (h : s.obstacle? q = some r) (hr : r.kind = .mixedConnective) :
    (∃ c, s = .connect c) ∨
      ∃ name negated least greatest, s = .between name negated least greatest := by
  rcases obstacle?_eq_some_iff.mp h with ⟨subject, negated, fragment, -, -, rfl⟩ | ⟨c, hc, -, -⟩
  · cases hr
  · cases s with
    | connect c => exact .inl ⟨c, rfl⟩
    | between name negated least greatest => exact .inr ⟨name, negated, least, greatest, rfl⟩
    | _ => cases hc

end Step

namespace Query.Settled

theorem empty : Settled .empty := ⟨rfl, fun _ h => nomatch h⟩

theorem lock_eq_some_iff {q : Query} (h : q.Settled) {c : Connective} :
    q.lock = some c ↔ .logical c ∈ q.clauses := by
  constructor
  · intro hl
    rw [h.lock_eq] at hl
    exact mem_connectives.mp (List.mem_of_mem_head? hl)
  · intro hc
    exact h.same_kind c (mem_connectives.mpr hc)

theorem effect {q : Query} (h : q.Settled) {s : Step} (hs : s.obstacle? q = none) :
    (s.effect q).Settled := by
  by_cases hreset : s = .reset
  · subst hreset
    exact empty
  · rw [Step.effect_of_ne_reset hreset]
    cases hc : s.connective? with
    | none =>
      have hnew : connectives s.contribution = [] := by simp [Step.connectives_contribution, hc]
      constructor
      · simp [connectives_append, hnew, h.lock_eq]
      · intro d hd
        rw [connectives_append, hnew, List.append_nil] at hd
        simpa using h.same_kind d hd
    | some c =>
      have hnew : connectives s.contribution = [c] := by simp [Step.connectives_contribution, hc]
      rw [Step.obstacle?_of_connective hc] at hs
      constructor
      · simp [connectives_append, hnew, h.lock_eq]
      · intro d hd
        rw [connectives_append, hnew, List.mem_append, List.mem_singleton] at hd
        rcases hd with hd | rfl
        · simp [h.same_kind d hd]
        · exact lock_or_of_conflict?_eq_none hs

theorem after {q : Query} (h : q.Settled) (s : Step) : (q.after s).Settled := by
  cases hs : s.obstacle? q with
  | some r => rwa [after_of_obstacle hs]
  | none => rw [after_of_clear hs]; exact h.effect hs

theorem run (moves : List Move) : (Query.empty.run moves).Settled :=
  run_keeps empty fun _ _ s _ _ h => h.after s

theorem refusal?_of_connective {q : Query} (h : q.Settled) {s : Step} {c : Connective}
    (hs : s.connective? = some c) {r : Reason} :
    q.refusal? s = some r ↔ .logical c.other ∈ q.clauses ∧ r = .mixedConnective c c.other := by
  rw [refusal?_eq, Step.obstacle?_of_connective hs, conflict?_eq_some_iff, h.lock_eq_some_iff]

end Query.Settled

/-- After every run the lock is the first connective of the query and the kind of all of them.
So a connective, or a range with its conjunction, is refused exactly when the query holds a
connective of the other kind; nothing else is refused for that; and all connectives of the text
are of the kind of the lock, also when the one that set it is not written. -/
theorem Query.lock_of_run (moves : List Move) :
    let q := Query.empty.run moves
    q.lock = (connectives q.clauses).head? ∧
    (∀ c ∈ connectives q.clauses, q.lock = some c) ∧
    (∀ c r, q.refusal? (.connect c) = some r ↔
      .logical c.other ∈ q.clauses ∧ r = .mixedConnective c c.other) ∧
    (∀ name negated least greatest r, q.refusal? (.between name negated least greatest) = some r ↔
      .logical .or ∈ q.clauses ∧ r = .mixedConnective .and .or) ∧
    (∀ s r, q.refusal? s = some r → r.kind = .mixedConnective →
      (∃ c, s = .connect c) ∨
        ∃ name negated least greatest, s = .between name negated least greatest) ∧
    ∀ c ∈ connectives (written q.clauses), q.lock = some c := by
  intro q
  have hq : q.Settled := Settled.run moves
  refine ⟨hq.lock_eq, hq.same_kind, ?_, ?_, ?_, ?_⟩
  · intro c r
    exact hq.refusal?_of_connective (s := .connect c) rfl
  · intro name negated least greatest r
    exact hq.refusal?_of_connective (s := .between name negated least greatest) rfl
  · intro s r hr hkind
    rw [refusal?_eq] at hr
    exact Step.connect_or_between_of_mixed hr hkind
  · intro c hc
    apply hq.lock_eq_some_iff.mpr
    exact (written_sublist q.clauses).mem (mem_connectives.mp hc)

end FieldQuery
