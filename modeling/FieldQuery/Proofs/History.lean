import FieldQuery.Proofs.Runs
import FieldQuery.Query.Render
import Mathlib.Data.List.DropRight

/-!
# The history of a query

The log of a run holds the steps that were taken since the last reset, in order. It is all that the
run leaves behind: the clauses are the contributions of the logged steps one after the other, and
the log, played on an empty query, is taken whole and leads to the same query. Refused steps leave
no trace, neither in the query nor in what later steps may do.
-/
namespace FieldQuery

namespace Query

/-- The steps of a run that are taken. -/
def taken (q : Query) : List Step → List Step
  | [] => []
  | s :: steps =>
    match q.refusal? s with
    | none => s :: (q.after s).taken steps
    | some _ => (q.after s).taken steps

/-- The steps taken since the last reset. -/
def log (q : Query) (steps : List Step) : List Step :=
  (q.taken steps).rtakeWhile fun s => s ≠ .reset

theorem follow_concat (q : Query) (steps : List Step) (s : Step) :
    q.follow (steps ++ [s]) = (q.follow steps).after s := by
  simp [follow]

theorem taken_concat (q : Query) (steps : List Step) (s : Step) :
    q.taken (steps ++ [s]) = q.taken steps ++
      match (q.follow steps).refusal? s with
      | none => [s]
      | some _ => [] := by
  induction steps generalizing q with
  | nil => simp only [List.nil_append, taken, follow, List.foldl_nil]
  | cons t steps ih =>
    have htail := ih (q.after t)
    rw [List.cons_append, taken, taken, htail]
    cases q.refusal? t <;> rfl

end Query

/-- Steps that lead from the empty query to a query, each of them taken. -/
def Replays (steps : List Step) (q : Query) : Prop := (Step.actAll steps).run .empty = .ok () q

theorem Step.run_actAll_concat {steps : List Step} {q r : Query} (s : Step)
    (h : (actAll steps).run q = .ok () r) : (actAll (steps ++ [s])).run q = s.act.run r := by
  induction steps generalizing q with
  | nil =>
    cases h
    rw [List.nil_append, run_actAll_cons, run_act]
    cases s.obstacle? r <;> rfl
  | cons t steps ih =>
    rw [run_actAll_cons] at h
    rw [List.cons_append, run_actAll_cons]
    cases ht : t.obstacle? q with
    | some reason => rw [ht] at h; cases h
    | none =>
      rw [ht] at h
      exact ih h

theorem Step.clauses_of_actAll {steps : List Step} {q r : Query}
    (h : (actAll steps).run q = .ok () r) (hreset : .reset ∉ steps) :
    r.clauses = q.clauses ++ steps.flatMap contribution := by
  induction steps generalizing q with
  | nil => cases h; simp
  | cons s steps ih =>
    rw [List.mem_cons, not_or] at hreset
    rw [run_actAll_cons] at h
    cases hs : s.obstacle? q with
    | some reason => rw [hs] at h; cases h
    | none =>
      rw [hs] at h
      have htail := ih h hreset.2
      rw [htail, effect_of_ne_reset (Ne.symm hreset.1), List.flatMap_cons, List.append_assoc]

theorem Replays.concat {steps : List Step} {q : Query} (h : Replays steps q) {s : Step}
    (hs : s.obstacle? q = none) : Replays (steps ++ [s]) (q.after s) := by
  unfold Replays
  rw [Step.run_actAll_concat s h, Step.run_act, hs, Query.after_of_clear hs]

theorem Query.replays_taken (steps : List Step) :
    Replays (Query.empty.taken steps) (Query.empty.follow steps) := by
  induction steps using List.reverseRecOn with
  | nil => rfl
  | append_singleton steps s ih =>
    rw [taken_concat, follow_concat, refusal?_eq]
    cases hs : s.obstacle? (Query.empty.follow steps) with
    | some r => simpa only [after_of_obstacle hs, List.append_nil] using ih
    | none => exact ih.concat hs

theorem Query.replays_log (steps : List Step) :
    Replays (Query.empty.log steps) (Query.empty.follow steps) := by
  induction steps using List.reverseRecOn with
  | nil => rfl
  | append_singleton steps s ih =>
    rw [log, taken_concat, follow_concat, refusal?_eq]
    cases hs : s.obstacle? (Query.empty.follow steps) with
    | some r => simpa only [log, after_of_obstacle hs, List.append_nil] using ih
    | none =>
      by_cases hreset : s = .reset
      · subst hreset
        rw [List.rtakeWhile_concat_neg _ _ _ (by simp)]
        rfl
      · rw [List.rtakeWhile_concat_pos _ _ _ (by simpa using hreset)]
        exact ih.concat hs

theorem Query.reset_not_mem_log (q : Query) (steps : List Step) : .reset ∉ q.log steps := by
  intro h
  simpa using List.mem_rtakeWhile_imp h

theorem Query.clauses_follow (steps : List Step) :
    (Query.empty.follow steps).clauses = (Query.empty.log steps).flatMap Step.contribution := by
  have h := Step.clauses_of_actAll (replays_log steps) (reset_not_mem_log .empty steps)
  simpa [Query.empty] using h

theorem Query.mem_of_mem_taken {q : Query} {steps : List Step} {s : Step} (h : s ∈ q.taken steps) :
    s ∈ steps := by
  induction steps generalizing q with
  | nil => exact h
  | cons t steps ih =>
    unfold taken at h
    split at h
    · rcases List.mem_cons.mp h with rfl | h
      · exact List.mem_cons_self
      · exact List.mem_cons_of_mem t (ih h)
    · exact List.mem_cons_of_mem t (ih h)

theorem Query.mem_of_mem_log {q : Query} {steps : List Step} {s : Step} (h : s ∈ q.log steps) :
    s ∈ steps :=
  mem_of_mem_taken ((List.rtakeWhile_suffix _ _).mem h)

/-- After every run the clauses are the contributions of the steps taken since the last reset. These
steps, and likewise all steps taken, are taken again on an empty query and end in the same clauses
and the same lock. A step is refused for a fragment of less than three characters, or for a
connective of the other kind than the lock, and for nothing else; a refused step changes nothing,
and a reset leaves the empty query. -/
theorem Query.follow_eq_log (steps : List Step) :
    let q := Query.empty.follow steps
    let log := Query.empty.log steps
    q.clauses = log.flatMap Step.contribution ∧
    q.length = (log.flatMap Step.contribution).length ∧
    (Step.actAll log).run .empty = .ok () q ∧
    (Step.actAll (Query.empty.taken steps)).run .empty = .ok () q ∧
    (∀ s r, q.refusal? s = some r ↔
      (∃ subject negated fragment, s = .contains subject negated fragment ∧
        fragment.length < 3 ∧ r = .shortSubstring subject.expression) ∨
      ∃ c, s.connective? = some c ∧ q.lock = some c.other ∧ r = .mixedConnective c c.other) ∧
    (∀ s r, q.refusal? s = some r → s.act.run q = .error r q ∧ q.after s = q) ∧
    q.after .reset = .empty := by
  intro q log
  have hlog : Replays log q := replays_log steps
  have hclauses : q.clauses = log.flatMap Step.contribution := clauses_follow steps
  refine ⟨hclauses, ?_, hlog, replays_taken steps, ?_, ?_, rfl⟩
  · rw [length, hclauses]
  · intro s r
    rw [refusal?_eq, Step.obstacle?_eq_some_iff]
  · intro s r hr
    rw [refusal?_eq] at hr
    refine ⟨?_, after_of_obstacle hr⟩
    rw [Step.run_act, hr]

/-- The steps that have been taken in a run since the last reset or preset, the steps of that preset
included. -/
def Query.record (moves : List Move) : List Step :=
  Query.empty.log (moves.flatMap Move.unfold)

theorem Query.clauses_run (moves : List Move) :
    (Query.empty.run moves).clauses = (record moves).flatMap Step.contribution := by
  rw [run_eq_follow, clauses_follow, record]

theorem Query.exists_mem_steps_of_mem_record {moves : List Move} {s : Step} (h : s ∈ record moves) :
    ∃ m ∈ moves, s ∈ m.steps := by
  obtain ⟨m, hm, hsm⟩ := List.mem_flatMap.mp (mem_of_mem_log h)
  rcases Move.mem_unfold hsm with rfl | hsm
  · exact absurd h (reset_not_mem_log _ _)
  · exact ⟨m, hm, hsm⟩

end FieldQuery
