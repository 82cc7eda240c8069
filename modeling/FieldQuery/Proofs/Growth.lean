import FieldQuery.Proofs.SingleConnective
import Mathlib.Data.List.Induction

/-!
# How a text grows

A text is written anew each time, but from one move to the next it only gets longer, as long as no
reset comes between. A connective waits for the field clause after it and does not show before. A
further field clause adds a joint and its own text, and the lock tells the joint: it is the
connective that waits, if one does.

Clauses that hold a field clause end in one, with a run of connectives after it. What is written up
to this last field clause is settled; what comes later goes on from the run after it.
-/
namespace FieldQuery

theorem exists_append_field {cs : List Clause} (h : fieldClauses cs ≠ []) :
    ∃ (front : List Clause) (f : FieldClause) (run : List Connective),
      cs = front ++ .field f :: run.map .logical := by
  induction cs using List.reverseRecOn with
  | nil => exact absurd rfl h
  | append_singleton cs c ih =>
    cases c with
    | field f => exact ⟨cs, f, [], rfl⟩
    | logical c =>
      rw [fieldClauses_append, fieldClauses_logical, fieldClauses_nil, List.append_nil] at h
      obtain ⟨front, f, run, rfl⟩ := ih h
      exact ⟨front, f, run ++ [c], by simp⟩

theorem exists_eq_map_logical {cs : List Clause} (h : fieldClauses cs = []) :
    ∃ run : List Connective, cs = run.map .logical := by
  induction cs with
  | nil => exact ⟨[], rfl⟩
  | cons c cs ih =>
    cases c with
    | field f => cases h
    | logical c =>
      obtain ⟨run, rfl⟩ := ih h
      exact ⟨c :: run, rfl⟩

namespace Pass

theorem foldl_run (run : List Connective) : (run.map .logical).foldl next start = start := by
  induction run with
  | nil => rfl
  | cons c run ih => rwa [List.map_cons, List.foldl_cons, next_start_logical]

/-- A field clause settles all that was kept before it. -/
theorem foldl_concat_field (cs : List Clause) (f : FieldClause) :
    (cs ++ [Clause.field f]).foldl next start =
      opened (.field f :: (cs.foldl next start).kept) none := by
  rw [List.foldl_append]
  rfl

end Pass

namespace Query

/-- Connectives alone are not written and have no effect on what is. -/
theorem written_run_append (run : List Connective) (ds : List Clause) :
    written (run.map .logical ++ ds) = written ds := by
  rw [written, List.foldl_append, Pass.foldl_run, written]

theorem written_run (run : List Connective) : written (run.map .logical) = [] := by
  have hrun := written_run_append run []
  rwa [List.append_nil] at hrun

/-- What is written up to a field clause stays, and the clauses after it follow. -/
theorem written_append_field (cs : List Clause) (f : FieldClause) (ds : List Clause) :
    written (cs ++ .field f :: ds) = written (cs ++ [.field f]) ++
      Layout.writtenFrom (Layout.of ds).leading.head? (Layout.of ds).blocks := by
  have hsplit : cs ++ .field f :: ds = (cs ++ [.field f]) ++ ds := by simp
  rw [written, hsplit, List.foldl_append, Pass.foldl_concat_field, Pass.finish_foldl_opened,
    written, Pass.foldl_concat_field, Pass.finish_opened, Option.none_or]

theorem written_field_run (cs : List Clause) (f : FieldClause) (run : List Connective) :
    written (cs ++ .field f :: run.map .logical) = written (cs ++ [.field f]) := by
  have hlayout := Layout.of_logical_append run []
  rw [List.append_nil] at hlayout
  rw [written_append_field, hlayout]
  exact List.append_nil _

/-- A field clause after a run of connectives is written after the first of them. -/
theorem written_field_run_field (cs : List Clause) (f : FieldClause) (run : List Connective)
    (g : FieldClause) (ds : List Clause) :
    written (cs ++ .field f :: run.map .logical ++ .field g :: ds) =
      written (cs ++ .field f :: run.map .logical) ++
        (run.head?.toList.map .logical ++ written (.field g :: ds)) := by
  have hlayout := Layout.of_logical_append run (.field g :: ds)
  rw [List.append_assoc, List.cons_append, written_append_field, hlayout, written_field_run,
    written_eq (.field g :: ds)]
  simp [Layout.of, Layout.writtenFrom]

/-- What is written of a list of clauses is written of every longer one, in the same place. -/
theorem written_isPrefix_append (cs ds : List Clause) : written cs <+: written (cs ++ ds) := by
  by_cases h : fieldClauses cs = []
  · obtain ⟨run, rfl⟩ := exists_eq_map_logical h
    rw [written_run]
    exact List.nil_prefix
  · obtain ⟨front, f, run, rfl⟩ := exists_append_field h
    have hlonger := written_append_field front f (run.map .logical ++ ds)
    rw [written_field_run, List.append_assoc, List.cons_append, hlonger]
    exact List.prefix_append _ _

theorem written_ne_nil {cs : List Clause} (h : fieldClauses cs ≠ []) : written cs ≠ [] := by
  intro hnil
  rw [← fieldClauses_written, hnil] at h
  exact h rfl

theorem written_append_run (cs : List Clause) (run : List Connective) :
    written (cs ++ run.map .logical) = written cs := by
  by_cases h : fieldClauses cs = []
  · obtain ⟨before, rfl⟩ := exists_eq_map_logical h
    rw [← List.map_append, written_run, written_run]
  · obtain ⟨front, f, before, rfl⟩ := exists_append_field h
    rw [List.append_assoc, List.cons_append, ← List.map_append, written_field_run,
      written_field_run]

/-- What stands between the text of a query and a further field clause: nothing before the first
one, a space right after another one, and after connectives the one that is in use. -/
def joint (q : Query) : String :=
  if fieldClauses q.clauses = [] then ""
  else if (q.clauses.getLast?.map Clause.isLogical) = some true then Layout.jointText q.lock
  else Layout.jointText none

theorem joint_of_run {q : Query} (h : q.Settled) {front : List Clause} {f : FieldClause}
    {run : List Connective} (hq : q.clauses = front ++ .field f :: run.map .logical) :
    q.joint = Layout.jointText run.head? := by
  have hsome : fieldClauses q.clauses ≠ [] := by simp [hq, fieldClauses_append]
  rw [joint, if_neg hsome]
  cases run with
  | nil => simp [hq, Clause.isLogical]
  | cons c run =>
    have hlock : q.lock = some c := h.lock_eq_some_iff.mpr (by simp [hq])
    have hlast : q.clauses.getLast?.map Clause.isLogical = some true := by
      cases hrun : run.getLast? <;>
        simp [hq, List.getLast?_append, List.getLast?_cons, hrun, Clause.isLogical]
    rw [if_pos hlast, hlock]
    rfl

/-- Two texts of several words, joined by a space or by a connective. -/
theorem intercalate_joint {ss ts : List String} (hs : ss ≠ []) (ht : ts ≠ [])
    (waiting : Option Connective) :
    " ".intercalate (ss ++ (waiting.toList.map Connective.word ++ ts)) =
      " ".intercalate ss ++ Layout.jointText waiting ++ " ".intercalate ts := by
  cases waiting with
  | none => exact String.intercalate_append_of_ne_nil hs ht
  | some c =>
    have hword : (some c).toList.map Connective.word ++ ts = c.word :: ts := rfl
    rw [hword, String.intercalate_append_of_ne_nil hs (List.cons_ne_nil _ _),
      String.intercalate_cons_of_ne_nil ht]
    simp [Layout.jointText, String.append_assoc]

/-- The text of more clauses, the first of which is a field clause, goes on after a joint. -/
theorem render_append_field {q : Query} (h : q.Settled) (f : FieldClause) (ds : List Clause)
    (lock lock' : Option Connective) :
    (Query.mk (q.clauses ++ .field f :: ds) lock).render =
      q.render ++ q.joint ++ (Query.mk (.field f :: ds) lock').render := by
  by_cases hnone : fieldClauses q.clauses = []
  · obtain ⟨run, hrun⟩ := exists_eq_map_logical hnone
    have hempty : q.render = "" := by rw [render, hrun, written_run]; rfl
    have hjoint : q.joint = "" := if_pos hnone
    rw [hempty, hjoint, render, render, hrun, written_run_append]
    simp
  · obtain ⟨front, g, run, hrun⟩ := exists_append_field hnone
    have hold : (written q.clauses).map Clause.text ≠ [] := by simpa using written_ne_nil hnone
    have hfields : fieldClauses (.field f :: ds) ≠ [] := List.cons_ne_nil _ _
    have hnew : (written (.field f :: ds)).map Clause.text ≠ [] := by
      simpa using written_ne_nil hfields
    have hwords : (run.head?.toList.map Clause.logical).map Clause.text =
        run.head?.toList.map Connective.word := by
      rw [List.map_map]
      rfl
    rw [hrun] at hold
    rw [joint_of_run h hrun, render, render, render, hrun, written_field_run_field, List.map_append,
      List.map_append, hwords]
    exact intercalate_joint hold hnew run.head?

/-- A query that goes on from another one has a text that goes on from its text. -/
theorem exists_render_eq_append {p q : Query} (h : p.clauses <+: q.clauses) :
    ∃ t, q.render = p.render ++ t := by
  obtain ⟨ds, hds⟩ := h
  obtain ⟨more, hmore⟩ := written_isPrefix_append p.clauses ds
  rw [render, render, ← hds, ← hmore, List.map_append]
  by_cases hold : written p.clauses = []
  · rw [hold]
    exact ⟨_, (String.empty_append).symm⟩
  · by_cases hnew : more = []
    · rw [hnew]
      exact ⟨"", by simp⟩
    · rw [String.intercalate_append_of_ne_nil (by simpa using hold) (by simpa using hnew),
        String.append_assoc]
      exact ⟨_, rfl⟩

theorem clauses_isPrefix_after {s : Step} (h : s ≠ .reset) (q : Query) :
    q.clauses <+: (q.after s).clauses := by
  cases hs : s.obstacle? q with
  | some r => exact ⟨[], by rw [after_of_obstacle hs, List.append_nil]⟩
  | none =>
    rw [after_of_clear hs, Step.effect_of_ne_reset h]
    exact List.prefix_append _ _

theorem clauses_isPrefix_follow {steps : List Step} (h : .reset ∉ steps) (q : Query) :
    q.clauses <+: (q.follow steps).clauses := by
  apply follow_keeps (P := fun r => q.clauses <+: r.clauses) _ (List.prefix_refl _)
  intro s hs r hr
  have hne : s ≠ .reset := fun e => h (e ▸ hs)
  exact hr.trans (clauses_isPrefix_after hne r)

/-- Without a reset, and without a preset that takes the place of the query, clauses are only
added. -/
theorem clauses_isPrefix_run {later : List Move} (h : ∀ m ∈ later, .reset ∉ m.unfold) (q : Query) :
    q.clauses <+: (q.run later).clauses := by
  rw [run_eq_follow]
  apply clauses_isPrefix_follow
  intro hreset
  obtain ⟨m, hm, hmem⟩ := List.mem_flatMap.mp hreset
  exact h m hm hmem

theorem render_after_contribution {q : Query} (h : q.Settled) {s : Step} (hs : q.refusal? s = none)
    {f : FieldClause} {ds : List Clause} (hc : s.contribution = .field f :: ds) :
    (q.after s).render = q.render ++ q.joint ++ (Query.mk s.contribution none).render := by
  have hreset : s ≠ .reset := by
    rintro rfl
    cases hc
  rw [refusal?_eq] at hs
  rw [after_of_clear hs, Step.effect_of_ne_reset hreset, hc]
  exact render_append_field h f ds _ none

theorem render_after_connect {q : Query} {c : Connective} (hc : q.refusal? (.connect c) = none) :
    (q.after (.connect c)).render = q.render := by
  rw [refusal?_eq] at hc
  rw [after_of_clear hc, render, render]
  exact congrArg (fun cs => " ".intercalate (cs.map Clause.text)) (written_append_run q.clauses [c])

theorem render_field (f : FieldClause) : (Query.mk [.field f] none).render = f.text :=
  String.intercalate_singleton

theorem render_range (name : String) (negated : Bool) (least greatest : Number) :
    (Query.mk (Step.between name negated least greatest).contribution none).render =
      (if negated then "-" else "") ++ name ++ ">=" ++ least.text ++ " AND " ++
        (if negated then "-" else "") ++ name ++ "<=" ++ greatest.text := by
  have hword : " AND " = " " ++ Connective.and.word ++ " " := by decide
  change " ".intercalate [_, _, _] = _
  rw [String.intercalate_cons_cons, String.intercalate_cons_cons, String.intercalate_singleton,
    hword]
  simp only [Clause.text, FieldClause.text, String.append_assoc]
  rfl

/-- The text of a query after any run, and of the same query later. -/
theorem render_after_of_run (moves : List Move) :
    let q := Query.empty.run moves
    (∀ c, q.refusal? (.connect c) = none → (q.after (.connect c)).render = q.render) ∧
    (∀ s f, s.contribution = [.field f] → q.refusal? s = none →
      (q.after s).render = q.render ++ q.joint ++ f.text) ∧
    (∀ name negated least greatest, q.refusal? (.between name negated least greatest) = none →
      let sign := if negated then "-" else ""
      (q.after (.between name negated least greatest)).render = q.render ++ q.joint ++
        (sign ++ name ++ ">=" ++ least.text ++ " AND " ++ sign ++ name ++ "<=" ++ greatest.text)) ∧
    (∀ s r, q.refusal? s = some r → (q.after s).render = q.render) ∧
    (∀ c, q.clauses.getLast? = some (.logical c) → q.lock = some c) ∧
    (∀ s, s ≠ .reset → ∃ t, (q.after s).render = q.render ++ t) ∧
    ∀ later : List Move, (∀ m ∈ later, .reset ∉ m.unfold) →
      ∃ t, (q.run later).render = q.render ++ t := by
  intro q
  have hq : q.Settled := Settled.run moves
  refine ⟨?_, ?_, ?_, ?_, ?_, ?_, ?_⟩
  · intro c hc
    exact render_after_connect hc
  · intro s f hs hr
    rw [render_after_contribution hq hr hs, hs, render_field]
  · intro name negated least greatest hr
    rw [render_after_contribution hq hr rfl, render_range]
  · intro s r hr
    rw [refusal?_eq] at hr
    rw [after_of_obstacle hr]
  · intro c hc
    exact hq.lock_eq_some_iff.mpr (List.mem_of_getLast? hc)
  · intro s hs
    exact exists_render_eq_append (clauses_isPrefix_after hs q)
  · intro later hlater
    exact exists_render_eq_append (clauses_isPrefix_run hlater q)

end Query
end FieldQuery
