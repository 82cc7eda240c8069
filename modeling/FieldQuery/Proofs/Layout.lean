import FieldQuery.Proofs.Clauses
import FieldQuery.Query.Render
import Mathlib.Logic.ExistsUnique

/-!
# The layout of a query text

Any list of clauses falls into runs of connectives in exactly one way: a run before the first field
clause, and one run after each field clause. Any of these may be empty. The text of a query follows
from this layout alone. It has every field clause once and in order, and between two neighbours a
space or the first connective of the run between them; the first run and the last are not written.

A pass over the clauses meets the runs one connective at a time. From the first field clause on, its
state is described by what it has settled and by the connective that still waits for a field clause.
-/
namespace FieldQuery

/-- A field clause with the run of connectives after it. -/
abbrev Block := FieldClause × List Connective

/-- Clauses told by their runs of connectives. -/
structure Layout where
  leading : List Connective
  blocks : List Block

namespace Layout

def clauses (l : Layout) : List Clause :=
  l.leading.map .logical ++ l.blocks.flatMap fun b => .field b.1 :: b.2.map .logical

def of : List Clause → Layout
  | [] => ⟨[], []⟩
  | .logical c :: cs => ⟨c :: (of cs).leading, (of cs).blocks⟩
  | .field f :: cs => ⟨[], (f, (of cs).leading) :: (of cs).blocks⟩

def fields (l : Layout) : List FieldClause := l.blocks.map Prod.fst

/-- What stands between neighbouring field clauses: nothing or a connective. -/
def joints (l : Layout) : List (Option Connective) := l.blocks.dropLast.map fun b => b.2.head?

def jointText : Option Connective → String
  | none => " "
  | some c => " " ++ c.word ++ " "

def blocksText : List Block → String
  | [] => ""
  | [b] => b.1.text
  | b :: d :: rest => b.1.text ++ jointText b.2.head? ++ blocksText (d :: rest)

def text (l : Layout) : String := blocksText l.blocks

theorem clauses_of (cs : List Clause) : (of cs).clauses = cs := by
  induction cs with
  | nil => rfl
  | cons c cs ih =>
    cases c with
    | logical c => simpa [clauses, of] using ih
    | field f => simpa [clauses, of] using ih

theorem of_logical_append (run : List Connective) (cs : List Clause) :
    of (run.map .logical ++ cs) = ⟨run ++ (of cs).leading, (of cs).blocks⟩ := by
  induction run with
  | nil => rfl
  | cons c run ih => rw [List.map_cons, List.cons_append, of, ih]; rfl

theorem of_clauses (l : Layout) : of l.clauses = l := by
  obtain ⟨leading, blocks⟩ := l
  induction blocks generalizing leading with
  | nil =>
    have h := of_logical_append leading []
    simpa [clauses, of] using h
  | cons b blocks ih =>
    have h := ih b.2
    simp only [clauses] at h
    rw [clauses, List.flatMap_cons, of_logical_append, List.cons_append, of, h]
    simp

theorem fields_of (cs : List Clause) : (of cs).fields = fieldClauses cs := by
  induction cs with
  | nil => rfl
  | cons c cs ih =>
    cases c with
    | logical c => exact ih
    | field f => rw [fieldClauses_field, ← ih]; rfl

end Layout

namespace Pass

/-- A pass that has met a field clause: it has settled some clauses, the latest first, and a
connective may be waiting. -/
def opened (settled : List Clause) (waiting : Option Connective) : Pass :=
  ⟨waiting.toList.map .logical ++ settled, true, waiting.isSome⟩

theorem next_start_field (f : FieldClause) : start.next (.field f) = opened [.field f] none := rfl

theorem next_start_logical (c : Connective) : start.next (.logical c) = start := rfl

theorem next_opened_field (settled : List Clause) (waiting : Option Connective) (f : FieldClause) :
    (opened settled waiting).next (.field f) =
      opened (.field f :: (waiting.toList.map .logical ++ settled)) none := rfl

/-- Only the first connective of a run has to wait. -/
theorem next_opened_logical (settled : List Clause) (waiting : Option Connective) (c : Connective) :
    (opened settled waiting).next (.logical c) = opened settled (waiting.or (some c)) := by
  cases waiting <;> rfl

theorem finish_opened (settled : List Clause) (waiting : Option Connective) :
    (opened settled waiting).finish = settled.reverse := by
  cases waiting <;> rfl

end Pass

/-- The clauses that are written for some blocks when a connective is waiting. -/
def Layout.writtenFrom (waiting : Option Connective) : List Block → List Clause
  | [] => []
  | b :: bs => waiting.toList.map .logical ++ .field b.1 :: writtenFrom b.2.head? bs

theorem Pass.finish_foldl_opened (settled : List Clause) (waiting : Option Connective)
    (cs : List Clause) :
    (cs.foldl next (opened settled waiting)).finish = settled.reverse ++
      Layout.writtenFrom (waiting.or (Layout.of cs).leading.head?) (Layout.of cs).blocks := by
  induction cs generalizing settled waiting with
  | nil => simp [finish_opened, Layout.of, Layout.writtenFrom]
  | cons c cs ih =>
    cases c with
    | logical c =>
      rw [List.foldl_cons, next_opened_logical, ih]
      cases waiting <;> simp [Layout.of]
    | field f =>
      rw [List.foldl_cons, next_opened_field, ih]
      cases waiting <;> simp [Layout.of, Layout.writtenFrom]

theorem Query.written_eq (cs : List Clause) :
    written cs = Layout.writtenFrom none (Layout.of cs).blocks := by
  unfold written
  induction cs with
  | nil => rfl
  | cons c cs ih =>
    cases c with
    | logical c => rwa [List.foldl_cons, Pass.next_start_logical]
    | field f =>
      rw [List.foldl_cons, Pass.next_start_field, Pass.finish_foldl_opened]
      simp [Layout.of, Layout.writtenFrom]

namespace Layout

theorem writtenFrom_sublist (waiting : Option Connective) (bs : List Block) :
    (writtenFrom waiting bs).Sublist
      (waiting.toList.map .logical ++ bs.flatMap fun b => .field b.1 :: b.2.map .logical) := by
  induction bs generalizing waiting with
  | nil => exact List.nil_sublist _
  | cons b bs ih =>
    have hrun : (b.2.head?.toList.map Clause.logical).Sublist (b.2.map .logical) := by
      cases b.2 with
      | nil => exact List.Sublist.refl _
      | cons c run => simp
    have htail := (ih b.2.head?).trans (hrun.append_right _)
    exact (List.Sublist.refl _).append (htail.cons_cons _)

theorem writtenFrom_ne_nil (waiting : Option Connective) (b : Block) (bs : List Block) :
    writtenFrom waiting (b :: bs) ≠ [] := by
  simp [writtenFrom]

theorem intercalate_writtenFrom (bs : List Block) :
    " ".intercalate ((writtenFrom none bs).map Clause.text) = blocksText bs := by
  induction bs with
  | nil => rfl
  | cons b bs ih =>
    cases bs with
    | nil => simp [writtenFrom, blocksText, Clause.text]
    | cons d rest =>
      have hne : (writtenFrom none (d :: rest)).map Clause.text ≠ [] := by
        simpa using writtenFrom_ne_nil none d rest
      rw [blocksText, ← ih]
      cases h : b.2.head? with
      | none =>
        change " ".intercalate (b.1.text :: (writtenFrom b.2.head? (d :: rest)).map Clause.text) = _
        rw [h, String.intercalate_cons_of_ne_nil hne]
        rfl
      | some c =>
        change " ".intercalate (b.1.text :: (writtenFrom b.2.head? (d :: rest)).map Clause.text) = _
        have hc : (writtenFrom (some c) (d :: rest)).map Clause.text =
            c.word :: (writtenFrom none (d :: rest)).map Clause.text := rfl
        rw [h, hc, String.intercalate_cons_cons, String.intercalate_cons_of_ne_nil hne]
        simp [jointText, String.append_assoc]

theorem fieldClauses_writtenFrom (waiting : Option Connective) (bs : List Block) :
    fieldClauses (writtenFrom waiting bs) = bs.map Prod.fst := by
  induction bs generalizing waiting with
  | nil => rfl
  | cons b bs ih => cases waiting <;> simp [writtenFrom, ih]

theorem connectives_writtenFrom (waiting : Option Connective) (b : Block) (bs : List Block) :
    connectives (writtenFrom waiting (b :: bs)) =
      waiting.toList ++ ((b :: bs).dropLast.map fun b => b.2.head?).filterMap id := by
  induction bs generalizing waiting b with
  | nil => cases waiting <;> rfl
  | cons d bs ih =>
    have hhead : connectives (waiting.toList.map .logical) = waiting.toList := by
      cases waiting <;> rfl
    rw [writtenFrom, connectives_append, connectives_field, hhead, ih, List.dropLast_cons_cons,
      List.map_cons]
    cases b.2.head? <;> rfl

/-- The run after the last field clause is not written. -/
theorem blocksText_concat (bs : List Block) (f : FieldClause) (run : List Connective) :
    blocksText (bs ++ [(f, run)]) = blocksText (bs ++ [(f, [])]) := by
  induction bs with
  | nil => rfl
  | cons b bs ih =>
    cases bs with
    | nil => rfl
    | cons d rest => exact congrArg (b.1.text ++ jointText b.2.head? ++ ·) ih

end Layout

/-- No field clause is left out. -/
theorem Query.fieldClauses_written (cs : List Clause) :
    fieldClauses (written cs) = fieldClauses cs := by
  rw [written_eq, Layout.fieldClauses_writtenFrom, ← Layout.fields_of]
  rfl

/-- Nothing is written that is not among the clauses, or out of order. -/
theorem Query.written_sublist (cs : List Clause) : (written cs).Sublist cs := by
  have hblocks := Layout.writtenFrom_sublist none (Layout.of cs).blocks
  have hclauses : (Layout.writtenFrom none (Layout.of cs).blocks).Sublist (Layout.of cs).clauses :=
    hblocks.trans (List.sublist_append_right _ _)
  rwa [written_eq, ← Layout.clauses_of cs, Layout.of_clauses]

theorem Query.render_eq (q : Query) : q.render = (Layout.of q.clauses).text := by
  rw [render, written_eq]
  exact Layout.intercalate_writtenFrom _

theorem Layout.render_clauses (l : Layout) (lock : Option Connective) :
    (Query.mk l.clauses lock).render = l.text := by
  rw [Query.render_eq, of_clauses]

/-- A list of clauses has one layout, and the text of a query is the text of its layout: every field
clause once and in order, and between two neighbours the first connective of their run, if there is
one. How long the first and the last run are makes no difference. -/
theorem Query.render_layout :
    (∀ cs : List Clause, ∃! l : Layout, l.clauses = cs) ∧
    (∀ (l : Layout) (lock : Option Connective),
      (Query.mk l.clauses lock).render = l.text ∧
      fieldClauses (Query.written l.clauses) = l.fields ∧
      connectives (Query.written l.clauses) = l.joints.filterMap id) ∧
    ∀ (leading run : List Connective) (bs : List Block) (f : FieldClause),
      (Layout.mk leading (bs ++ [(f, run)])).text = (Layout.mk [] (bs ++ [(f, [])])).text := by
  refine ⟨?_, ?_, ?_⟩
  · intro cs
    refine ⟨Layout.of cs, Layout.clauses_of cs, ?_⟩
    intro l hl
    rw [← hl, Layout.of_clauses]
  · intro l lock
    refine ⟨l.render_clauses lock, ?_, ?_⟩
    · rw [written_eq, Layout.of_clauses, Layout.fieldClauses_writtenFrom]
      rfl
    · rw [written_eq, Layout.of_clauses]
      obtain ⟨leading, _ | ⟨b, bs⟩⟩ := l
      · rfl
      · exact Layout.connectives_writtenFrom none b bs
  · intro leading run bs f
    exact Layout.blocksText_concat bs f run

end FieldQuery
