import FieldQuery.Proofs.History
import FieldQuery.Proofs.Layout
import FieldQuery.Proofs.QuoteScan
import Mathlib.Data.List.Forall2

/-!
# Two runs that differ in strings

Moves are similar when they differ in nothing but the metadata keys and the string values they are
given. Of two runs of similar moves, with the same moves taken, the clauses have the same shapes,
one by one: which of them are connectives, and how their texts read with the strings emptied.

Move by move, both runs are carried along side by side. Rendering picks the clauses it writes by
their shapes alone, so it picks the same ones from both.
-/
namespace FieldQuery

/-- The plain name that a step mentions. -/
def Step.name? : Step → Option String
  | .equals subject _ _ => subject.name?
  | .contains subject _ _ => subject.name?
  | .isNull subject _ => subject.name?
  | .compare name _ _ _ => some name
  | .between name _ _ _ => some name
  | .connect _ => none
  | .reset => none

def Step.Quoteless (s : Step) : Prop := ∀ name ∈ s.name?, '"' ∉ name.toList

instance (s : Step) : Decidable s.Quoteless := by unfold Step.Quoteless; infer_instance

/-- The names in a preset are its own. -/
def Move.Quoteless : Move → Prop
  | .step s => s.Quoteless
  | .preset _ => True

instance : (m : Move) → Decidable m.Quoteless
  | .step s => inferInstanceAs (Decidable s.Quoteless)
  | .preset _ => .isTrue trivial

theorem Preset.quoteless_steps (p : Preset) : ∀ s ∈ p.steps, s.Quoteless := by
  cases p <;> simp [steps, fieldEquals, Step.Quoteless, Step.name?, Subject.name?] <;> decide

theorem Move.quoteless_steps {m : Move} (h : m.Quoteless) : ∀ s ∈ m.steps, s.Quoteless := by
  cases m with
  | step s => exact List.forall_mem_singleton.mpr h
  | preset p => exact p.quoteless_steps

inductive Subject.Similar : Subject → Subject → Prop
  | field (name : String) : Similar (.field name) (.field name)
  | metadata (k l : String) : Similar (.metadata k) (.metadata l)

inductive Value.Similar : Value → Value → Prop
  | null : Similar .null .null
  | number (n : Number) : Similar (.number n) (.number n)
  | text (s t : String) : Similar (.text s) (.text t)

inductive Step.Similar : Step → Step → Prop
  | equals {s t : Subject} {v w : Value} (negated : Bool) : s.Similar t → v.Similar w →
      Similar (.equals s negated v) (.equals t negated w)
  | contains {s t : Subject} (negated : Bool) (a b : String) : s.Similar t →
      Similar (.contains s negated a) (.contains t negated b)
  | isNull {s t : Subject} (negated : Bool) : s.Similar t →
      Similar (.isNull s negated) (.isNull t negated)
  | compare (name : String) (negated : Bool) (bound : Bound) (n : Number) :
      Similar (.compare name negated bound n) (.compare name negated bound n)
  | between (name : String) (negated : Bool) (least greatest : Number) :
      Similar (.between name negated least greatest) (.between name negated least greatest)
  | connect (c : Connective) : Similar (.connect c) (.connect c)
  | reset : Similar .reset .reset

/-- Presets are compared by their steps. -/
inductive Move.Similar : Move → Move → Prop
  | step {s t : Step} : s.Similar t → Similar (.step s) (.step t)
  | preset {p p' : Preset} : List.Forall₂ Step.Similar p.steps p'.steps →
      Similar (.preset p) (.preset p')

theorem Subject.Similar.skeleton_eq {s t : Subject} (h : s.Similar t) :
    s.skeleton = t.skeleton := by
  cases h <;> rfl

theorem Subject.Similar.name?_eq {s t : Subject} (h : s.Similar t) : s.name? = t.name? := by
  cases h <;> rfl

theorem Value.Similar.skeleton_eq {v w : Value} (h : v.Similar w) : v.skeleton = w.skeleton := by
  cases h <;> rfl

theorem Step.Similar.name?_eq {s t : Step} (h : s.Similar t) : s.name? = t.name? := by
  cases h with
  | equals _ hsubject _ => exact hsubject.name?_eq
  | contains _ _ _ hsubject => exact hsubject.name?_eq
  | isNull _ hsubject => exact hsubject.name?_eq
  | compare _ _ _ _ => rfl
  | between _ _ _ _ => rfl
  | connect _ => rfl
  | reset => rfl

theorem Move.Similar.quoteless {m n : Move} (h : m.Similar n) (hm : m.Quoteless) :
    n.Quoteless := by
  cases h with
  | preset _ => trivial
  | step h =>
    simp only [Quoteless, Step.Quoteless, ← h.name?_eq]
    exact hm

theorem Move.forall_quoteless_of_similar {moves others : List Move}
    (h : List.Forall₂ Move.Similar moves others) (hmoves : ∀ m ∈ moves, m.Quoteless) :
    ∀ n ∈ others, n.Quoteless := by
  induction h with
  | nil => exact List.forall_mem_nil _
  | cons hmn _ ih =>
    obtain ⟨hm, hmoves⟩ := List.forall_mem_cons.mp hmoves
    exact List.forall_mem_cons.mpr ⟨hmn.quoteless hm, ih hmoves⟩

namespace Query

/-- Whether a move is taken. -/
def takes (q : Query) : Move → Bool
  | .step s => (q.refusal? s).isNone
  | .preset p => p.query.isOk

/-- Which moves of a run are taken. -/
def outcomes (q : Query) : List Move → List Bool
  | [] => []
  | m :: moves => q.takes m :: (q.move m).outcomes moves

end Query

/-- What a scan tells of a clause: whether it is a connective, and the skeleton of its text. -/
def Clause.shape (c : Clause) : Bool × List Char :=
  (c.isLogical, (Scan.of c.text.toList).skeleton)

def Clause.Closed (c : Clause) : Prop := (Scan.of c.text.toList).place = .outside

/-- Two field clauses about similar subjects, with similar values, have one shape. -/
theorem FieldClause.shape_eq {s t : Subject} (hs : s.Similar t)
    (hname : ∀ name ∈ s.name?, '"' ∉ name.toList) {v w : Value} (hv : v.Similar w) (o : Operator)
    (negated : Bool) :
    Clause.shape (.field ⟨s.expression, o, v, negated⟩) =
      Clause.shape (.field ⟨t.expression, o, w, negated⟩) := by
  have hname' : ∀ name ∈ t.name?, '"' ∉ name.toList := hs.name?_eq ▸ hname
  simp only [Clause.shape, Clause.text, Clause.isLogical]
  rw [scan_text hname rfl, scan_text hname' rfl]
  simp only [skeletonOf, hs.skeleton_eq, hv.skeleton_eq]

theorem FieldClause.closed {s : Subject} (hname : ∀ name ∈ s.name?, '"' ∉ name.toList)
    (o : Operator) (v : Value) (negated : Bool) :
    (Clause.field ⟨s.expression, o, v, negated⟩).Closed := by
  simp only [Clause.Closed, Clause.text]
  rw [scan_text hname rfl]

theorem Connective.closed (c : Connective) : (Clause.logical c).Closed := by
  rw [Clause.Closed, Clause.text, scan_word]

namespace Step

theorem Similar.shape_contribution {s t : Step} (h : s.Similar t) (hs : s.Quoteless) :
    s.contribution.map Clause.shape = t.contribution.map Clause.shape := by
  cases h with
  | equals negated hsubject hvalue =>
    exact congrArg ([·]) (FieldClause.shape_eq hsubject hs hvalue _ _)
  | contains negated a b hsubject =>
    exact congrArg ([·]) (FieldClause.shape_eq hsubject hs (.text a b) _ _)
  | isNull negated hsubject =>
    exact congrArg ([·]) (FieldClause.shape_eq hsubject hs .null _ _)
  | compare _ _ _ _ => rfl
  | between _ _ _ _ => rfl
  | connect _ => rfl
  | reset => rfl

theorem Similar.connective?_eq {s t : Step} (h : s.Similar t) : s.connective? = t.connective? := by
  cases h <;> rfl

theorem Similar.reset_iff {s t : Step} (h : s.Similar t) : s = .reset ↔ t = .reset := by
  cases h <;> simp

theorem closed_contribution {s : Step} (h : s.Quoteless) : ∀ c ∈ s.contribution, c.Closed := by
  cases s with
  | equals subject negated value =>
    exact List.forall_mem_singleton.mpr (FieldClause.closed h _ _ _)
  | contains subject negated fragment =>
    exact List.forall_mem_singleton.mpr (FieldClause.closed h _ _ _)
  | isNull subject negated => exact List.forall_mem_singleton.mpr (FieldClause.closed h _ _ _)
  | compare name negated bound number =>
    exact List.forall_mem_singleton.mpr (FieldClause.closed (s := .field name) h _ _ _)
  | between name negated least greatest =>
    have hbound : ∀ b n, (Clause.field ⟨name, .range b, .number n, negated⟩).Closed :=
      fun _ _ => FieldClause.closed (s := .field name) h _ _ _
    exact List.forall_mem_cons.mpr ⟨hbound _ _, List.forall_mem_cons.mpr
      ⟨Connective.closed _, List.forall_mem_singleton.mpr (hbound _ _)⟩⟩
  | connect c => exact List.forall_mem_singleton.mpr c.closed
  | reset => exact List.forall_mem_nil _

end Step

/-- Queries that a scan cannot tell apart by anything but strings. -/
structure Query.SameShape (p q : Query) : Prop where
  clauses : p.clauses.map Clause.shape = q.clauses.map Clause.shape
  lock : p.lock = q.lock

namespace Query.SameShape

variable {p q : Query}

theorem effect (h : p.SameShape q) {s t : Step} (hst : s.Similar t) (hs : s.Quoteless) :
    (s.effect p).SameShape (t.effect q) := by
  by_cases hreset : s = .reset
  · rw [hreset, hst.reset_iff.mp hreset]
    exact ⟨rfl, rfl⟩
  · rw [Step.effect_of_ne_reset hreset, Step.effect_of_ne_reset (mt hst.reset_iff.mpr hreset)]
    constructor
    · rw [List.map_append, List.map_append, h.clauses, hst.shape_contribution hs]
    · rw [h.lock, hst.connective?_eq]

theorem after (h : p.SameShape q) {s t : Step} (hst : s.Similar t) (hs : s.Quoteless)
    (htaken : (p.refusal? s).isNone = (q.refusal? t).isNone) :
    (p.after s).SameShape (q.after t) := by
  rw [refusal?_eq, refusal?_eq] at htaken
  cases hp : s.obstacle? p with
  | none =>
    rw [hp] at htaken
    have hq : t.obstacle? q = none := Option.isNone_iff_eq_none.mp htaken.symm
    rw [after_of_clear hp, after_of_clear hq]
    exact h.effect hst hs
  | some r =>
    rw [hp] at htaken
    cases hq : t.obstacle? q with
    | none => rw [hq] at htaken; cases htaken
    | some r' =>
      rw [after_of_obstacle hp, after_of_obstacle hq]
      exact h

/-- Steps that are all taken on both sides. -/
theorem actAll (h : p.SameShape q) {steps steps' : List Step}
    (hsteps : List.Forall₂ Step.Similar steps steps') (hquote : ∀ s ∈ steps, s.Quoteless)
    {p' q' : Query} (hp : (Step.actAll steps).run p = .ok () p')
    (hq : (Step.actAll steps').run q = .ok () q') : p'.SameShape q' := by
  induction hsteps generalizing p q with
  | nil => cases hp; cases hq; exact h
  | @cons s t steps steps' hst _ ih =>
    rw [Step.run_actAll_cons] at hp hq
    cases hsp : s.obstacle? p with
    | some r => rw [hsp] at hp; cases hp
    | none =>
      cases htq : t.obstacle? q with
      | some r => rw [htq] at hq; cases hq
      | none =>
        rw [hsp] at hp
        rw [htq] at hq
        have hnext := h.effect hst (hquote s List.mem_cons_self)
        exact ih hnext (fun u hu => hquote u (List.mem_cons_of_mem s hu)) hp hq

end Query.SameShape

theorem Query.SameShape.move {p q : Query} (h : p.SameShape q) {m n : Move} (hmn : m.Similar n)
    (hm : m.Quoteless) (htaken : p.takes m = q.takes n) : (p.move m).SameShape (q.move n) := by
  cases hmn with
  | step hst => exact h.after hst hm htaken
  | @preset a b hsteps =>
    simp only [takes] at htaken
    cases ha : a.query with
    | ok p' =>
      rw [ha] at htaken
      cases hb : b.query with
      | error _ => rw [hb] at htaken; cases htaken
      | ok q' =>
        have hempty : Query.empty.SameShape .empty := ⟨rfl, rfl⟩
        simpa only [Query.move, ha, hb] using hempty.actAll hsteps a.quoteless_steps
          (Preset.run_of_query ha) (Preset.run_of_query hb)
    | error _ =>
      rw [ha] at htaken
      cases hb : b.query with
      | ok _ => rw [hb] at htaken; cases htaken
      | error _ => simpa only [Query.move, ha, hb] using h

theorem Query.SameShape.run {p q : Query} (h : p.SameShape q) {moves others : List Move}
    (hsimilar : List.Forall₂ Move.Similar moves others) (hmoves : ∀ m ∈ moves, m.Quoteless)
    (htaken : p.outcomes moves = q.outcomes others) : (p.run moves).SameShape (q.run others) := by
  induction hsimilar generalizing p q with
  | nil => exact h
  | @cons m n moves others hmn _ ih =>
    obtain ⟨hhead, htail⟩ := List.cons.inj htaken
    have hnext := h.move hmn (hmoves m List.mem_cons_self) hhead
    exact ih hnext (fun u hu => hmoves u (List.mem_cons_of_mem m hu)) htail

/-- Two passes that have met clauses of the same shapes. -/
structure Pass.SameShape (p p' : Pass) : Prop where
  kept : p.kept.map Clause.shape = p'.kept.map Clause.shape
  hasField : p.hasField = p'.hasField
  lastLogical : p.lastLogical = p'.lastLogical

theorem Pass.SameShape.next {p p' : Pass} (h : p.SameShape p') {c d : Clause}
    (hcd : c.shape = d.shape) : (p.next c).SameShape (p'.next d) := by
  have hlogical : c.isLogical = d.isLogical := congrArg Prod.fst hcd
  cases c with
  | field f =>
    cases d with
    | logical _ => cases hlogical
    | field g =>
      exact ⟨by rw [Pass.next, Pass.next, List.map_cons, List.map_cons, hcd, h.kept], rfl, rfl⟩
  | logical c =>
    cases d with
    | field _ => cases hlogical
    | logical d =>
      simp only [Pass.next, h.hasField, h.lastLogical]
      split
      · exact h
      · exact ⟨by rw [List.map_cons, List.map_cons, hcd, h.kept], rfl, rfl⟩

theorem Pass.SameShape.foldl {p p' : Pass} (h : p.SameShape p') {cs ds : List Clause}
    (hcs : cs.map Clause.shape = ds.map Clause.shape) :
    (cs.foldl Pass.next p).SameShape (ds.foldl Pass.next p') := by
  induction cs generalizing ds p p' with
  | nil =>
    rw [List.map_eq_nil_iff.mp hcs.symm]
    exact h
  | cons c cs ih =>
    obtain ⟨d, ds, rfl, hd, hds⟩ := List.map_eq_cons_iff.mp hcs.symm
    exact ih (h.next hd.symm) hds.symm

namespace Query

theorem map_shape_written {cs ds : List Clause}
    (h : cs.map Clause.shape = ds.map Clause.shape) :
    (written cs).map Clause.shape = (written ds).map Clause.shape := by
  have hpass : (cs.foldl Pass.next .start).SameShape (ds.foldl Pass.next .start) :=
    Pass.SameShape.foldl ⟨rfl, rfl, rfl⟩ h
  rw [written, written, Pass.finish, Pass.finish, hpass.lastLogical, List.map_reverse,
    List.map_reverse]
  split
  · rw [List.map_tail, List.map_tail, hpass.kept]
  · rw [hpass.kept]

end Query

end FieldQuery
