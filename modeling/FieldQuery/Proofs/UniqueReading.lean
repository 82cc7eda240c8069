import FieldQuery.Proofs.ClauseText
import FieldQuery.Proofs.Layout
import FieldQuery.Proofs.Runs
import Mathlib.Data.List.Forall2

/-!
# One reading for each text

Two queries with the same text ask for the same: they have as many field clauses, these are alike
one by one, and the same connective, or none, stands between any two neighbours. It takes no
assumption on metadata keys and string values, which are quoted. The names of plain fields are
written as they are and have to be plain.
-/
namespace FieldQuery

def Step.Plain : Step → Prop
  | .equals subject _ _ => subject.Plain
  | .contains subject _ _ => subject.Plain
  | .isNull subject _ => subject.Plain
  | .compare name _ _ _ => PlainName name
  | .between name _ _ _ => PlainName name
  | .connect _ => True
  | .reset => True

instance : (s : Step) → Decidable s.Plain
  | .equals subject _ _ => inferInstanceAs (Decidable subject.Plain)
  | .contains subject _ _ => inferInstanceAs (Decidable subject.Plain)
  | .isNull subject _ => inferInstanceAs (Decidable subject.Plain)
  | .compare name _ _ _ => inferInstanceAs (Decidable (PlainName name))
  | .between name _ _ _ => inferInstanceAs (Decidable (PlainName name))
  | .connect _ => .isTrue trivial
  | .reset => .isTrue trivial

/-- The names in a preset are its own. -/
def Move.Plain : Move → Prop
  | .step s => s.Plain
  | .preset _ => True

instance : (m : Move) → Decidable m.Plain
  | .step s => inferInstanceAs (Decidable s.Plain)
  | .preset _ => .isTrue trivial

def Query.Plain (q : Query) : Prop := ∀ f ∈ fieldClauses q.clauses, f.Plain

theorem Preset.plain_steps (p : Preset) : ∀ s ∈ p.steps, s.Plain := by
  cases p <;> simp [steps, fieldEquals, Step.Plain, Subject.Plain] <;> decide

theorem Move.plain_steps {m : Move} (h : m.Plain) : ∀ s ∈ m.steps, s.Plain := by
  cases m with
  | step s => exact List.forall_mem_singleton.mpr h
  | preset p => exact p.plain_steps

theorem Step.plain_contribution {s : Step} (h : s.Plain) :
    ∀ f ∈ fieldClauses s.contribution, f.Plain := by
  cases s with
  | equals subject _ _ => exact List.forall_mem_singleton.mpr ⟨subject, h, rfl⟩
  | contains subject _ _ => exact List.forall_mem_singleton.mpr ⟨subject, h, rfl⟩
  | isNull subject _ => exact List.forall_mem_singleton.mpr ⟨subject, h, rfl⟩
  | compare name _ _ _ => exact List.forall_mem_singleton.mpr ⟨.field name, h, rfl⟩
  | between name negated _ _ =>
    have hbound : ∀ b n, FieldClause.Plain ⟨name, .range b, .number n, negated⟩ :=
      fun _ _ => ⟨.field name, h, rfl⟩
    exact List.forall_mem_cons.mpr ⟨hbound _ _, List.forall_mem_singleton.mpr (hbound _ _)⟩
  | connect c => exact List.forall_mem_nil _
  | reset => exact List.forall_mem_nil _

theorem Query.Plain.after {q : Query} (h : q.Plain) {s : Step} (hs : s.Plain) :
    (q.after s).Plain :=
  forall_fieldClauses_after h fun _ => Step.plain_contribution hs

theorem Query.plain_run {moves : List Move} (h : ∀ m ∈ moves, m.Plain) :
    (Query.empty.run moves).Plain := by
  apply run_keeps
  · exact List.forall_mem_nil _
  · intro m hm s hs q hq
    exact hq.after (Move.plain_steps (h m hm) s hs)

namespace Layout

/-- What follows a field clause. -/
def tailText (waiting : Option Connective) : List Block → String
  | [] => ""
  | b :: bs => jointText waiting ++ blocksText (b :: bs)

theorem blocksText_cons (b : Block) (bs : List Block) :
    blocksText (b :: bs) = b.1.text ++ tailText b.2.head? bs := by
  cases bs with
  | nil => simp [blocksText, tailText]
  | cons d bs => rw [blocksText, tailText, String.append_assoc]

theorem toList_jointText (waiting : Option Connective) (x : List Char) :
    (jointText waiting).toList ++ x = ' ' ::
      match waiting with
      | none => x
      | some c => c.word.toList ++ (' ' :: x) := by
  cases waiting <;> simp [jointText, String.toList_append]

theorem spaced_tailText (waiting : Option Connective) (bs : List Block) :
    Spaced (tailText waiting bs).toList := by
  intro c hc
  cases bs with
  | nil => cases hc
  | cons b bs =>
    rw [tailText, String.toList_append, toList_jointText] at hc
    cases hc
    rfl

theorem toList_blocksText_cons (b : Block) (bs : List Block) :
    (blocksText (b :: bs)).toList = b.1.text.toList ++ (tailText b.2.head? bs).toList := by
  rw [blocksText_cons, String.toList_append]

theorem word_cut {c d : Connective} {x y : List Char}
    (h : c.word.toList ++ (' ' :: x) = d.word.toList ++ (' ' :: y)) : c = d ∧ x = y := by
  cases c <;> cases d
  · exact ⟨rfl, (List.cons.inj (List.append_cancel_left h)).2⟩
  · exact absurd (List.cons.inj h).1 (by decide)
  · exact absurd (List.cons.inj h).1 (by decide)
  · exact ⟨rfl, (List.cons.inj (List.append_cancel_left h)).2⟩

/-- The joint of two field clauses can be told from the clause after it. -/
theorem joint_cut {v w : Option Connective} {b d : Block} {bs ds : List Block} (hb : b.1.Plain)
    (hd : d.1.Plain) (h : tailText v (b :: bs) = tailText w (d :: ds)) :
    v = w ∧ blocksText (b :: bs) = blocksText (d :: ds) := by
  have hlist := congrArg String.toList h
  rw [tailText, tailText, String.toList_append, String.toList_append, toList_jointText,
    toList_jointText] at hlist
  have htail := (List.cons.inj hlist).2
  cases v with
  | none =>
    cases w with
    | none => exact ⟨rfl, String.toList_inj.mp htail⟩
    | some c =>
      rw [toList_blocksText_cons b] at htail
      exact absurd htail (FieldClause.text_ne_word hb c _ _)
  | some c =>
    cases w with
    | none =>
      rw [toList_blocksText_cons d] at htail
      exact absurd htail.symm (FieldClause.text_ne_word hd c _ _)
    | some e =>
      obtain ⟨rfl, hrest⟩ := word_cut htail
      exact ⟨rfl, String.toList_inj.mp hrest⟩

theorem blocksText_cons_ne_empty (b : Block) (bs : List Block) : blocksText (b :: bs) ≠ "" := by
  intro h
  have hlist := congrArg String.toList h
  rw [toList_blocksText_cons] at hlist
  exact FieldClause.text_ne_nil _ hlist

theorem tailText_cons_ne_empty (waiting : Option Connective) (b : Block) (bs : List Block) :
    tailText waiting (b :: bs) ≠ "" := by
  intro h
  have hlist := congrArg String.toList h
  rw [tailText, String.toList_append, toList_jointText] at hlist
  cases hlist

theorem alike_of_blocksText_eq {bs ds : List Block} (hbs : ∀ b ∈ bs, b.1.Plain)
    (hds : ∀ d ∈ ds, d.1.Plain) (h : blocksText bs = blocksText ds) :
    List.Forall₂ FieldClause.Alike (bs.map Prod.fst) (ds.map Prod.fst) ∧
      (bs.dropLast.map fun b => b.2.head?) = ds.dropLast.map fun d => d.2.head? := by
  induction bs generalizing ds with
  | nil =>
    cases ds with
    | nil => exact ⟨.nil, rfl⟩
    | cons d ds => exact absurd h.symm (blocksText_cons_ne_empty d ds)
  | cons b bs ih =>
    cases ds with
    | nil => exact absurd h (blocksText_cons_ne_empty b bs)
    | cons d ds =>
      have hb := hbs b List.mem_cons_self
      have hd := hds d List.mem_cons_self
      have hlist := congrArg String.toList h
      rw [toList_blocksText_cons, toList_blocksText_cons] at hlist
      obtain ⟨halike, htail⟩ := FieldClause.text_cut hb hd (spaced_tailText _ _)
        (spaced_tailText _ _) hlist
      have htail := String.toList_inj.mp htail
      cases bs with
      | nil =>
        cases ds with
        | nil => exact ⟨.cons halike .nil, rfl⟩
        | cons e ds => exact absurd htail.symm (tailText_cons_ne_empty _ e ds)
      | cons c bs =>
        cases ds with
        | nil => exact absurd htail (tailText_cons_ne_empty _ c bs)
        | cons e ds =>
          have hbs' : ∀ b ∈ c :: bs, b.1.Plain := fun a ha => hbs a (List.mem_cons_of_mem b ha)
          have hds' : ∀ d ∈ e :: ds, d.1.Plain := fun a ha => hds a (List.mem_cons_of_mem d ha)
          obtain ⟨hjoint, hrest⟩ := joint_cut (hbs' c List.mem_cons_self)
            (hds' e List.mem_cons_self) htail
          obtain ⟨hfields, hjoints⟩ := ih hbs' hds' hrest
          refine ⟨.cons halike hfields, ?_⟩
          rw [List.dropLast_cons_cons, List.dropLast_cons_cons, List.map_cons, List.map_cons,
            hjoint, hjoints]

end Layout

theorem Query.Plain.blocks {q : Query} (h : q.Plain) :
    ∀ b ∈ (Layout.of q.clauses).blocks, b.1.Plain := by
  intro b hb
  apply h
  rw [← Layout.fields_of]
  exact List.mem_map_of_mem hb

/-- Two runs with plain names whose queries have the same text end in queries that ask for the same,
whatever keys, strings and numbers they were given. -/
theorem Query.alike_of_render_eq {moves others : List Move} (hmoves : ∀ m ∈ moves, m.Plain)
    (hothers : ∀ m ∈ others, m.Plain)
    (h : (Query.empty.run moves).render = (Query.empty.run others).render) :
    List.Forall₂ FieldClause.Alike (fieldClauses (Query.empty.run moves).clauses)
      (fieldClauses (Query.empty.run others).clauses) ∧
    (Layout.of (Query.empty.run moves).clauses).joints =
      (Layout.of (Query.empty.run others).clauses).joints := by
  rw [render_eq, render_eq] at h
  have halike :=
    Layout.alike_of_blocksText_eq (plain_run hmoves).blocks (plain_run hothers).blocks h
  rw [← Layout.fields_of, ← Layout.fields_of]
  exact halike

/-- A search whose key and value try to pass for other clauses, with a refused substring in between
and a connective left over. -/
def injectingRun : List Move :=
  [.preset (.byMetadata "k\"] OR -x:" (.text "\" AND y>1")), .step (.connect .or),
    .step (.connect .and), .step (.contains (.field "name") true "ab"),
    .step (.compare "amount" true .greater (.float (.ofBits 0x7ff8000000000000))),
    .step (.connect .or)]

/-- Another way to the same text, with another double that is not a number. -/
def injectingRerun : List Move :=
  [.step (.connect .or), .step (.equals (.metadata "k\"] OR -x:") false (.text "\" AND y>1")),
    .step (.connect .or),
    .step (.compare "amount" true .greater (.float (.ofBits 0xfff0000000000001)))]

theorem Query.alike_of_injecting :
    (∀ m ∈ injectingRun, m.Plain) ∧ (∀ m ∈ injectingRerun, m.Plain) ∧
    (Query.empty.run injectingRun).render = (Query.empty.run injectingRerun).render ∧
    List.Forall₂ FieldClause.Alike (fieldClauses (Query.empty.run injectingRun).clauses)
      (fieldClauses (Query.empty.run injectingRerun).clauses) ∧
    (Layout.of (Query.empty.run injectingRun).clauses).joints =
      (Layout.of (Query.empty.run injectingRerun).clauses).joints := by
  have hrun : ∀ m ∈ injectingRun, m.Plain := by decide
  have hrerun : ∀ m ∈ injectingRerun, m.Plain := by decide
  have htext : (Query.empty.run injectingRun).render = (Query.empty.run injectingRerun).render := by
    decide
  exact ⟨hrun, hrerun, htext, Query.alike_of_render_eq hrun hrerun htext⟩

end FieldQuery
