import FieldQuery.Proofs.Derivation
import FieldQuery.Proofs.SingleConnective
import FieldQuery.Proofs.UniqueReading

/-!
# Conformance to the grammar

The text of a query is a query text of the grammar exactly when a connective stands between any two
neighbouring field clauses. Two field clauses without one are written with a bare space between
them, and no derivation can pass it: wherever the first clause ends in a derivation, it ends before
that space, and no field clause can be taken for the word that has to follow.

Keys and string values may be anything. Names have to be plain and numbers have to be integers, as
the grammar has no others.
-/
namespace FieldQuery

/-- A connective stands between any two field clauses: no two of them are adjacent. -/
def Separated (cs : List Clause) : Prop := ∀ f g, ¬ [Clause.field f, Clause.field g] <:+: cs

theorem separated_nil : Separated [] := by
  intro f g h
  simpa using h.length_le

theorem separated_logical (c : Connective) (cs : List Clause) :
    Separated (.logical c :: cs) ↔ Separated cs := by
  simp [Separated, List.infix_cons_iff]

theorem separated_field (f : FieldClause) (cs : List Clause) :
    Separated (.field f :: cs) ↔ (∀ g, cs.head? ≠ some (.field g)) ∧ Separated cs := by
  cases cs with
  | nil =>
    refine ⟨fun _ => ⟨by simp, separated_nil⟩, fun _ g h hinfix => ?_⟩
    simpa using hinfix.length_le
  | cons d cs =>
    simp only [Separated, List.infix_cons_iff (a := Clause.field f), List.cons_prefix_cons,
      List.nil_prefix, and_true, List.head?_cons, Option.some.injEq, ne_eq]
    constructor
    · intro h
      exact ⟨fun g hd => h f g (.inl ⟨rfl, hd.symm⟩), fun g g' hinfix => h g g' (.inr hinfix)⟩
    · rintro ⟨hhead, htail⟩ g g' (⟨-, hd⟩ | hinfix)
      · exact hhead g' hd.symm
      · exact htail g g' hinfix

namespace Layout

theorem mem_joints_of_field {f : FieldClause} {cs : List Clause} {j : Option Connective} :
    j ∈ (of (.field f :: cs)).joints ↔
      ((of cs).blocks ≠ [] ∧ j = (of cs).leading.head?) ∨ j ∈ (of cs).joints := by
  rw [of, joints, joints]
  cases (of cs).blocks with
  | nil => simp
  | cons b bs => simp

/-- The clauses start with a field clause when there is one and no connective leads. -/
theorem head?_eq_field_iff (cs : List Clause) :
    (∃ g, cs.head? = some (.field g)) ↔ (of cs).blocks ≠ [] ∧ none = (of cs).leading.head? := by
  cases cs with
  | nil => simp [of]
  | cons c cs =>
    cases c with
    | logical c => simp [of]
    | field f => simp [of]

theorem separated_iff (cs : List Clause) : Separated cs ↔ none ∉ (of cs).joints := by
  induction cs with
  | nil => simpa [of, joints] using separated_nil
  | cons c cs ih =>
    cases c with
    | logical c => exact (separated_logical c cs).trans ih
    | field f =>
      rw [separated_field, mem_joints_of_field, not_or, ← head?_eq_field_iff, ih, not_exists]

theorem logical_mem_of_mem_joints {cs : List Clause} {c : Connective}
    (h : some c ∈ (of cs).joints) : Clause.logical c ∈ cs := by
  obtain ⟨b, hb, hc⟩ := List.mem_map.mp h
  have hblock : Clause.logical c ∈ Clause.field b.1 :: b.2.map Clause.logical :=
    List.mem_cons_of_mem _ (List.mem_map_of_mem (List.mem_of_mem_head? hc))
  rw [← clauses_of cs, clauses]
  exact List.mem_append_right _ (List.mem_flatMap_of_mem (List.dropLast_subset _ hb) hblock)

end Layout

theorem spaced_nil : Spaced [] := by
  intro c hc
  cases hc

theorem spaced_cons (x : List Char) : Spaced (' ' :: x) := by
  intro c hc
  cases hc
  rfl

namespace Grammar

theorem exists_word_eq {word : String} (h : word ∈ ["AND", "OR"]) :
    ∃ c : Connective, word = c.word := by
  simp only [List.mem_cons, List.not_mem_nil, or_false] at h
  rcases h with rfl | rfl
  · exact ⟨.and, rfl⟩
  · exact ⟨.or, rfl⟩

theorem word_mem (c : Connective) : c.word ∈ ["AND", "OR"] := by
  cases c <;> decide

open Layout

variable {b : Block} {bs : List Block}

theorem joinedText_blocksText {c : Connective}
    (hclauses : ∀ d ∈ b :: bs, ClauseText d.1.text.toList)
    (hjoints : ∀ d ∈ (b :: bs).dropLast, d.2.head? = some c) :
    JoinedText c.word (blocksText (b :: bs)).toList := by
  induction bs generalizing b with
  | nil => exact .single (hclauses b List.mem_cons_self)
  | cons d bs ih =>
    have hrest : JoinedText c.word (blocksText (d :: bs)).toList :=
      ih (fun e he => hclauses e (List.mem_cons_of_mem b he))
        (fun e he => hjoints e (List.mem_cons_of_mem b he))
    rw [toList_blocksText_cons, hjoints b List.mem_cons_self, tailText, String.toList_append,
      toList_jointText]
    exact .join (hclauses b List.mem_cons_self) hrest

/-- A derivation goes clause by clause through the blocks, and meets a connective after each but the
last. -/
theorem JoinedText.none_notMem_joints {c : Connective}
    (hclauses : ∀ d ∈ b :: bs, ClauseText d.1.text.toList) (hplain : ∀ d ∈ b :: bs, d.1.Plain)
    (h : JoinedText c.word (blocksText (b :: bs)).toList) :
    none ∉ (b :: bs).dropLast.map fun d => d.2.head? := by
  induction bs generalizing b with
  | nil => exact List.not_mem_nil
  | cons d bs ih =>
    rw [toList_blocksText_cons] at h
    have hb := hclauses b List.mem_cons_self
    have hspaced := spaced_tailText b.2.head? (d :: bs)
    generalize htext : b.1.text.toList ++ (tailText b.2.head? (d :: bs)).toList = text at h
    cases h with
    | single hcs =>
      -- The derivation is at its end, but a further clause follows.
      rw [← List.append_nil text] at htext
      have htail := (hb.cut hcs hspaced spaced_nil htext).2
      exact absurd (String.toList_eq_nil_iff.mp htail) (tailText_cons_ne_empty _ d bs)
    | join hcs hds =>
      have htail := (hb.cut hcs hspaced (spaced_cons _) htext).2
      rw [tailText, String.toList_append, toList_jointText] at htail
      have hjoint := (List.cons.inj htail).2
      cases hhead : b.2.head? with
      | none =>
        rw [hhead, toList_blocksText_cons] at hjoint
        have hd := hplain d (List.mem_cons_of_mem b List.mem_cons_self)
        exact absurd hjoint (FieldClause.text_ne_word hd c _ _)
      | some e =>
        rw [hhead] at hjoint
        obtain ⟨rfl, hrest⟩ := word_cut hjoint
        rw [← hrest] at hds
        have hlater := ih (fun a ha => hclauses a (List.mem_cons_of_mem b ha))
          (fun a ha => hplain a (List.mem_cons_of_mem b ha)) hds
        rw [List.dropLast_cons_cons, List.map_cons, hhead]
        exact List.not_mem_cons_of_ne_of_not_mem (Option.some_ne_none e).symm hlater

end Grammar

namespace Query

variable {q : Query}

theorem Settled.head?_of_separated (h : q.Settled) (hsep : Separated q.clauses) :
    ∀ b ∈ (Layout.of q.clauses).blocks.dropLast, b.2.head? = some (q.lock.getD .and) := by
  intro b hb
  have hjoint : b.2.head? ∈ (Layout.of q.clauses).joints := List.mem_map_of_mem hb
  cases hhead : b.2.head? with
  | none =>
    rw [hhead] at hjoint
    exact absurd hjoint ((Layout.separated_iff _).mp hsep)
  | some c =>
    rw [hhead] at hjoint
    have hlock := h.lock_eq_some_iff.mpr (Layout.logical_mem_of_mem_joints hjoint)
    rw [hlock, Option.getD_some]

/-- A query with one kind of connective is written as the grammar has it exactly when its clauses
are separated. -/
theorem Settled.queryText_iff (h : q.Settled) (hplain : q.Plain)
    (hvalues : ∀ f ∈ fieldClauses q.clauses, f.value.Integral) :
    Grammar.QueryText q.render.toList ↔ Separated q.clauses := by
  have hclauses : ∀ b ∈ (Layout.of q.clauses).blocks, Grammar.ClauseText b.1.text.toList := by
    intro b hb
    have hmem : b.1 ∈ fieldClauses q.clauses := by
      rw [← Layout.fields_of]
      exact List.mem_map_of_mem hb
    exact Grammar.clauseText_text (hplain b.1 hmem) (hvalues b.1 hmem)
  have hplain := hplain.blocks
  have hsep := Layout.separated_iff q.clauses
  rw [Layout.joints] at hsep
  rw [render_eq, Layout.text, hsep]
  cases hblocks : (Layout.of q.clauses).blocks with
  | nil => exact ⟨fun _ => List.not_mem_nil, fun _ => .empty⟩
  | cons b bs =>
    rw [hblocks] at hclauses hplain
    constructor
    · intro hderived
      generalize htext : (Layout.blocksText (b :: bs)).toList = text at hderived
      cases hderived with
      | empty =>
        exact absurd (String.toList_eq_nil_iff.mp htext) (Layout.blocksText_cons_ne_empty b bs)
      | joined hword hjoined =>
        obtain ⟨c, rfl⟩ := Grammar.exists_word_eq hword
        rw [← htext] at hjoined
        exact hjoined.none_notMem_joints hclauses hplain
    · intro hjoints
      rw [← hblocks, ← hsep] at hjoints
      have hhead := h.head?_of_separated hjoints
      rw [hblocks] at hhead
      exact .joined (Grammar.word_mem _) (Grammar.joinedText_blocksText hclauses hhead)

/-- After every run with plain names and integers, whatever the keys and strings, the text of the
query is one the grammar derives exactly when no two field clauses are adjacent. -/
theorem queryText_render_iff {moves : List Move} (hplain : (Query.empty.run moves).Plain)
    (hvalues : ∀ f ∈ fieldClauses (Query.empty.run moves).clauses, f.value.Integral) :
    Grammar.QueryText (Query.empty.run moves).render.toList ↔
      Separated (Query.empty.run moves).clauses :=
  (Settled.run moves).queryText_iff hplain hvalues

/-- Adjacent clauses, the first of which spells out a connective and a clause after it. -/
def adjacentRun : List Move :=
  [.step (.equals (.metadata "k\"]:") true (.text "x\" AND y:\"z\\")),
    .step (.compare "amount" false .lesserEqual (.integer (-5)))]

/-- The same clauses with connectives around and between them. -/
def separatedRun : List Move :=
  [.step (.connect .or), .step (.equals (.metadata "k\"]:") true (.text "x\" AND y:\"z\\")),
    .step (.connect .or), .step (.connect .or), .step (.connect .and),
    .step (.compare "amount" false .lesserEqual (.integer (-5))), .step (.connect .or)]

theorem queryText_render_iff_of_adjacent_separated :
    ((Query.empty.run adjacentRun).Plain ∧
      (∀ f ∈ fieldClauses (Query.empty.run adjacentRun).clauses, f.value.Integral) ∧
      ¬ Grammar.QueryText (Query.empty.run adjacentRun).render.toList) ∧
    (Query.empty.run separatedRun).Plain ∧
      (∀ f ∈ fieldClauses (Query.empty.run separatedRun).clauses, f.value.Integral) ∧
      Grammar.QueryText (Query.empty.run separatedRun).render.toList := by
  have hplain : (Query.empty.run adjacentRun).Plain := plain_run (by decide)
  have hplain' : (Query.empty.run separatedRun).Plain := plain_run (by decide)
  have hvalues : ∀ f ∈ fieldClauses (Query.empty.run adjacentRun).clauses, f.value.Integral := by
    decide
  have hvalues' : ∀ f ∈ fieldClauses (Query.empty.run separatedRun).clauses, f.value.Integral := by
    decide
  refine ⟨⟨hplain, hvalues, ?_⟩, hplain', hvalues', ?_⟩
  · intro hderived
    exact (queryText_render_iff hplain hvalues).mp hderived _ _ (List.infix_refl _)
  · apply (queryText_render_iff hplain' hvalues').mpr
    rw [Layout.separated_iff]
    decide

end Query
end FieldQuery
