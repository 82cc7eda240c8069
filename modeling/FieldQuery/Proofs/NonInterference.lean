import FieldQuery.Proofs.TwoRuns

/-!
# Given strings do not interfere

Two runs that differ in nothing but the metadata keys and the string values they are given, and in
which the same moves are taken, write texts with the same skeleton. What was given stands between
the quotes, all of it, in order and nothing else. No string can add a clause, take one away, or
change a connective, an operator or a negation.

The skeleton is that of the clauses, whose shapes both runs share. The contents of a text are those
of its clauses, and these go back to the steps that the run has on record.
-/
namespace FieldQuery

/-- The keys and the string values that a step is given. -/
def Step.strings : Step → List String
  | .equals subject _ value => subject.strings ++ value.strings
  | .contains subject _ fragment => subject.strings ++ [fragment]
  | .isNull subject _ => subject.strings
  | .compare _ _ _ _ => []
  | .between _ _ _ _ => []
  | .connect _ => []
  | .reset => []

/-- The strings that a scan finds in a clause. -/
def Clause.contents (c : Clause) : List String := (Scan.of c.text.toList).contents

theorem Clause.contents_logical (c : Connective) : contents (.logical c) = [] := by
  rw [contents, text, Connective.scan_word]

theorem FieldClause.contents_eq {s : Subject} (hname : ∀ name ∈ s.name?, '"' ∉ name.toList)
    (o : Operator) (v : Value) (negated : Bool) :
    Clause.contents (.field ⟨s.expression, o, v, negated⟩) = s.strings ++ v.strings := by
  rw [Clause.contents, Clause.text, scan_text hname rfl]

/-- Connectives hold no strings. -/
theorem Clause.flatMap_contents (cs : List Clause) :
    cs.flatMap contents = (fieldClauses cs).flatMap fun f => contents (.field f) := by
  induction cs with
  | nil => rfl
  | cons c cs ih =>
    cases c with
    | field f => rw [fieldClauses_field, List.flatMap_cons, List.flatMap_cons, ih]
    | logical c => rw [fieldClauses_logical, List.flatMap_cons, contents_logical, ih]; rfl

theorem Step.contents_contribution {s : Step} (h : s.Quoteless) :
    s.contribution.flatMap Clause.contents = s.strings := by
  rw [Clause.flatMap_contents]
  cases s with
  | equals subject negated value =>
    exact (List.append_nil _).trans (FieldClause.contents_eq h _ _ _)
  | contains subject negated fragment =>
    exact (List.append_nil _).trans (FieldClause.contents_eq h _ _ _)
  | isNull subject negated =>
    have hcontents := FieldClause.contents_eq h .equals .null negated
    exact (List.append_nil _).trans (hcontents.trans (List.append_nil _))
  | compare name negated bound number =>
    exact (List.append_nil _).trans (FieldClause.contents_eq (s := .field name) h _ _ _)
  | between name negated least greatest =>
    have hbound : ∀ b n, Clause.contents (.field ⟨name, .range b, .number n, negated⟩) = [] :=
      fun _ _ => FieldClause.contents_eq (s := .field name) h _ _ _
    simp only [contribution, fieldClauses_field, fieldClauses_logical, fieldClauses_nil,
      List.flatMap_cons, List.flatMap_nil, hbound, strings, List.append_nil]
  | connect c => rfl
  | reset => rfl

namespace Query

theorem quoteless_record {moves : List Move} (h : ∀ m ∈ moves, m.Quoteless) :
    ∀ s ∈ record moves, s.Quoteless := by
  intro s hs
  obtain ⟨m, hm, hsm⟩ := exists_mem_steps_of_mem_record hs
  exact Move.quoteless_steps (h m hm) s hsm

theorem closed_run {moves : List Move} (h : ∀ m ∈ moves, m.Quoteless) :
    ∀ c ∈ (Query.empty.run moves).clauses, c.Closed := by
  rw [clauses_run]
  intro c hc
  obtain ⟨s, hs, hcs⟩ := List.mem_flatMap.mp hc
  exact Step.closed_contribution (quoteless_record h s hs) c hcs

theorem contents_run {moves : List Move} (h : ∀ m ∈ moves, m.Quoteless) :
    (Query.empty.run moves).clauses.flatMap Clause.contents =
      (record moves).flatMap Step.strings := by
  rw [clauses_run, List.flatMap_assoc]
  apply List.flatMap_congr
  intro s hs
  exact Step.contents_contribution (quoteless_record h s hs)

/-- A scan of the text finds the clauses that are written, one by one. -/
theorem scan_render {q : Query} (h : ∀ c ∈ q.clauses, c.Closed) :
    Scan.of q.render.toList =
      ⟨[' '].intercalate (((written q.clauses).map Clause.shape).map Prod.snd),
        q.clauses.flatMap Clause.contents, .outside⟩ := by
  have hclosed : ∀ t ∈ (written q.clauses).map Clause.text,
      (Scan.of t.toList).place = .outside := by
    intro t ht
    obtain ⟨c, hc, rfl⟩ := List.mem_map.mp ht
    exact h c ((written_sublist q.clauses).mem hc)
  have hscan := Scan.of_intercalate hclosed
  rw [List.map_map, List.flatMap_map] at hscan
  rw [List.map_map, Clause.flatMap_contents, ← fieldClauses_written, ← Clause.flatMap_contents]
  exact hscan

end Query

/-- The text with all its quoted strings emptied. -/
def skeleton (text : String) : String := String.ofList (Scan.of text.toList).skeleton

/-- The quoted strings of a text, unescaped. -/
def contents (text : String) : List String := (Scan.of text.toList).contents

/-- Take two runs of similar moves, with names that have no quotes in them and with the same moves
taken. Their texts have the same skeleton, and what a scan finds between the quotes of either text
are the keys and the strings that its run was given, in order. -/
theorem Query.skeleton_render_eq {moves others : List Move} (hnames : ∀ m ∈ moves, m.Quoteless)
    (hsimilar : List.Forall₂ Move.Similar moves others)
    (htaken : Query.empty.outcomes moves = Query.empty.outcomes others) :
    skeleton (Query.empty.run moves).render = skeleton (Query.empty.run others).render ∧
    contents (Query.empty.run moves).render = (record moves).flatMap Step.strings ∧
    contents (Query.empty.run others).render = (record others).flatMap Step.strings := by
  have hothers := Move.forall_quoteless_of_similar hsimilar hnames
  have hempty : Query.empty.SameShape .empty := ⟨rfl, rfl⟩
  have hshape := hempty.run hsimilar hnames htaken
  have hscan := scan_render (closed_run hnames)
  have hscan' := scan_render (closed_run hothers)
  refine ⟨?_, ?_, ?_⟩
  · rw [skeleton, skeleton, hscan, hscan', map_shape_written hshape.clauses]
  · rw [contents, hscan]
    exact contents_run hnames
  · rw [contents, hscan']
    exact contents_run hothers

/-- A run that is given harmless strings, and has a substring and a connective refused. The name has
a space and signs in it. -/
def harmlessRun : List Move :=
  [.preset (.byMetadata "order" (.text "paid")), .step (.connect .or),
    .step (.contains (.metadata "tag") true "ab"), .step (.connect .and),
    .step (.compare "a >b:" true .greaterEqual (.integer 5)),
    .step (.contains (.field "name") false "Jane")]

/-- The same run with strings that try to end where they should not, and to go on as a query. -/
def harmfulRun : List Move :=
  [.preset (.byMetadata "k\\\"]:null OR x" (.text "\\")), .step (.connect .or),
    .step (.contains (.metadata "\"") true "\"\\"), .step (.connect .and),
    .step (.compare "a >b:" true .greaterEqual (.integer 5)),
    .step (.contains (.field "name") false "\" AND -x:\"")]

theorem Query.skeleton_render_eq_of_harmful :
    (∀ m ∈ harmlessRun, m.Quoteless) ∧ List.Forall₂ Move.Similar harmlessRun harmfulRun ∧
    Query.empty.outcomes harmlessRun = Query.empty.outcomes harmfulRun ∧
    skeleton (Query.empty.run harmlessRun).render = skeleton (Query.empty.run harmfulRun).render ∧
    contents (Query.empty.run harmlessRun).render = ["order", "paid", "Jane"] ∧
    contents (Query.empty.run harmfulRun).render =
      ["k\\\"]:null OR x", "\\", "\" AND -x:\""] := by
  have hnames : ∀ m ∈ harmlessRun, m.Quoteless := by decide
  have hpreset : List.Forall₂ Step.Similar (Preset.byMetadata "order" (.text "paid")).steps
      (Preset.byMetadata "k\\\"]:null OR x" (.text "\\")).steps :=
    .cons (.equals false (.metadata _ _) (.text _ _)) .nil
  have hsimilar : List.Forall₂ Move.Similar harmlessRun harmfulRun :=
    .cons (.preset hpreset) <| .cons (.step (.connect _)) <|
      .cons (.step (.contains true _ _ (.metadata _ _))) <| .cons (.step (.connect _)) <|
      .cons (.step (.compare _ _ _ _)) <| .cons (.step (.contains false _ _ (.field _))) .nil
  have htaken : Query.empty.outcomes harmlessRun = Query.empty.outcomes harmfulRun := by decide
  obtain ⟨hskeleton, hcontents, hcontents'⟩ :=
    Query.skeleton_render_eq hnames hsimilar htaken
  refine ⟨hnames, hsimilar, htaken, hskeleton, hcontents.trans ?_, hcontents'.trans ?_⟩
  · decide
  · decide

end FieldQuery
