import FieldQuery.Proofs.Decoding
import FieldQuery.Proofs.Growth
import FieldQuery.Proofs.History

/-!
# What ready-made searches deliver

A preset is refused for nothing but a fragment that is too short, and then tells so in its own
words, with the refusal of the search itself as the cause. The connectives in a preset never meet an
obstacle, because it uses the conjunction only and begins on an empty query. What a preset is asked
for stands in the text, with all strings as they were given, and nothing else does. A preset that
joins leaves the lock on the conjunction for good; the others leave it open.
-/
namespace FieldQuery

/-- The step brings no other connective than the conjunction. -/
def Step.Conjunctive (s : Step) : Prop := ∀ c ∈ s.connective?, c = .and

namespace Query

variable {q : Query} {s : Step}

theorem conflict?_and (h : q.lock ≠ some .or) : q.conflict? .and = none := if_neg h

theorem obstacle?_of_conjunctive (hs : s.Conjunctive) (hq : q.lock ≠ some .or)
    (hc : s.connective? ≠ none) : s.obstacle? q = none := by
  obtain ⟨c, hc⟩ := Option.ne_none_iff_exists'.mp hc
  rw [Step.obstacle?_of_connective hc, hs c hc]
  exact conflict?_and hq

theorem lock_after_ne_or (hs : s.Conjunctive) (hq : q.lock ≠ some .or) :
    (q.after s).lock ≠ some .or := by
  cases ho : s.obstacle? q with
  | some r => rwa [after_of_obstacle ho]
  | none =>
    rw [after_of_clear ho]
    by_cases hreset : s = .reset
    · rw [hreset]
      exact (Option.some_ne_none _).symm
    · rw [Step.effect_of_ne_reset hreset]
      intro hlock
      rcases Option.or_eq_some_iff.mp hlock with hlock | ⟨-, hlock⟩
      · exact hq hlock
      · cases hs .or hlock

/-- Steps that join by the conjunction only never lock a query on the disjunction. -/
theorem lock_follow_ne_or {steps : List Step} (h : ∀ s ∈ steps, s.Conjunctive)
    (hq : q.lock ≠ some .or) : (q.follow steps).lock ≠ some .or :=
  follow_keeps (P := fun r => r.lock ≠ some .or) (fun s hs _ => lock_after_ne_or (h s hs)) hq

end Query

/-- Steps that fail come to a halt at one of them, refused after the steps before it. -/
theorem Step.exists_of_actAll_error {steps : List Step} {q left : Query} {r : Reason}
    (h : (actAll steps).run q = .error r left) :
    ∃ before s after, steps = before ++ s :: after ∧ s.obstacle? (q.follow before) = some r := by
  induction steps generalizing q with
  | nil => cases h
  | cons s steps ih =>
    rw [run_actAll_cons] at h
    cases hs : s.obstacle? q with
    | some reason =>
      rw [hs] at h
      cases h
      exact ⟨[], s, steps, rfl, hs⟩
    | none =>
      rw [hs] at h
      obtain ⟨before, t, after, rfl, ht⟩ := ih h
      refine ⟨s :: before, t, after, rfl, ?_⟩
      rwa [Query.follow, List.foldl_cons, Query.after_of_clear hs]

namespace Preset

/-- What a preset searches for. -/
def comparisons : Preset → List Comparison
  | .customerByEmail email => [⟨false, .field "email", .equals, .text email⟩]
  | .customersByName fragment => [⟨false, .field "name", .contains, .text fragment⟩]
  | .chargesWithStatusSince status since =>
    [⟨false, .field "status", .equals, .text status⟩,
      ⟨false, .field "created", .range .greaterEqual, .number since.text⟩]
  | .chargesOverAmount amount currency =>
    [⟨false, .field "amount", .range .greater, .number amount.text⟩,
      ⟨false, .field "currency", .equals, .text currency⟩]
  | .paymentIntentsByMetadata key value => [⟨false, .metadata key, .equals, value.shown⟩]
  | .invoicesWithStatusBetween status start finish =>
    [⟨false, .field "status", .equals, .text status⟩,
      ⟨false, .field "created", .range .greaterEqual, .number start.text⟩,
      ⟨false, .field "created", .range .lesserEqual, .number finish.text⟩]
  | .subscriptionsWithStatus status => [⟨false, .field "status", .equals, .text status⟩]
  | .byMetadata key value => [⟨false, .metadata key, .equals, value.shown⟩]

theorem conjunctive_steps (p : Preset) : ∀ s ∈ p.steps, s.Conjunctive := by
  cases p <;> simp [steps, fieldEquals, Step.Conjunctive, Step.connective?]

/-- Only a search for a name looks for a fragment. -/
theorem eq_customersByName {p : Preset} {subject : Subject} {negated : Bool} {fragment : String}
    (h : .contains subject negated fragment ∈ p.steps) :
    p = .customersByName fragment ∧ subject = .field "name" ∧ negated = false := by
  cases p with
  | customersByName _ =>
    cases List.mem_singleton.mp h
    exact ⟨rfl, rfl, rfl⟩
  | _ => simp [steps, fieldEquals] at h

theorem reset_not_mem_steps (p : Preset) : .reset ∉ p.steps := by
  cases p <;> simp [steps, fieldEquals]

/-- No connective in a preset is refused. -/
theorem refusal?_of_connective {p : Preset} {before after : List Step} {s : Step}
    (h : p.steps = before ++ s :: after) (hs : s.connective? ≠ none) :
    (Query.empty.follow before).refusal? s = none := by
  have hsteps := p.conjunctive_steps
  rw [h, List.forall_mem_append, List.forall_mem_cons] at hsteps
  rw [Query.refusal?_eq]
  have hlock := Query.lock_follow_ne_or hsteps.1 (q := .empty) (Option.some_ne_none _).symm
  exact Query.obstacle?_of_conjunctive hsteps.2.1 hlock hs

theorem query_eq_error_iff {p : Preset} {f : Fault} :
    p.query = .error f ↔ ∃ fragment, p = .customersByName fragment ∧ fragment.length < 3 ∧
      f = p.fault (.shortSubstring "name") := by
  constructor
  · intro h
    unfold query at h
    cases hrun : (Step.actAll p.steps).run .empty with
    | ok u q => rw [hrun] at h; cases h
    | error r q =>
      rw [hrun] at h
      cases h
      obtain ⟨before, s, after, hsteps, hs⟩ := Step.exists_of_actAll_error hrun
      rcases Step.obstacle?_eq_some_iff.mp hs with
        ⟨subject, negated, fragment, rfl, hlt, rfl⟩ | ⟨c, hc, -, -⟩
      · have hmem : .contains subject negated fragment ∈ p.steps := by rw [hsteps]; simp
        obtain ⟨rfl, rfl, rfl⟩ := eq_customersByName hmem
        exact ⟨fragment, rfl, hlt, rfl⟩
      · have hclear := refusal?_of_connective hsteps (by rw [hc]; exact Option.some_ne_none c)
        rw [Query.refusal?_eq, hs] at hclear
        cases hclear
  · rintro ⟨fragment, rfl, hlt, rfl⟩
    have hobstacle : (Step.contains (.field Grammar.nameField) false fragment).obstacle? .empty =
        some (.shortSubstring "name") := if_pos hlt
    rw [query, steps, Step.run_actAll_cons, hobstacle]

theorem clauses_of_query {p : Preset} {q : Query} (h : p.query = .ok q) :
    q.clauses = p.steps.flatMap Step.contribution := by
  have hclauses := Step.clauses_of_actAll (run_of_query h) p.reset_not_mem_steps
  simpa [Query.empty] using hclauses

theorem eq_run_of_query {p : Preset} {q : Query} (h : p.query = .ok q) :
    q = Query.empty.run [.preset p] := by
  simp [Query.run, Query.move, h]

theorem makes_comparisons (p : Preset) :
    List.Forall₂ FieldClause.Makes (fieldClauses (p.steps.flatMap Step.contribution))
      p.comparisons := by
  cases p with
  | customerByEmail _ => exact .cons ⟨rfl, rfl, rfl, rfl⟩ .nil
  | customersByName _ => exact .cons ⟨rfl, rfl, rfl, rfl⟩ .nil
  | chargesWithStatusSince _ _ => exact .cons ⟨rfl, rfl, rfl, rfl⟩ (.cons ⟨rfl, rfl, rfl, rfl⟩ .nil)
  | chargesOverAmount _ _ => exact .cons ⟨rfl, rfl, rfl, rfl⟩ (.cons ⟨rfl, rfl, rfl, rfl⟩ .nil)
  | paymentIntentsByMetadata _ _ => exact .cons ⟨rfl, rfl, rfl, rfl⟩ .nil
  | invoicesWithStatusBetween _ _ _ =>
    exact .cons ⟨rfl, rfl, rfl, rfl⟩ (.cons ⟨rfl, rfl, rfl, rfl⟩ (.cons ⟨rfl, rfl, rfl, rfl⟩ .nil))
  | subscriptionsWithStatus _ => exact .cons ⟨rfl, rfl, rfl, rfl⟩ .nil
  | byMetadata _ _ => exact .cons ⟨rfl, rfl, rfl, rfl⟩ .nil

theorem plain_comparisons (p : Preset) : ∀ c ∈ p.comparisons, c.subject.Plain := by
  cases p <;> simp [comparisons, Subject.Plain] <;> decide

theorem joints_comparisons (p : Preset) :
    (Layout.of (p.steps.flatMap Step.contribution)).joints =
      p.comparisons.dropLast.map fun _ => some .and := by
  cases p <;> rfl

theorem connectives_comparisons (p : Preset) :
    connectives (p.steps.flatMap Step.contribution) = p.comparisons.tail.map fun _ => .and := by
  cases p <;> rfl

/-- A preset is refused only if it is the search for a name with a fragment of less than three
characters. The fault has the kind of its cause, the cause is the one that the search itself is
refused for, and the message says so after words of its own. The connectives in a preset are never
refused. The text of a preset that is taken decodes to what it searches for, joined by the
conjunction, with all strings as they were given. If there is anything to join, the disjunction is
refused from then on, whatever is added; if not, either connective may follow. -/
theorem query_delivers (p : Preset) :
    (∀ f, p.query = .error f ↔ ∃ fragment r, p = .customersByName fragment ∧ fragment.length < 3 ∧
      Query.empty.refusal? (.contains (.field "name") false fragment) = some r ∧
      f.kind = r.fault.kind ∧ f.cause? = some r.fault ∧
      f.message = "Preset customers_by_name rejected its input: " ++ r.fault.message) ∧
    (∀ before s after, p.steps = before ++ s :: after → s.connective? ≠ none →
      (Query.empty.follow before).refusal? s = none) ∧
    ∀ q, p.query = .ok q →
      decode q.render = some (p.comparisons, p.comparisons.dropLast.map fun _ => some .and) ∧
      (1 < p.comparisons.length → ∀ later : List Move, (∀ m ∈ later, .reset ∉ m.unfold) →
        (q.run later).refusal? (.connect .or) = some (.mixedConnective .or .and)) ∧
      (p.comparisons.length = 1 → q.lock = none ∧ ∀ c, q.refusal? (.connect c) = none) := by
  refine ⟨?_, ?_, ?_⟩
  · intro f
    rw [query_eq_error_iff]
    constructor
    · rintro ⟨fragment, rfl, hlt, rfl⟩
      refine ⟨fragment, .shortSubstring "name", rfl, hlt, ?_, rfl, rfl, rfl⟩
      rw [Query.refusal?_eq]
      exact if_pos hlt
    · rintro ⟨fragment, r, rfl, hlt, hr, hkind, hcause, hmessage⟩
      have hshort : some (Reason.shortSubstring "name") = some r := by
        rw [← hr, Query.refusal?_eq]
        exact (if_pos hlt).symm
      cases hshort
      refine ⟨fragment, rfl, hlt, ?_⟩
      cases f with
      | plain _ _ => cases hcause
      | caused kind message cause =>
        cases hkind
        cases hcause
        cases hmessage
        rfl
  · intro before s after hsteps hs
    exact refusal?_of_connective hsteps hs
  · intro q hq
    have hclauses := clauses_of_query hq
    refine ⟨?_, ?_, ?_⟩
    · have hmakes := p.makes_comparisons
      have hjoints := p.joints_comparisons
      rw [← hclauses] at hmakes hjoints
      rw [Query.decode_render hmakes p.plain_comparisons, hjoints]
    · intro hlength later hlater
      have hmem : .logical .and ∈ q.clauses := by
        have htail : 0 < p.comparisons.tail.length := by rw [List.length_tail]; omega
        obtain ⟨c, hc⟩ := List.exists_mem_of_length_pos htail
        rw [← mem_connectives, hclauses, connectives_comparisons]
        exact List.mem_map_of_mem hc
      have hkept := (Query.clauses_isPrefix_run hlater q).subset hmem
      have hsettled : (q.run later).Settled := by
        rw [eq_run_of_query hq]
        exact Query.Settled.run (.preset p :: later)
      exact (hsettled.refusal?_of_connective (s := .connect .or) (c := .or) rfl).mpr ⟨hkept, rfl⟩
    · intro hlength
      have hnone : connectives q.clauses = [] := by
        have htail : p.comparisons.tail = [] :=
          List.eq_nil_of_length_eq_zero (by rw [List.length_tail, hlength])
        rw [hclauses, connectives_comparisons, htail]
        rfl
      have hsettled : q.Settled := by
        rw [eq_run_of_query hq]
        exact Query.Settled.run [.preset p]
      have hlock : q.lock = none := by rw [hsettled.lock_eq, hnone]; rfl
      refine ⟨hlock, fun c => ?_⟩
      rw [Query.refusal?_eq]
      exact if_neg (by rw [hlock]; exact (Option.some_ne_none _).symm)

/-- A preset with a string that tries to go on as a query, and steps after it that try to get to the
disjunction. -/
theorem query_delivers_hostile :
    let p := Preset.invoicesWithStatusBetween "\" OR -x:\"" (.integer 1) (.integer 2)
    ∃ q, p.query = .ok q ∧
      decode q.render = some (p.comparisons, [some .and, some .and]) ∧
      (q.run [.step (.connect .or), .step (.isNull (.metadata "\"] OR y") true)]).refusal?
        (.connect .or) = some (.mixedConnective .or .and) := by
  intro p
  obtain ⟨q, hq⟩ : ∃ q, p.query = .ok q := ⟨_, rfl⟩
  obtain ⟨hdecode, hlock, -⟩ := p.query_delivers.2.2 q hq
  exact ⟨q, hq, hdecode, hlock (by decide) _ (by decide)⟩

end Preset

end FieldQuery
