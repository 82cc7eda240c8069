import FieldQuery.Clause.Image
import FieldQuery.Proofs.Runs
import FieldQuery.Query.Render

/-!
# Queries that compare equal

Doubles compare by the floating-point standard, so no NaN equals itself and the two zeros are equal.
All else compares by what it is. Hence two queries compare equal exactly when they have the same
normal form, in which every zero has lost its sign, and hold no NaN. From this comparing is
symmetric and transitive, and what is compared equal stays so under the same steps, which are
refused alike. Where no zero has a sign, queries that compare equal are the same query.
-/
namespace FieldQuery

namespace Binary64

def IsNegativeZero (x : Binary64) : Prop := x.negative = true ∧ x.rank = 0

instance (x : Binary64) : Decidable x.IsNegativeZero := inferInstanceAs (Decidable (_ ∧ _))

/-- The double with the sign of a zero taken away. -/
def normal (x : Binary64) : Binary64 := if x.rank = 0 then ⟨false, 0, by decide⟩ else x

theorem normal_eq_iff {x y : Binary64} :
    x.normal = y.normal ↔ x = y ∨ x.rank = 0 ∧ y.rank = 0 := by
  unfold normal
  by_cases hx : x.rank = 0
  · by_cases hy : y.rank = 0
    · simp [hx, hy]
    · have hne : x ≠ y := fun h => hy (h ▸ hx)
      have hne' : ⟨false, 0, by decide⟩ ≠ y := fun h => hy (h ▸ rfl)
      simp [hx, hy, hne, hne']
  · by_cases hy : y.rank = 0
    · have hne : x ≠ y := fun h => hx (h ▸ hy)
      have hne' : x ≠ ⟨false, 0, by decide⟩ := fun h => hx (h ▸ rfl)
      simp [hx, hy, hne, hne']
    · simp [hx, hy]

theorem normal_eq_self {x : Binary64} (h : ¬ x.IsNegativeZero) : x.normal = x := by
  obtain ⟨negative, rank, hrank⟩ := x
  unfold normal
  split
  · next hzero =>
    cases hzero
    cases negative with
    | false => rfl
    | true => exact absurd ⟨rfl, rfl⟩ h
  · rfl

theorem isNaN_of_rank_eq_zero {x : Binary64} (h : x.rank = 0) : x.isNaN = false := by
  rw [isNaN, h]
  rfl

theorem isNaN_normal (x : Binary64) : x.normal.isNaN = x.isNaN := by
  unfold normal
  split
  · next hzero => rw [isNaN_of_rank_eq_zero hzero, isNaN_of_rank_eq_zero rfl]
  · rfl

theorem same_iff {x y : Binary64} :
    x.same y = true ↔ x.normal = y.normal ∧ x.isNaN = false := by
  rw [normal_eq_iff]
  simp only [same, Bool.and_eq_true, Bool.or_eq_true, Bool.not_eq_true', decide_eq_true_eq]
  constructor
  · rintro ⟨⟨hx, -⟩, h⟩
    exact ⟨h, hx⟩
  · rintro ⟨h | h, hx⟩
    · exact ⟨⟨hx, h ▸ hx⟩, .inl h⟩
    · exact ⟨⟨hx, isNaN_of_rank_eq_zero h.2⟩, .inr h⟩

end Binary64

def Number.normal : Number → Number
  | .integer v => .integer v
  | .float x => .float x.normal

def Value.normal : Value → Value
  | .number n => .number n.normal
  | v => v

/-- The double that a value is, if it is one. -/
def Value.double? : Value → Option Binary64
  | .number (.float x) => some x
  | _ => none

namespace Clause

def normal : Clause → Clause
  | .field f => .field { f with value := f.value.normal }
  | .logical c => .logical c

def double? : Clause → Option Binary64
  | .field f => f.value.double?
  | .logical _ => none

end Clause

theorem Value.same_iff {v w : Value} :
    v.same w = true ↔ v.normal = w.normal ∧ ∀ x ∈ v.double?, x.isNaN = false := by
  rcases v with _ | (i | x) | s <;> rcases w with _ | (j | y) | t <;>
    simp [same, normal, Number.same, Number.normal, double?, Binary64.same_iff]

theorem Value.normal_eq_self {v : Value} (h : ∀ x ∈ v.double?, ¬ x.IsNegativeZero) :
    v.normal = v := by
  rcases v with _ | (i | x) | s
  · rfl
  · rfl
  · rw [normal, Number.normal, Binary64.normal_eq_self (h x rfl)]
  · rfl

namespace Clause

theorem same_iff {c d : Clause} :
    c.same d = true ↔ c.normal = d.normal ∧ ∀ x ∈ c.double?, x.isNaN = false := by
  cases c with
  | field f =>
    cases d with
    | field g => simp [same, FieldClause.same, normal, double?, Value.same_iff]; grind
    | logical _ => simp [same, normal]
  | logical c =>
    cases d with
    | field _ => simp [same, normal]
    | logical d => simp [same, normal, double?]

theorem normal_eq_self {c : Clause} (h : ∀ x ∈ c.double?, ¬ x.IsNegativeZero) : c.normal = c := by
  cases c with
  | field f => rw [normal, Value.normal_eq_self h]
  | logical c => rfl

/-- The doubles that the clauses of a list compare with, in order. -/
def doubles (cs : List Clause) : List Binary64 := cs.filterMap double?

theorem doubles_append (cs ds : List Clause) : doubles (cs ++ ds) = doubles cs ++ doubles ds :=
  List.filterMap_append

theorem forall_mem_doubles_cons {P : Binary64 → Prop} {c : Clause} {cs : List Clause} :
    (∀ x ∈ doubles (c :: cs), P x) ↔ (∀ x ∈ c.double?, P x) ∧ ∀ x ∈ doubles cs, P x := by
  rw [doubles, List.filterMap_cons]
  cases c.double? with
  | none => simp [doubles]
  | some x => simp [doubles]

theorem sameAll_iff {cs ds : List Clause} :
    sameAll cs ds = true ↔
      cs.map normal = ds.map normal ∧ ∀ x ∈ doubles cs, x.isNaN = false := by
  induction cs generalizing ds with
  | nil => cases ds <;> simp [sameAll, doubles]
  | cons c cs ih =>
    cases ds with
    | nil => simp [sameAll]
    | cons d ds =>
      rw [sameAll, Bool.and_eq_true, same_iff, ih, List.map_cons, List.map_cons, List.cons.injEq,
        forall_mem_doubles_cons]
      exact and_and_and_comm

theorem map_normal_eq_self {cs : List Clause} (h : ∀ x ∈ doubles cs, ¬ x.IsNegativeZero) :
    cs.map normal = cs := by
  induction cs with
  | nil => rfl
  | cons c cs ih =>
    rw [forall_mem_doubles_cons] at h
    rw [List.map_cons, normal_eq_self h.1, ih h.2]

theorem double?_normal (c : Clause) : c.normal.double? = c.double?.map Binary64.normal := by
  rcases c with ⟨field, operator, _ | (i | x) | s, negated⟩ | c <;> rfl

theorem doubles_map_normal (cs : List Clause) :
    doubles (cs.map normal) = (doubles cs).map Binary64.normal := by
  rw [doubles, doubles, List.filterMap_map, List.map_filterMap]
  exact congrArg (List.filterMap · cs) (funext double?_normal)

/-- Clauses with the same normal forms hold a NaN in the same places. -/
theorem map_isNaN_of_map_normal {cs ds : List Clause} (h : cs.map normal = ds.map normal) :
    (doubles cs).map Binary64.isNaN = (doubles ds).map Binary64.isNaN := by
  have hnormal : ∀ es, (doubles (es.map normal)).map Binary64.isNaN =
      (doubles es).map Binary64.isNaN := by
    intro es
    rw [doubles_map_normal, List.map_map]
    exact List.map_congr_left fun x _ => x.isNaN_normal
  rw [← hnormal cs, h, hnormal]

theorem isNaN_of_map_normal {cs ds : List Clause} (h : cs.map normal = ds.map normal)
    (hcs : ∀ x ∈ doubles cs, x.isNaN = false) : ∀ x ∈ doubles ds, x.isNaN = false := by
  have hmap := map_isNaN_of_map_normal h
  rw [← List.forall_mem_map (f := Binary64.isNaN) (P := (· = false))] at hcs ⊢
  rwa [← hmap]

end Clause

namespace Query

variable {p q r : Query}

theorem same_iff : p.same q = true ↔
    (p.clauses.map Clause.normal = q.clauses.map Clause.normal ∧
      ∀ x ∈ Clause.doubles p.clauses, x.isNaN = false) ∧ p.lock = q.lock := by
  rw [same, Bool.and_eq_true, Clause.sameAll_iff, decide_eq_true_eq]

theorem same_symm (h : p.same q = true) : q.same p = true := by
  obtain ⟨⟨hclauses, hnan⟩, hlock⟩ := same_iff.mp h
  exact same_iff.mpr ⟨⟨hclauses.symm, Clause.isNaN_of_map_normal hclauses hnan⟩, hlock.symm⟩

theorem same_trans (hpq : p.same q = true) (hqr : q.same r = true) : p.same r = true := by
  obtain ⟨⟨hclauses, hnan⟩, hlock⟩ := same_iff.mp hpq
  obtain ⟨⟨hclauses', -⟩, hlock'⟩ := same_iff.mp hqr
  exact same_iff.mpr ⟨⟨hclauses.trans hclauses', hnan⟩, hlock.trans hlock'⟩

theorem same_self_iff : p.same p = true ↔ ∀ x ∈ Clause.doubles p.clauses, x.isNaN = false := by
  rw [same_iff]
  exact ⟨fun h => h.1.2, fun h => ⟨⟨rfl, h⟩, rfl⟩⟩

/-- Without the negative zero, queries that compare equal are one and the same. -/
theorem eq_of_same (h : p.same q = true) (hp : ∀ x ∈ Clause.doubles p.clauses, ¬ x.IsNegativeZero)
    (hq : ∀ x ∈ Clause.doubles q.clauses, ¬ x.IsNegativeZero) : p = q := by
  obtain ⟨⟨hclauses, -⟩, hlock⟩ := same_iff.mp h
  rw [Clause.map_normal_eq_self hp, Clause.map_normal_eq_self hq] at hclauses
  cases p
  cases q
  cases hclauses
  cases hlock
  rfl

theorem length_of_same (h : p.same q = true) : p.length = q.length := by
  have hlength := congrArg List.length (same_iff.mp h).1.1
  rwa [List.length_map, List.length_map] at hlength

end Query

/-- The doubles among the operands of a step. -/
def Step.doubles (s : Step) : List Binary64 := Clause.doubles s.contribution

/-- Whether a step is refused depends on the lock alone. -/
theorem Step.obstacle?_congr {p q : Query} (h : p.lock = q.lock) (s : Step) :
    s.obstacle? p = s.obstacle? q := by
  have hconflict : p.conflict? = q.conflict? := by
    funext c
    rw [Query.conflict?, Query.conflict?, h]
  cases s <;> simp only [obstacle?, hconflict]

namespace Query

variable {p q : Query} {s : Step}

theorem refusal?_of_same (h : p.same q = true) (s : Step) : p.refusal? s = q.refusal? s := by
  rw [refusal?_eq, refusal?_eq, Step.obstacle?_congr (same_iff.mp h).2]

theorem same_effect (h : p.same q = true) (hs : ∀ x ∈ s.doubles, x.isNaN = false) :
    (s.effect p).same (s.effect q) = true := by
  by_cases hreset : s = .reset
  · subst hreset
    rfl
  · obtain ⟨⟨hclauses, hnan⟩, hlock⟩ := same_iff.mp h
    rw [Step.effect_of_ne_reset hreset, Step.effect_of_ne_reset hreset]
    refine same_iff.mpr ⟨⟨?_, ?_⟩, ?_⟩
    · rw [List.map_append, List.map_append, hclauses]
    · rw [Clause.doubles_append]
      exact List.forall_mem_append.mpr ⟨hnan, hs⟩
    · rw [hlock]

theorem same_after (h : p.same q = true) (hs : ∀ x ∈ s.doubles, x.isNaN = false) :
    (p.after s).same (q.after s) = true := by
  have hobstacle := Step.obstacle?_congr (same_iff.mp h).2 s
  cases ho : s.obstacle? q with
  | some reason =>
    rw [after_of_obstacle ho, after_of_obstacle (hobstacle.trans ho)]
    exact h
  | none =>
    rw [after_of_clear ho, after_of_clear (hobstacle.trans ho)]
    exact same_effect h hs

theorem same_follow (h : p.same q = true) {steps : List Step}
    (hsteps : ∀ s ∈ steps, ∀ x ∈ s.doubles, x.isNaN = false) :
    (p.follow steps).same (q.follow steps) = true := by
  induction steps generalizing p q with
  | nil => exact h
  | cons s steps ih =>
    obtain ⟨hs, hsteps⟩ := List.forall_mem_cons.mp hsteps
    exact ih (same_after h hs) hsteps

/-- The moves come down to the same steps on both queries. -/
theorem same_run (h : p.same q = true) {later : List Move}
    (hlater : ∀ m ∈ later, ∀ s ∈ m.steps, ∀ x ∈ s.doubles, x.isNaN = false) :
    (p.run later).same (q.run later) = true := by
  rw [run_eq_follow, run_eq_follow]
  apply same_follow h
  intro s hs
  obtain ⟨m, hm, hsm⟩ := List.mem_flatMap.mp hs
  rcases Move.mem_unfold hsm with rfl | hsm
  · exact List.forall_mem_nil _
  · exact hlater m hm s hsm

/-- Queries that compare equal have the same length and the same lock, refuse the same steps for the
same reasons, and compare equal again after any step, and after any run of moves, that is given no
NaN. If neither holds the negative zero, they are written alike and stored alike. Comparing is
symmetric and transitive, and a query equals itself exactly if it holds no NaN. -/
theorem same_sound :
    (∀ p q : Query, p.same q = true →
      p.length = q.length ∧ p.lock = q.lock ∧
      (∀ s : Step, p.refusal? s = q.refusal? s ∧
        ((∀ x ∈ s.doubles, x.isNaN = false) → (p.after s).same (q.after s) = true)) ∧
      (∀ later : List Move, (∀ m ∈ later, ∀ s ∈ m.steps, ∀ x ∈ s.doubles, x.isNaN = false) →
        (p.run later).same (q.run later) = true) ∧
      ((∀ x ∈ Clause.doubles p.clauses, ¬ x.IsNegativeZero) →
        (∀ x ∈ Clause.doubles q.clauses, ¬ x.IsNegativeZero) →
        p.render = q.render ∧ Clause.imageAll p.clauses = Clause.imageAll q.clauses)) ∧
    (∀ p q : Query, p.same q = true → q.same p = true) ∧
    (∀ p q r : Query, p.same q = true → q.same r = true → p.same r = true) ∧
    ∀ p : Query, p.same p = true ↔ ∀ x ∈ Clause.doubles p.clauses, x.isNaN = false := by
  refine ⟨?_, fun _ _ => same_symm, fun _ _ _ => same_trans, fun _ => same_self_iff⟩
  intro p q h
  refine ⟨length_of_same h, (same_iff.mp h).2, ?_, fun _ => same_run h, ?_⟩
  · intro s
    exact ⟨refusal?_of_same h s, same_after h⟩
  · intro hp hq
    have heq : p = q := eq_of_same h hp hq
    rw [heq]
    exact ⟨rfl, rfl⟩

/-- A range up to infinity, and the same range made of its parts. -/
theorem same_sound_of_range :
    let zero : Number := .float ⟨false, 0, by decide⟩
    let infinity : Number := .float ⟨false, Binary64.infinityRank, by decide⟩
    let p := Query.empty.run [.step (.between "a" true zero infinity)]
    let q := Query.empty.run [.step (.compare "a" true .greaterEqual zero), .step (.connect .and),
      .step (.compare "a" true .lesserEqual infinity)]
    p.same q = true ∧ (∀ x ∈ Clause.doubles p.clauses, ¬ x.IsNegativeZero) ∧
    (∀ x ∈ Clause.doubles q.clauses, ¬ x.IsNegativeZero) ∧
    p.render = q.render ∧ p.refusal? (.connect .or) = q.refusal? (.connect .or) ∧
    (p.after (.compare "b" false .lesser infinity)).same
      (q.after (.compare "b" false .lesser infinity)) = true := by
  intro zero infinity p q
  have hsame : p.same q = true := by decide
  have hp : ∀ x ∈ Clause.doubles p.clauses, ¬ x.IsNegativeZero := by decide
  have hq : ∀ x ∈ Clause.doubles q.clauses, ¬ x.IsNegativeZero := by decide
  obtain ⟨-, -, hsteps, -, htext⟩ := same_sound.1 p q hsame
  refine ⟨hsame, hp, hq, (htext hp hq).1, (hsteps _).1, (hsteps _).2 ?_⟩
  decide

/-- The zeros compare equal and are written differently. -/
example :
    let p := Query.empty.after (.compare "a" false .greater (.float ⟨false, 0, by decide⟩))
    let q := Query.empty.after (.compare "a" false .greater (.float ⟨true, 0, by decide⟩))
    p.same q = true ∧ p.render = "a>0" ∧ q.render = "a>-0" := by
  decide

end Query
end FieldQuery
