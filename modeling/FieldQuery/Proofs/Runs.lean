import FieldQuery.Preset
import FieldQuery.Proofs.Steps

/-!
# Runs

A run makes one move after the other and goes on after a refusal. A move is a step on the query at
hand, or puts a ready-made search in its place; a preset that is refused leaves the query at hand.

What every step keeps, every run keeps: presets are made of steps too, and a run with presets is one
of steps and resets.
-/
namespace FieldQuery

inductive Move where
  | step (step : Step)
  | preset (preset : Preset)

/-- The steps that a move may take. -/
def Move.steps : Move → List Step
  | .step s => [s]
  | .preset p => p.steps

/-- The steps that a move comes down to. A preset that is taken starts anew. -/
def Move.unfold : Move → List Step
  | .step s => [s]
  | .preset p => if p.query.isOk then .reset :: p.steps else []

theorem Move.mem_unfold {m : Move} {s : Step} (h : s ∈ m.unfold) : s = .reset ∨ s ∈ m.steps := by
  cases m with
  | step t => exact .inr h
  | preset p =>
    rw [unfold] at h
    split at h
    · exact List.mem_cons.mp h
    · cases h

namespace Query

def follow (q : Query) (steps : List Step) : Query := steps.foldl after q

def move (q : Query) : Move → Query
  | .step s => q.after s
  | .preset p =>
    match p.query with
    | .ok r => r
    | .error _ => q

def run (q : Query) (moves : List Move) : Query := moves.foldl move q

end Query

theorem Step.run_actAll_cons (s : Step) (steps : List Step) (q : Query) :
    (actAll (s :: steps)).run q =
      match s.obstacle? q with
      | some r => .error r q
      | none => (actAll steps).run (s.effect q) := by
  change (s.act >>= fun _ => actAll steps).run q = _
  rw [EStateM.run_bind, run_act]
  cases s.obstacle? q <;> rfl

/-- Steps that are all taken lead where a run of them leads. -/
theorem Step.eq_follow_of_actAll {steps : List Step} {q r : Query}
    (h : (Step.actAll steps).run q = .ok () r) : r = q.follow steps := by
  induction steps generalizing q with
  | nil => cases h; rfl
  | cons s steps ih =>
    rw [run_actAll_cons] at h
    cases hs : s.obstacle? q with
    | some reason => rw [hs] at h; cases h
    | none =>
      rw [hs] at h
      rw [ih h, Query.follow, Query.follow, List.foldl_cons, Query.after_of_clear hs]

theorem Preset.run_of_query {p : Preset} {q : Query} (h : p.query = .ok q) :
    (Step.actAll p.steps).run .empty = .ok () q := by
  unfold query at h
  cases hrun : (Step.actAll p.steps).run .empty with
  | error reason r => rw [hrun] at h; cases h
  | ok u r => rw [hrun] at h; cases h; rfl

theorem Preset.eq_follow_of_query {p : Preset} {r : Query} (h : p.query = .ok r) :
    r = Query.empty.follow p.steps :=
  Step.eq_follow_of_actAll (run_of_query h)

theorem Query.move_eq_follow (q : Query) (m : Move) : q.move m = q.follow m.unfold := by
  cases m with
  | step s => rfl
  | preset p =>
    cases hp : p.query with
    | error _ => simp [move, Move.unfold, hp, Except.isOk, Except.toBool, follow]
    | ok r =>
      have hreset : q.after .reset = .empty := rfl
      rw [move, Move.unfold, hp, Preset.eq_follow_of_query hp]
      simp [Except.isOk, Except.toBool, follow, hreset]

theorem Query.run_eq_follow (q : Query) (moves : List Move) :
    q.run moves = q.follow (moves.flatMap Move.unfold) := by
  induction moves generalizing q with
  | nil => rfl
  | cons m moves ih =>
    have hhead := move_eq_follow q m
    rw [run, List.foldl_cons, hhead]
    change run _ moves = _
    rw [ih, List.flatMap_cons, follow, follow, follow, List.foldl_append]

section Invariants
variable {P : Query → Prop}

theorem Query.follow_keeps {steps : List Step} {q : Query}
    (hstep : ∀ s ∈ steps, ∀ q, P q → P (q.after s)) (h : P q) : P (q.follow steps) :=
  List.foldlRecOn steps after h fun r hr s hs => hstep s hs r hr

theorem Query.move_keeps {m : Move} {q : Query} (hempty : P .empty)
    (hstep : ∀ s ∈ m.steps, ∀ q, P q → P (q.after s)) (h : P q) : P (q.move m) := by
  cases m with
  | step s => exact hstep s List.mem_cons_self q h
  | preset p =>
    cases hp : p.query with
    | error _ => simpa only [move, hp] using h
    | ok r =>
      have hr : P (Query.empty.follow p.steps) := Query.follow_keeps hstep hempty
      simpa only [move, hp, Preset.eq_follow_of_query hp] using hr

/-- What holds of the empty query and is kept by every step of a run holds after the run. -/
theorem Query.run_keeps {moves : List Move} (hempty : P .empty)
    (hstep : ∀ m ∈ moves, ∀ s ∈ m.steps, ∀ q, P q → P (q.after s)) : P (Query.empty.run moves) :=
  List.foldlRecOn moves move hempty fun _ hr m hm => move_keeps hempty (hstep m hm) hr

end Invariants
end FieldQuery
