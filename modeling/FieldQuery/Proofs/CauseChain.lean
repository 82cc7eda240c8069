import FieldQuery.Fault
import Mathlib.Data.List.Basic

/-!
# The views of a chain of faults

A chain of faults can be followed from cause to cause, told by its messages one after the other, or
shown for debugging. All views tell the same faults in the same order, from whichever fault of the
chain one begins, and all end with the innermost one. Its stack trace is the only one that is shown.
-/
namespace FieldQuery.Fault

/-- The kind and the message of each fault of a chain, outermost first. -/
def links (f : Fault) : List (Kind × String) := (f :: f.causes).map fun g => (g.kind, g.message)

/-- The fault that is reached from a fault in a number of steps. -/
def walk (next : Fault → Option Fault) : ℕ → Fault → Option Fault
  | 0, f => some f
  | steps + 1, f => (next f).bind (walk next steps)

theorem links_caused (k : Kind) (m : String) (f : Fault) :
    (caused k m f).links = (k, m) :: f.links := rfl

theorem links_ofChain (k : Kind) (m : String) (rest : List (Kind × String)) :
    (ofChain k m rest).links = (k, m) :: rest := by
  induction rest generalizing k m with
  | nil => rfl
  | cons link rest ih => rw [ofChain, links_caused, ih]

theorem map_message_causes (f : Fault) : f.causes.map message = f.links.tail.map Prod.snd := by
  rw [links, List.map_cons, List.tail_cons, List.map_map]
  rfl

theorem source?_eq_cause? : source? = cause? := by
  funext f
  cases f <;> rfl

/-- Following the causes visits the faults of the chain, and then there is none. -/
theorem walk_cause? (steps : ℕ) (f : Fault) : walk cause? steps f = (f :: f.causes)[steps]? := by
  induction f generalizing steps with
  | plain k m => cases steps <;> rfl
  | caused k m f ih =>
    cases steps with
    | zero => rfl
    | succ steps => exact ih steps

/-- The chain of a fault on the way is what is left of the whole chain. -/
theorem drop_of_walk {steps : ℕ} {f g : Fault} (h : walk cause? steps f = some g) :
    (f :: f.causes).drop steps = g :: g.causes := by
  induction f generalizing steps with
  | plain k m =>
    cases steps with
    | zero => cases h; rfl
    | succ steps => cases h
  | caused k m f ih =>
    cases steps with
    | zero => cases h; rfl
    | succ steps => exact ih h

theorem trace_eq (f : Fault) :
    f.trace = "\nCaused by: ".intercalate (f.links.map Prod.snd) ++ "\n" := by
  induction f with
  | plain k m => rfl
  | caused k m f ih =>
    have hne : f.links.map Prod.snd ≠ [] := List.cons_ne_nil _ _
    rw [trace, ih, links_caused, List.map_cons, String.intercalate_cons_of_ne_nil hne,
      ← String.append_assoc]

theorem debug_eq (stack : ℕ → String) (f : Fault) :
    f.debug stack = f.trace ++ stack f.causes.length := by
  induction f generalizing stack with
  | plain k m => rfl
  | caused k m f ih =>
    rw [debug, ih, trace, ← String.append_assoc]
    rfl

theorem copy_eq (f : Fault) : f.copy = f := by
  induction f with
  | plain k m => rfl
  | caused k m f ih => rw [copy, ih]

/-- Take the chain with the given kinds and messages. Following it from cause to cause, in either
way, visits these kinds and messages in order, and ends after as many steps as there are causes. The
debugging text of any fault on the way is its message and those after it, each but the first on a
line that says it is a cause, and then the stack trace of the innermost fault and no other. A copy
of the chain is the same chain. -/
theorem ofChain_views (k : Kind) (m : String) (rest : List (Kind × String)) (stack : ℕ → String) :
    let f := ofChain k m rest
    let chain := (k, m) :: rest
    (∀ steps, (walk source? steps f).map (fun g => (g.kind, g.message)) = chain[steps]?) ∧
    (∀ steps, (walk cause? steps f).map (fun g => (g.kind, g.message)) = chain[steps]?) ∧
    f.causes.map message = rest.map Prod.snd ∧
    (∀ steps g, walk source? steps f = some g →
      g.trace = "\nCaused by: ".intercalate ((chain.drop steps).map Prod.snd) ++ "\n" ∧
      g.debug (fun depth => stack (steps + depth)) = g.trace ++ stack rest.length) ∧
    f.copy = f := by
  intro f chain
  have hlinks : f.links = chain := links_ofChain k m rest
  have hvisit : ∀ steps,
      (walk cause? steps f).map (fun g => (g.kind, g.message)) = chain[steps]? := by
    intro steps
    rw [walk_cause?, ← List.getElem?_map, ← hlinks, links]
  have hcauses : f.causes.map message = rest.map Prod.snd := by
    rw [map_message_causes, hlinks, List.tail_cons]
  have hlength : f.causes.length = rest.length := by
    simpa using congrArg List.length hcauses
  rw [source?_eq_cause?]
  refine ⟨hvisit, hvisit, hcauses, ?_, f.copy_eq⟩
  intro steps g hg
  have hdrop := drop_of_walk hg
  constructor
  · have hrest : g.links = chain.drop steps := by
      rw [links, ← hdrop, ← hlinks, links, List.map_drop]
    rw [trace_eq, hrest]
  · have hdepth : steps + g.causes.length = rest.length := by
      have hcount := congrArg List.length hdrop
      rw [List.length_drop, List.length_cons, List.length_cons] at hcount
      omega
    rw [debug_eq, hdepth]

end FieldQuery.Fault
