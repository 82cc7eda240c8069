/-!
# Faults

A fault is what a caller is told when something is refused: a kind, a message, and possibly the
fault that caused it. A chain of faults has three views that belong together: the causes one after
the other, the message of each, and a trace of all messages.
-/

namespace FieldQuery

inductive Fault.Kind where
  | substringTooShort | mixedConnective | numberOutOfRange | invalidClause
  deriving DecidableEq, Repr

def Fault.Kind.label : Fault.Kind → String
  | .substringTooShort => "Substring too short"
  | .mixedConnective => "Mixed connective"
  | .numberOutOfRange => "Number out of range"
  | .invalidClause => "Invalid clause"

inductive Fault where
  | plain (kind : Fault.Kind) (message : String)
  | caused (kind : Fault.Kind) (message : String) (cause : Fault)
  deriving DecidableEq, Repr

namespace Fault

def kind : Fault → Kind
  | .plain k _ => k
  | .caused k _ _ => k

def message : Fault → String
  | .plain _ m => m
  | .caused _ m _ => m

def cause? : Fault → Option Fault
  | .plain _ _ => none
  | .caused _ _ f => some f

/-- The cause as a report asks for it, which knows no more of a fault than that it may have one. -/
def source? (f : Fault) : Option Fault :=
  match f with
  | .caused _ _ cause => some cause
  | .plain _ _ => none

/-- The faults behind a fault, the nearest cause first. -/
def causes : Fault → List Fault
  | .plain _ _ => []
  | .caused _ _ f => f :: f.causes

/-- All messages, outermost first, each but the first on a line that says it is a cause. The line
after the last one is where a stack trace would begin. -/
def trace : Fault → String
  | .plain _ m => m ++ "\n"
  | .caused _ m f => m ++ "\nCaused by: " ++ f.trace

/-- The text that is shown for debugging. Each fault keeps the stack trace of the place where it was
raised, given here by its depth in the chain. A fault that has a cause leaves its own out. -/
def debug (stack : Nat → String) : Fault → String
  | .plain _ m => m ++ "\n" ++ stack 0
  | .caused _ m f => m ++ "\nCaused by: " ++ f.debug fun depth => stack (depth + 1)

/-- A second fault like the first, with a second cause like the first one's. -/
def copy : Fault → Fault
  | .plain k m => .plain k m
  | .caused k m f => .caused k m f.copy

/-- The chain of faults with the given kinds and messages, outermost first. -/
def ofChain (kind : Kind) (message : String) : List (Kind × String) → Fault
  | [] => .plain kind message
  | (k, m) :: rest => .caused kind message (ofChain k m rest)

end Fault

end FieldQuery
