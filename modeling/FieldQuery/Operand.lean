import FieldQuery.Binary32
import FieldQuery.CivilTime
import FieldQuery.Reason

/-!
# Operands

What a caller may give where a query needs a number or a value: integers of any machine width,
singles and doubles, civil times, texts, and optional arguments. An integer of a type that has no
more than 64 signed bits is converted as it is; every other one is checked, and refused if 64 signed
bits do not hold it. A civil time becomes its unix seconds.
-/

namespace FieldQuery

-- Powers are the built-in ones, whatever other structure is in scope.
attribute [local instance (high)] instPowNat

/-- A machine integer type. -/
structure IntegerKind where
  signed : Bool
  bits : Nat
  deriving DecidableEq, Repr

namespace IntegerKind

def Holds (k : IntegerKind) (v : Int) : Prop :=
  if k.signed then -2 ^ (k.bits - 1) ≤ v ∧ v < 2 ^ (k.bits - 1) else 0 ≤ v ∧ v < 2 ^ k.bits

instance (k : IntegerKind) (v : Int) : Decidable (k.Holds v) := by unfold Holds; infer_instance

/-- All integers of the type are integers of 64 signed bits. -/
def Narrow (k : IntegerKind) : Prop := if k.signed then k.bits ≤ 64 else k.bits < 64

instance (k : IntegerKind) : Decidable k.Narrow := by unfold Narrow; infer_instance

/-- Reads the decimal text of an integer of this type. A plus sign is allowed, a minus sign only
for a signed type. -/
def read? (k : IntegerKind) (text : List Char) : Option Int :=
  let (negative, digits) := match text with
    | '+' :: cs => (false, cs)
    | '-' :: cs => if k.signed then (true, cs) else (false, text)
    | _ => (false, text)
  if digits.isEmpty || !digits.all Char.isDigit then none
  else
    let v : Int := if negative then -(Numeral.value digits : Int) else Numeral.value digits
    if k.Holds v then some v else none

end IntegerKind

namespace Number

/-- The number of the lowest 64 bits of an integer. -/
def cast (v : Int) : Number := .integer (Int64.ofInt v)

/-- The number of an integer that may be too large. -/
def checked (v : Int) : Except Reason Number :=
  match ofInt? v with
  | some n => .ok n
  | none => .error (.outOfRange v)

end Number

inductive Operand where
  | integer (kind : IntegerKind) (value : Int)
  | double (value : Binary64)
  | single (value : Binary32)
  | time (value : CivilTime)
  deriving DecidableEq, Repr

namespace Operand

/-- Integers belong to their type and times exist. -/
def Valid : Operand → Prop
  | .integer kind v => kind.Holds v
  | .time t => t.Valid
  | _ => True

instance : (o : Operand) → Decidable o.Valid
  | .integer kind v => inferInstanceAs (Decidable (kind.Holds v))
  | .time t => inferInstanceAs (Decidable t.Valid)
  | .double _ => isTrue trivial
  | .single _ => isTrue trivial

def number : Operand → Except Reason Number
  | .integer kind v => if kind.Narrow then .ok (.cast v) else Number.checked v
  | .double x => .ok (.float x)
  | .single x => .ok (.float x.widen)
  | .time t => .ok (.cast t.unixSeconds)

end Operand

/-- An argument where a value is needed; it may be left out, or wrapped as present any number of
times. -/
inductive Argument where
  | absent
  | text (content : String)
  | operand (operand : Operand)
  | present (argument : Argument)
  deriving DecidableEq, Repr

def Argument.value : Argument → Except Reason Value
  | .absent => .ok .null
  | .text s => .ok (.text s)
  | .operand o => o.number.map .number
  | .present a => a.value

end FieldQuery
