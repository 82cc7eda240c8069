import FieldQuery.Clause.Image
import FieldQuery.Json.Lexer
import FieldQuery.Reason

/-!
# Reading clauses from JSON

Each kind of value is read from the front of a list of tokens. More than the stored form is
accepted: the members of a field clause may come in any order with unknown members among them, a
field clause may be an array of its four parts, and a choice without content may be an object whose
one member is null.

A field clause is checked when its last bracket has been read, before anything after it is looked
at. So of several problems the first in reading order is reported: either a refusal by the rules for
clauses, or that the text does not have the form.
-/

namespace FieldQuery

/-- Why nothing was read. -/
inductive Problem where
  | malformed
  | refused (reason : Reason)
  deriving DecidableEq, Repr

/-- What was read from the front of the tokens, and the tokens that follow. -/
abbrev Reading (α : Type) := Except Problem (α × List Token)

namespace Reader

variable {α : Type}

/-- Goes on with a value that may be missing. -/
def found (value : Option α) (rest : List Token) : Reading α :=
  match value with
  | some v => .ok (v, rest)
  | none => .error .malformed

/-- Expects the end of an object after its only member. -/
def closing (reading : Reading α) : Reading α :=
  match reading with
  | .ok (v, .closeObject :: rest) => .ok (v, rest)
  | .ok _ => .error .malformed
  | .error p => .error p

def text : List Token → Reading String
  | .text (some s) :: rest => .ok (s, rest)
  | _ => .error .malformed

def flag : List Token → Reading Bool
  | .bool b :: rest => .ok (b, rest)
  | _ => .error .malformed

/-- A choice without content. -/
def named (choice : String → Option α) : List Token → Reading α
  | .text (some name) :: rest => found (choice name) rest
  | .openObject :: .text (some name) :: .colon :: .null :: .closeObject :: rest =>
    found (choice name) rest
  | _ => .error .malformed

def operatorOf? (name : String) : Option Operator :=
  if name = "Equals" then some .equals
  else if name = "Contains" then some .contains
  else if name = "Greater" then some (.range .greater)
  else if name = "Lesser" then some (.range .lesser)
  else if name = "GreaterEqual" then some (.range .greaterEqual)
  else if name = "LesserEqual" then some (.range .lesserEqual)
  else none

def connectiveOf? (name : String) : Option Connective :=
  if name = "And" then some .and else if name = "Or" then some .or else none

theorem operatorOf_name (o : Operator) : operatorOf? o.name = some o := by
  rcases o with _ | _ | b
  · rfl
  · rfl
  · cases b <;> rfl

theorem connectiveOf_name (c : Connective) : connectiveOf? c.name = some c := by
  cases c <;> rfl

def operator : List Token → Reading Operator := named operatorOf?

def connective : List Token → Reading Connective := named connectiveOf?

/-- An integer must be spelt as one and fit, a double may be any number that is in range. -/
def numberOf? (kind : String) (n : JsonNumber) : Option Number :=
  if kind = "Integer" then
    match n with
    | .integer v => Number.ofInt? v
    | .float _ => none
  else if kind = "Float" then n.double?.map .float
  else none

def number : List Token → Reading Number
  | .openObject :: .text (some kind) :: .colon :: .number (some n) :: .closeObject :: rest =>
    found (numberOf? kind n) rest
  | _ => .error .malformed

def value : List Token → Reading Value
  | .openObject :: .text (some kind) :: .colon :: rest =>
    closing <|
      if kind = "Null" then
        match rest with
        | .null :: rest => .ok (.null, rest)
        | _ => .error .malformed
      else if kind = "Number" then (number rest).map fun (n, rest) => (.number n, rest)
      else if kind = "String" then (text rest).map fun (s, rest) => (.text s, rest)
      else .error .malformed
  | .text (some name) :: rest => found (if name = "Null" then some .null else none) rest
  | _ => .error .malformed

/-- The rules for clauses decide when all four parts have been read. -/
def checked (c : FieldClause) (rest : List Token) : Reading FieldClause :=
  match c.check with
  | .ok () => .ok (c, rest)
  | .error r => .error (.refused r)

/-- The members of a field clause that have been read so far. -/
structure Draft where
  field : Option String
  operator : Option Operator
  value : Option Value
  negated : Option Bool
  deriving DecidableEq, Repr

def Draft.blank : Draft := ⟨none, none, none, none⟩

/-- The clause, when no member is missing. -/
def Draft.clause? (d : Draft) : Option FieldClause := do
  return ⟨← d.field, ← d.operator, ← d.value, ← d.negated⟩

/-- Fills one part of a draft, which must still be open. -/
def fill (slot : Option α) (reading : Reading α) (put : α → Draft) : Reading Draft :=
  if slot.isSome then .error .malformed else reading.map fun (v, rest) => (put v, rest)

/-- Reads the value of one member. What an unknown member holds is passed over. -/
def member (d : Draft) (key : String) (ts : List Token) : Reading Draft :=
  if key = "field" then fill d.field (text ts) fun v => { d with field := some v }
  else if key = "operator" then fill d.operator (operator ts) fun v => { d with operator := some v }
  else if key = "value" then fill d.value (value ts) fun v => { d with value := some v }
  else if key = "negated" then fill d.negated (flag ts) fun v => { d with negated := some v }
  else
    match Token.skip ts with
    | some rest => .ok (d, rest)
    | none => .error .malformed

/-- Tokens remain, but fewer than before. -/
def Shorter (r : Reading α) (n : Nat) : Prop := ∀ v rest, r = .ok (v, rest) → rest.length < n

theorem shorter_error (p : Problem) (n : Nat) : Shorter (.error p : Reading α) n := by
  intro v rest h
  cases h

theorem shorter_ok {v : α} {rest : List Token} {n : Nat} (h : rest.length < n) :
    Shorter (.ok (v, rest)) n := by
  intro w r e
  cases e
  exact h

theorem shorter_found {v : Option α} {rest : List Token} {n : Nat} (h : rest.length < n) :
    Shorter (found v rest) n := by
  cases v
  · exact shorter_error _ _
  · exact shorter_ok h

theorem Shorter.map {β : Type} {r : Reading α} {n : Nat} (h : Shorter r n) (f : α → β) :
    Shorter (Except.map (fun (v, rest) => (f v, rest)) r) n := by
  intro w rest e
  rcases r with p | ⟨v, rest'⟩
  · cases e
  · cases e
    exact h v rest rfl

theorem Shorter.mono {r : Reading α} {m n : Nat} (h : Shorter r m) (hm : m ≤ n) : Shorter r n :=
  fun v rest e => Nat.lt_of_lt_of_le (h v rest e) hm

theorem Shorter.closing {r : Reading α} {n : Nat} (h : Shorter r n) : Shorter (closing r) n := by
  unfold Reader.closing
  split
  · next v rest =>
    exact shorter_ok (Nat.lt_trans (Nat.lt_succ_self _) (by simpa using h v _ rfl))
  · exact shorter_error _ _
  · exact shorter_error _ _

theorem Shorter.fill {r : Reading α} {n : Nat} (h : Shorter r n) (slot : Option α)
    (put : α → Draft) : Shorter (fill slot r put) n := by
  unfold Reader.fill
  split
  · exact shorter_error _ _
  · exact h.map put

theorem shorter_text (ts : List Token) : Shorter (text ts) ts.length := by
  unfold text
  split
  · exact shorter_ok (by simp)
  · exact shorter_error _ _

theorem shorter_flag (ts : List Token) : Shorter (flag ts) ts.length := by
  unfold flag
  split
  · exact shorter_ok (by simp)
  · exact shorter_error _ _

theorem shorter_named (choice : String → Option α) (ts : List Token) :
    Shorter (named choice ts) ts.length := by
  unfold named
  split
  · exact shorter_found (by simp)
  · exact shorter_found (by simp; omega)
  · exact shorter_error _ _

theorem shorter_number (ts : List Token) : Shorter (number ts) ts.length := by
  unfold number
  split
  · exact shorter_found (by simp; omega)
  · exact shorter_error _ _

theorem shorter_value (ts : List Token) : Shorter (value ts) ts.length := by
  unfold value
  split
  · next kind rest =>
    refine Shorter.closing ?_
    split
    · split
      · exact shorter_ok (by simp; omega)
      · exact shorter_error _ _
    · split
      · exact ((shorter_number rest).mono (by simp; omega)).map _
      · split
        · exact ((shorter_text rest).mono (by simp; omega)).map _
        · exact shorter_error _ _
  · exact shorter_found (by simp)
  · exact shorter_error _ _

theorem shorter_member (d : Draft) (key : String) (ts : List Token) :
    Shorter (member d key ts) ts.length := by
  unfold member
  repeat' split
  · exact (shorter_text ts).fill _ _
  · exact (shorter_named _ ts).fill _ _
  · exact (shorter_value ts).fill _ _
  · exact (shorter_flag ts).fill _ _
  · next h => exact shorter_ok (Token.length_skip h)
  · exact shorter_error _ _

/-- Reads members up to the end of the object, beginning at a name. -/
def members (d : Draft) (ts : List Token) : Reading FieldClause :=
  match ts with
  | .text (some key) :: .colon :: rest =>
    match _h : member d key rest with
    | .ok (d, .comma :: rest) => members d rest
    | .ok (d, .closeObject :: rest) =>
      match d.clause? with
      | some c => checked c rest
      | none => .error .malformed
    | .ok _ => .error .malformed
    | .error p => .error p
  | _ => .error .malformed
termination_by ts.length
decreasing_by
  have := shorter_member _ _ _ _ _ _h
  simp at this ⊢
  omega

/-- Expects a comma between two parts of an array. -/
def comma (reading : Reading α) : Reading α :=
  match reading with
  | .ok (v, .comma :: rest) => .ok (v, rest)
  | .ok _ => .error .malformed
  | .error p => .error p

/-- Reads the four parts of a field clause up to the end of the array. -/
def parts (ts : List Token) : Except Problem (FieldClause × List Token) := do
  let (field, ts) ← comma (text ts)
  let (operator, ts) ← comma (operator ts)
  let (value, ts) ← comma (value ts)
  let (negated, ts) ← flag ts
  match ts with
  | .closeArray :: rest => checked ⟨field, operator, value, negated⟩ rest
  | _ => .error .malformed

def fieldClause : List Token → Reading FieldClause
  | .openObject :: rest => members .blank rest
  | .openArray :: rest => parts rest
  | _ => .error .malformed

def clause : List Token → Reading Clause
  | .openObject :: .text (some kind) :: .colon :: rest =>
    closing <|
      if kind = "Field" then (fieldClause rest).map fun (c, rest) => (.field c, rest)
      else if kind = "Logical" then (connective rest).map fun (c, rest) => (.logical c, rest)
      else .error .malformed
  | _ => .error .malformed

theorem shorter_checked (c : FieldClause) {rest : List Token} {n : Nat} (h : rest.length < n) :
    Shorter (checked c rest) n := by
  unfold checked
  split
  · exact shorter_ok h
  · exact shorter_error _ _

theorem shorter_members (d : Draft) (ts : List Token) : Shorter (members d ts) ts.length := by
  fun_induction members d ts with
  | case1 d key rest d' rest' h ih =>
    have := shorter_member _ _ _ _ _ h
    exact ih.mono (by simp at this ⊢; omega)
  | case2 d key rest d' rest' h c hc =>
    have := shorter_member _ _ _ _ _ h
    exact shorter_checked c (by simp at this ⊢; omega)
  | case3 => exact shorter_error _ _
  | case4 => exact shorter_error _ _
  | case5 => exact shorter_error _ _
  | case6 => exact shorter_error _ _

theorem Shorter.comma {r : Reading α} {n : Nat} (h : Shorter r n) : Shorter (comma r) n := by
  unfold Reader.comma
  split
  · next v rest =>
    exact shorter_ok (Nat.lt_trans (Nat.lt_succ_self _) (by simpa using h v _ rfl))
  · exact shorter_error _ _
  · exact shorter_error _ _

theorem Shorter.bind {β : Type} {r : Reading α} {f : α × List Token → Reading β} {n : Nat}
    (h : Shorter r n) (hf : ∀ v rest, rest.length < n → Shorter (f (v, rest)) n) :
    Shorter (Except.bind r f) n := by
  rcases r with p | ⟨v, rest⟩
  · exact shorter_error _ _
  · exact hf v rest (h v rest rfl)

theorem shorter_parts (ts : List Token) : Shorter (parts ts) ts.length := by
  refine Shorter.bind (Shorter.comma (shorter_text ts)) fun _ ts₁ h₁ => ?_
  refine Shorter.bind (.mono (.comma (shorter_named _ ts₁)) (Nat.le_of_lt h₁)) fun _ ts₂ h₂ => ?_
  refine Shorter.bind (.mono (.comma (shorter_value ts₂)) (Nat.le_of_lt h₂)) fun _ ts₃ h₃ => ?_
  refine Shorter.bind (.mono (shorter_flag ts₃) (Nat.le_of_lt h₃)) fun _ ts₄ h₄ => ?_
  dsimp only
  split
  · exact shorter_checked _ (by simp at h₄; omega)
  · exact shorter_error _ _

theorem shorter_fieldClause (ts : List Token) : Shorter (fieldClause ts) ts.length := by
  unfold fieldClause
  split
  · exact (shorter_members _ _).mono (by simp)
  · exact (shorter_parts _).mono (by simp)
  · exact shorter_error _ _

theorem shorter_clause (ts : List Token) : Shorter (clause ts) ts.length := by
  unfold clause
  split
  · next kind rest =>
    refine Shorter.closing ?_
    repeat' split
    · exact ((shorter_fieldClause rest).mono (by simp; omega)).map _
    · exact ((shorter_named _ rest).mono (by simp; omega)).map _
    · exact shorter_error _ _
  · exact shorter_error _ _

/-- Reads the clauses of an array up to its end, beginning at one. -/
def laterClauses (ts : List Token) : Reading (List Clause) :=
  match _h : clause ts with
  | .ok (c, .comma :: rest) => (laterClauses rest).map fun (cs, rest) => (c :: cs, rest)
  | .ok (c, .closeArray :: rest) => .ok ([c], rest)
  | .ok _ => .error .malformed
  | .error p => .error p
termination_by ts.length
decreasing_by
  have := shorter_clause _ _ _ _h
  simp at this
  omega

def clauses : List Token → Reading (List Clause)
  | .openArray :: .closeArray :: rest => .ok ([], rest)
  | .openArray :: rest => laterClauses rest
  | _ => .error .malformed

/-- Reads all the tokens there are. -/
def whole (reader : List Token → Reading α) (ts : List Token) : Except Problem α :=
  match reader ts with
  | .ok (v, []) => .ok v
  | .ok _ => .error .malformed
  | .error p => .error p

/-- Reads a JSON text. -/
def ofText (reader : List Token → Reading α) (s : String) : Except Problem α :=
  whole reader (Lexer.tokens s.toList)

/-- Reads a JSON value. -/
def ofJson (reader : List Token → Reading α) (j : Json) : Except Problem α :=
  whole reader j.tokens

end Reader

end FieldQuery
