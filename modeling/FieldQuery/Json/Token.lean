import FieldQuery.Json

/-!
# JSON tokens

The words of a JSON text in reading order. A token says what its spelling means, if it means
anything: a numeral may be out of range, and the escapes in a string may name half a character. Such
a token has no content and can only be passed over.
-/

namespace FieldQuery

inductive Token where
  | null
  | bool (value : Bool)
  | number (value : Option JsonNumber)
  | text (content : Option String)
  | openArray
  | closeArray
  | openObject
  | closeObject
  | comma
  | colon
  /-- Characters that begin no token. Nothing after them is read. -/
  | stray
  deriving DecidableEq, Repr

mutual

/-- The tokens of a value. -/
def Json.tokens : Json → List Token
  | .null => [.null]
  | .bool b => [.bool b]
  | .number n => [.number (some n)]
  | .text s => [.text (some s)]
  | .array items => .openArray :: (itemTokens items ++ [.closeArray])
  | .object members => .openObject :: (memberTokens members ++ [.closeObject])

def Json.itemTokens : List Json → List Token
  | [] => []
  | [v] => v.tokens
  | v :: vs => v.tokens ++ .comma :: itemTokens vs

def Json.memberTokens : List (String × Json) → List Token
  | [] => []
  | [(k, v)] => .text (some k) :: .colon :: v.tokens
  | (k, v) :: rest => .text (some k) :: .colon :: (v.tokens ++ .comma :: memberTokens rest)

end

/-- The brackets around a place inside a value. -/
inductive Bracket where
  | array | object
  deriving DecidableEq, Repr

mutual

/-- Passes over one value of any kind and size, inside the given brackets, innermost first, and on
to the end of the outermost of them. Gives what follows, if all up to there is well formed. -/
def Token.skipWithin (outer : List Bracket) : List Token → Option (List Token)
  | .null :: rest | .bool _ :: rest | .number _ :: rest | .text _ :: rest => leave outer rest
  | .openArray :: .closeArray :: rest => leave outer rest
  | .openArray :: rest => skipWithin (.array :: outer) rest
  | .openObject :: .closeObject :: rest => leave outer rest
  | .openObject :: .text _ :: .colon :: rest => skipWithin (.object :: outer) rest
  | _ => none

/-- Goes on after a value: the innermost bracket closes or a further value follows in it. -/
def Token.leave : List Bracket → List Token → Option (List Token)
  | [], rest => some rest
  | .array :: outer, .comma :: rest => skipWithin (.array :: outer) rest
  | .array :: outer, .closeArray :: rest => leave outer rest
  | .object :: outer, .comma :: .text _ :: .colon :: rest => skipWithin (.object :: outer) rest
  | .object :: outer, .closeObject :: rest => leave outer rest
  | _, _ => none

end

/-- Passes over one value. -/
def Token.skip (ts : List Token) : Option (List Token) := skipWithin [] ts

theorem Token.length_skipWithin_leave :
    (∀ (outer : List Bracket) (ts rest : List Token),
      skipWithin outer ts = some rest → rest.length < ts.length) ∧
    (∀ (outer : List Bracket) (ts rest : List Token),
      leave outer ts = some rest → rest.length ≤ ts.length) := by
  apply Token.skipWithin.mutual_induct
  all_goals intros; simp_all [skipWithin, leave]
  all_goals grind

theorem Token.length_skip {ts rest : List Token} (h : skip ts = some rest) :
    rest.length < ts.length :=
  length_skipWithin_leave.1 [] ts rest h

end FieldQuery
