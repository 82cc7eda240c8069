import FieldQuery.Json.Token

/-!
# From JSON text to tokens

Blanks separate tokens and mean nothing. A string is first taken apart into plain characters and
escapes, which fixes where it ends; then the escapes are put together to characters, where a
character beyond the basic plane takes two of them. A numeral is taken apart into its digits and
exponent before its value is decided.
-/

namespace FieldQuery.Lexer

def isBlank (c : Char) : Bool := c = ' ' || c = '\n' || c = '\t' || c = '\r'

/-- One element of a string: a character, or a code unit written in hexadecimal. -/
inductive Piece where
  | scalar (c : Char)
  | unit (value : Nat)
  deriving DecidableEq, Repr

def hexWorth? (c : Char) : Option Nat :=
  if c.isDigit then some (c.toNat - 48)
  else if 'a' ≤ c ∧ c ≤ 'f' then some (c.toNat - 87)
  else if 'A' ≤ c ∧ c ≤ 'F' then some (c.toNat - 55)
  else none

def unit? (a b c d : Char) : Option Nat := do
  return ((← hexWorth? a) * 16 + (← hexWorth? b)) * 256 + (← hexWorth? c) * 16 + (← hexWorth? d)

/-- The characters that one letter after a backslash stands for. -/
def escape? : Char → Option Char
  | '"' => some '"'
  | '\\' => some '\\'
  | '/' => some '/'
  | 'b' => some '\x08'
  | 'f' => some '\x0c'
  | 'n' => some '\n'
  | 'r' => some '\r'
  | 't' => some '\t'
  | _ => none

/-- Takes a string apart up to its closing quote. Control characters must be escaped. -/
def pieces : List Char → Option (List Piece × List Char)
  | [] => none
  | '"' :: rest => some ([], rest)
  | '\\' :: 'u' :: a :: b :: c :: d :: rest =>
    match unit? a b c d, pieces rest with
    | some u, some (ps, rest) => some (.unit u :: ps, rest)
    | _, _ => none
  | '\\' :: c :: rest =>
    match escape? c, pieces rest with
    | some e, some (ps, rest) => some (.scalar e :: ps, rest)
    | _, _ => none
  | c :: rest =>
    if c = '\\' ∨ c.toNat < 32 then none
    else
      match pieces rest with
      | some (ps, rest) => some (.scalar c :: ps, rest)
      | none => none

/-- Code units from which a character beyond the basic plane is made. -/
def isLeading (u : Nat) : Bool := 0xD800 ≤ u && u < 0xDC00
def isTrailing (u : Nat) : Bool := 0xDC00 ≤ u && u < 0xE000

def paired (u v : Nat) : Char := Char.ofNat (0x10000 + (u - 0xD800) * 1024 + (v - 0xDC00))

/-- The content of a string; a leading unit must be followed by a trailing one at once, and a
trailing one must follow a leading one. -/
def assemble : List Piece → Option (List Char)
  | [] => some []
  | .scalar c :: ps => (assemble ps).map (c :: ·)
  | .unit u :: .unit v :: ps =>
    if isLeading u then if isTrailing v then (assemble ps).map (paired u v :: ·) else none
    else if isTrailing u then none
    else (assemble (.unit v :: ps)).map (Char.ofNat u :: ·)
  | .unit u :: ps =>
    if isLeading u || isTrailing u then none else (assemble ps).map (Char.ofNat u :: ·)

/-- A numeral as it is spelt. -/
structure Spelling where
  negative : Bool
  whole : List Char
  fraction : Option (List Char)
  exponent : Option Int
  deriving DecidableEq, Repr

/-- Takes the digits at the front; there must be one. -/
def digits? (cs : List Char) : Option (List Char × List Char) :=
  if (cs.takeWhile Char.isDigit).isEmpty then none
  else some (cs.takeWhile Char.isDigit, cs.dropWhile Char.isDigit)

/-- Takes the digits before the point. A zero at the front stands alone. -/
def whole? : List Char → Option (List Char × List Char)
  | '0' :: cs => some (['0'], cs)
  | cs => digits? cs

def fraction? : List Char → Option (Option (List Char) × List Char)
  | '.' :: cs => (digits? cs).map fun (ds, rest) => (some ds, rest)
  | cs => some (none, cs)

/-- A minus sign at the front, if there is one. -/
def minus : List Char → Bool × List Char
  | '-' :: cs => (true, cs)
  | cs => (false, cs)

/-- A sign at the front, if there is one; whether it is a minus sign. -/
def sign : List Char → Bool × List Char
  | '+' :: cs => (false, cs)
  | cs => minus cs

def power? (cs : List Char) : Option (Int × List Char) :=
  (digits? (sign cs).2).map fun (ds, rest) =>
    (if (sign cs).1 then -(Numeral.value ds : Int) else Numeral.value ds, rest)

def exponent? : List Char → Option (Option Int × List Char)
  | 'e' :: cs => (power? cs).map fun (e, rest) => (some e, rest)
  | 'E' :: cs => (power? cs).map fun (e, rest) => (some e, rest)
  | cs => some (none, cs)

def spelling? (cs : List Char) : Option (Spelling × List Char) := do
  let (whole, rest) ← whole? (minus cs).2
  let (fraction, rest) ← fraction? rest
  let (exponent, rest) ← exponent? rest
  return (⟨(minus cs).1, whole, fraction, exponent⟩, rest)

/-- What a numeral means; `none` when it is a double out of range. -/
def Spelling.number? (s : Spelling) : Option JsonNumber :=
  let v := Numeral.value s.whole
  if s.fraction = none ∧ s.exponent = none ∧ ¬ (s.negative ∧ v = 0) then
    some (.integer (if s.negative then -(v : Int) else v))
  else
    let places := s.fraction.getD []
    (Binary64.ofDecimal? s.negative (Numeral.value (s.whole ++ places))
      (s.exponent.getD 0 - places.length)).map .float

/-- The token that begins with the given character, and what follows it. -/
def next : Char → List Char → Token × List Char
  | '[', cs => (.openArray, cs)
  | ']', cs => (.closeArray, cs)
  | '{', cs => (.openObject, cs)
  | '}', cs => (.closeObject, cs)
  | ',', cs => (.comma, cs)
  | ':', cs => (.colon, cs)
  | 'n', 'u' :: 'l' :: 'l' :: cs => (.null, cs)
  | 't', 'r' :: 'u' :: 'e' :: cs => (.bool true, cs)
  | 'f', 'a' :: 'l' :: 's' :: 'e' :: cs => (.bool false, cs)
  | '"', cs =>
    match pieces cs with
    | some (ps, rest) => (.text ((assemble ps).map String.ofList), rest)
    | none => (.stray, [])
  | c, cs =>
    match spelling? (c :: cs) with
    | some (s, rest) => (.number s.number?, rest)
    | none => (.stray, [])

theorem length_pieces {cs rest : List Char} {ps : List Piece} (h : pieces cs = some (ps, rest)) :
    rest.length < cs.length := by
  fun_induction pieces cs generalizing ps rest <;> simp_all <;> grind

theorem length_digits {cs ds rest : List Char} (h : digits? cs = some (ds, rest)) :
    rest.length < cs.length := by
  unfold digits? at h
  split at h
  · simp at h
  · next hne =>
    simp only [Option.some.injEq, Prod.mk.injEq] at h
    have hlen := congrArg List.length
      (List.takeWhile_append_dropWhile (p := Char.isDigit) (l := cs))
    rw [h.1, h.2, List.length_append] at hlen
    rw [h.1] at hne
    cases ds with
    | nil => simp at hne
    | cons d ds => simp at hlen; omega

theorem length_whole {cs ds rest : List Char} (h : whole? cs = some (ds, rest)) :
    rest.length < cs.length := by
  unfold whole? at h
  split at h
  · simp only [Option.some.injEq, Prod.mk.injEq] at h
    simp [← h.2]
  · exact length_digits h

theorem length_fraction {cs rest : List Char} {ds : Option (List Char)}
    (h : fraction? cs = some (ds, rest)) : rest.length ≤ cs.length := by
  unfold fraction? at h
  split at h
  · obtain ⟨⟨ds, r⟩, hd, he⟩ := Option.map_eq_some_iff.mp h
    simp only [Prod.mk.injEq] at he
    have := length_digits hd
    simp [← he.2]; omega
  · simp only [Option.some.injEq, Prod.mk.injEq] at h
    simp [← h.2]

theorem length_minus (cs : List Char) : (minus cs).2.length ≤ cs.length := by
  unfold minus
  split <;> simp

theorem length_sign (cs : List Char) : (sign cs).2.length ≤ cs.length := by
  unfold sign
  split
  · simp
  · exact length_minus _

theorem length_power {cs rest : List Char} {e : Int} (h : power? cs = some (e, rest)) :
    rest.length < cs.length := by
  obtain ⟨⟨ds, r⟩, hd, he⟩ := Option.map_eq_some_iff.mp h
  simp only [Prod.mk.injEq] at he
  rw [← he.2]
  exact Nat.lt_of_lt_of_le (length_digits hd) (length_sign cs)

theorem length_exponent {cs rest : List Char} {e : Option Int}
    (h : exponent? cs = some (e, rest)) : rest.length ≤ cs.length := by
  have hpower : ∀ {ds : List Char},
      (power? ds).map (fun (p : Int × List Char) => (some p.1, p.2)) = some (e, rest) →
      rest.length < ds.length := by
    intro ds hm
    obtain ⟨⟨v, r⟩, hd, he⟩ := Option.map_eq_some_iff.mp hm
    simp only [Prod.mk.injEq] at he
    rw [← he.2]
    exact length_power hd
  unfold exponent? at h
  split at h
  · have := hpower h
    simp; omega
  · have := hpower h
    simp; omega
  · simp only [Option.some.injEq, Prod.mk.injEq] at h
    simp [← h.2]

theorem length_spelling {cs rest : List Char} {s : Spelling}
    (h : spelling? cs = some (s, rest)) : rest.length < cs.length := by
  simp only [spelling?, Option.bind_eq_bind, Option.bind_eq_some_iff, Option.pure_def,
    Option.some.injEq, Prod.mk.injEq, Prod.exists] at h
  obtain ⟨w, r₁, hw, f, r₂, hf, e, r₃, he, -, rfl⟩ := h
  have := length_whole hw
  have := length_fraction hf
  have := length_exponent he
  have := length_minus cs
  omega

theorem length_next (c : Char) (cs : List Char) : (next c cs).2.length ≤ cs.length := by
  unfold next
  split
  case h_10 =>
    split
    · next h => exact Nat.le_of_lt (length_pieces h)
    · simp
  case h_11 =>
    split
    · next h =>
      have := length_spelling h
      simp at this ⊢; omega
    · simp
  all_goals simp <;> omega

/-- The tokens of a text. -/
def tokens : List Char → List Token
  | [] => []
  | c :: cs =>
    if isBlank c then tokens cs else (next c cs).1 :: tokens (next c cs).2
termination_by cs => cs.length
decreasing_by
  · simp
  · have := length_next c cs
    simp; omega

end FieldQuery.Lexer
