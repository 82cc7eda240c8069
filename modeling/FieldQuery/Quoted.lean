/-!
# Quoted text

A string inside a query stands between double quotes. Inside, a quote or a backslash is preceded by
a backslash and every other character is written as it is, so the written form ends at its first
quote that no backslash protects. Reading it back stops there and leaves what follows untouched.
-/

namespace FieldQuery.Quoted

/-- The two characters that need a backslash in front of them. -/
def Protected (c : Char) : Prop := c = '"' ∨ c = '\\'

instance (c : Char) : Decidable (Protected c) := inferInstanceAs (Decidable (_ ∨ _))

def escaped (c : Char) : List Char := if Protected c then ['\\', c] else [c]

/-- What stands between the quotes; each character is written without regard to its neighbours. -/
def encode (cs : List Char) : List Char := cs.flatMap escaped

@[simp] theorem encode_nil : encode [] = [] := rfl

theorem encode_cons (c : Char) (cs : List Char) : encode (c :: cs) = escaped c ++ encode cs := rfl

/-- The written form, quotes included. -/
def quote (s : String) : String := String.ofList ('"' :: (encode s.toList ++ ['"']))

@[simp] theorem toList_quote (s : String) :
    (quote s).toList = '"' :: (encode s.toList ++ ['"']) := by
  simp [quote]

/-- Reads up to the closing quote; gives the content and what follows the quote. A backslash must
stand before a quote or another backslash. -/
def body : List Char → Option (List Char × List Char)
  | [] => none
  | '"' :: rest => some ([], rest)
  | '\\' :: '"' :: cs => (body cs).map fun (s, rest) => ('"' :: s, rest)
  | '\\' :: '\\' :: cs => (body cs).map fun (s, rest) => ('\\' :: s, rest)
  | '\\' :: _ => none
  | c :: cs => (body cs).map fun (s, rest) => (c :: s, rest)

/-- Reads one quoted string from the front of a text. -/
def scan : List Char → Option (List Char × List Char)
  | '"' :: cs => body cs
  | _ => none

theorem body_escaped (c : Char) (cs : List Char) :
    body (escaped c ++ cs) = (body cs).map fun (s, rest) => (c :: s, rest) := by
  unfold escaped
  split
  · next h => rcases h with rfl | rfl <;> simp [body]
  · next h =>
    rw [List.singleton_append, body]
    · exact fun e => h (.inl e)
    all_goals intros; exact h (.inr ‹_›)

theorem body_encode (cs rest : List Char) : body (encode cs ++ '"' :: rest) = some (cs, rest) := by
  induction cs with
  | nil => simp [body]
  | cons c cs ih => rw [encode_cons, List.append_assoc, body_escaped, ih]; rfl

/-- A written form is read back whole, whatever follows it. -/
theorem scan_quote (s : String) (rest : List Char) :
    scan ((quote s).toList ++ rest) = some (s.toList, rest) := by
  simp [scan, body_encode]

end FieldQuery.Quoted
