import FieldQuery.Number

/-!
# The characters of a number

A number is written with digits, a sign, a point, or the letters of the words for infinity and for
what is not a number. So its text never has a space, a quote or a sign of comparison in it.
-/
namespace FieldQuery

-- Texts are checked character by character, never by going through all characters there are.
attribute [local instance (high)] List.decidableBAll

def Numeric (c : Char) : Prop := c.isDigit = true ∨ c ∈ ['-', '.', 'N', 'a', 'i', 'n', 'f']

instance (c : Char) : Decidable (Numeric c) := inferInstanceAs (Decidable (_ ∨ _))

structure NumericText (cs : List Char) : Prop where
  nonempty : cs ≠ []
  numeric : ∀ c ∈ cs, Numeric c

theorem NumericText.signed {cs : List Char} (h : NumericText cs) : NumericText ('-' :: cs) := by
  refine ⟨List.cons_ne_nil _ _, ?_⟩
  intro c hc
  rcases List.mem_cons.mp hc with rfl | hc
  · decide
  · exact h.numeric c hc

theorem NumericText.of_digits {cs : List Char} (hne : cs ≠ []) (h : ∀ c ∈ cs, c.isDigit = true) :
    NumericText cs := ⟨hne, fun c hc => .inl (h c hc)⟩

theorem Numeral.numericText_ofNat (n : Nat) : NumericText (ofNat n) :=
  .of_digits (ofNat_ne_nil n) (isDigit_ofNat n)

theorem Numeral.numericText_ofInt (v : Int) : NumericText (ofInt v) := by
  unfold ofInt
  split
  · exact (numericText_ofNat _).signed
  · exact numericText_ofNat _

namespace Binary64

theorem numericText_positional (digits j : Nat) : NumericText (positional digits j) := by
  unfold positional
  split
  · exact Numeral.numericText_ofNat _
  · refine ⟨List.append_ne_nil_of_left_ne_nil (Numeral.ofNat_ne_nil _) _, ?_⟩
    intro c hc
    rcases List.mem_append.mp hc with hc | hc
    · exact (Numeral.numericText_ofNat _).numeric c hc
    · rcases List.mem_cons.mp hc with rfl | hc
      · decide
      · exact .inl (Numeral.isDigit_padded _ _ c hc)

theorem numericText_magnitudeText (k : Nat) : NumericText (magnitudeText k) := by
  unfold magnitudeText
  split
  · exact ⟨by decide, by decide⟩
  · exact numericText_positional _ _

theorem numericText_text (x : Binary64) : NumericText x.text.toList := by
  unfold text
  split
  · exact ⟨by decide, by decide⟩
  · have hbody : NumericText (if x.isInfinite then ['i', 'n', 'f'] else magnitudeText x.rank) := by
      split
      · exact ⟨by decide, by decide⟩
      · exact numericText_magnitudeText _
    rw [String.toList_ofList]
    split
    · exact hbody.signed
    · exact hbody

end Binary64

theorem Number.numericText_text (n : Number) : NumericText n.text.toList := by
  cases n with
  | integer v =>
    rw [text, String.toList_ofList]
    exact Numeral.numericText_ofInt v.toInt
  | float x => exact x.numericText_text

end FieldQuery
