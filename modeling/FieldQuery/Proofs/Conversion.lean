import FieldQuery.Operand
import FieldQuery.Proofs.NumberReading
import Mathlib.Data.List.Infix

/-!
# Integers become numbers

An integer becomes the number of the same value or is refused, whichever way it comes in. A type of
at most 64 signed bits converts by a cast, which then loses nothing; all other types are checked,
and so is the numeral of a stored number. Where two of these apply they agree.
-/
namespace FieldQuery
open Lexer

/-- The integers of 64 signed bits. -/
def Fits (v : ℤ) : Prop := -2 ^ 63 ≤ v ∧ v ≤ 2 ^ 63 - 1

instance (v : ℤ) : Decidable (Fits v) := inferInstanceAs (Decidable (_ ∧ _))

variable {v w : ℤ} {kind : IntegerKind}

theorem fits_iff : Fits v ↔ Int64.minValue.toInt ≤ v ∧ v ≤ Int64.maxValue.toInt := by
  have hmin : Int64.minValue.toInt = -2 ^ 63 := by decide
  have hmax : Int64.maxValue.toInt = 2 ^ 63 - 1 := by decide
  rw [hmin, hmax, Fits]

theorem toInt_ofInt_of_fits (h : Fits v) : (Int64.ofInt v).toInt = v := by
  obtain ⟨hmin, hmax⟩ := fits_iff.mp h
  exact Int64.toInt_ofInt_of_le hmin (Int.lt_of_le_of_lt hmax (by decide))

/-- The machine types of up to 64 signed bits. -/
def IntegerKind.castKinds : List IntegerKind :=
  [⟨true, 8⟩, ⟨true, 16⟩, ⟨true, 32⟩, ⟨true, 64⟩, ⟨false, 8⟩, ⟨false, 16⟩, ⟨false, 32⟩]

theorem IntegerKind.narrow_of_mem_castKinds : ∀ kind ∈ castKinds, kind.Narrow := by decide

theorem IntegerKind.fits_of_narrow (hkind : kind.Narrow) (hv : kind.Holds v) : Fits v := by
  obtain ⟨signed, bits⟩ := kind
  cases signed with
  | true =>
    have hbits : bits ≤ 64 := hkind
    have hpow : (2 : ℤ) ^ (bits - 1) ≤ 2 ^ 63 := pow_le_pow_right₀ (by decide) (by omega)
    have hlow : -2 ^ (bits - 1) ≤ v := hv.1
    have hhigh : v < 2 ^ (bits - 1) := hv.2
    exact ⟨by omega, by omega⟩
  | false =>
    have hbits : bits < 64 := hkind
    have hpow : (2 : ℤ) ^ bits ≤ 2 ^ 63 := pow_le_pow_right₀ (by decide) (by omega)
    have hlow : 0 ≤ v := hv.1
    have hhigh : v < 2 ^ bits := hv.2
    exact ⟨by omega, by omega⟩

namespace Number

theorem checked_of_fits (h : Fits v) : checked v = .ok (cast v) := by
  rw [checked, ofInt?, if_pos (fits_iff.mp h)]
  rfl

theorem checked_of_not_fits (h : ¬ Fits v) : checked v = .error (.outOfRange v) := by
  rw [checked, ofInt?, if_neg (fits_iff.not.mp h)]

theorem text_cast (h : Fits v) : (cast v).text = String.ofList (Numeral.ofInt v) := by
  rw [cast, text, toInt_ofInt_of_fits h]

end Number

theorem Numeral.ofInt_injective (h : ofInt v = ofInt w) : v = w := by
  have hread : ∀ u, spelling? (ofInt u) = some (.ofInt u, []) := by
    intro u
    have hspelling := (numeralText_ofInt u).spelling?_eq (Spelling.ends_nil _)
    rwa [List.append_nil] at hspelling
  have hspelling := hread v
  rw [h, hread w, Option.some.injEq, Prod.mk.injEq] at hspelling
  have hnumber := Spelling.number?_ofInt v
  rw [← hspelling.1, Spelling.number?_ofInt, Option.some.injEq, JsonNumber.integer.injEq] at hnumber
  exact hnumber.symm

/-- The two ways to convert agree on every integer that a type has. -/
theorem Operand.number_integer (hv : kind.Holds v) :
    (integer kind v).number = Number.checked v := by
  rw [number]
  split
  · next hkind => exact (Number.checked_of_fits (kind.fits_of_narrow hkind hv)).symm
  · rfl

theorem Argument.value_iterate_present (n : ℕ) (a : Argument) :
    (present^[n] a).value = a.value := by
  induction n with
  | zero => rfl
  | succ n ih =>
    rw [Function.iterate_succ_apply']
    exact ih

theorem Reason.message_outOfRange (v : ℤ) :
    Numeral.ofInt v <:+: (outOfRange v).message.toList := by
  have htext : (String.ofList (Numeral.ofInt v)).toList = Numeral.ofInt v := String.toList_ofList
  refine ⟨"Integer ".toList, " is outside the range of a query number".toList, ?_⟩
  change _ = ("Integer " ++ String.ofList (Numeral.ofInt v) ++
    " is outside the range of a query number").toList
  rw [String.toList_append, String.toList_append, htext]

theorem Number.ofText_ofInt (v : ℤ) :
    Reader.ofText Reader.number (payload "Integer" (String.ofList (Numeral.ofInt v))) =
      (checked v).mapError fun _ => .malformed := by
  have htext : NumeralText (.ofInt v) (String.ofList (Numeral.ofInt v)).toList := by
    rw [String.toList_ofList]
    exact Numeral.numeralText_ofInt v
  rw [ofText_integer htext (Spelling.number?_ofInt v), checked]
  rcases ofInt? v with _ | n <;> rfl

theorem Argument.written_of_value_integer {n : ℕ} {u : Value} (hv : kind.Holds v)
    (h : (present^[n] (.operand (.integer kind v))).value = .ok u) :
    u.written = String.ofList (Numeral.ofInt v) := by
  rw [value_iterate_present, value, Operand.number_integer hv] at h
  by_cases hfits : Fits v
  · rw [Number.checked_of_fits hfits] at h
    cases h
    exact Number.text_cast hfits
  · rw [Number.checked_of_not_fits hfits] at h
    cases h

namespace Operand

/-- The machine types of up to 64 signed bits are converted by a cast that keeps the value. Any
other integer is converted to the number of its value if 64 bits hold it, and else refused with a
message that has the integer in it; on integers of the former types this comes to the same. The
stored form with the numeral of an integer is read exactly if the integer is converted, as the same
number. Layers of presence change nothing, and absence inside them is null. What is converted is
written as the numeral of the integer, so different integers are written differently. -/
theorem integer_conversion :
    (∀ kind ∈ IntegerKind.castKinds, ∀ v, kind.Holds v →
      (integer kind v).number = .ok (.cast v) ∧
      ∃ w : Int64, Number.cast v = .integer w ∧ w.toInt = v) ∧
    (∀ (kind : IntegerKind) v, kind.Holds v → (integer kind v).number = Number.checked v) ∧
    (∀ v, Fits v → ∃ w : Int64, Number.checked v = .ok (.integer w) ∧ w.toInt = v) ∧
    (∀ v, ¬ Fits v → Number.checked v = .error (.outOfRange v) ∧
      (Reason.outOfRange v).fault.kind = .numberOutOfRange ∧
      Numeral.ofInt v <:+: (Reason.outOfRange v).fault.message.toList) ∧
    (∀ v, Reader.ofText Reader.number (Number.payload "Integer" (String.ofList (Numeral.ofInt v))) =
      (Number.checked v).mapError fun _ => .malformed) ∧
    (∀ n o, (Argument.present^[n] (.operand o)).value = o.number.map .number) ∧
    (∀ n, (Argument.present^[n] .absent).value = .ok .null) ∧
    (∀ (kind : IntegerKind) v n u, kind.Holds v →
      (Argument.present^[n] (.operand (integer kind v))).value = .ok u →
      u.written = String.ofList (Numeral.ofInt v)) ∧
    ∀ (kind kind' : IntegerKind) v v' n n' u u', kind.Holds v → kind'.Holds v' →
      (Argument.present^[n] (.operand (integer kind v))).value = .ok u →
      (Argument.present^[n'] (.operand (integer kind' v'))).value = .ok u' →
      u.written = u'.written → v = v' := by
  refine ⟨?_, ?_, ?_, ?_, ?_, ?_, ?_, ?_, ?_⟩
  · intro kind hmem v hv
    have hkind : kind.Narrow := IntegerKind.narrow_of_mem_castKinds kind hmem
    refine ⟨by rw [number, if_pos hkind], Int64.ofInt v, rfl, ?_⟩
    exact toInt_ofInt_of_fits (IntegerKind.fits_of_narrow hkind hv)
  · intro kind v hv
    exact number_integer hv
  · intro v hv
    exact ⟨Int64.ofInt v, Number.checked_of_fits hv, toInt_ofInt_of_fits hv⟩
  · intro v hv
    exact ⟨Number.checked_of_not_fits hv, rfl, Reason.message_outOfRange v⟩
  · exact Number.ofText_ofInt
  · intro n o
    rw [Argument.value_iterate_present, Argument.value]
  · intro n
    rw [Argument.value_iterate_present, Argument.value]
  · intro kind v n u hv hu
    exact Argument.written_of_value_integer hv hu
  · intro kind kind' v v' n n' u u' hv hv' hu hu' htext
    rw [Argument.written_of_value_integer hv hu, Argument.written_of_value_integer hv' hu'] at htext
    exact Numeral.ofInt_injective (String.ofList_injective htext)

/-- The least integer of 64 signed bits is converted, and the first integer after the greatest is
not. -/
theorem integer_conversion_at_the_edges :
    (∃ w : Int64, (integer ⟨true, 64⟩ (-9223372036854775808)).number = .ok (.integer w) ∧
      w.toInt = -9223372036854775808) ∧
    (integer ⟨false, 64⟩ 9223372036854775808).number =
      .error (.outOfRange 9223372036854775808) := by
  obtain ⟨hcast, hchecked, -, hrefused, -⟩ := integer_conversion
  obtain ⟨hnumber, w, hw, hvalue⟩ := hcast ⟨true, 64⟩ (by decide) (-9223372036854775808) (by decide)
  refine ⟨⟨w, ?_, hvalue⟩, ?_⟩
  · rw [hnumber, hw]
  · rw [hchecked _ _ (by decide), (hrefused _ (by decide)).1]

end Operand

end FieldQuery
