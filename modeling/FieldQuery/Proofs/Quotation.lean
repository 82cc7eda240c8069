import FieldQuery.Proofs.Derivation
import Mathlib.Data.Set.Operations

/-!
# Quotation is a self-delimiting bijection

Strings and the quoted strings of the grammar correspond one to one. A quoted string at the front
of any text can be taken off without looking at what follows: the scan stops after its closing
quote, gives the content, and leaves the rest as it is. Whatever the scan accepts at all is the
quoted form of what it gives, followed by the rest. So no quoted string is the beginning of another
one.
-/
namespace FieldQuery.Quoted
open Grammar

/-- One more character in front of a body that is an encoding up to its closing quote. -/
theorem eq_encode_of_map_body {c : Char} {cs s rest : List Char}
    (ih : ∀ {u t : List Char}, body cs = some (u, t) → cs = encode u ++ '"' :: t)
    (h : (body cs).map (fun (u, t) => (c :: u, t)) = some (s, rest)) :
    escaped c ++ cs = encode s ++ '"' :: rest := by
  obtain ⟨⟨u, t⟩, hbody, he⟩ := Option.map_eq_some_iff.mp h
  obtain ⟨rfl, rfl⟩ := Prod.mk.inj he
  rw [ih hbody, encode_cons, List.append_assoc]

/-- A body is read only if it is an encoding up to a closing quote. -/
theorem eq_encode_of_body {cs s rest : List Char} (h : body cs = some (s, rest)) :
    cs = encode s ++ '"' :: rest := by
  fun_induction body cs generalizing s rest with
  | case1 => cases h
  | case2 t => cases h; rfl
  | case3 ds ih => exact eq_encode_of_map_body ih h
  | case4 ds ih => exact eq_encode_of_map_body ih h
  | case5 ds => cases h
  | case6 c ds hquote _ _ hbackslash ih =>
    have hc : ¬ Protected c := fun hp => hp.elim hquote hbackslash
    have hds := eq_encode_of_map_body ih h
    rwa [escaped, if_neg hc] at hds

/-- The scan takes off what is a quoted string, and nothing else. -/
theorem scan_eq_some_iff {cs s rest : List Char} :
    scan cs = some (s, rest) ↔ cs = (quote (String.ofList s)).toList ++ rest := by
  constructor
  · intro h
    unfold scan at h
    split at h
    · next ds => simp [eq_encode_of_body h]
    · cases h
  · intro h
    rw [h, scan_quote, String.toList_ofList]

theorem quote_injective : Function.Injective quote := by
  intro r s h
  have hcut : (quote r).toList ++ [] = (quote s).toList ++ [] := by rw [h]
  exact (quote_cut hcut).1

/-- Quoting is a bijection from strings to the quoted strings of the grammar, and a quoted string is
told from the text after it. In front of any text the scan takes off the whole of it and no more,
gives the string and leaves that text; a quoted string of the grammar at the same place is the same.
What the scan takes off is a quoted string, whatever the text. -/
theorem quote_self_delimiting :
    (∀ (r : String) (t : List Char), scan ((quote r).toList ++ t) = some (r.toList, t)) ∧
    (∀ (r : String) (t q u : List Char), QuotedText q → q ++ u = (quote r).toList ++ t →
      q = (quote r).toList ∧ u = t) ∧
    (∀ cs s t : List Char, scan cs = some (s, t) → cs = (quote (String.ofList s)).toList ++ t) ∧
    (∀ q, QuotedText q → ∃ r : String, scan q = some (r.toList, []) ∧ (quote r).toList = q) ∧
    Function.Injective quote ∧
    (∀ r s : String, (quote r).toList <+: (quote s).toList → r = s) ∧
    Set.range (fun r => (quote r).toList) = {q | QuotedText q} := by
  refine ⟨scan_quote, ?_, ?_, ?_, quote_injective, ?_, ?_⟩
  · intro r t q u hq h
    obtain ⟨s, rfl⟩ := quotedText_iff.mp hq
    obtain ⟨rfl, rfl⟩ := quote_cut h
    exact ⟨rfl, rfl⟩
  · intro cs s t h
    exact scan_eq_some_iff.mp h
  · intro q hq
    obtain ⟨r, rfl⟩ := quotedText_iff.mp hq
    refine ⟨r, ?_, rfl⟩
    have hscan := scan_quote r []
    rwa [List.append_nil] at hscan
  · intro r s h
    obtain ⟨t, ht⟩ := h
    have hcut : (quote r).toList ++ t = (quote s).toList ++ [] := by rw [ht, List.append_nil]
    exact (quote_cut hcut).1
  · ext q
    rw [Set.mem_range, Set.mem_ofPred_eq, quotedText_iff]
    exact exists_congr fun r => eq_comm

/-- A backslash at the end of the string does not hide the closing quote. -/
example : scan ((quote "a\\\\").toList ++ ['"']) = some (['a', '\\', '\\'], ['"']) := by decide

end FieldQuery.Quoted
