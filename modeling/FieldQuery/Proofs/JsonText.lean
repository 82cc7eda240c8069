import FieldQuery.Proofs.JsonNumeral
import FieldQuery.Proofs.JsonString

/-!
# The tokens of a JSON text

Which texts have which tokens, said without reading them: tokens stand one after the other, with any
blanks around them. A text that is spelt in this way has these tokens and no others, and every text
all of whose characters belong to tokens is spelt in this way.
-/
namespace FieldQuery

theorem Binary64.isFinite_of_finite? {negative : Bool} {rank : Nat} {x : Binary64}
    (h : finite? negative rank = some x) : x.isFinite = true := by
  unfold finite? at h
  split at h
  · next hrank =>
    cases h
    exact decide_eq_true hrank
  · cases h

namespace Lexer

/-- A token at the front of a text, and the rest. The rest matters to a numeral only. -/
inductive TokenText : Token → List Char → List Char → Prop
  | openArray {rest : List Char} : TokenText .openArray ('[' :: rest) rest
  | closeArray {rest : List Char} : TokenText .closeArray (']' :: rest) rest
  | openObject {rest : List Char} : TokenText .openObject ('{' :: rest) rest
  | closeObject {rest : List Char} : TokenText .closeObject ('}' :: rest) rest
  | comma {rest : List Char} : TokenText .comma (',' :: rest) rest
  | colon {rest : List Char} : TokenText .colon (':' :: rest) rest
  | null {rest : List Char} : TokenText .null ('n' :: 'u' :: 'l' :: 'l' :: rest) rest
  | true {rest : List Char} : TokenText (.bool true) ('t' :: 'r' :: 'u' :: 'e' :: rest) rest
  | false {rest : List Char} :
      TokenText (.bool false) ('f' :: 'a' :: 'l' :: 's' :: 'e' :: rest) rest
  | text {ps : List Piece} {content : Option (List Char)} {cs rest : List Char} :
      StringText ps cs rest → (∀ s, content = some s ↔ Content ps s) →
      TokenText (.text (content.map String.ofList)) ('"' :: cs) rest
  | number {s : Spelling} {body rest : List Char} : NumeralText s body → s.Ends rest →
      TokenText (.number s.number?) (body ++ rest) rest

inductive TextOf : List Token → List Char → Prop
  | nil : TextOf [] []
  | blank {c : Char} {ts : List Token} {cs : List Char} : isBlank c = true → TextOf ts cs →
      TextOf ts (c :: cs)
  | token {t : Token} {ts : List Token} {cs rest : List Char} : TokenText t cs rest →
      TextOf ts rest → TextOf (t :: ts) cs

/-- Characters that stand for themselves, between quotes. -/
theorem TokenText.plain {cs : List Char} (h : ∀ c ∈ cs, PlainInString c) (rest : List Char) :
    TokenText (.text (some (String.ofList cs))) ('"' :: (cs ++ '"' :: rest)) rest := by
  have hspelt := stringText_plain h rest
  have hcontent : ∀ s, some cs = some s ↔ Content (cs.map .scalar) s := by
    intro s
    rw [← hspelt.assemble_eq_some_iff, (content_plain cs).assemble_eq]
  exact .text hspelt hcontent

theorem tokens_cons_of_blank {c : Char} (h : isBlank c = true) (cs : List Char) :
    tokens (c :: cs) = tokens cs := by
  rw [tokens, if_pos h]

theorem tokens_cons_of_next {c : Char} {cs rest : List Char} {t : Token}
    (hblank : isBlank c = false) (h : next c cs = (t, rest)) :
    tokens (c :: cs) = t :: tokens rest := by
  rw [tokens, if_neg (by simp [hblank]), h]

theorem NumeralText.exists_cons {s : Spelling} {body : List Char} (h : NumeralText s body) :
    ∃ c cs, body = c :: cs ∧ (c = '-' ∨ c.isDigit = true) := by
  obtain ⟨negative, hw, hf, he⟩ := h
  obtain ⟨c, cs, rfl, hc⟩ := exists_cons_of_digitsText hw.digitsText
  cases negative with
  | true => exact ⟨'-', _, rfl, .inl rfl⟩
  | false => exact ⟨c, _, rfl, .inr hc⟩

/-- A minus sign or a digit begins a numeral and nothing else. -/
theorem next_numeral {c : Char} (h : c = '-' ∨ c.isDigit = true) (cs : List Char) :
    isBlank c = false ∧ next c cs =
      match spelling? (c :: cs) with
      | some (s, rest) => (.number s.number?, rest)
      | none => (.stray, []) := by
  constructor
  · cases hblank : isBlank c with
    | false => rfl
    | true =>
      simp only [isBlank, Bool.or_eq_true, decide_eq_true_eq] at hblank
      rcases hblank with ((rfl | rfl) | rfl) | rfl <;> simp at h
  · unfold next
    split
    case h_11 => rfl
    all_goals simp at h

theorem TokenText.tokens_eq {t : Token} {cs rest : List Char} (h : TokenText t cs rest) :
    tokens cs = t :: tokens rest := by
  cases h with
  | @text ps content cs rest hspelt hcontent =>
    have hassemble : assemble ps = content := by
      ext s
      rw [hspelt.assemble_eq_some_iff, hcontent]
    refine tokens_cons_of_next (by decide) ?_
    rw [next, hspelt.pieces_eq]
    simp only [hassemble]
  | number hspelt hends =>
    obtain ⟨c, cs, rfl, hc⟩ := hspelt.exists_cons
    obtain ⟨hblank, hnext⟩ := next_numeral hc (cs ++ rest)
    have hspelling := hspelt.spelling?_eq hends
    rw [List.cons_append] at hspelling ⊢
    refine tokens_cons_of_next hblank ?_
    rw [hnext, hspelling]
  | _ => exact tokens_cons_of_next (by decide) rfl

theorem TextOf.tokens_eq {ts : List Token} {cs : List Char} (h : TextOf ts cs) :
    tokens cs = ts := by
  induction h with
  | nil => rw [tokens]
  | blank hblank _ ih => rw [tokens_cons_of_blank hblank, ih]
  | token htoken _ ih => rw [htoken.tokens_eq, ih]

theorem tokenText_of_next {c : Char} {cs : List Char} (h : (next c cs).1 ≠ .stray) :
    TokenText (next c cs).1 (c :: cs) (next c cs).2 := by
  unfold next at h ⊢
  split at h
  case h_10 cs =>
    split at h
    · next ps rest hps =>
      have hspelt := pieces_eq_some_iff.mp hps
      exact .text hspelt fun s => hspelt.assemble_eq_some_iff
    · exact absurd rfl h
  case h_11 =>
    split at h
    · next s rest hs =>
      obtain ⟨body, hcs, hbody, hends⟩ := spelling?_eq_some_iff.mp hs
      rw [hcs]
      exact .number hbody hends
    · exact absurd rfl h
  all_goals constructor

theorem textOf_tokens {cs : List Char} (h : .stray ∉ tokens cs) : TextOf (tokens cs) cs := by
  fun_induction tokens cs with
  | case1 => exact .nil
  | case2 c cs hblank ih => exact .blank hblank (ih h)
  | case3 c cs _ ih =>
    rw [List.mem_cons, not_or] at h
    exact .token (tokenText_of_next (Ne.symm h.1)) (ih h.2)

theorem TokenText.ne_stray {t : Token} {cs rest : List Char} (h : TokenText t cs rest) :
    t ≠ .stray := by
  rintro rfl
  cases h

theorem TextOf.stray_not_mem {ts : List Token} {cs : List Char} (h : TextOf ts cs) :
    .stray ∉ ts := by
  induction h with
  | nil => exact List.not_mem_nil
  | blank _ _ ih => exact ih
  | token htoken _ ih =>
    rw [List.mem_cons, not_or]
    exact ⟨htoken.ne_stray.symm, ih⟩

/-- A text is spelt in tokens exactly if they are what is found in it and nothing in it is stray. -/
theorem textOf_iff {ts : List Token} {cs : List Char} :
    TextOf ts cs ↔ tokens cs = ts ∧ .stray ∉ ts := by
  constructor
  · intro h
    exact ⟨h.tokens_eq, h.stray_not_mem⟩
  · rintro ⟨rfl, hstray⟩
    exact textOf_tokens hstray

/-- However a numeral is spelt, the double it stands for is finite. -/
theorem Spelling.isFinite_of_number? {s : Spelling} {n : JsonNumber} {x : Binary64}
    (h : s.number? = some n) (hx : n.double? = some x) : x.isFinite = true := by
  by_cases hinteger : s.fraction = none ∧ s.exponent = none ∧
      ¬ (s.negative = true ∧ Numeral.value s.whole = 0)
  · simp only [number?, if_pos hinteger] at h
    cases h
    exact Binary64.isFinite_of_finite? hx
  · simp only [number?, if_neg hinteger] at h
    obtain ⟨y, hy, rfl⟩ := Option.map_eq_some_iff.mp h
    cases hx
    exact Binary64.isFinite_of_finite? hy

/-- No token of a text has a double that is not finite. -/
theorem TextOf.isFinite {ts : List Token} {cs : List Char} (h : TextOf ts cs) {n : JsonNumber}
    {x : Binary64} (hn : .number (some n) ∈ ts) (hx : n.double? = some x) :
    x.isFinite = true := by
  induction h with
  | nil => cases hn
  | blank _ _ ih => exact ih hn
  | token htoken _ ih =>
    rcases List.mem_cons.mp hn with rfl | hn
    · generalize ht : Token.number (some n) = t at htoken
      cases htoken with
      | number _ _ => exact Spelling.isFinite_of_number? (Token.number.inj ht).symm hx
      | _ => cases ht
    · exact ih hn

end Lexer

end FieldQuery
