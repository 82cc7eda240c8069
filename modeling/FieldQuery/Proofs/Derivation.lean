import FieldQuery.Proofs.ClauseText

/-!
# The grammar of query texts

A text is a query text if the grammar derives it. The grammar is given by its rules, one relation
for each of its symbols, and does not mention how a query is written.

Quoted strings, fields and operators of the grammar are exactly the ones that are written. Integers
may have any number of digits. What a clause of the grammar is can be told at the front of a longer
text: two derivations that start at the same place end at the same place.
-/
namespace FieldQuery.Grammar

/-- What may stand between quotes: a quote or a backslash only after a backslash, and a backslash
only before one of them. -/
inductive InnerText : List Char → Prop
  | nil : InnerText []
  | plain {c : Char} {cs : List Char} : c ≠ '"' → c ≠ '\\' → InnerText cs → InnerText (c :: cs)
  | backslash {cs : List Char} : InnerText cs → InnerText ('\\' :: '\\' :: cs)
  | quote {cs : List Char} : InnerText cs → InnerText ('\\' :: '"' :: cs)

inductive QuotedText : List Char → Prop
  | intro {cs : List Char} : InnerText cs → QuotedText ('"' :: (cs ++ ['"']))

structure DigitsText (cs : List Char) : Prop where
  nonempty : cs ≠ []
  digits : ∀ c ∈ cs, c.isDigit = true

inductive IntegerText : List Char → Prop
  | unsigned {cs : List Char} : DigitsText cs → IntegerText cs
  | signed {cs : List Char} : DigitsText cs → IntegerText ('-' :: cs)

inductive FieldText : List Char → Prop
  | identifier {name : String} : PlainName name → FieldText name.toList
  | metadata {cs : List Char} : QuotedText cs → FieldText ("metadata[".toList ++ (cs ++ [']']))

def OperatorText (cs : List Char) : Prop := String.ofList cs ∈ [":", "~", ">", "<", ">=", "<="]

inductive ValueText : List Char → Prop
  | null : ValueText "null".toList
  | integer {cs : List Char} : IntegerText cs → ValueText cs
  | quoted {cs : List Char} : QuotedText cs → ValueText cs

inductive ClauseText : List Char → Prop
  | intro (negated : Bool) {field operator value : List Char} : FieldText field →
      OperatorText operator → ValueText value →
      ClauseText ((if negated then ['-'] else []) ++ (field ++ (operator ++ value)))

/-- One clause, or several with the same word between any two neighbours. -/
inductive JoinedText (word : String) : List Char → Prop
  | single {cs : List Char} : ClauseText cs → JoinedText word cs
  | join {cs ds : List Char} : ClauseText cs → JoinedText word ds →
      JoinedText word (cs ++ (' ' :: (word.toList ++ (' ' :: ds))))

inductive QueryText : List Char → Prop
  | empty : QueryText []
  | joined {word : String} {cs : List Char} : word ∈ ["AND", "OR"] → JoinedText word cs →
      QueryText cs

theorem innerText_escaped (c : Char) {cs : List Char} (h : InnerText cs) :
    InnerText (Quoted.escaped c ++ cs) := by
  unfold Quoted.escaped
  split
  · next hc =>
    rcases hc with rfl | rfl
    · exact .quote h
    · exact .backslash h
  · next hc => exact .plain (fun e => hc (.inl e)) (fun e => hc (.inr e)) h

theorem innerText_encode (cs : List Char) : InnerText (Quoted.encode cs) := by
  induction cs with
  | nil => exact .nil
  | cons c cs ih =>
    rw [Quoted.encode_cons]
    exact innerText_escaped c ih

theorem InnerText.exists_encode {cs : List Char} (h : InnerText cs) :
    ∃ s, cs = Quoted.encode s := by
  induction h with
  | nil => exact ⟨[], rfl⟩
  | @plain c cs hquote hbackslash _ ih =>
    obtain ⟨s, rfl⟩ := ih
    have hc : ¬ Quoted.Protected c := fun h => h.elim hquote hbackslash
    exact ⟨c :: s, by rw [Quoted.encode_cons, Quoted.escaped, if_neg hc]; rfl⟩
  | backslash _ ih =>
    obtain ⟨s, rfl⟩ := ih
    exact ⟨'\\' :: s, rfl⟩
  | quote _ ih =>
    obtain ⟨s, rfl⟩ := ih
    exact ⟨'"' :: s, rfl⟩

/-- The quoted strings of the grammar are the written forms of strings. -/
theorem quotedText_iff {cs : List Char} :
    QuotedText cs ↔ ∃ s : String, cs = (Quoted.quote s).toList := by
  constructor
  · rintro ⟨h⟩
    obtain ⟨s, rfl⟩ := h.exists_encode
    exact ⟨String.ofList s, by simp⟩
  · rintro ⟨s, hs⟩
    rw [hs, Quoted.toList_quote]
    exact ⟨innerText_encode s.toList⟩

theorem fieldText_iff {cs : List Char} :
    FieldText cs ↔ ∃ s : Subject, s.Plain ∧ cs = s.expression.toList := by
  have hmetadata : ∀ key, (Subject.metadata key).expression.toList =
      "metadata[".toList ++ ((Quoted.quote key).toList ++ [']']) := by
    intro key
    have hword : "metadata[".toList = Grammar.metadataWord.toList ++ ['['] := by decide
    rw [← List.append_nil (Subject.expression _).toList, Subject.toList_metadata, hword,
      List.append_assoc, List.singleton_append]
  constructor
  · intro h
    cases h with
    | @identifier name hname => exact ⟨.field name, hname, rfl⟩
    | metadata hkey =>
      obtain ⟨key, hkey⟩ := quotedText_iff.mp hkey
      exact ⟨.metadata key, trivial, by rw [hkey, hmetadata]⟩
  · rintro ⟨s, hs, rfl⟩
    cases s with
    | field name => exact .identifier hs
    | metadata key =>
      rw [hmetadata]
      exact .metadata (quotedText_iff.mpr ⟨key, rfl⟩)

theorem operatorText_sign (o : Operator) : OperatorText o.sign.toList := by
  rw [OperatorText, String.ofList_toList]
  rcases o with _ | _ | b
  · decide
  · decide
  · cases b <;> decide

theorem OperatorText.exists_sign {cs : List Char} (h : OperatorText cs) :
    ∃ o : Operator, cs = o.sign.toList := by
  have hsign : ∃ o : Operator, String.ofList cs = o.sign := by
    simp only [OperatorText, List.mem_cons, List.not_mem_nil, or_false] at h
    rcases h with h | h | h | h | h | h
    · exact ⟨.equals, h⟩
    · exact ⟨.contains, h⟩
    · exact ⟨.range .greater, h⟩
    · exact ⟨.range .lesser, h⟩
    · exact ⟨.range .greaterEqual, h⟩
    · exact ⟨.range .lesserEqual, h⟩
  obtain ⟨o, ho⟩ := hsign
  exact ⟨o, by rw [← ho, String.toList_ofList]⟩

theorem integerText_ofInt (v : Int) : IntegerText (Numeral.ofInt v) := by
  have hdigits : DigitsText (Numeral.ofNat v.natAbs) :=
    ⟨Numeral.ofNat_ne_nil _, Numeral.isDigit_ofNat _⟩
  unfold Numeral.ofInt
  split
  · exact .signed hdigits
  · exact .unsigned hdigits

end Grammar

/-- The value is not a double. -/
def Value.Integral : Value → Prop
  | .number (.float _) => False
  | _ => True

instance : (v : Value) → Decidable v.Integral
  | .null => .isTrue trivial
  | .number (.integer _) => .isTrue trivial
  | .number (.float _) => .isFalse id
  | .text _ => .isTrue trivial

namespace Grammar

theorem valueText_written {v : Value} (h : v.Integral) : ValueText v.written.toList := by
  cases v with
  | null => exact .null
  | text s => exact .quoted (quotedText_iff.mpr ⟨s, rfl⟩)
  | number n =>
    cases n with
    | float x => exact h.elim
    | integer v =>
      rw [Value.written, Number.text, String.toList_ofList]
      exact .integer (integerText_ofInt v.toInt)

theorem clauseText_text {f : FieldClause} (hplain : f.Plain) (hvalue : f.value.Integral) :
    ClauseText f.text.toList := by
  obtain ⟨s, hs, hfield⟩ := hplain
  rw [← List.append_nil f.text.toList, FieldClause.toList_text, List.append_nil]
  refine .intro f.negated (fieldText_iff.mpr ⟨s, hs, ?_⟩) (operatorText_sign _)
    (valueText_written hvalue)
  rw [hfield]

theorem IntegerText.bare {cs : List Char} (h : IntegerText cs) : Bare cs := by
  have hnumeric : NumericText cs := by
    cases h with
    | unsigned h => exact .of_digits h.nonempty h.digits
    | signed h => exact (NumericText.of_digits h.nonempty h.digits).signed
  refine ⟨hnumeric.nonempty, ?_⟩
  intro c hc hborder
  exact not_numeric c (List.mem_cons_of_mem _ hborder) (hnumeric.numeric c hc)

theorem ValueText.bare_or_quoted {cs : List Char} (h : ValueText cs) :
    Bare cs ∨ ∃ s : String, cs = (Quoted.quote s).toList := by
  cases h with
  | null => exact .inl Value.bare_null
  | integer h => exact .inl h.bare
  | quoted h => exact .inr (quotedText_iff.mp h)

theorem ValueText.cut {a b x y : List Char} (ha : ValueText a) (hb : ValueText b) (hx : Spaced x)
    (hy : Spaced y) (h : a ++ x = b ++ y) : a = b ∧ x = y := by
  rcases ha.bare_or_quoted with ha | ⟨s, hs⟩
  · rcases hb.bare_or_quoted with hb | ⟨t, ht⟩
    · exact ha.cut hb hx hy h
    · rw [ht] at h
      exact absurd h (ha.ne_quote t)
  · rw [hs] at h ⊢
    rcases hb.bare_or_quoted with hb | ⟨t, ht⟩
    · exact absurd h.symm (hb.ne_quote s)
    · rw [ht] at h ⊢
      obtain ⟨hst, hrest⟩ := quote_cut h
      exact ⟨by rw [hst], hrest⟩

/-- No value starts like a sign of comparison. -/
theorem ValueText.head?_append {cs : List Char} (h : ValueText cs) (x : List Char) :
    ∀ c ∈ (cs ++ x).head?, c ∉ signs := by
  intro c hc
  rcases h.bare_or_quoted with h | ⟨s, hs⟩
  · obtain ⟨d, ds, rfl⟩ := List.exists_cons_of_ne_nil h.nonempty
    cases hc
    intro hsign
    exact h.clear c List.mem_cons_self (List.mem_cons_of_mem _ (List.mem_cons_of_mem _ hsign))
  · rw [hs] at hc
    exact Value.head?_written (.text s) x c hc

/-- Of two clauses at the front of one text, each with a space or nothing after it, neither is
longer than the other. -/
theorem ClauseText.cut {a b x y : List Char} (ha : ClauseText a) (hb : ClauseText b)
    (hx : Spaced x) (hy : Spaced y) (h : a ++ x = b ++ y) : a = b ∧ x = y := by
  obtain ⟨m, hfield, hoperator, hvalue⟩ := ha
  obtain ⟨n, hfield', hoperator', hvalue'⟩ := hb
  obtain ⟨s, hs, rfl⟩ := fieldText_iff.mp hfield
  obtain ⟨t, ht, rfl⟩ := fieldText_iff.mp hfield'
  obtain ⟨o, rfl⟩ := hoperator.exists_sign
  obtain ⟨p, rfl⟩ := hoperator'.exists_sign
  simp only [List.append_assoc] at h
  obtain ⟨rfl, hbody⟩ := negation_cut (Subject.expression_opens hs _)
    (Subject.expression_opens ht _) h
  obtain ⟨rfl, hafter⟩ := Subject.expression_cut hs ht hbody
  obtain ⟨rfl, hvalues⟩ := Operator.sign_cut (hvalue.head?_append x) (hvalue'.head?_append y) hafter
  obtain ⟨rfl, hrest⟩ := hvalue.cut hvalue' hx hy hvalues
  exact ⟨rfl, hrest⟩

end FieldQuery.Grammar
