import FieldQuery.Clause
import FieldQuery.Proofs.NumberText

/-!
# Reading one clause off a text

A field clause at the front of a text can be read in one way only, whatever it is about and whatever
string it compares with, provided the name of a plain field has nothing in it by which the reading
is steered: it is not empty, does not start with the negation sign, and has no space, quote, opening
bracket or sign of comparison in it.

Two readings of one text are cut at the same places. A name ends at the first character that may not
stand in a name, a quoted string ends at its own closing quote, and a number at the first character
that is not a character of numbers.
-/
namespace FieldQuery

-- Texts are checked character by character, never by going through all characters there are.
attribute [local instance (high)] List.decidableBAll

/-- The characters that end a name. -/
def stops : List Char := [' ', '"', '[', ':', '~', '<', '>']

structure PlainName (name : String) : Prop where
  nonempty : name.toList ≠ []
  unsigned : name.toList.head? ≠ some '-'
  clear : ∀ c ∈ name.toList, c ∉ stops

instance (name : String) : Decidable (PlainName name) :=
  decidable_of_iff
    (name.toList ≠ [] ∧ name.toList.head? ≠ some '-' ∧ ∀ c ∈ name.toList, c ∉ stops)
    ⟨fun ⟨hne, hsign, hclear⟩ => ⟨hne, hsign, hclear⟩,
      fun ⟨hne, hsign, hclear⟩ => ⟨hne, hsign, hclear⟩⟩

/-- Any metadata key will do, as it is quoted. -/
def Subject.Plain : Subject → Prop
  | .field name => PlainName name
  | .metadata _ => True

instance : (s : Subject) → Decidable s.Plain
  | .field name => inferInstanceAs (Decidable (PlainName name))
  | .metadata _ => .isTrue trivial

/-- The field clause is about a subject whose name can be told from what follows it. -/
def FieldClause.Plain (f : FieldClause) : Prop := ∃ s : Subject, s.Plain ∧ f.field = s.expression

/-- Values that are written alike: numbers may differ when their texts do not. -/
def Value.Alike : Value → Value → Prop
  | .null, .null => True
  | .number m, .number n => m.text = n.text
  | .text s, .text t => s = t
  | _, _ => False

/-- Field clauses that ask for the same, about the same field or the same key of the metadata. -/
structure FieldClause.Alike (f g : FieldClause) : Prop where
  field : f.field = g.field
  key : ∀ k l, f.field = (Subject.metadata k).expression →
    g.field = (Subject.metadata l).expression → k = l
  operator : f.operator = g.operator
  value : f.value.Alike g.value
  negated : f.negated = g.negated

/-- Two texts that start with what `p` allows and go on with what it forbids are cut at the same
place. -/
theorem append_cut {p : Char → Prop} {a b x y : List Char} (ha : ∀ c ∈ a, p c) (hb : ∀ c ∈ b, p c)
    (hx : ∀ c ∈ x.head?, ¬ p c) (hy : ∀ c ∈ y.head?, ¬ p c) (h : a ++ x = b ++ y) :
    a = b ∧ x = y := by
  induction a generalizing b with
  | nil =>
    cases b with
    | nil => exact ⟨rfl, h⟩
    | cons d b =>
      have hd : x.head? = some d := by rw [show x = d :: (b ++ y) from h]; rfl
      exact absurd (hb d List.mem_cons_self) (hx d hd)
  | cons c a ih =>
    cases b with
    | nil =>
      have hc : y.head? = some c := by rw [show y = c :: (a ++ x) from h.symm]; rfl
      exact absurd (ha c List.mem_cons_self) (hy c hc)
    | cons d b =>
      obtain ⟨rfl, htail⟩ := List.cons.inj h
      have ha' : ∀ e ∈ a, p e := fun e he => ha e (List.mem_cons_of_mem c he)
      have hb' : ∀ e ∈ b, p e := fun e he => hb e (List.mem_cons_of_mem c he)
      obtain ⟨rfl, hxy⟩ := ih ha' hb' htail
      exact ⟨rfl, hxy⟩

/-- Where what `p` allows ends, characters are no longer taken. -/
theorem take_drop_append {p : Char → Bool} {a x : List Char} (ha : ∀ c ∈ a, p c = true)
    (hx : ∀ c ∈ x.head?, p c = false) :
    (a ++ x).takeWhile p = a ∧ (a ++ x).dropWhile p = x := by
  have hstop : x.takeWhile p = [] ∧ x.dropWhile p = x := by
    cases x with
    | nil => exact ⟨rfl, rfl⟩
    | cons c x =>
      have hc : ¬ p c = true := by simp [hx c rfl]
      exact ⟨List.takeWhile_cons_of_neg hc, List.dropWhile_cons_of_neg hc⟩
  rw [List.takeWhile_append_of_pos ha, List.dropWhile_append_of_pos ha, hstop.1, hstop.2,
    List.append_nil]
  exact ⟨rfl, rfl⟩

theorem name_cut {a b x y : List Char} (ha : ∀ c ∈ a, c ∉ stops) (hb : ∀ c ∈ b, c ∉ stops)
    (hx : ∀ c ∈ x.head?, c ∈ stops) (hy : ∀ c ∈ y.head?, c ∈ stops) (h : a ++ x = b ++ y) :
    a = b ∧ x = y := by
  apply append_cut (p := (· ∉ stops)) ha hb _ _ h
  · exact fun c hc => not_not_intro (hx c hc)
  · exact fun c hc => not_not_intro (hy c hc)

/-- A sign of negation is told from what does not start with one. -/
theorem negation_cut {m n : Bool} {x y : List Char} (hx : ∀ c ∈ x.head?, c ≠ '-')
    (hy : ∀ c ∈ y.head?, c ≠ '-')
    (h : (if m then ['-'] else []) ++ x = (if n then ['-'] else []) ++ y) : m = n ∧ x = y := by
  cases m <;> cases n
  · exact ⟨rfl, h⟩
  · have hsign : x = '-' :: y := h
    exact absurd rfl (hx '-' (by rw [hsign]; rfl))
  · have hsign : y = '-' :: x := h.symm
    exact absurd rfl (hy '-' (by rw [hsign]; rfl))
  · exact ⟨rfl, (List.cons.inj h).2⟩

/-- Two quoted strings at the front of one text are the same. -/
theorem quote_cut {s t : String} {x y : List Char}
    (h : (Quoted.quote s).toList ++ x = (Quoted.quote t).toList ++ y) : s = t ∧ x = y := by
  have hs := Quoted.scan_quote s x
  rw [h, Quoted.scan_quote t y] at hs
  obtain ⟨htext, hrest⟩ := Prod.mk.inj (Option.some.inj hs)
  exact ⟨String.toList_inj.mp htext.symm, hrest.symm⟩

/-- The characters that comparisons are signed with. -/
def signs : List Char := [':', '~', '<', '>', '=']

theorem Operator.sign_opens (o : Operator) :
    ∃ c rest, o.sign.toList = c :: rest ∧ c ∈ stops ∧ c ≠ ' ' ∧ c ≠ '[' := by
  rcases o with _ | _ | b
  · exact ⟨':', [], rfl, by decide⟩
  · exact ⟨'~', [], rfl, by decide⟩
  · cases b with
    | greater => exact ⟨'>', [], rfl, by decide⟩
    | lesser => exact ⟨'<', [], rfl, by decide⟩
    | greaterEqual => exact ⟨'>', ['='], rfl, by decide⟩
    | lesserEqual => exact ⟨'<', ['='], rfl, by decide⟩

theorem Operator.mem_signs (o : Operator) : ∀ c ∈ o.sign.toList, c ∈ signs := by
  rcases o with _ | _ | b
  · decide
  · decide
  · cases b <;> decide

theorem Operator.sign_injective {o p : Operator} (h : o.sign = p.sign) : o = p := by
  rcases o with _ | _ | b <;> rcases p with _ | _ | d
  case range.range => cases b <;> cases d <;> first | rfl | exact absurd h (by decide)
  case range.equals | range.contains => cases b <;> exact absurd h (by decide)
  case equals.range | contains.range => cases d <;> exact absurd h (by decide)
  all_goals first | rfl | exact absurd h (by decide)

theorem Operator.sign_cut {o p : Operator} {x y : List Char} (hx : ∀ c ∈ x.head?, c ∉ signs)
    (hy : ∀ c ∈ y.head?, c ∉ signs) (h : o.sign.toList ++ x = p.sign.toList ++ y) :
    o = p ∧ x = y := by
  obtain ⟨hsign, hrest⟩ := append_cut (p := (· ∈ signs)) o.mem_signs p.mem_signs hx hy h
  exact ⟨sign_injective (String.toList_inj.mp hsign), hrest⟩

/-- A text that takes no quotes: it neither ends before its last character, nor starts a quoted
string, nor continues a sign. -/
structure Bare (cs : List Char) : Prop where
  nonempty : cs ≠ []
  clear : ∀ c ∈ cs, c ∉ ' ' :: '"' :: signs

theorem not_numeric : ∀ c ∈ 'u' :: ' ' :: '"' :: signs, ¬ Numeric c := by decide

theorem Value.bare_null : Bare Value.null.written.toList := ⟨by decide, by decide⟩

theorem Value.bare_number (n : Number) : Bare (Value.number n).written.toList := by
  have h := n.numericText_text
  refine ⟨h.nonempty, ?_⟩
  intro c hc hborder
  exact not_numeric c (List.mem_cons_of_mem _ hborder) (h.numeric c hc)

/-- The rest of a text after a field clause: nothing, or something after a space. -/
def Spaced (x : List Char) : Prop := ∀ c ∈ x.head?, c = ' '

theorem Bare.cut {a b x y : List Char} (ha : Bare a) (hb : Bare b) (hx : Spaced x) (hy : Spaced y)
    (h : a ++ x = b ++ y) : a = b ∧ x = y := by
  apply append_cut (p := (· ≠ ' ')) _ _ _ _ h
  · rintro c hc rfl
    exact ha.clear ' ' hc (by decide)
  · rintro c hc rfl
    exact hb.clear ' ' hc (by decide)
  · exact fun c hc => not_not_intro (hx c hc)
  · exact fun c hc => not_not_intro (hy c hc)

theorem Bare.ne_quote {a x y : List Char} (ha : Bare a) (s : String) :
    a ++ x ≠ (Quoted.quote s).toList ++ y := by
  intro h
  obtain ⟨c, a, rfl⟩ := List.exists_cons_of_ne_nil ha.nonempty
  rw [Quoted.toList_quote] at h
  obtain ⟨rfl, -⟩ := List.cons.inj h
  exact ha.clear '"' List.mem_cons_self (by decide)

theorem Value.null_ne_number (n : Number) :
    Value.null.written.toList ≠ (Value.number n).written.toList := by
  intro h
  have hu : 'u' ∈ Value.null.written.toList := by decide
  rw [h] at hu
  exact not_numeric 'u' (by decide) (n.numericText_text.numeric 'u' hu)

theorem Value.written_cut {v w : Value} {x y : List Char} (hx : Spaced x) (hy : Spaced y)
    (h : v.written.toList ++ x = w.written.toList ++ y) : v.Alike w ∧ x = y := by
  cases v with
  | null =>
    cases w with
    | null => exact ⟨trivial, (bare_null.cut bare_null hx hy h).2⟩
    | number n => exact absurd (bare_null.cut (bare_number n) hx hy h).1 (null_ne_number n)
    | text t => exact absurd h (bare_null.ne_quote t)
  | number m =>
    cases w with
    | null => exact absurd ((bare_number m).cut bare_null hx hy h).1.symm (null_ne_number m)
    | number n =>
      obtain ⟨htext, hrest⟩ := (bare_number m).cut (bare_number n) hx hy h
      exact ⟨String.toList_inj.mp htext, hrest⟩
    | text t => exact absurd h ((bare_number m).ne_quote t)
  | text s =>
    cases w with
    | null => exact absurd h.symm (bare_null.ne_quote s)
    | number n => exact absurd h.symm ((bare_number n).ne_quote s)
    | text t => exact quote_cut h

/-- No value starts like a sign, so a sign that could be continued is told from its continuation. -/
theorem Value.head?_written (v : Value) (x : List Char) :
    ∀ c ∈ (v.written.toList ++ x).head?, c ∉ signs := by
  have hbare : ∀ a : List Char, Bare a → ∀ c ∈ (a ++ x).head?, c ∉ signs := by
    intro a ha c hc
    obtain ⟨d, a, rfl⟩ := List.exists_cons_of_ne_nil ha.nonempty
    cases hc
    intro hsign
    exact ha.clear c List.mem_cons_self (List.mem_cons_of_mem _ (List.mem_cons_of_mem _ hsign))
  cases v with
  | null => exact hbare _ bare_null
  | number n => exact hbare _ (bare_number n)
  | text s =>
    intro c hc
    rw [written, Quoted.toList_quote] at hc
    cases hc
    decide

theorem Operator.head?_sign (o : Operator) (x : List Char) :
    ∀ c ∈ (o.sign.toList ++ x).head?, c ∈ stops ∧ c ≠ ' ' ∧ c ≠ '[' := by
  intro c hc
  obtain ⟨d, rest, hsign, hd⟩ := o.sign_opens
  rw [hsign] at hc
  cases hc
  exact hd

theorem Subject.toList_metadata (key : String) (x : List Char) :
    (Subject.metadata key).expression.toList ++ x =
      Grammar.metadataWord.toList ++ ('[' :: ((Quoted.quote key).toList ++ (']' :: x))) := by
  simp [expression, String.toList_append, List.append_assoc]

theorem Subject.key_injective {k l : String}
    (h : (Subject.metadata k).expression = (Subject.metadata l).expression) : k = l := by
  have htext := congrArg (·.toList ++ []) h
  simp only [toList_metadata] at htext
  exact (quote_cut (List.cons.inj (List.append_cancel_left htext)).2).1

/-- A subject starts with characters of names, and not with the sign of negation. -/
theorem Subject.expression_opens {s : Subject} (hs : s.Plain) (x : List Char) :
    ∀ c ∈ (s.expression.toList ++ x).head?, c ≠ '-' := by
  intro c hc
  cases s with
  | metadata key =>
    rw [toList_metadata] at hc
    cases hc
    decide
  | field name =>
    obtain ⟨d, rest, hname⟩ := List.exists_cons_of_ne_nil hs.nonempty
    have hsign := hs.unsigned
    rw [hname] at hsign
    rw [expression, hname] at hc
    cases hc
    simpa using hsign

theorem metadataWord_clear : ∀ c ∈ Grammar.metadataWord.toList, c ∉ stops := by decide

theorem Subject.expression_cut {s t : Subject} (hs : s.Plain) (ht : t.Plain) {o p : Operator}
    {x y : List Char} (h : s.expression.toList ++ (o.sign.toList ++ x) =
      t.expression.toList ++ (p.sign.toList ++ y)) :
    s = t ∧ o.sign.toList ++ x = p.sign.toList ++ y := by
  have hx : ∀ c ∈ (o.sign.toList ++ x).head?, c ∈ stops := fun c hc => (o.head?_sign x c hc).1
  have hy : ∀ c ∈ (p.sign.toList ++ y).head?, c ∈ stops := fun c hc => (p.head?_sign y c hc).1
  have hbracket : ∀ z : List Char, ∀ c ∈ ('[' :: z).head?, c ∈ stops := by
    intro z c hc
    cases hc
    decide
  -- A plain name ends at a sign and the word before a key at its bracket, so the kinds differ.
  cases s with
  | field m =>
    cases t with
    | field n =>
      obtain ⟨hname, hrest⟩ := name_cut hs.clear ht.clear hx hy h
      exact ⟨congrArg Subject.field (String.toList_inj.mp hname), hrest⟩
    | metadata key =>
      rw [toList_metadata] at h
      have hrest := (name_cut hs.clear metadataWord_clear hx (hbracket _) h).2
      exact absurd rfl (o.head?_sign x '[' (by rw [hrest]; rfl)).2.2
  | metadata key =>
    rw [toList_metadata] at h
    cases t with
    | field n =>
      have hrest := (name_cut metadataWord_clear ht.clear (hbracket _) hy h).2
      exact absurd rfl (p.head?_sign y '[' (by rw [← hrest]; rfl)).2.2
    | metadata other =>
      rw [toList_metadata] at h
      have hquoted := (List.cons.inj (List.append_cancel_left h)).2
      obtain ⟨rfl, hrest⟩ := quote_cut hquoted
      exact ⟨rfl, (List.cons.inj hrest).2⟩

/-- Where a subject ends its name, the character there is no space. -/
theorem Subject.expression_ends {s : Subject} (hs : s.Plain) (o : Operator) (x : List Char) :
    ∃ a y, s.expression.toList ++ (o.sign.toList ++ x) = a ++ y ∧ (∀ c ∈ a, c ∉ stops) ∧
      ∀ c ∈ y.head?, c ∈ stops ∧ c ≠ ' ' := by
  cases s with
  | field name =>
    refine ⟨name.toList, _, rfl, hs.clear, ?_⟩
    intro c hc
    have hsign := o.head?_sign x c hc
    exact ⟨hsign.1, hsign.2.1⟩
  | metadata key =>
    refine ⟨_, _, toList_metadata key _, metadataWord_clear, ?_⟩
    intro c hc
    cases hc
    decide

namespace FieldClause

theorem toList_text (f : FieldClause) (x : List Char) :
    f.text.toList ++ x = (if f.negated then ['-'] else []) ++
      (f.field.toList ++ (f.operator.sign.toList ++ (f.value.written.toList ++ x))) := by
  cases h : f.negated <;>
    simp [text, h, String.toList_append, List.append_assoc, Grammar.negationSign]

/-- One field clause at the front of a text is read off it in one way. -/
theorem text_cut {f g : FieldClause} (hf : f.Plain) (hg : g.Plain) {x y : List Char}
    (hx : Spaced x) (hy : Spaced y) (h : f.text.toList ++ x = g.text.toList ++ y) :
    f.Alike g ∧ x = y := by
  obtain ⟨s, hs, hfs⟩ := hf
  obtain ⟨t, ht, hgt⟩ := hg
  rw [toList_text, toList_text, hfs, hgt] at h
  obtain ⟨hnegated, hbody⟩ := negation_cut (Subject.expression_opens hs _)
    (Subject.expression_opens ht _) h
  obtain ⟨hsubject, hafter⟩ := Subject.expression_cut hs ht hbody
  obtain ⟨hoperator, hvalue⟩ := Operator.sign_cut (f.value.head?_written x)
    (g.value.head?_written y) hafter
  obtain ⟨halike, hrest⟩ := Value.written_cut hx hy hvalue
  have hfield : f.field = g.field := by rw [hfs, hgt, hsubject]
  refine ⟨⟨hfield, ?_, hoperator, halike, hnegated⟩, hrest⟩
  intro k l hk hl
  exact Subject.key_injective (hk.symm.trans (hfield.trans hl))

theorem text_ne_nil {f : FieldClause} (x : List Char) : f.text.toList ++ x ≠ [] := by
  obtain ⟨c, rest, hsign, -⟩ := f.operator.sign_opens
  rw [toList_text, hsign]
  simp

/-- A field clause is no connective: another character that ends a name comes before any space. -/
theorem text_ne_word {f : FieldClause} (hf : f.Plain) (c : Connective) (x y : List Char) :
    f.text.toList ++ x ≠ c.word.toList ++ (' ' :: y) := by
  intro h
  obtain ⟨s, hs, hfs⟩ := hf
  obtain ⟨a, z, hcut, ha, hz⟩ := Subject.expression_ends hs f.operator (f.value.written.toList ++ x)
  have hword : ∀ d ∈ c.word.toList, d ∉ stops := by cases c <;> decide
  have hsigned : ∀ d ∈ (if f.negated then ['-'] else []) ++ a, d ∉ stops := by
    intro d hd
    rcases List.mem_append.mp hd with hd | hd
    · split at hd
      · rw [List.mem_singleton.mp hd]
        decide
      · cases hd
    · exact ha d hd
  have hspace : ∀ d ∈ (' ' :: y).head?, d ∈ stops := by
    intro d hd
    cases hd
    decide
  rw [toList_text, hfs, hcut, ← List.append_assoc] at h
  have hrest := (name_cut hsigned hword (fun d hd => (hz d hd).1) hspace h).2
  exact absurd rfl (hz ' ' (by rw [hrest]; rfl)).2

end FieldClause
end FieldQuery
