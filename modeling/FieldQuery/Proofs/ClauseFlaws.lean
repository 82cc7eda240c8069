import FieldQuery.Proofs.ClauseSpelling

/-!
# What is wrong with the form of a field clause

A field clause that lacks a part, has a part twice, has one of the wrong type, or is an array of
more or fewer than four, is found to be so at the flaw. Nothing that follows could mend it: where
the values before the flaw end does not depend on what comes after them, so they are the first parts
of every spelling that the tokens could begin with, and a spelling has no such first parts.
-/
namespace FieldQuery

variable {α : Type}

namespace Token

/-- Several parts with a comma after each. -/
def leading (parts : List (List Token)) : List Token := parts.flatMap (· ++ [.comma])

theorem leading_cons_append (part : List Token) (parts : List (List Token)) (rest : List Token) :
    leading (part :: parts) ++ rest = part ++ .comma :: (leading parts ++ rest) := by
  simp [leading]

/-- What has the property is written so that its end is found from its beginning. -/
def Delimited (P : α → Prop) (write : α → List Token) : Prop :=
  ∀ ⦃a b : α⦄ ⦃x y : List Token⦄, P a → P b → write a ++ x = write b ++ y → a = b ∧ x = y

variable {P : α → Prop} {write : α → List Token} {close : Token} {as bs : List α}
  {more rest rest' : List Token}

/-- Parts that are known to come first are the first of all the parts there are. -/
theorem Delimited.peel (h : Delimited P write) (ha : ∀ a ∈ as, P a) (hb : ∀ b ∈ bs, P b)
    (hclose : close ≠ .comma) (hne : bs ≠ [])
    (htokens : leading (as.map write) ++ more = joined (bs.map write) ++ close :: rest) :
    ∃ c cs us, bs = as ++ c :: cs ∧ more = write c ++ us := by
  induction as generalizing bs with
  | nil =>
    obtain ⟨b, bs, rfl⟩ := List.exists_cons_of_ne_nil hne
    rw [List.map_cons, joined, List.append_assoc] at htokens
    exact ⟨b, bs, _, rfl, htokens⟩
  | cons a as ih =>
    obtain ⟨b, bs, rfl⟩ := List.exists_cons_of_ne_nil hne
    rw [List.map_cons, leading_cons_append] at htokens
    cases bs with
    | nil =>
      rw [List.map_singleton, joined, List.flatMap_nil, List.append_nil] at htokens
      have hrest := (h (ha a List.mem_cons_self) (hb b List.mem_cons_self) htokens).2
      exact absurd (List.cons.inj hrest).1.symm hclose
    | cons c bs =>
      rw [List.map_cons, List.map_cons, joined_cons_cons, List.append_assoc,
        List.cons_append] at htokens
      obtain ⟨ha, has⟩ := List.forall_mem_cons.mp ha
      obtain ⟨hb, hbs⟩ := List.forall_mem_cons.mp hb
      obtain ⟨rfl, hrest⟩ := h ha hb htokens
      obtain ⟨d, ds, us, hds, hmore⟩ := ih has hbs (List.cons_ne_nil c bs) (List.cons.inj hrest).2
      exact ⟨d, ds, us, by rw [hds, List.cons_append], hmore⟩

theorem Delimited.tail_inj (h : Delimited P write) (ha : ∀ a ∈ as, P a) (hb : ∀ b ∈ bs, P b)
    (hclose : close ≠ .comma)
    (htokens : (as.map write).flatMap (.comma :: ·) ++ close :: rest =
      (bs.map write).flatMap (.comma :: ·) ++ close :: rest') : as = bs := by
  induction as generalizing bs with
  | nil =>
    cases bs with
    | nil => rfl
    | cons b bs => exact absurd (List.cons.inj htokens).1 hclose
  | cons a as ih =>
    cases bs with
    | nil => exact absurd (List.cons.inj htokens).1.symm hclose
    | cons b bs =>
      obtain ⟨ha, has⟩ := List.forall_mem_cons.mp ha
      obtain ⟨hb, hbs⟩ := List.forall_mem_cons.mp hb
      simp only [List.map_cons, List.flatMap_cons, List.cons_append, List.append_assoc] at htokens
      obtain ⟨rfl, hrest⟩ := h ha hb (List.cons.inj htokens).2
      rw [ih has hbs hrest]

/-- All the parts up to a closing bracket are known from the tokens. -/
theorem Delimited.joined_inj (h : Delimited P write) (ha : ∀ a ∈ as, P a) (hb : ∀ b ∈ bs, P b)
    (hclose : close ≠ .comma) (hopen : ∀ a us vs, P a → write a ++ us ≠ close :: vs)
    (htokens : joined (as.map write) ++ close :: rest = joined (bs.map write) ++ close :: rest') :
    as = bs := by
  cases as with
  | nil =>
    cases bs with
    | nil => rfl
    | cons b bs =>
      rw [List.map_cons, joined, List.append_assoc] at htokens
      exact absurd htokens.symm (hopen b _ _ (hb b List.mem_cons_self))
  | cons a as =>
    cases bs with
    | nil =>
      rw [List.map_cons, joined, List.append_assoc] at htokens
      exact absurd htokens (hopen a _ _ (ha a List.mem_cons_self))
    | cons b bs =>
      obtain ⟨ha, has⟩ := List.forall_mem_cons.mp ha
      obtain ⟨hb, hbs⟩ := List.forall_mem_cons.mp hb
      simp only [List.map_cons, joined, List.append_assoc] at htokens
      obtain ⟨rfl, hrest⟩ := h ha hb htokens
      rw [h.tail_inj has hbs hclose hrest]

theorem AnyValue.delimited : Delimited AnyValue id := by
  intro body body' x y h h' htokens
  have hskip : skip (body ++ x) = some x := skip_eq_some_iff.mpr ⟨body, rfl, h⟩
  have hskip' : skip (body ++ x) = some y := skip_eq_some_iff.mpr ⟨body', htokens, h'⟩
  obtain rfl : x = y := Option.some.inj (hskip.symm.trans hskip')
  exact ⟨List.append_cancel_right htokens, rfl⟩

/-- A member of an object, written with its name. -/
def namedMember (m : String × List Token) : List Token := member (some m.1) m.2

theorem delimited_namedMember : Delimited (fun m => AnyValue m.2) namedMember := by
  rintro ⟨name, body⟩ ⟨name', body'⟩ x y h h' htokens
  simp only [namedMember, member, List.cons_append, List.cons.injEq, Token.text.injEq,
    Option.some.injEq, true_and] at htokens
  obtain ⟨rfl, htokens⟩ := htokens
  obtain ⟨rfl, rfl⟩ := AnyValue.delimited h h' htokens
  exact ⟨rfl, rfl⟩

theorem anyValue_tagged {name : String} {ts : List Token} (h : AnyValue ts) :
    AnyValue (tagged name ts) := by
  have hobject := @AnyValue.object [(some name, ts)] (List.forall_mem_singleton.mpr h)
  simpa [joined, member, tagged] using hobject

end Token

open Token

theorem UnitForm.anyValue {name : String} {ts : List Token} (h : UnitForm name ts) :
    AnyValue ts := by
  cases h with
  | name => exact .text _
  | object => exact anyValue_tagged .null

theorem Number.Form.anyValue {n : Number} {ts : List Token} (h : n.Form ts) : AnyValue ts := by
  cases h <;> exact anyValue_tagged (.number _)

theorem Value.Form.anyValue {v : Value} {ts : List Token} (h : v.Form ts) : AnyValue ts := by
  cases h with
  | null h => exact h.anyValue
  | number h => exact anyValue_tagged h.anyValue
  | text s => exact anyValue_tagged (.text _)

namespace FieldClause

variable {c : FieldClause}

theorem MemberForm.anyValue {name : String} {ts : List Token} (h : c.MemberForm name ts) :
    AnyValue ts := by
  cases h with
  | field => exact .text _
  | operator h => exact h.anyValue
  | value h => exact h.anyValue
  | negated => exact .bool _
  | unknown _ h => exact h

/-- A spelling that begins like an object is one. -/
theorem Form.exists_members {body us rest : List Token} (h : c.Form body)
    (hbody : .openObject :: us = body ++ rest) :
    ∃ members : List (String × List Token),
      us = joined (members.map namedMember) ++ .closeObject :: rest ∧
      (∀ m ∈ members, c.MemberForm m.1 m.2) ∧ (∀ m ∈ members, AnyValue m.2) ∧
      ∀ name ∈ partNames, (members.map Prod.fst).count name = 1 := by
  cases h with
  | @object members hmembers hnames =>
    rw [List.cons_append, List.append_assoc, List.singleton_append] at hbody
    exact ⟨members, (List.cons.inj hbody).2, hmembers, fun m hm => (hmembers m hm).anyValue, hnames⟩
  | array => cases hbody

/-- The parts in an array are the members in their order, without their names. -/
theorem Form.exists_parts {body us rest : List Token} (h : c.Form body)
    (hbody : .openArray :: us = body ++ rest) :
    ∃ parts, us = joined parts ++ .closeArray :: rest ∧
      List.Forall₂ c.MemberForm partNames parts ∧ ∀ part ∈ parts, AnyValue part := by
  cases h with
  | object => cases hbody
  | array hoperator hvalue =>
    rw [List.cons_append, List.append_assoc, List.singleton_append] at hbody
    have hparts : List.Forall₂ c.MemberForm partNames _ :=
      .cons .field (.cons (.operator hoperator) (.cons (.value hvalue) (.cons .negated .nil)))
    exact ⟨_, (List.cons.inj hbody).2, hparts, forall_mem_of_forall₂ hparts MemberForm.anyValue⟩

theorem Form.anyValue {ts : List Token} (h : c.Form ts) : AnyValue ts := by
  cases h with
  | @object members hmembers _ =>
    have hvalues : ∀ m ∈ members.map fun m => (some m.1, m.2), AnyValue m.2 :=
      List.forall_mem_map.mpr fun m hm => (hmembers m hm).anyValue
    have hobject := AnyValue.object hvalues
    rw [List.map_map] at hobject
    exact hobject
  | array hoperator hvalue =>
    refine .array ?_
    simp only [List.forall_mem_cons]
    exact ⟨.text _, hoperator.anyValue, hvalue.anyValue, .bool _, List.forall_mem_nil _⟩

end FieldClause

theorem Clause.Form.anyValue {c : Clause} {ts : List Token} (h : c.Form ts) : AnyValue ts := by
  cases h with
  | field h => exact anyValue_tagged h.anyValue
  | logical h => exact anyValue_tagged h.anyValue

namespace FieldClause

variable {c : FieldClause} {body us rest : List Token}

/-- Tokens that begin with a flaw, up to where it shows, and any others after it. Before the flaw
stand values of any kind, whether they are those of a field clause or not. -/
inductive Flaw : List Token → Prop
  /-- Neither an object nor an array. -/
  | other {t : Token} {rest : List Token} : t ≠ .openObject → t ≠ .openArray → Flaw (t :: rest)
  /-- An object that closes while a part is missing. -/
  | missing {members : List (String × List Token)} {part : String} {rest : List Token} :
      (∀ m ∈ members, AnyValue m.2) → part ∈ partNames → part ∉ members.map Prod.fst →
      Flaw (.openObject :: (joined (members.map namedMember) ++ .closeObject :: rest))
  /-- The name of a part that has been there. -/
  | duplicate {members : List (String × List Token)} {part : String} {rest : List Token} :
      (∀ m ∈ members, AnyValue m.2) → part ∈ partNames → part ∈ members.map Prod.fst →
      Flaw (.openObject :: (leading (members.map namedMember) ++ .text (some part) :: rest))
  /-- A member with a value that the part of this name does not have in any clause. -/
  | wrongMember {members : List (String × List Token)} {part : String} {body rest : List Token} :
      (∀ m ∈ members, AnyValue m.2) → AnyValue body → (∀ c, ¬ MemberForm c part body) →
      Flaw (.openObject ::
        (leading (members.map namedMember) ++ (namedMember (part, body) ++ rest)))
  /-- An array that closes too early. -/
  | short {parts : List (List Token)} {rest : List Token} : (∀ part ∈ parts, AnyValue part) →
      parts.length < partNames.length → Flaw (.openArray :: (joined parts ++ .closeArray :: rest))
  /-- An array that goes on when it should close. -/
  | long {parts : List (List Token)} {rest : List Token} : (∀ part ∈ parts, AnyValue part) →
      parts.length = partNames.length → Flaw (.openArray :: (leading parts ++ rest))
  /-- A value in an array that the part at this place does not have in any clause. -/
  | wrongPart {parts : List (List Token)} {name : String} {body rest : List Token} :
      (∀ part ∈ parts, AnyValue part) → partNames[parts.length]? = some name → AnyValue body →
      (∀ c, ¬ MemberForm c name body) → Flaw (.openArray :: (leading parts ++ (body ++ rest)))

theorem Form.ne_nil_of_count {members : List (String × List Token)}
    (h : ∀ name ∈ partNames, (members.map Prod.fst).count name = 1) : members ≠ [] := by
  rintro rfl
  exact absurd (h "field" (by decide)) (by decide)

/-- The members before a flaw are the first members of every spelling. -/
theorem Form.peel_members {members : List (String × List Token)} (h : c.Form body)
    (hmembers : ∀ m ∈ members, AnyValue m.2)
    (hbody : .openObject :: (leading (members.map namedMember) ++ us) = body ++ rest) :
    ∃ name value others more, us = namedMember (name, value) ++ more ∧ c.MemberForm name value ∧
      ∀ part ∈ partNames,
        ((members ++ (name, value) :: others).map Prod.fst).count part = 1 := by
  obtain ⟨all, htokens, hall, hvalues, hnames⟩ := h.exists_members hbody
  obtain ⟨⟨name, value⟩, others, more, rfl, hus⟩ := delimited_namedMember.peel hmembers hvalues
    (by decide) (Form.ne_nil_of_count hnames) htokens
  exact ⟨name, value, others, more, hus, hall (name, value) (by simp), hnames⟩

/-- The parts before a flaw are the first parts of every spelling. -/
theorem Form.peel_parts {parts : List (List Token)} (h : c.Form body)
    (hparts : ∀ part ∈ parts, AnyValue part)
    (hbody : .openArray :: (leading parts ++ us) = body ++ rest) :
    ∃ name part more, us = part ++ more ∧ partNames[parts.length]? = some name ∧
      c.MemberForm name part := by
  obtain ⟨all, htokens, hall, hvalues⟩ := h.exists_parts hbody
  have hne : all ≠ [] := by
    rintro rfl
    cases hall
  rw [← parts.map_id, ← all.map_id] at htokens
  obtain ⟨part, others, more, rfl, hus⟩ :=
    AnyValue.delimited.peel hparts hvalues (by decide) hne htokens
  obtain ⟨name, names, hpart, -, hdrop⟩ :=
    List.forall₂_cons_right_iff.mp (List.forall₂_drop_append _ _ _ hall)
  refine ⟨name, part, more, hus, ?_, hpart⟩
  rw [← List.head?_drop, hdrop, List.head?_cons]

/-- Tokens with a flaw begin with no field clause. -/
theorem Flaw.not_form {ts : List Token} (h : Flaw ts) (hts : ts = body ++ rest) :
    ¬ c.Form body := by
  intro hform
  cases h with
  | other hobject harray =>
    cases hform with
    | object => exact hobject (List.cons.inj hts).1
    | array => exact harray (List.cons.inj hts).1
  | @missing members part _ hmembers hpart hmissing =>
    obtain ⟨all, htokens, -, hvalues, hnames⟩ := hform.exists_members hts
    have heq : members = all := by
      refine delimited_namedMember.joined_inj hmembers hvalues (by decide) ?_ htokens
      exact fun _ _ _ _ => nofun
    rw [← heq] at hnames
    exact absurd (List.count_eq_zero.mpr hmissing) (by rw [hnames part hpart]; decide)
  | @duplicate members part _ hmembers hpart hmem =>
    obtain ⟨name, value, others, more, hus, -, hnames⟩ := hform.peel_members hmembers hts
    obtain rfl : part = name := by
      simp only [namedMember, member, List.cons_append, List.cons.injEq, Token.text.injEq,
        Option.some.injEq] at hus
      exact hus.1
    have hcount := hnames part hpart
    rw [List.map_append, List.map_cons, List.count_append, List.count_cons_self] at hcount
    have hpos := List.count_pos_iff.mpr hmem
    omega
  | @wrongMember members part body _ hmembers hbody hwrong =>
    obtain ⟨name, value, others, more, hus, hvalue, -⟩ := hform.peel_members hmembers hts
    cases (delimited_namedMember hbody hvalue.anyValue hus).1
    exact hwrong c hvalue
  | @short parts _ hparts hlength =>
    obtain ⟨all, htokens, hall, hvalues⟩ := hform.exists_parts hts
    rw [← parts.map_id, ← all.map_id] at htokens
    have heq : parts = all := by
      refine AnyValue.delimited.joined_inj hparts hvalues (by decide) ?_ htokens
      exact fun _ _ _ hpart => hpart.ne_closeArray _ _
    rw [heq, hall.length_eq] at hlength
    exact Nat.lt_irrefl _ hlength
  | @long parts _ hparts hlength =>
    obtain ⟨name, part, more, -, hname, -⟩ := hform.peel_parts hparts hts
    rw [hlength, List.getElem?_length] at hname
    cases hname
  | @wrongPart parts name body _ hparts hname hbody hwrong =>
    obtain ⟨name', part, more, hus, hname', hpart⟩ := hform.peel_parts hparts hts
    obtain rfl : name = name' := Option.some.inj (hname.symm.trans hname')
    obtain ⟨rfl, -⟩ := AnyValue.delimited hbody hpart.anyValue hus
    exact hwrong c hpart

end FieldClause
end FieldQuery
