import FieldQuery.Proofs.ClauseForm

/-!
# Reading every spelling of a clause

A field clause is read to its end exactly if it is spelt as one. The members of an object are read
into a draft; at each point the members to come must make the draft the clause, with each open part
once and no part a second time. When the last bracket has been read, the rules for clauses decide.
-/
namespace FieldQuery.Reader

variable {α β : Type}

/-- If nothing was read, the reason is that the form is not met. -/
def Unrefused (r : Reading α) : Prop := ∀ p, r = .error p → p = .malformed

theorem unrefused_ok (x : α × List Token) : Unrefused (.ok x) := by
  intro p h
  cases h

theorem unrefused_malformed : Unrefused (.error .malformed : Reading α) := by
  rintro p ⟨⟩
  rfl

theorem unrefused_found (o : Option α) (ts : List Token) : Unrefused (found o ts) := by
  cases o with
  | none => exact unrefused_malformed
  | some v => exact unrefused_ok (v, ts)

theorem Unrefused.map {r : Reading α} (h : Unrefused r) (f : α → β) :
    Unrefused (r.map fun (v, rest) => (f v, rest)) := by
  rcases r with p | x
  · rintro _ ⟨⟩
    exact h p rfl
  · exact unrefused_ok (f x.1, x.2)

theorem Unrefused.closing {r : Reading α} (h : Unrefused r) : Unrefused (closing r) := by
  unfold Reader.closing
  split
  · exact unrefused_ok _
  · exact unrefused_malformed
  · exact h

theorem Unrefused.comma {r : Reading α} (h : Unrefused r) : Unrefused (comma r) := by
  unfold Reader.comma
  split
  · exact unrefused_ok _
  · exact unrefused_malformed
  · exact h

theorem Unrefused.fill {r : Reading α} (h : Unrefused r) (slot : Option α) (put : α → Draft) :
    Unrefused (fill slot r put) := by
  unfold Reader.fill
  split
  · exact unrefused_malformed
  · exact h.map put

theorem unrefused_text (ts : List Token) : Unrefused (text ts) := by
  unfold text
  split
  · exact unrefused_ok _
  · exact unrefused_malformed

theorem unrefused_flag (ts : List Token) : Unrefused (flag ts) := by
  unfold flag
  split
  · exact unrefused_ok _
  · exact unrefused_malformed

theorem unrefused_named (choice : String → Option α) (ts : List Token) :
    Unrefused (named choice ts) := by
  unfold named
  split
  · exact unrefused_found _ _
  · exact unrefused_found _ _
  · exact unrefused_malformed

theorem unrefused_number (ts : List Token) : Unrefused (number ts) := by
  unfold number
  split
  · exact unrefused_found _ _
  · exact unrefused_malformed

theorem unrefused_value (ts : List Token) : Unrefused (value ts) := by
  unfold value
  split
  · refine Unrefused.closing ?_
    split_ifs
    · split
      · exact unrefused_ok _
      · exact unrefused_malformed
    · exact (unrefused_number _).map _
    · exact (unrefused_text _).map _
    · exact unrefused_malformed
  · exact unrefused_found _ _
  · exact unrefused_malformed

theorem unrefused_member (d : Draft) (name : String) (ts : List Token) :
    Unrefused (member d name ts) := by
  unfold member
  split_ifs
  · exact (unrefused_text ts).fill _ _
  · exact (unrefused_named _ ts).fill _ _
  · exact (unrefused_value ts).fill _ _
  · exact (unrefused_flag ts).fill _ _
  · split
    · exact unrefused_ok _
    · exact unrefused_malformed

/-- A part that is still to be read will be read once, and a part that was read will not be read
again. -/
def Slot (slot : Option α) (part : α) (n : Nat) : Prop :=
  slot = none ∧ n = 1 ∨ slot = some part ∧ n = 0

/-- Members with the given names make the draft the given clause. -/
structure Draft.Completes (d : Draft) (c : FieldClause) (names : List String) : Prop where
  field : Slot d.field c.field (names.count "field")
  operator : Slot d.operator c.operator (names.count "operator")
  value : Slot d.value c.value (names.count "value")
  negated : Slot d.negated c.negated (names.count "negated")

@[simp] theorem slot_some_iff {part v : α} {n : Nat} : Slot (some v) part n ↔ v = part ∧ n = 0 := by
  simp [Slot]

@[simp] theorem slot_nil_iff {slot : Option α} {part : α} {name : String} :
    Slot slot part (([] : List String).count name) ↔ slot = some part := by
  simp [Slot]

@[simp] theorem slot_cons_self_iff {slot : Option α} {part : α} {name : String}
    {names : List String} :
    Slot slot part ((name :: names).count name) ↔ slot = none ∧ names.count name = 0 := by
  simp [Slot]

theorem slot_cons_iff_of_ne {slot : Option α} {part : α} {name other : String}
    {names : List String} (h : other ≠ name) :
    Slot slot part ((other :: names).count name) ↔ Slot slot part (names.count name) := by
  rw [List.count_cons_of_ne h]

theorem clause?_eq_some_iff {d : Draft} {c : FieldClause} :
    d.clause? = some c ↔ d.Completes c [] := by
  obtain ⟨field, operator, value, negated⟩ := d
  constructor
  · intro h
    simp only [Draft.clause?, Option.bind_eq_bind, Option.bind_eq_some_iff, Option.pure_def,
      Option.some.injEq] at h
    obtain ⟨_, rfl, _, rfl, _, rfl, _, rfl, rfl⟩ := h
    exact ⟨slot_nil_iff.mpr rfl, slot_nil_iff.mpr rfl, slot_nil_iff.mpr rfl, slot_nil_iff.mpr rfl⟩
  · rintro ⟨hfield, hoperator, hvalue, hnegated⟩
    rw [slot_nil_iff] at hfield hoperator hvalue hnegated
    subst hfield hoperator hvalue hnegated
    rfl

theorem completes_blank_iff {c : FieldClause} {names : List String} :
    Draft.blank.Completes c names ↔ ∀ name ∈ FieldClause.partNames, names.count name = 1 := by
  have hblank : ∀ {γ : Type} (part : γ) (n : Nat), Slot none part n ↔ n = 1 := by simp [Slot]
  constructor
  · rintro ⟨hfield, hoperator, hvalue, hnegated⟩
    simp [FieldClause.partNames, (hblank _ _).mp hfield, (hblank _ _).mp hoperator,
      (hblank _ _).mp hvalue, (hblank _ _).mp hnegated]
  · intro h
    simp only [FieldClause.partNames, List.forall_mem_cons] at h
    obtain ⟨hfield, hoperator, hvalue, hnegated, -⟩ := h
    exact ⟨.inl ⟨rfl, hfield⟩, .inl ⟨rfl, hoperator⟩, .inl ⟨rfl, hvalue⟩, .inl ⟨rfl, hnegated⟩⟩

theorem member_unknown {name : String} (h : name ∉ FieldClause.partNames) (d : Draft)
    (ts : List Token) :
    member d name ts =
      match Token.skip ts with
      | some rest => .ok (d, rest)
      | none => .error .malformed := by
  simp only [FieldClause.partNames, List.mem_cons, List.not_mem_nil, or_false, not_or] at h
  rw [member]
  exact (if_neg h.1).trans ((if_neg h.2.1).trans ((if_neg h.2.2.1).trans (if_neg h.2.2.2)))

variable {c : FieldClause} {d e : Draft} {name : String} {names : List String}
  {body ts rest : List Token}

/-- A member that has its form is read, and then there is one member less to come. -/
theorem member_complete (hbody : c.MemberForm name body) (hd : d.Completes c (name :: names))
    (rest : List Token) :
    ∃ e, member d name (body ++ rest) = .ok (e, rest) ∧ e.Completes c names := by
  obtain ⟨hfield, hoperator, hvalue, hnegated⟩ := hd
  cases hbody with
  | field =>
    obtain ⟨hopen, hdone⟩ := slot_cons_self_iff.mp hfield
    rw [slot_cons_iff_of_ne (by decide)] at hoperator hvalue hnegated
    refine ⟨{ d with field := some c.field }, ?_, .inr ⟨rfl, hdone⟩, hoperator, hvalue, hnegated⟩
    rw [member_field, fill_eq_ok_iff]
    exact ⟨hopen, _, rfl, rfl⟩
  | operator h =>
    obtain ⟨hopen, hdone⟩ := slot_cons_self_iff.mp hoperator
    rw [slot_cons_iff_of_ne (by decide)] at hfield hvalue hnegated
    refine ⟨{ d with operator := some c.operator }, ?_, hfield, .inr ⟨rfl, hdone⟩, hvalue, hnegated⟩
    rw [member_operator, fill_eq_ok_iff]
    exact ⟨hopen, _, exact_operator.complete h rest, rfl⟩
  | value h =>
    obtain ⟨hopen, hdone⟩ := slot_cons_self_iff.mp hvalue
    rw [slot_cons_iff_of_ne (by decide)] at hfield hoperator hnegated
    refine ⟨{ d with value := some c.value }, ?_, hfield, hoperator, .inr ⟨rfl, hdone⟩, hnegated⟩
    rw [member_value, fill_eq_ok_iff]
    exact ⟨hopen, _, exact_value.complete h rest, rfl⟩
  | negated =>
    obtain ⟨hopen, hdone⟩ := slot_cons_self_iff.mp hnegated
    rw [slot_cons_iff_of_ne (by decide)] at hfield hoperator hvalue
    refine ⟨{ d with negated := some c.negated }, ?_, hfield, hoperator, hvalue, .inr ⟨rfl, hdone⟩⟩
    rw [member_negated, fill_eq_ok_iff]
    exact ⟨hopen, _, rfl, rfl⟩
  | unknown hname hskip =>
    -- Such a member fills no slot and is counted in none.
    have hne : ∀ part ∈ FieldClause.partNames, name ≠ part := fun part hpart e => hname (e ▸ hpart)
    rw [slot_cons_iff_of_ne (hne _ (by decide))] at hfield hoperator hvalue hnegated
    refine ⟨d, ?_, hfield, hoperator, hvalue, hnegated⟩
    rw [member_unknown hname, Token.skip_eq_some_iff.mpr ⟨body, rfl, hskip⟩]

/-- A member that was read has its form, if the draft with it is to become the clause. -/
theorem member_sound (h : member d name ts = .ok (e, rest)) (he : e.Completes c names) :
    ∃ body, ts = body ++ rest ∧ c.MemberForm name body ∧ d.Completes c (name :: names) := by
  obtain ⟨hfield, hoperator, hvalue, hnegated⟩ := he
  by_cases hname : name ∈ FieldClause.partNames
  · simp only [FieldClause.partNames, List.mem_cons, List.not_mem_nil, or_false] at hname
    rcases hname with rfl | rfl | rfl | rfl
    · obtain ⟨hopen, v, hread, rfl⟩ := fill_eq_ok_iff.mp (member_field d ts ▸ h)
      obtain ⟨body, rfl, rfl⟩ := exact_text.sound hread
      obtain ⟨rfl, hdone⟩ := slot_some_iff.mp hfield
      refine ⟨_, rfl, .field, slot_cons_self_iff.mpr ⟨hopen, hdone⟩, ?_, ?_, ?_⟩
      all_goals rw [slot_cons_iff_of_ne (by decide)]; assumption
    · obtain ⟨hopen, v, hread, rfl⟩ := fill_eq_ok_iff.mp (member_operator d ts ▸ h)
      obtain ⟨body, rfl, hbody⟩ := exact_operator.sound hread
      obtain ⟨rfl, hdone⟩ := slot_some_iff.mp hoperator
      refine ⟨_, rfl, .operator hbody, ?_, slot_cons_self_iff.mpr ⟨hopen, hdone⟩, ?_, ?_⟩
      all_goals rw [slot_cons_iff_of_ne (by decide)]; assumption
    · obtain ⟨hopen, v, hread, rfl⟩ := fill_eq_ok_iff.mp (member_value d ts ▸ h)
      obtain ⟨body, rfl, hbody⟩ := exact_value.sound hread
      obtain ⟨rfl, hdone⟩ := slot_some_iff.mp hvalue
      refine ⟨_, rfl, .value hbody, ?_, ?_, slot_cons_self_iff.mpr ⟨hopen, hdone⟩, ?_⟩
      all_goals rw [slot_cons_iff_of_ne (by decide)]; assumption
    · obtain ⟨hopen, v, hread, rfl⟩ := fill_eq_ok_iff.mp (member_negated d ts ▸ h)
      obtain ⟨body, rfl, rfl⟩ := exact_flag.sound hread
      obtain ⟨rfl, hdone⟩ := slot_some_iff.mp hnegated
      refine ⟨_, rfl, .negated, ?_, ?_, ?_, slot_cons_self_iff.mpr ⟨hopen, hdone⟩⟩
      all_goals rw [slot_cons_iff_of_ne (by decide)]; assumption
  · have hne : ∀ part ∈ FieldClause.partNames, name ≠ part := fun part hpart e => hname (e ▸ hpart)
    rw [member_unknown hname] at h
    split at h
    · next hskip =>
      cases h
      obtain ⟨body, rfl, hbody⟩ := Token.skip_eq_some_iff.mp hskip
      refine ⟨body, rfl, .unknown hname hbody, ?_, ?_, ?_, ?_⟩
      all_goals rw [slot_cons_iff_of_ne (hne _ (by decide))]; assumption
    · cases h

theorem memberTokens_cons (m : String × List Token) (ms : List (String × List Token)) :
    FieldClause.memberTokens (m :: ms) = .text (some m.1) :: .colon ::
      (m.2 ++ (ms.map fun n => Token.member (some n.1) n.2).flatMap (.comma :: ·)) := by
  simp [FieldClause.memberTokens, Token.joined, Token.member]

theorem memberTokens_cons_cons (m n : String × List Token) (ms : List (String × List Token)) :
    FieldClause.memberTokens (m :: n :: ms) =
      .text (some m.1) :: .colon :: (m.2 ++ .comma :: FieldClause.memberTokens (n :: ms)) := by
  rw [memberTokens_cons, memberTokens_cons]
  simp [Token.member]

/-- Members that make a draft the clause are read to their end, where the rules are asked. -/
theorem members_complete {m : String × List Token} {ms : List (String × List Token)}
    (h : ∀ n ∈ m :: ms, c.MemberForm n.1 n.2) (hd : d.Completes c ((m :: ms).map Prod.fst))
    (rest : List Token) :
    members d (FieldClause.memberTokens (m :: ms) ++ .closeObject :: rest) = checked c rest := by
  induction ms generalizing m d with
  | nil =>
    obtain ⟨e, hread, he⟩ := member_complete (h m List.mem_cons_self) hd (.closeObject :: rest)
    rw [memberTokens_cons, List.map_nil, List.flatMap_nil, List.append_nil]
    exact members_closeObject hread (clause?_eq_some_iff.mpr he)
  | cons n ms ih =>
    obtain ⟨e, hread, he⟩ := member_complete (h m List.mem_cons_self) hd
      (.comma :: (FieldClause.memberTokens (n :: ms) ++ .closeObject :: rest))
    rw [memberTokens_cons_cons, List.cons_append, List.cons_append, List.append_assoc,
      List.cons_append, members_comma hread]
    exact ih (List.forall_mem_cons.mp h).2 he

/-- Unless the form is not met, there are members up to the end of the object, and with them the
draft makes a clause. -/
theorem members_sound (h : members d ts ≠ .error .malformed) :
    ∃ c m ms rest, ts = FieldClause.memberTokens (m :: ms) ++ .closeObject :: rest ∧
      (∀ n ∈ m :: ms, FieldClause.MemberForm c n.1 n.2) ∧
      d.Completes c ((m :: ms).map Prod.fst) := by
  fun_induction members d ts with
  | case1 d key ts e us hread ih =>
    obtain ⟨c, n, ms, rest, rfl, hms, he⟩ := ih h
    obtain ⟨body, rfl, hbody, hd⟩ := member_sound hread he
    refine ⟨c, (key, body), n :: ms, rest, ?_, List.forall_mem_cons.mpr ⟨hbody, hms⟩, hd⟩
    rw [memberTokens_cons_cons]
    simp
  | case2 d key ts e us hread c hc =>
    obtain ⟨body, rfl, hbody, hd⟩ := member_sound hread (clause?_eq_some_iff.mp hc)
    refine ⟨c, (key, body), [], us, ?_, List.forall_mem_singleton.mpr hbody, hd⟩
    simp [memberTokens_cons]
  | case3 => exact absurd rfl h
  | case4 => exact absurd rfl h
  | case5 d key ts p hread => exact absurd (congrArg _ (unrefused_member d key ts p hread)) h
  | case6 => exact absurd rfl h

theorem parts_tokens (c : FieldClause) (operator value rest : List Token) :
    Token.joined [[.text (some c.field)], operator, value, [.bool c.negated]] ++
        .closeArray :: rest =
      .text (some c.field) :: .comma :: (operator ++ .comma ::
        (value ++ .comma :: .bool c.negated :: .closeArray :: rest)) := by
  simp [Token.joined]

theorem parts_complete {operator value : List Token} (hoperator : UnitForm c.operator.name operator)
    (hvalue : c.value.Form value) (rest : List Token) :
    parts (Token.joined [[.text (some c.field)], operator, value, [.bool c.negated]] ++
      .closeArray :: rest) = checked c rest := by
  have hread₁ : ∀ ts, comma (text (.text (some c.field) :: .comma :: ts)) = .ok (c.field, ts) :=
    fun _ => rfl
  have hread₂ : ∀ ts, comma (Reader.operator (operator ++ .comma :: ts)) = .ok (c.operator, ts) :=
    fun ts => comma_eq_ok_iff.mpr (exact_operator.complete hoperator (.comma :: ts))
  have hread₃ : ∀ ts, comma (Reader.value (value ++ .comma :: ts)) = .ok (c.value, ts) :=
    fun ts => comma_eq_ok_iff.mpr (exact_value.complete hvalue (.comma :: ts))
  have hread₄ : ∀ ts, flag (.bool c.negated :: ts) = .ok (c.negated, ts) := fun _ => rfl
  rw [parts_tokens]
  simp only [parts, bind, Except.bind, hread₁, hread₂, hread₃, hread₄]

theorem Unrefused.exists_of_bind {r : Except Problem (α × List Token)}
    {f : α × List Token → Except Problem β} (hr : Unrefused r)
    (h : (r >>= f) ≠ .error .malformed) :
    ∃ v rest, r = .ok (v, rest) ∧ f (v, rest) ≠ .error .malformed := by
  rcases r with p | ⟨v, rest⟩
  · exact absurd (congrArg _ (hr p rfl)) h
  · exact ⟨v, rest, rfl, h⟩

theorem parts_sound (h : parts ts ≠ .error .malformed) :
    ∃ c operator value rest, ts = Token.joined
        [[.text (some (FieldClause.field c))], operator, value, [.bool c.negated]] ++
        .closeArray :: rest ∧
      UnitForm c.operator.name operator ∧ c.value.Form value := by
  obtain ⟨field, _, hread₁, h₁⟩ := (unrefused_text _).comma.exists_of_bind h
  obtain ⟨operator, _, hread₂, h₂⟩ := (unrefused_named _ _).comma.exists_of_bind h₁
  obtain ⟨value, _, hread₃, h₃⟩ := (unrefused_value _).comma.exists_of_bind h₂
  obtain ⟨negated, _, hread₄, h₄⟩ := (unrefused_flag _).exists_of_bind h₃
  dsimp only at h₄
  split at h₄
  · next _ rest =>
    obtain ⟨_, rfl, rfl⟩ := exact_text.sound (comma_eq_ok_iff.mp hread₁)
    obtain ⟨os, rfl, hoperator⟩ := exact_operator.sound (comma_eq_ok_iff.mp hread₂)
    obtain ⟨vs, rfl, hvalue⟩ := exact_value.sound (comma_eq_ok_iff.mp hread₃)
    obtain ⟨_, rfl, rfl⟩ := exact_flag.sound hread₄
    refine ⟨⟨field, operator, value, negated⟩, os, vs, rest, ?_, hoperator, hvalue⟩
    rw [parts_tokens ⟨field, operator, value, negated⟩]
    rfl
  · exact absurd rfl h₄

theorem fieldClause_complete (h : c.Form body) (rest : List Token) :
    fieldClause (body ++ rest) = checked c rest := by
  cases h with
  | @object ms hms hnames =>
    have hblank : Draft.blank.Completes c (ms.map Prod.fst) := completes_blank_iff.mpr hnames
    rw [List.cons_append, List.append_assoc, List.singleton_append, fieldClause]
    cases ms with
    | nil => exact absurd (hnames "field" (by decide)) (by decide)
    | cons m ms => exact members_complete hms hblank rest
  | array hoperator hvalue =>
    rw [List.cons_append, List.append_assoc, List.singleton_append, fieldClause]
    exact parts_complete hoperator hvalue rest

/-- Unless the form is not met, a field clause is spelt at the front. -/
theorem fieldClause_sound (h : fieldClause ts ≠ .error .malformed) :
    ∃ c body rest, ts = body ++ rest ∧ FieldClause.Form c body := by
  unfold fieldClause at h
  split at h
  · obtain ⟨c, m, ms, rest, rfl, hms, hblank⟩ := members_sound h
    exact ⟨c, _, rest, by simp, .object hms (completes_blank_iff.mp hblank)⟩
  · obtain ⟨c, operator, value, rest, rfl, hoperator, hvalue⟩ := parts_sound h
    exact ⟨c, _, rest, by simp, .array hoperator hvalue⟩
  · exact absurd rfl h

theorem exact_fieldClause : Exact fieldClause FieldClause.Form FieldClause.check where
  complete := fun h rest => fieldClause_complete h rest
  sound := by
    intro c ts rest h
    obtain ⟨d, body, us, rfl, hbody⟩ := fieldClause_sound (by rw [h]; nofun)
    obtain ⟨-, hc⟩ := checked_eq_ok_iff.mp ((fieldClause_complete hbody us).symm.trans h)
    cases hc
    exact ⟨body, rfl, hbody⟩

/-- The rules refuse a field clause exactly if one is spelt at the front that they refuse. -/
theorem fieldClause_eq_refused_iff {r : Reason} :
    fieldClause ts = .error (.refused r) ↔
      ∃ c body rest, ts = body ++ rest ∧ FieldClause.Form c body ∧ c.check = .error r := by
  constructor
  · intro h
    obtain ⟨c, body, us, rfl, hbody⟩ := fieldClause_sound (by rw [h]; nofun)
    obtain ⟨r', hcheck, hr⟩ :=
      checked_eq_error_iff.mp ((fieldClause_complete hbody us).symm.trans h)
    cases hr
    exact ⟨c, body, us, rfl, hbody, hcheck⟩
  · rintro ⟨c, body, us, rfl, hbody, hcheck⟩
    rw [fieldClause_complete hbody, checked, hcheck]

/-- The stored form of a field clause is one of its spellings, unless it holds a double that is not
finite. -/
theorem form_image_iff : c.Form c.image.tokens ↔ c.value.isFinite = true := by
  constructor
  · intro h
    have hread := (fieldClause_complete h []).symm.trans (fieldClause_image c [])
    cases hfinite : c.value.isFinite with
    | true => rfl
    | false =>
      rw [hfinite] at hread
      obtain ⟨r, -, hr⟩ := checked_eq_error_iff.mp hread
      cases hr
  · intro h
    have hmembers : ∀ m ∈ [("field", [.text (some c.field)]),
        ("operator", [.text (some c.operator.name)]), ("value", c.value.image.tokens),
        ("negated", [.bool c.negated])], c.MemberForm m.1 m.2 := by
      simp only [List.forall_mem_cons]
      exact ⟨.field, .operator .name, .value (Value.form_image h), .negated, List.forall_mem_nil _⟩
    have hform := FieldClause.Form.object hmembers (by simp [FieldClause.partNames])
    have htokens := tokens_image c []
    rw [List.append_nil] at htokens
    rw [htokens]
    simpa [FieldClause.memberTokens, Token.joined, Token.member] using hform

theorem exact_clause : Exact clause Clause.Form Clause.check where
  complete := by
    intro c body hbody rest
    cases hbody with
    | @field f ts h =>
      rw [tagged_append]
      change closing ((fieldClause _).map _) = judged f.check _
      rw [exact_fieldClause.complete h]
      rcases f.check with r | _ <;> rfl
    | logical h =>
      rw [tagged_append]
      change closing ((connective _).map _) = _
      rw [exact_connective.complete h]
      rfl
  sound := by
    intro c ts rest h
    unfold clause at h
    split at h
    · next kind ts =>
      have hread := closing_eq_ok_iff.mp h
      split_ifs at hread with hfield hlogical
      · obtain ⟨f, hf, rfl⟩ := map_eq_ok_iff.mp hread
        obtain ⟨body, rfl, hbody⟩ := exact_fieldClause.sound hf
        rw [hfield, ← tagged_append]
        exact ⟨_, rfl, .field hbody⟩
      · obtain ⟨k, hk, rfl⟩ := map_eq_ok_iff.mp hread
        obtain ⟨body, rfl, hbody⟩ := exact_connective.sound hk
        rw [hlogical, ← tagged_append]
        exact ⟨_, rfl, .logical hbody⟩
    · cases h

theorem laterClauses_complete {c : Clause} {cs : List Clause} {item : List Token}
    {items : List (List Token)} (h : List.Forall₂ Clause.Form (c :: cs) (item :: items))
    (rest : List Token) :
    laterClauses (Token.joined (item :: items) ++ .closeArray :: rest) =
      judged (Clause.checkAll (c :: cs)) (c :: cs, rest) := by
  induction cs generalizing c item items with
  | nil =>
    obtain ⟨hc, hcs⟩ := List.forall₂_cons.mp h
    cases hcs
    have hread := exact_clause.complete hc (.closeArray :: rest)
    rw [Token.joined, List.flatMap_nil, List.append_nil, Clause.checkAll]
    cases hcheck : c.check with
    | ok _ =>
      rw [hcheck] at hread
      rw [laterClauses_closeArray hread]
      rfl
    | error r =>
      rw [hcheck] at hread
      rw [laterClauses_error hread]
      rfl
  | cons d cs ih =>
    obtain ⟨hc, hcs⟩ := List.forall₂_cons.mp h
    obtain ⟨next, items, -, -, rfl⟩ := List.forall₂_cons_left_iff.mp hcs
    have hread := exact_clause.complete hc
      (.comma :: (Token.joined (next :: items) ++ .closeArray :: rest))
    rw [Token.joined_cons_cons, List.append_assoc, List.cons_append, Clause.checkAll]
    cases hcheck : c.check with
    | ok _ =>
      rw [hcheck] at hread
      rw [laterClauses_comma hread, ih hcs]
      change Except.map _ (judged (Clause.checkAll (d :: cs)) _) =
        judged (Clause.checkAll (d :: cs)) _
      rcases Clause.checkAll (d :: cs) with r | _ <;> rfl
    | error r =>
      rw [hcheck] at hread
      rw [laterClauses_error hread]
      rfl

theorem laterClauses_sound {cs : List Clause} {ts rest : List Token}
    (h : laterClauses ts = .ok (cs, rest)) :
    ∃ item items, ts = Token.joined (item :: items) ++ .closeArray :: rest ∧
      List.Forall₂ Clause.Form cs (item :: items) := by
  fun_induction laterClauses ts generalizing cs rest with
  | case1 ts c us hread ih =>
    obtain ⟨cs, hcs, rfl⟩ := map_eq_ok_iff.mp h
    obtain ⟨next, items, rfl, hitems⟩ := ih hcs
    obtain ⟨item, rfl, hitem⟩ := exact_clause.sound hread
    refine ⟨item, next :: items, ?_, .cons hitem hitems⟩
    rw [Token.joined_cons_cons]
    simp
  | case2 ts c us hread =>
    cases h
    obtain ⟨item, rfl, hitem⟩ := exact_clause.sound hread
    refine ⟨item, [], ?_, .cons hitem .nil⟩
    simp [Token.joined]
  | case3 => cases h
  | case4 => cases h

theorem exact_clauses : Exact clauses Clause.ListForm Clause.checkAll where
  complete := by
    rintro cs _ ⟨h⟩ rest
    rw [List.cons_append, List.append_assoc, List.singleton_append]
    cases h with
    | nil => rfl
    | @cons c item cs items hc hcs =>
      have hread := laterClauses_complete (.cons hc hcs) rest
      -- A clause opens an object, so the array is not an empty one.
      cases hc <;> exact hread
  sound := by
    intro cs ts rest h
    unfold clauses at h
    split at h
    · cases h
      exact ⟨_, rfl, .intro .nil⟩
    · obtain ⟨item, items, rfl, hcs⟩ := laterClauses_sound h
      exact ⟨_, by simp, .intro hcs⟩
    · cases h

end FieldQuery.Reader
