import FieldQuery.Proofs.Admission

/-!
# Reading the stored form

A list of clauses that was stored is read back as it was, place by place and bit by bit, unless it
holds a double that is not finite. Such a double is stored as null, and null is no number, so then
reading fails because the form is not met. It never fails because a clause is refused: no run leads
to a clause that would be.

Each reader is followed over the tokens of the stored form, with any tokens after them.
-/
namespace FieldQuery

def Number.isFinite : Number → Bool
  | .integer _ => true
  | .float x => x.isFinite

def Value.isFinite : Value → Bool
  | .number n => n.isFinite
  | _ => true

def Clause.isFinite : Clause → Bool
  | .field f => f.value.isFinite
  | .logical _ => true

theorem Binary64.isFinite_iff (x : Binary64) : x.isFinite = true ↔ ¬ x.isNaN ∧ ¬ x.isInfinite := by
  simp only [isFinite, isNaN, isInfinite, decide_eq_true_eq]
  omega

theorem Value.isFinite_iff (v : Value) :
    v.isFinite = true ↔ ∀ x, v = .number (.float x) → ¬ x.isNaN ∧ ¬ x.isInfinite := by
  rcases v with _ | (v | x) | s
  · exact ⟨nofun, fun _ => rfl⟩
  · exact ⟨nofun, fun _ => rfl⟩
  · constructor
    · rintro h y ⟨⟩
      exact x.isFinite_iff.mp h
    · intro h
      exact x.isFinite_iff.mpr (h x rfl)
  · exact ⟨nofun, fun _ => rfl⟩

theorem Clause.all_isFinite_iff (cs : List Clause) :
    cs.all isFinite = true ↔ ∀ f ∈ fieldClauses cs, f.value.isFinite = true := by
  induction cs with
  | nil => simp
  | cons c cs ih => cases c <;> simp [isFinite, ih]

/-- An integer that 64 bits hold is its own number. -/
theorem Number.ofInt?_toInt (v : Int64) : ofInt? v.toInt = some (.integer v) := by
  have hl := v.minValue_le_toInt
  have hu := v.toInt_le
  rw [ofInt?, if_pos ⟨hl, hu⟩, Int64.ofInt_toInt]

namespace Reader

variable {α : Type}

/-- What comes of reading a stored form: the value itself if it is finite. -/
def reread (v : α) (finite : Bool) (rest : List Token) : Reading α :=
  if finite then .ok (v, rest) else .error .malformed

/-- The end of the object around a value. -/
theorem closing_reread {β : Type} (v : α) (finite : Bool) (f : α → β) (rest : List Token) :
    closing ((reread v finite (.closeObject :: rest)).map fun (v, rest) => (f v, rest)) =
      reread (f v) finite rest := by
  cases finite <;> rfl

theorem tokens_tagged (name : String) (content : Json) (rest : List Token) :
    (Json.object [(name, content)]).tokens ++ rest =
      .openObject :: .text (some name) :: .colon :: (content.tokens ++ .closeObject :: rest) := by
  simp [Json.tokens, Json.memberTokens]

theorem number_image (n : Number) (rest : List Token) :
    number (n.image.tokens ++ rest) = reread n n.isFinite rest := by
  cases n with
  | integer v =>
    rw [Number.image, tokens_tagged]
    change found (numberOf? "Integer" (.integer v.toInt)) rest = _
    rw [numberOf?, if_pos rfl]
    simp only [Number.ofInt?_toInt]
    rfl
  | float x =>
    rw [Number.image, tokens_tagged]
    cases h : x.isFinite <;> simp only [Number.isFinite, h] <;> rfl

theorem value_image (v : Value) (rest : List Token) :
    value (v.image.tokens ++ rest) = reread v v.isFinite rest := by
  cases v with
  | null => rfl
  | number n =>
    rw [Value.image, tokens_tagged]
    change closing ((number (n.image.tokens ++ .closeObject :: rest)).map _) = _
    rw [number_image]
    exact closing_reread n n.isFinite Value.number rest
  | text s => rfl

theorem operator_name (o : Operator) (rest : List Token) :
    operator (.text (some o.name) :: rest) = .ok (o, rest) := by
  rw [operator, named, operatorOf_name, found]

theorem connective_name (c : Connective) (rest : List Token) :
    connective (.text (some c.name) :: rest) = .ok (c, rest) := by
  rw [connective, named, connectiveOf_name, found]

variable {d e : Draft} {key : String} {ts rest : List Token}

theorem member_field (d : Draft) (ts : List Token) :
    member d "field" ts = fill d.field (text ts) fun v => { d with field := some v } := by
  simp [member]

theorem member_operator (d : Draft) (ts : List Token) :
    member d "operator" ts =
      fill d.operator (operator ts) fun v => { d with operator := some v } := by
  simp [member]

theorem member_value (d : Draft) (ts : List Token) :
    member d "value" ts = fill d.value (value ts) fun v => { d with value := some v } := by
  simp [member]

theorem member_negated (d : Draft) (ts : List Token) :
    member d "negated" ts = fill d.negated (flag ts) fun v => { d with negated := some v } := by
  simp [member]

theorem members_comma (h : member d key ts = .ok (e, .comma :: rest)) :
    members d (.text (some key) :: .colon :: ts) = members e rest := by
  rw [members, h]

theorem members_closeObject (h : member d key ts = .ok (e, .closeObject :: rest)) {c : FieldClause}
    (hc : e.clause? = some c) : members d (.text (some key) :: .colon :: ts) = checked c rest := by
  rw [members, h]
  simp only [hc]

theorem members_error {p : Problem} (h : member d key ts = .error p) :
    members d (.text (some key) :: .colon :: ts) = .error p := by
  rw [members, h]

theorem tokens_image (c : FieldClause) (rest : List Token) :
    c.image.tokens ++ rest =
      .openObject :: .text (some "field") :: .colon :: .text (some c.field) :: .comma ::
      .text (some "operator") :: .colon :: .text (some c.operator.name) :: .comma ::
      .text (some "value") :: .colon :: (c.value.image.tokens ++ .comma ::
      .text (some "negated") :: .colon :: .bool c.negated :: .closeObject :: rest) := by
  simp [FieldClause.image, Json.tokens, Json.memberTokens]

theorem fieldClause_image (c : FieldClause) (rest : List Token) :
    fieldClause (c.image.tokens ++ rest) =
      if c.value.isFinite then checked c rest else .error .malformed := by
  have hfield : ∀ ts, member .blank "field" (.text (some c.field) :: ts) =
      .ok (⟨some c.field, none, none, none⟩, ts) := by
    intro ts
    rw [member_field]
    rfl
  have hoperator : ∀ ts, member ⟨some c.field, none, none, none⟩ "operator"
      (.text (some c.operator.name) :: ts) =
      .ok (⟨some c.field, some c.operator, none, none⟩, ts) := by
    intro ts
    rw [member_operator, operator_name]
    rfl
  have hvalue : ∀ ts, member ⟨some c.field, some c.operator, none, none⟩ "value"
      (c.value.image.tokens ++ ts) =
      reread ⟨some c.field, some c.operator, some c.value, none⟩ c.value.isFinite ts := by
    intro ts
    rw [member_value, value_image]
    cases c.value.isFinite <;> rfl
  have hnegated : ∀ ts, member ⟨some c.field, some c.operator, some c.value, none⟩ "negated"
      (.bool c.negated :: ts) =
      .ok (⟨some c.field, some c.operator, some c.value, some c.negated⟩, ts) := by
    intro ts
    rw [member_negated]
    rfl
  rw [tokens_image]
  change members .blank _ = _
  rw [members_comma (hfield _), members_comma (hoperator _)]
  cases h : c.value.isFinite with
  | true =>
    rw [h] at hvalue
    rw [members_comma (hvalue _), members_closeObject (hnegated _) rfl]
    rfl
  | false =>
    rw [h] at hvalue
    rw [members_error (hvalue _)]
    rfl

/-- A clause that may be checked after reading passes. -/
def Sound : Clause → Prop
  | .field f => f.check = .ok ()
  | .logical _ => True

theorem clause_image {c : Clause} (h : Sound c) (rest : List Token) :
    clause (c.image.tokens ++ rest) = reread c c.isFinite rest := by
  cases c with
  | field f =>
    rw [Clause.image, tokens_tagged]
    change closing ((fieldClause _).map _) = _
    have hread : fieldClause (f.image.tokens ++ .closeObject :: rest) =
        reread f f.value.isFinite (.closeObject :: rest) := by
      rw [fieldClause_image, checked, h]
      rfl
    rw [hread]
    exact closing_reread f f.value.isFinite Clause.field rest
  | logical c =>
    rw [Clause.image, tokens_tagged]
    change closing ((connective (.text (some c.name) :: .closeObject :: rest)).map _) = _
    rw [connective_name]
    rfl

theorem laterClauses_comma {c : Clause} (h : clause ts = .ok (c, .comma :: rest)) :
    laterClauses ts = (laterClauses rest).map fun (cs, rest) => (c :: cs, rest) := by
  rw [laterClauses, h]

theorem laterClauses_closeArray {c : Clause} (h : clause ts = .ok (c, .closeArray :: rest)) :
    laterClauses ts = .ok ([c], rest) := by
  rw [laterClauses, h]

theorem laterClauses_error {p : Problem} (h : clause ts = .error p) :
    laterClauses ts = .error p := by
  rw [laterClauses, h]

/-- The first clause that is not finite ends the reading, and without one it goes on to the end. -/
theorem laterClauses_image {c : Clause} {cs : List Clause} (h : ∀ d ∈ c :: cs, Sound d)
    (rest : List Token) :
    laterClauses (Json.itemTokens ((c :: cs).map Clause.image) ++ .closeArray :: rest) =
      reread (c :: cs) ((c :: cs).all Clause.isFinite) rest := by
  induction cs generalizing c with
  | nil =>
    have hread := clause_image (h c List.mem_cons_self) (.closeArray :: rest)
    rw [List.map_cons, List.map_nil, Json.itemTokens]
    cases hc : c.isFinite with
    | true =>
      rw [hc] at hread
      rw [laterClauses_closeArray hread]
      simp [hc, reread]
    | false =>
      rw [hc] at hread
      rw [laterClauses_error hread]
      simp [hc, reread]
  | cons d cs ih =>
    have hread := clause_image (h c List.mem_cons_self)
      (.comma :: (Json.itemTokens ((d :: cs).map Clause.image) ++ .closeArray :: rest))
    have htail := ih fun e he => h e (List.mem_cons_of_mem c he)
    have htokens : Json.itemTokens ((c :: d :: cs).map Clause.image) ++ .closeArray :: rest =
        c.image.tokens ++ (.comma ::
          (Json.itemTokens ((d :: cs).map Clause.image) ++ .closeArray :: rest)) := by
      simp [Json.itemTokens]
    rw [htokens]
    cases hc : c.isFinite with
    | true =>
      rw [hc] at hread
      rw [laterClauses_comma hread, htail, List.all_cons (a := c), hc, Bool.true_and]
      cases (d :: cs).all Clause.isFinite <;> rfl
    | false =>
      rw [hc] at hread
      rw [laterClauses_error hread, List.all_cons, hc]
      rfl

theorem tokens_image_opens (c : Clause) (ts : List Token) :
    ∃ rest, c.image.tokens ++ ts = .openObject :: rest := by
  cases c with
  | field f => exact ⟨_, tokens_tagged "Field" f.image ts⟩
  | logical c => exact ⟨_, tokens_tagged "Logical" (.text c.name) ts⟩

theorem itemTokens_opens (c : Clause) (cs : List Clause) (ts : List Token) :
    ∃ rest, Json.itemTokens ((c :: cs).map Clause.image) ++ ts = .openObject :: rest := by
  cases cs with
  | nil => exact tokens_image_opens c ts
  | cons d cs =>
    rw [List.map_cons, List.map_cons, Json.itemTokens, List.append_assoc]
    · exact tokens_image_opens c _
    · exact nofun

theorem clauses_image {cs : List Clause} (h : ∀ c ∈ cs, Sound c) :
    clauses (Clause.imageAll cs).tokens = reread cs (cs.all Clause.isFinite) [] := by
  cases cs with
  | nil => rfl
  | cons c cs =>
    obtain ⟨rest, hrest⟩ := itemTokens_opens c cs [.closeArray]
    rw [← laterClauses_image h, Clause.imageAll, Json.tokens, hrest]
    rfl

/-- Clauses that pass the check are read back from their stored form as they are, if all their
doubles are finite, and otherwise the form is not met. -/
theorem ofJson_imageAll {cs : List Clause} (h : ∀ c ∈ cs, Sound c) :
    ofJson clauses (Clause.imageAll cs) =
      if cs.all Clause.isFinite then .ok cs else .error .malformed := by
  rw [ofJson, whole, clauses_image h]
  cases cs.all Clause.isFinite <;> rfl

end Reader

theorem Query.sound_of_run (moves : List Move) :
    ∀ c ∈ (Query.empty.run moves).clauses, Reader.Sound c := by
  intro c hc
  cases c with
  | field f => exact check_of_run moves f (mem_fieldClauses.mpr hc)
  | logical c => trivial

/-- After every run, the clauses are read back from their stored form if and only if none of them
holds NaN or an infinity. What is read is the same list, so every clause has the same text. When
nothing is read, the form is not met; no clause is refused. -/
theorem Query.ofJson_imageAll_of_run (moves : List Move) :
    let cs := (Query.empty.run moves).clauses
    ((∃ ds, Reader.ofJson Reader.clauses (Clause.imageAll cs) = .ok ds) ↔
      ∀ f ∈ fieldClauses cs, ∀ x, f.value = .number (.float x) → ¬ x.isNaN ∧ ¬ x.isInfinite) ∧
    (∀ ds, Reader.ofJson Reader.clauses (Clause.imageAll cs) = .ok ds →
      ds = cs ∧ ds.map Clause.text = cs.map Clause.text) ∧
    ∀ p, Reader.ofJson Reader.clauses (Clause.imageAll cs) = .error p → p = .malformed := by
  intro cs
  have hread := Reader.ofJson_imageAll (sound_of_run moves)
  have hfinite := Clause.all_isFinite_iff cs
  simp only [Value.isFinite_iff] at hfinite
  rw [← hfinite]
  cases hall : cs.all Clause.isFinite with
  | true =>
    have hok : Reader.ofJson Reader.clauses (Clause.imageAll cs) = .ok cs :=
      hread.trans (if_pos hall)
    rw [hok]
    refine ⟨⟨fun _ => rfl, fun _ => ⟨cs, rfl⟩⟩, ?_, nofun⟩
    rintro ds ⟨⟩
    exact ⟨rfl, rfl⟩
  | false =>
    have herror : Reader.ofJson Reader.clauses (Clause.imageAll cs) = .error .malformed :=
      hread.trans (if_neg (by simp [cs, hall]))
    rw [herror]
    refine ⟨⟨nofun, nofun⟩, nofun, ?_⟩
    rintro p ⟨⟩
    rfl

end FieldQuery
