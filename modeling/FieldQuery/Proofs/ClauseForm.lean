import FieldQuery.Proofs.Passing
import FieldQuery.Proofs.StoredForm
import Mathlib.Data.List.Forall2

/-!
# The spellings of a clause

All the ways to spell a clause in JSON, said without reading them. A choice without content is its
name or an object whose one member is null. A field clause is an object that has each of its four
parts once, in any order and among any other members, or an array of the four parts in their order.
A clause is an object that is named after its kind, and a list of clauses is an array.

Every reader is exact for its form: it reads what has the form, whatever follows, and reads nothing
else. What becomes of a field clause after that is up to the rules for clauses alone.
-/
namespace FieldQuery

/-- What each of some things gives to its partner. -/
theorem forall_mem_of_forall₂ {α β : Type} {R : α → β → Prop} {P : β → Prop} {as : List α}
    {bs : List β} (h : List.Forall₂ R as bs) (hP : ∀ {a b}, R a b → P b) : ∀ b ∈ bs, P b := by
  induction h with
  | nil => exact List.forall_mem_nil _
  | cons hab _ ih => exact List.forall_mem_cons.mpr ⟨hP hab, ih⟩

/-- An object with one member. -/
def Token.tagged (name : String) (ts : List Token) : List Token :=
  .openObject :: .text (some name) :: .colon :: (ts ++ [.closeObject])

inductive UnitForm (name : String) : List Token → Prop
  | name : UnitForm name [.text (some name)]
  | object : UnitForm name (Token.tagged name [.null])

inductive Number.Form : Number → List Token → Prop
  | integer (v : Int64) :
      Form (.integer v) (Token.tagged "Integer" [.number (some (.integer v.toInt))])
  | float {n : JsonNumber} {x : Binary64} : n.double? = some x →
      Form (.float x) (Token.tagged "Float" [.number (some n)])

inductive Value.Form : Value → List Token → Prop
  | null {ts : List Token} : UnitForm "Null" ts → Form .null ts
  | number {n : Number} {ts : List Token} : n.Form ts → Form (.number n) (Token.tagged "Number" ts)
  | text (s : String) : Form (.text s) (Token.tagged "String" [.text (some s)])

namespace FieldClause

def partNames : List String := ["field", "operator", "value", "negated"]

/-- What a member of the given name may hold. A member that is no part of the clause may hold
anything. -/
inductive MemberForm (c : FieldClause) : String → List Token → Prop
  | field : MemberForm c "field" [.text (some c.field)]
  | operator {ts : List Token} : UnitForm c.operator.name ts → MemberForm c "operator" ts
  | value {ts : List Token} : c.value.Form ts → MemberForm c "value" ts
  | negated : MemberForm c "negated" [.bool c.negated]
  | unknown {name : String} {ts : List Token} : name ∉ partNames → Token.AnyValue ts →
      MemberForm c name ts

def memberTokens (members : List (String × List Token)) : List Token :=
  Token.joined (members.map fun m => Token.member (some m.1) m.2)

inductive Form (c : FieldClause) : List Token → Prop
  | object {members : List (String × List Token)} : (∀ m ∈ members, c.MemberForm m.1 m.2) →
      (∀ name ∈ partNames, (members.map Prod.fst).count name = 1) →
      Form c (.openObject :: (memberTokens members ++ [.closeObject]))
  | array {operator value : List Token} : UnitForm c.operator.name operator →
      c.value.Form value →
      Form c (.openArray :: (Token.joined
        [[.text (some c.field)], operator, value, [.bool c.negated]] ++ [.closeArray]))

end FieldClause

inductive Clause.Form : Clause → List Token → Prop
  | field {c : FieldClause} {ts : List Token} : c.Form ts →
      Form (.field c) (Token.tagged "Field" ts)
  | logical {c : Connective} {ts : List Token} : UnitForm c.name ts →
      Form (.logical c) (Token.tagged "Logical" ts)

inductive Clause.ListForm : List Clause → List Token → Prop
  | intro {cs : List Clause} {items : List (List Token)} : List.Forall₂ Form cs items →
      ListForm cs (.openArray :: (Token.joined items ++ [.closeArray]))

/-- The rules have nothing to say of a connective. -/
def Clause.check : Clause → Except Reason Unit
  | .field c => c.check
  | .logical _ => .ok ()

/-- The first clause that is refused decides about a list. -/
def Clause.checkAll : List Clause → Except Reason Unit
  | [] => .ok ()
  | c :: cs => do c.check; checkAll cs

theorem Clause.checkAll_eq_ok_iff {cs : List Clause} :
    checkAll cs = .ok () ↔ ∀ c ∈ cs, c.check = .ok () := by
  induction cs with
  | nil => simp [checkAll]
  | cons c cs ih =>
    rw [List.forall_mem_cons, ← ih, checkAll]
    cases c.check <;> simp [bind, Except.bind]

theorem Clause.checkAll_append (cs ds : List Clause) :
    checkAll (cs ++ ds) = (checkAll cs >>= fun _ => checkAll ds) := by
  induction cs with
  | nil => rfl
  | cons c cs ih =>
    rw [List.cons_append, checkAll, checkAll, ih]
    cases c.check <;> rfl

theorem Clause.forall_check_iff {cs : List Clause} :
    (∀ c ∈ cs, c.check = .ok ()) ↔ ∀ f, .field f ∈ cs → f.check = .ok () := by
  constructor
  · intro h f hf
    exact h (.field f) hf
  · intro h c hc
    cases c with
    | field f => exact h f hc
    | logical _ => rfl

/-- A list is refused for the reason of its first field clause that is refused. -/
theorem Clause.checkAll_eq_error_iff {cs : List Clause} {r : Reason} :
    checkAll cs = .error r ↔ ∃ before c after, cs = before ++ .field c :: after ∧
      (∀ d, .field d ∈ before → d.check = .ok ()) ∧ c.check = .error r := by
  constructor
  · intro h
    induction cs with
    | nil => cases h
    | cons c cs ih =>
      cases hc : c.check with
      | error r' =>
        rw [checkAll, hc] at h
        cases h
        cases c with
        | field f => exact ⟨[], f, cs, rfl, forall_check_iff.mp (List.forall_mem_nil _), hc⟩
        | logical _ => cases hc
      | ok _ =>
        rw [checkAll, hc] at h
        obtain ⟨before, d, after, rfl, hbefore, hd⟩ := ih h
        refine ⟨c :: before, d, after, rfl, ?_, hd⟩
        exact forall_check_iff.mp (List.forall_mem_cons.mpr ⟨hc, forall_check_iff.mpr hbefore⟩)
  · rintro ⟨before, c, after, rfl, hbefore, hc⟩
    have hfront : checkAll before = .ok () := checkAll_eq_ok_iff.mpr (forall_check_iff.mpr hbefore)
    rw [checkAll_append, hfront, checkAll, check, hc]
    rfl

theorem Number.form_image {n : Number} (h : n.isFinite = true) : n.Form n.image.tokens := by
  cases n with
  | integer v => exact .integer v
  | float x =>
    rw [image, if_pos (show x.isFinite = true from h)]
    exact .float rfl

theorem Value.form_image {v : Value} (h : v.isFinite = true) : v.Form v.image.tokens := by
  cases v with
  | null => exact .null .name
  | number n =>
    have htokens := Reader.tokens_tagged "Number" n.image []
    rw [List.append_nil] at htokens
    rw [image, htokens]
    exact .number (Number.form_image h)
  | text s => exact .text s

namespace Reader

variable {α β : Type}

/-- What comes of something that was read when the rules are asked about it. -/
def judged (verdict : Except Reason Unit) (v : α) : Except Problem α :=
  match verdict with
  | .ok () => .ok v
  | .error r => .error (.refused r)

theorem judged_eq_refused_iff {verdict : Except Reason Unit} {v : α} {r : Reason} :
    judged verdict v = .error (.refused r) ↔ verdict = .error r := by
  rcases verdict with r | _ <;> simp [judged]

@[simp] theorem judged_eq_ok_iff {verdict : Except Reason Unit} {v w : α} :
    judged verdict v = .ok w ↔ verdict = .ok () ∧ v = w := by
  rcases verdict with r | _ <;> simp [judged]

/-- What has the form is read off the front of any tokens, where the check decides about it, and
only what has the form is read. -/
structure Exact (reader : List Token → Reading α) (form : α → List Token → Prop)
    (check : α → Except Reason Unit) : Prop where
  complete {v : α} {body : List Token} :
    form v body → ∀ rest, reader (body ++ rest) = judged (check v) (v, rest)
  sound {v : α} {ts rest : List Token} :
    reader ts = .ok (v, rest) → ∃ body, ts = body ++ rest ∧ form v body

/-- The rules have nothing to say of parts. -/
def unchecked (_ : α) : Except Reason Unit := .ok ()

section

variable {reader : List Token → Reading α} {form : α → List Token → Prop}
  {check : α → Except Reason Unit} {v : α} {ts rest : List Token}

theorem Exact.ok_iff (h : Exact reader form check) :
    reader ts = .ok (v, rest) ↔ (∃ body, ts = body ++ rest ∧ form v body) ∧ check v = .ok () := by
  constructor
  · intro hread
    obtain ⟨body, rfl, hform⟩ := h.sound hread
    rw [h.complete hform, judged_eq_ok_iff] at hread
    exact ⟨⟨body, rfl, hform⟩, hread.1⟩
  · rintro ⟨⟨body, rfl, hform⟩, hcheck⟩
    rw [h.complete hform, hcheck]
    rfl

theorem Exact.whole_eq (h : Exact reader form check) (hform : form v ts) :
    whole reader ts = judged (check v) v := by
  have hread := h.complete hform []
  rw [List.append_nil] at hread
  rw [whole, hread]
  rcases check v with r | _ <;> rfl

theorem Exact.whole_eq_ok_iff (h : Exact reader form check) :
    whole reader ts = .ok v ↔ form v ts ∧ check v = .ok () := by
  constructor
  · intro hread
    unfold whole at hread
    split at hread
    · next hread' =>
      cases hread
      obtain ⟨⟨body, rfl, hform⟩, hcheck⟩ := h.ok_iff.mp hread'
      rw [List.append_nil]
      exact ⟨hform, hcheck⟩
    · cases hread
    · cases hread
  · rintro ⟨hform, hcheck⟩
    rw [h.whole_eq hform, hcheck]
    rfl

end

@[simp] theorem found_eq_ok_iff {o : Option α} {v : α} {ts rest : List Token} :
    found o ts = .ok (v, rest) ↔ o = some v ∧ ts = rest := by
  cases o <;> simp [found]

@[simp] theorem closing_eq_ok_iff {r : Reading α} {v : α} {rest : List Token} :
    closing r = .ok (v, rest) ↔ r = .ok (v, .closeObject :: rest) := by
  unfold closing
  split <;> simp_all

@[simp] theorem comma_eq_ok_iff {r : Reading α} {v : α} {rest : List Token} :
    comma r = .ok (v, rest) ↔ r = .ok (v, .comma :: rest) := by
  unfold comma
  split <;> simp_all

@[simp] theorem map_eq_ok_iff {r : Reading α} {f : α → β} {w : β} {rest : List Token} :
    r.map (fun (v, rest) => (f v, rest)) = .ok (w, rest) ↔
      ∃ v, r = .ok (v, rest) ∧ f v = w := by
  rcases r with p | ⟨v, rest'⟩
  · simp [Except.map]
  · simp [Except.map]
    grind

@[simp] theorem fill_eq_ok_iff {slot : Option α} {r : Reading α} {put : α → Draft} {d : Draft}
    {rest : List Token} :
    fill slot r put = .ok (d, rest) ↔ slot = none ∧ ∃ v, r = .ok (v, rest) ∧ put v = d := by
  cases slot with
  | none => simp only [fill, Option.isSome_none, Bool.false_eq_true, if_false, map_eq_ok_iff,
      true_and]
  | some _ => simp [fill]

theorem exact_text : Exact text (fun s ts => ts = [.text (some s)]) unchecked where
  complete := by rintro s _ rfl rest; rfl
  sound := by
    intro s ts rest h
    unfold text at h
    split at h
    · cases h
      exact ⟨_, rfl, rfl⟩
    · cases h

theorem exact_flag : Exact flag (fun b ts => ts = [.bool b]) unchecked where
  complete := by rintro b _ rfl rest; rfl
  sound := by
    intro b ts rest h
    unfold flag at h
    split at h
    · cases h
      exact ⟨_, rfl, rfl⟩
    · cases h

theorem exact_named {choice : String → Option α} {nameOf : α → String}
    (h : ∀ name v, choice name = some v ↔ name = nameOf v) :
    Exact (named choice) (fun v => UnitForm (nameOf v)) unchecked where
  complete := by
    intro v body hbody rest
    have hname := (h (nameOf v) v).mpr rfl
    cases hbody with
    | name => rw [List.singleton_append, named, hname]; rfl
    | object =>
      change found (choice (nameOf v)) rest = _
      rw [hname]
      rfl
  sound := by
    intro v ts rest hread
    unfold named at hread
    split at hread
    · obtain ⟨hname, rfl⟩ := found_eq_ok_iff.mp hread
      cases (h _ v).mp hname
      exact ⟨_, rfl, .name⟩
    · obtain ⟨hname, rfl⟩ := found_eq_ok_iff.mp hread
      cases (h _ v).mp hname
      exact ⟨_, rfl, .object⟩
    · cases hread

theorem operatorOf?_eq_some_iff (name : String) (o : Operator) :
    operatorOf? name = some o ↔ name = o.name := by
  constructor
  · intro h
    unfold operatorOf? at h
    split_ifs at h with h₁ h₂ h₃ h₄ h₅ h₆
    all_goals cases h; assumption
  · rintro rfl
    exact operatorOf_name o

theorem connectiveOf?_eq_some_iff (name : String) (c : Connective) :
    connectiveOf? name = some c ↔ name = c.name := by
  constructor
  · intro h
    unfold connectiveOf? at h
    split_ifs at h with h₁ h₂
    all_goals cases h; assumption
  · rintro rfl
    exact connectiveOf_name c

theorem exact_operator : Exact operator (fun o => UnitForm o.name) unchecked :=
  exact_named operatorOf?_eq_some_iff

theorem exact_connective : Exact connective (fun c => UnitForm c.name) unchecked :=
  exact_named connectiveOf?_eq_some_iff

theorem ofInt?_eq_some_iff (v : Int) (n : Number) :
    Number.ofInt? v = some n ↔ ∃ w : Int64, v = w.toInt ∧ n = .integer w := by
  constructor
  · intro h
    unfold Number.ofInt? at h
    split at h
    · next hv =>
      cases h
      refine ⟨Int64.ofInt v, ?_, rfl⟩
      rw [Int64.toInt_ofInt_of_le hv.1 (Int.lt_of_le_of_lt hv.2 (by decide))]
    · cases h
  · rintro ⟨w, rfl, rfl⟩
    exact Number.ofInt?_toInt w

theorem numberOf?_eq_some_iff (kind : String) (n : JsonNumber) (m : Number) :
    numberOf? kind n = some m ↔
      (∃ v : Int64, kind = "Integer" ∧ n = .integer v.toInt ∧ m = .integer v) ∨
      (∃ x, kind = "Float" ∧ n.double? = some x ∧ m = .float x) := by
  constructor
  · intro h
    unfold numberOf? at h
    split_ifs at h with hinteger hfloat
    · split at h
      · obtain ⟨v, rfl, rfl⟩ := (ofInt?_eq_some_iff _ _).mp h
        exact .inl ⟨v, hinteger, rfl, rfl⟩
      · cases h
    · obtain ⟨x, hx, rfl⟩ := Option.map_eq_some_iff.mp h
      exact .inr ⟨x, hfloat, hx, rfl⟩
  · rintro (⟨v, rfl, rfl, rfl⟩ | ⟨x, rfl, hx, rfl⟩)
    · exact Number.ofInt?_toInt v
    · change n.double?.map Number.float = _
      rw [hx]
      rfl

theorem exact_number : Exact number Number.Form unchecked where
  complete := by
    intro n body hbody rest
    cases hbody with
    | integer v =>
      change found (numberOf? "Integer" (.integer v.toInt)) rest = _
      rw [(numberOf?_eq_some_iff _ _ _).mpr (.inl ⟨v, rfl, rfl, rfl⟩)]
      rfl
    | @float n x hx =>
      change found (numberOf? "Float" n) rest = _
      rw [(numberOf?_eq_some_iff _ _ _).mpr (.inr ⟨x, rfl, hx, rfl⟩)]
      rfl
  sound := by
    intro n ts rest h
    unfold number at h
    split at h
    · obtain ⟨hn, rfl⟩ := found_eq_ok_iff.mp h
      rcases (numberOf?_eq_some_iff _ _ _).mp hn with ⟨v, rfl, rfl, rfl⟩ | ⟨x, rfl, hx, rfl⟩
      · exact ⟨_, rfl, .integer v⟩
      · exact ⟨_, rfl, .float hx⟩
    · cases h

theorem tagged_append (name : String) (ts rest : List Token) :
    Token.tagged name ts ++ rest =
      .openObject :: .text (some name) :: .colon :: (ts ++ .closeObject :: rest) := by
  simp [Token.tagged]

theorem exact_value : Exact value Value.Form unchecked where
  complete := by
    intro v body hbody rest
    cases hbody with
    | null h => cases h <;> rfl
    | number h =>
      rw [tagged_append]
      change closing ((number _).map _) = _
      rw [exact_number.complete h]
      rfl
    | text s => rfl
  sound := by
    intro v ts rest h
    unfold value at h
    split at h
    · next kind ts =>
      have hread := closing_eq_ok_iff.mp h
      split_ifs at hread with hnull hnumber htext
      · split at hread
        · cases hread
          rw [hnull]
          exact ⟨_, rfl, .null .object⟩
        · cases hread
      · obtain ⟨n, hn, rfl⟩ := map_eq_ok_iff.mp hread
        obtain ⟨body, rfl, hbody⟩ := exact_number.sound hn
        rw [hnumber, ← tagged_append]
        exact ⟨_, rfl, .number hbody⟩
      · obtain ⟨s, hs, rfl⟩ := map_eq_ok_iff.mp hread
        obtain ⟨body, rfl, rfl⟩ := exact_text.sound hs
        rw [htext, ← tagged_append]
        exact ⟨_, rfl, .text s⟩
    · next name rest' =>
      obtain ⟨hname, rfl⟩ := found_eq_ok_iff.mp h
      split_ifs at hname with hnull
      cases hname
      rw [hnull]
      exact ⟨_, rfl, .null .name⟩
    · cases h

end Reader

end FieldQuery
