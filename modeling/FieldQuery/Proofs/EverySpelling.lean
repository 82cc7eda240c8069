import FieldQuery.Proofs.ClauseSpelling
import FieldQuery.Proofs.JsonText

/-!
# Validation of every spelling

A clause that is read from a text passes the rules for clauses, however the text spells it: with
members in any order and others among them, as an array, with names as objects, with any escapes in
strings and any blanks between tokens. And all texts that spell one clause come to one end. There is
no text that is read and is not such a spelling, so no spelling gets around the rules.
-/
namespace FieldQuery

namespace Token

theorem mem_joined_of_mem {t : Token} {part : List Token} {parts : List (List Token)}
    (hpart : part ∈ parts) (ht : t ∈ part) : t ∈ joined parts := by
  cases parts with
  | nil => cases hpart
  | cons first parts =>
    rcases List.mem_cons.mp hpart with rfl | hpart
    · exact List.mem_append_left _ ht
    · exact List.mem_append_right _
        (List.mem_flatMap.mpr ⟨part, hpart, List.mem_cons_of_mem _ ht⟩)

theorem stray_not_mem_joined {parts : List (List Token)} (h : ∀ part ∈ parts, .stray ∉ part) :
    .stray ∉ joined parts := by
  cases parts with
  | nil => exact List.not_mem_nil
  | cons part parts =>
    obtain ⟨hpart, hparts⟩ := List.forall_mem_cons.mp h
    simpa [joined, hpart] using hparts

theorem stray_not_mem_tagged {name : String} {ts : List Token} (h : .stray ∉ ts) :
    .stray ∉ tagged name ts := by
  simpa [tagged] using h

theorem AnyValue.stray_not_mem {ts : List Token} (h : AnyValue ts) : .stray ∉ ts := by
  induction h with
  | null | bool | number | text => simp
  | array _ ih => simpa using stray_not_mem_joined ih
  | @object members _ ih =>
    have hjoined : .stray ∉ joined (members.map fun m => member m.1 m.2) := by
      refine stray_not_mem_joined (List.forall_mem_map.mpr ?_)
      intro m hm
      simpa [member] using ih m hm
    simpa using hjoined

end Token

open Token

theorem UnitForm.stray_not_mem {name : String} {ts : List Token} (h : UnitForm name ts) :
    .stray ∉ ts := by
  cases h with
  | name => simp
  | object => exact stray_not_mem_tagged (by simp)

theorem Number.Form.stray_not_mem {n : Number} {ts : List Token} (h : n.Form ts) : .stray ∉ ts := by
  cases h <;> exact stray_not_mem_tagged (by simp)

theorem Value.Form.stray_not_mem {v : Value} {ts : List Token} (h : v.Form ts) : .stray ∉ ts := by
  cases h with
  | null h => exact h.stray_not_mem
  | number h => exact stray_not_mem_tagged h.stray_not_mem
  | text => exact stray_not_mem_tagged (by simp)

theorem FieldClause.MemberForm.stray_not_mem {c : FieldClause} {name : String} {ts : List Token}
    (h : c.MemberForm name ts) : .stray ∉ ts := by
  cases h with
  | field => simp
  | operator h => exact h.stray_not_mem
  | value h => exact h.stray_not_mem
  | negated => simp
  | unknown _ h => exact h.stray_not_mem

theorem FieldClause.Form.stray_not_mem {c : FieldClause} {ts : List Token} (h : c.Form ts) :
    .stray ∉ ts := by
  cases h with
  | @object members hmembers _ =>
    have hjoined : .stray ∉ memberTokens members := by
      refine stray_not_mem_joined (List.forall_mem_map.mpr ?_)
      intro m hm
      simpa [member] using (hmembers m hm).stray_not_mem
    simpa using hjoined
  | array hoperator hvalue =>
    simp [joined, hoperator.stray_not_mem, hvalue.stray_not_mem]

theorem Clause.Form.stray_not_mem {c : Clause} {ts : List Token} (h : c.Form ts) : .stray ∉ ts := by
  cases h with
  | field h => exact stray_not_mem_tagged h.stray_not_mem
  | logical h => exact stray_not_mem_tagged h.stray_not_mem

theorem Clause.ListForm.stray_not_mem {cs : List Clause} {ts : List Token} (h : ListForm cs ts) :
    .stray ∉ ts := by
  cases h with
  | @intro items hitems =>
    have hstray : ∀ item ∈ items, .stray ∉ item :=
      forall_mem_of_forall₂ hitems Form.stray_not_mem
    simpa using stray_not_mem_joined hstray

theorem FieldClause.MemberForm.value_form {c : FieldClause} {ts : List Token}
    (h : c.MemberForm "value" ts) : c.value.Form ts := by
  generalize hname : "value" = name at h
  cases h with
  | value h => exact h
  | unknown hunknown _ => exact absurd (hname ▸ by decide) hunknown
  | _ => exact absurd hname (by decide)

/-- The value is spelt somewhere in a field clause. -/
theorem FieldClause.Form.exists_value {c : FieldClause} {ts : List Token} (h : c.Form ts) :
    ∃ us, c.value.Form us ∧ us ⊆ ts := by
  cases h with
  | @object members hmembers hnames =>
    have hmem : "value" ∈ members.map Prod.fst :=
      List.count_pos_iff.mp (by rw [hnames "value" (by decide)]; decide)
    obtain ⟨⟨name, us⟩, hm, rfl⟩ := List.mem_map.mp hmem
    refine ⟨us, (hmembers _ hm).value_form, ?_⟩
    intro t ht
    have hjoined : t ∈ memberTokens members :=
      mem_joined_of_mem (List.mem_map_of_mem hm)
        (List.mem_cons_of_mem _ (List.mem_cons_of_mem _ ht))
    exact List.mem_cons_of_mem _ (List.mem_append_left _ hjoined)
  | @array operator value _ hvalue =>
    refine ⟨value, hvalue, ?_⟩
    intro t ht
    have hjoined : t ∈ joined [[.text (some c.field)], operator, value, [.bool c.negated]] :=
      mem_joined_of_mem (List.mem_cons_of_mem _ (List.mem_cons_of_mem _ List.mem_cons_self)) ht
    exact List.mem_cons_of_mem _ (List.mem_append_left _ hjoined)

theorem Value.Form.exists_number {x : Binary64} {ts : List Token}
    (h : Form (.number (.float x)) ts) : ∃ n, .number (some n) ∈ ts ∧ n.double? = some x := by
  cases h with
  | number h =>
    cases h with
    | @float n _ hn => exact ⟨n, by simp [tagged], hn⟩

theorem Clause.Form.exists_field {f : FieldClause} {ts : List Token} (h : Form (.field f) ts) :
    ∃ us, f.Form us ∧ us ⊆ ts := by
  cases h with
  | @field _ us hus =>
    refine ⟨us, hus, ?_⟩
    intro t ht
    simp [tagged, ht]

/-- A field clause in a list is spelt somewhere in the list. -/
theorem Clause.ListForm.exists_field {cs : List Clause} {ts : List Token} (h : ListForm cs ts)
    {f : FieldClause} (hf : .field f ∈ cs) : ∃ us, f.Form us ∧ us ⊆ ts := by
  cases h with
  | @intro items hitems =>
    have hitem : ∃ item ∈ items, Form (.field f) item := by
      induction hitems with
      | nil => cases hf
      | @cons c item _ _ hc _ ih =>
        rcases List.mem_cons.mp hf with rfl | hf
        · exact ⟨item, List.mem_cons_self, hc⟩
        · obtain ⟨item', hitem', hform⟩ := ih hf
          exact ⟨item', List.mem_cons_of_mem _ hitem', hform⟩
    obtain ⟨item, hmem, hform⟩ := hitem
    obtain ⟨us, hus, hsub⟩ := hform.exists_field
    refine ⟨us, hus, ?_⟩
    intro t ht
    exact List.mem_cons_of_mem _ (List.mem_append_left _ (mem_joined_of_mem hmem (hsub ht)))

/-- What the rules ask of a field clause, and that all its numbers are numbers. -/
structure FieldClause.Fit (c : FieldClause) : Prop where
  contains : c.operator = .contains → ∃ s, c.value = .text s ∧ 3 ≤ s.length
  range : ∀ b, c.operator = .range b → ∃ n, c.value = .number n
  finite : ∀ x, c.value = .number (.float x) → x.isFinite = true

theorem FieldClause.fit_iff {c : FieldClause} :
    c.Fit ↔ c.check = .ok () ∧ ∀ x, c.value = .number (.float x) → x.isFinite = true := by
  constructor
  · rintro ⟨hcontains, hrange, hfinite⟩
    refine ⟨?_, hfinite⟩
    cases ho : c.operator with
    | equals => exact (Verdict.equals ho).result
    | contains =>
      obtain ⟨s, hv, hs⟩ := hcontains ho
      exact (Verdict.contains ho hv hs).result
    | range b =>
      obtain ⟨n, hv⟩ := hrange b ho
      exact (Verdict.range ho hv).result
  · rintro ⟨hcheck, hfinite⟩
    have hverdict := c.verdict_check
    rw [hcheck] at hverdict
    cases hverdict with
    | equals ho => exact ⟨by simp [ho], by simp [ho], hfinite⟩
    | contains ho hv hs => exact ⟨fun _ => ⟨_, hv, hs⟩, by simp [ho], hfinite⟩
    | range ho hv => exact ⟨by simp [ho], fun _ _ => ⟨_, hv⟩, hfinite⟩

/-- In a text, only the rules are left to ask. -/
theorem FieldClause.Form.fit_iff {c : FieldClause} {us ts : List Token} {cs : List Char}
    (h : c.Form us) (hsub : us ⊆ ts) (htext : Lexer.TextOf ts cs) : c.Fit ↔ c.check = .ok () := by
  have hfinite : ∀ x, c.value = .number (.float x) → x.isFinite = true := by
    intro x hx
    obtain ⟨vs, hvalue, hvs⟩ := h.exists_value
    rw [hx] at hvalue
    obtain ⟨n, hn, hdouble⟩ := hvalue.exists_number
    exact htext.isFinite (hsub (hvs hn)) hdouble
  rw [FieldClause.fit_iff, and_iff_left hfinite]

namespace Reader

variable {α : Type}

/-- A text spells something when its tokens have the form of it. -/
def Spells (form : α → List Token → Prop) (v : α) (s : String) : Prop :=
  ∃ ts, Lexer.TextOf ts s.toList ∧ form v ts

section

variable {reader : List Token → Reading α} {form : α → List Token → Prop}
  {check : α → Except Reason Unit} {v : α} {s : String}

theorem Exact.ofText_eq (h : Exact reader form check) (hs : Spells form v s) :
    ofText reader s = judged (check v) v := by
  obtain ⟨ts, htext, hform⟩ := hs
  rw [ofText, htext.tokens_eq, h.whole_eq hform]

theorem Exact.ofText_eq_ok_iff (h : Exact reader form check)
    (hstray : ∀ {v ts}, form v ts → .stray ∉ ts) :
    ofText reader s = .ok v ↔ Spells form v s ∧ check v = .ok () := by
  rw [ofText, h.whole_eq_ok_iff, Spells]
  constructor
  · rintro ⟨hform, hcheck⟩
    exact ⟨⟨_, Lexer.textOf_tokens (hstray hform), hform⟩, hcheck⟩
  · rintro ⟨⟨ts, htext, hform⟩, hcheck⟩
    exact ⟨htext.tokens_eq.symm ▸ hform, hcheck⟩

end

theorem Spells.fit_iff {c : FieldClause} {s : String} (h : Spells FieldClause.Form c s) :
    c.Fit ↔ c.check = .ok () := by
  obtain ⟨ts, htext, hform⟩ := h
  exact hform.fit_iff (List.Subset.refl ts) htext

theorem Spells.clause_fit_iff {c : Clause} {s : String} (h : Spells Clause.Form c s) :
    (∀ f, c = .field f → f.Fit) ↔ c.check = .ok () := by
  obtain ⟨ts, htext, hform⟩ := h
  cases c with
  | logical _ => exact ⟨fun _ => rfl, fun _ => nofun⟩
  | field f =>
    obtain ⟨us, hus, hsub⟩ := hform.exists_field
    rw [Clause.check, ← hus.fit_iff hsub htext]
    constructor
    · intro hfit
      exact hfit f rfl
    · rintro hfit _ ⟨⟩
      exact hfit

theorem Spells.list_fit_iff {cs : List Clause} {s : String} (h : Spells Clause.ListForm cs s) :
    (∀ f, .field f ∈ cs → f.Fit) ↔ Clause.checkAll cs = .ok () := by
  obtain ⟨ts, htext, hform⟩ := h
  have hfit : ∀ {f}, .field f ∈ cs → (f.Fit ↔ f.check = .ok ()) := by
    intro f hf
    obtain ⟨us, hus, hsub⟩ := hform.exists_field hf
    exact hus.fit_iff hsub htext
  rw [Clause.checkAll_eq_ok_iff, Clause.forall_check_iff]
  exact forall₂_congr fun _ hf => hfit hf

theorem ofText_eq_refused_iff {s : String} {r : Reason} :
    ofText fieldClause s = .error (.refused r) ↔
      ∃ (c : FieldClause) (body rest : List Token),
        Lexer.tokens s.toList = body ++ rest ∧ c.Form body ∧ c.check = .error r := by
  rw [← fieldClause_eq_refused_iff, ofText, whole]
  rcases fieldClause (Lexer.tokens s.toList) with p | ⟨c, _ | ⟨t, ts⟩⟩ <;> simp

/-- Nothing but what a text spells is read from it, and only if it is fit; so is every clause inside
what is read. What a text spells is read, or refused for the reason that the rules give for the
clause, the same for all its spellings; in a list, the first field clause that is refused decides.
Nothing is refused but a field clause that is spelt. The stored form of a field clause is one of its
spellings, unless it holds a double that is not finite. -/
theorem ofText_of_every_spelling :
    (∀ s c, ofText fieldClause s = .ok c ↔ Spells FieldClause.Form c s ∧ c.Fit) ∧
    (∀ s c, ofText clause s = .ok c ↔ Spells Clause.Form c s ∧ ∀ f, c = .field f → f.Fit) ∧
    (∀ s cs, ofText clauses s = .ok cs ↔
      Spells Clause.ListForm cs s ∧ ∀ f, .field f ∈ cs → f.Fit) ∧
    (∀ s (c : FieldClause) v, Spells FieldClause.Form c s → c.Verdict v →
      ofText fieldClause s = judged v c) ∧
    (∀ s (c : FieldClause) v, Spells Clause.Form (.field c) s → c.Verdict v →
      ofText clause s = judged v (.field c)) ∧
    (∀ s cs, Spells Clause.ListForm cs s → ofText clauses s = judged (Clause.checkAll cs) cs) ∧
    (∀ s cs r, Spells Clause.ListForm cs s → (ofText clauses s = .error (.refused r) ↔
      ∃ before c after, cs = before ++ .field c :: after ∧
        (∀ d, .field d ∈ before → d.Verdict (.ok ())) ∧ c.Verdict (.error r))) ∧
    (∀ s r, ofText fieldClause s = .error (.refused r) ↔
      ∃ (c : FieldClause) (body rest : List Token),
        Lexer.tokens s.toList = body ++ rest ∧ c.Form body ∧ c.Verdict (.error r)) ∧
    ∀ c : FieldClause, c.Form c.image.tokens ↔ c.value.isFinite = true := by
  refine ⟨?_, ?_, ?_, ?_, ?_, ?_, ?_, ?_, ?_⟩
  · intro s c
    rw [exact_fieldClause.ofText_eq_ok_iff FieldClause.Form.stray_not_mem]
    exact and_congr_right fun h => h.fit_iff.symm
  · intro s c
    rw [exact_clause.ofText_eq_ok_iff Clause.Form.stray_not_mem]
    exact and_congr_right fun h => h.clause_fit_iff.symm
  · intro s cs
    rw [exact_clauses.ofText_eq_ok_iff Clause.ListForm.stray_not_mem]
    exact and_congr_right fun h => h.list_fit_iff.symm
  · intro s c v hs hv
    rw [exact_fieldClause.ofText_eq hs, hv.result]
  · intro s c v hs hv
    rw [exact_clause.ofText_eq hs, Clause.check, hv.result]
  · intro s cs hs
    exact exact_clauses.ofText_eq hs
  · intro s cs r hs
    simp only [FieldClause.verdict_iff]
    rw [exact_clauses.ofText_eq hs, judged_eq_refused_iff, Clause.checkAll_eq_error_iff]
  · intro s r
    simp only [FieldClause.verdict_iff]
    exact ofText_eq_refused_iff
  · intro c
    exact form_image_iff

/-- A clause whose search text has two characters, spelt with the members turned around, an unknown
one among them, escapes in a name, and a pair of escapes for one of the two characters. -/
theorem ofText_of_hidden_short_substring :
    let c : FieldClause := ⟨"n", .contains, .text "a😀", false⟩
    let s := "\x7b\"x\":[1e999,\"\\ud800\"]," ++
      "\"value\":\x7b\"String\":\"\\u0061\\ud83d\\ude00\"\x7d,\"negated\":false," ++
      "\"\\u006fperator\":\x7b\"Contains\":null\x7d,\"field\":\"n\"\x7d"
    Spells FieldClause.Form c s ∧
      ofText fieldClause s = .error (.refused (.shortSubstring "n")) := by
  intro c s
  have htokens : Lexer.tokens s.toList = .openObject :: (FieldClause.memberTokens
      [("x", [.openArray, .number none, .comma, .text none, .closeArray]),
        ("value", tagged "String" [.text (some "a😀")]), ("negated", [.bool false]),
        ("operator", tagged "Contains" [.null]), ("field", [.text (some "n")])] ++
        [.closeObject]) := by decide +kernel
  have hunknown : AnyValue [.openArray, .number none, .comma, .text none, .closeArray] :=
    @AnyValue.array [[.number none], [.text none]]
      (by simp [AnyValue.number none, AnyValue.text none])
  have hform : c.Form (Lexer.tokens s.toList) := by
    rw [htokens]
    refine .object ?_ (by decide)
    simp only [List.forall_mem_cons]
    exact ⟨.unknown (by decide) hunknown, .value (.text _), .negated, .operator .object, .field,
      List.forall_mem_nil _⟩
  have hspells : Spells FieldClause.Form c s :=
    ⟨_, Lexer.textOf_tokens hform.stray_not_mem, hform⟩
  exact ⟨hspells, ofText_of_every_spelling.2.2.2.1 s c _ hspells (.short rfl rfl (by decide))⟩

end Reader

end FieldQuery
