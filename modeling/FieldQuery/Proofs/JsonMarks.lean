import FieldQuery.Proofs.JsonText

/-!
# Cutting a JSON text at its marks

Brackets, commas and colons are marks: tokens of one character each, which no other token goes on
with. So a text can be cut at a mark that is among its tokens, into the text of the tokens before it
and what has the tokens after it; and tokens before a mark are found whatever follows the mark.
-/
namespace FieldQuery.Lexer

/-- A token that is a single character, and the character. -/
inductive Mark : Token → Char → Prop
  | openArray : Mark .openArray '['
  | closeArray : Mark .closeArray ']'
  | openObject : Mark .openObject '{'
  | closeObject : Mark .closeObject '}'
  | comma : Mark .comma ','
  | colon : Mark .colon ':'

variable {t : Token} {c : Char} {ts us : List Token} {cs rest : List Char}

theorem Mark.tokenText (h : Mark t c) (rest : List Char) : TokenText t (c :: rest) rest := by
  cases h <;> constructor

theorem Mark.eq_of_tokenText (h : Mark t c) (ht : TokenText t cs rest) : cs = c :: rest := by
  cases h <;> cases ht <;> rfl

theorem Mark.ends (h : Mark t c) (s : Spelling) (rest : List Char) : s.Ends (c :: rest) := by
  cases h <;> exact s.ends_cons (by decide) (by decide) rest

theorem StringText.exists_body {ps : List Piece} (h : StringText ps cs rest) :
    ∃ body, cs = body ++ rest ∧ ∀ rest', StringText ps (body ++ rest') rest' := by
  induction h with
  | close => exact ⟨['"'], rfl, fun _ => .close⟩
  | plain hquote hbackslash hcontrol _ ih =>
    obtain ⟨body, rfl, hbody⟩ := ih
    exact ⟨_ :: body, rfl, fun rest' => .plain hquote hbackslash hcontrol (hbody rest')⟩
  | short hl _ ih =>
    obtain ⟨body, rfl, hbody⟩ := ih
    exact ⟨_ :: _ :: body, rfl, fun rest' => .short hl (hbody rest')⟩
  | unit ha hb hc hd _ ih =>
    obtain ⟨body, rfl, hbody⟩ := ih
    exact ⟨_ :: _ :: _ :: _ :: _ :: _ :: body, rfl, fun rest' => .unit ha hb hc hd (hbody rest')⟩

/-- A token keeps its characters when the text after it changes, if that still ends a numeral. -/
theorem TokenText.exists_body (h : TokenText t cs rest) :
    ∃ body, cs = body ++ rest ∧ ∀ rest', (∀ s : Spelling, s.Ends rest → s.Ends rest') →
      TokenText t (body ++ rest') rest' := by
  cases h with
  | @text ps content cs rest hspelt hcontent =>
    obtain ⟨body, rfl, hbody⟩ := hspelt.exists_body
    exact ⟨'"' :: body, rfl, fun rest' _ => .text (hbody rest') hcontent⟩
  | number hspelt hends => exact ⟨_, rfl, fun rest' hrest' => .number hspelt (hrest' _ hends)⟩
  | openArray => exact ⟨['['], rfl, fun _ _ => .openArray⟩
  | closeArray => exact ⟨[']'], rfl, fun _ _ => .closeArray⟩
  | openObject => exact ⟨['{'], rfl, fun _ _ => .openObject⟩
  | closeObject => exact ⟨['}'], rfl, fun _ _ => .closeObject⟩
  | comma => exact ⟨[','], rfl, fun _ _ => .comma⟩
  | colon => exact ⟨[':'], rfl, fun _ _ => .colon⟩
  | null => exact ⟨['n', 'u', 'l', 'l'], rfl, fun _ _ => .null⟩
  | true => exact ⟨['t', 'r', 'u', 'e'], rfl, fun _ _ => .true⟩
  | false => exact ⟨['f', 'a', 'l', 's', 'e'], rfl, fun _ _ => .false⟩

/-- Only the first character after a numeral matters to its end. -/
theorem Spelling.Ends.of_head? {s : Spelling} {rest' : List Char} (h : s.Ends rest)
    (hrest : rest'.head? = rest.head?) : s.Ends rest' := by
  obtain ⟨hdigit, hpoint, hmark⟩ := h
  unfold NoDigit at hdigit
  rw [← hrest] at hdigit hpoint hmark
  exact ⟨hdigit, hpoint, hmark⟩

/-- A text is cut at a mark, after which anything may follow. -/
theorem tokens_cut (hmark : Mark t c) (hstray : .stray ∉ ts) (h : tokens cs = ts ++ t :: us) :
    ∃ cs₁ cs₂, cs = cs₁ ++ c :: cs₂ ∧ TextOf ts cs₁ ∧ tokens cs₂ = us := by
  fun_induction tokens cs generalizing ts with
  | case1 => simp at h
  | case2 d cs hblank ih =>
    obtain ⟨cs₁, cs₂, rfl, h₁, h₂⟩ := ih hstray h
    exact ⟨d :: cs₁, cs₂, rfl, .blank hblank h₁, h₂⟩
  | case3 d cs _ ih =>
    cases ts with
    | nil =>
      obtain ⟨hnext, hrest⟩ := List.cons.inj h
      have htoken := tokenText_of_next (hnext ▸ (hmark.tokenText []).ne_stray)
      rw [hnext] at htoken
      exact ⟨[], _, hmark.eq_of_tokenText htoken, .nil, hrest⟩
    | cons v ts =>
      obtain ⟨hnext, hrest⟩ := List.cons.inj h
      rw [List.mem_cons, not_or] at hstray
      have htoken := tokenText_of_next (hnext ▸ Ne.symm hstray.1)
      obtain ⟨cs₁, cs₂, hcs, h₁, h₂⟩ := ih hstray.2 hrest
      rw [hnext, hcs] at htoken
      obtain ⟨body, hbody, htext⟩ := htoken.exists_body
      refine ⟨body ++ cs₁, cs₂, by rw [hbody, List.append_assoc], .token (htext cs₁ ?_) h₁, h₂⟩
      intro s hends
      cases cs₁ with
      | nil => exact s.ends_nil
      | cons e cs₁ => exact hends.of_head? rfl

/-- Tokens before a mark are found, whatever comes after it. -/
theorem TextOf.tokens_append (hmark : Mark t c) (h : TextOf ts cs) (more : List Char) :
    tokens (cs ++ c :: more) = ts ++ t :: tokens more := by
  induction h with
  | nil => exact (hmark.tokenText more).tokens_eq
  | blank hblank _ ih => rw [List.cons_append, tokens_cons_of_blank hblank, ih]
  | @token u ts cs rest htoken _ ih =>
    obtain ⟨body, rfl, hbody⟩ := htoken.exists_body
    have htext : TokenText u (body ++ (rest ++ c :: more)) (rest ++ c :: more) := by
      refine hbody _ fun s hends => ?_
      cases rest with
      | nil => exact hmark.ends s more
      | cons d rest => exact hends.of_head? rfl
    rw [List.append_assoc, htext.tokens_eq, ih, List.cons_append]

theorem TextOf.append (hmark : Mark t c) {ds : List Char} (h : TextOf ts cs) (hd : TextOf us ds) :
    TextOf (ts ++ t :: us) (cs ++ c :: ds) := by
  have hne : t ≠ .stray := (hmark.tokenText []).ne_stray
  rw [textOf_iff, h.tokens_append hmark, hd.tokens_eq]
  refine ⟨rfl, ?_⟩
  rw [List.mem_append, List.mem_cons, not_or, not_or]
  exact ⟨h.stray_not_mem, hne.symm, hd.stray_not_mem⟩

def Blank (cs : List Char) : Prop := ∀ c ∈ cs, isBlank c = true

instance (cs : List Char) : Decidable (Blank cs) :=
  decidable_of_iff (cs.all isBlank = true) List.all_eq_true

theorem textOf_nil_iff : TextOf [] cs ↔ Blank cs := by
  constructor
  · intro h
    generalize hts : ([] : List Token) = ts at h
    induction h with
    | nil => exact List.forall_mem_nil _
    | blank hblank _ ih => exact List.forall_mem_cons.mpr ⟨hblank, ih hts⟩
    | token _ _ _ => cases hts
  · intro h
    induction cs with
    | nil => exact .nil
    | cons c cs ih =>
      obtain ⟨hc, hcs⟩ := List.forall_mem_cons.mp h
      exact .blank hc (ih hcs)

theorem TextOf.blank_append {bs : List Char} (h : TextOf ts cs) (hbs : Blank bs) :
    TextOf ts (bs ++ cs) := by
  induction bs with
  | nil => exact h
  | cons b bs ih =>
    obtain ⟨hb, hbs⟩ := List.forall_mem_cons.mp hbs
    exact .blank hb (ih hbs)

end FieldQuery.Lexer
