import FieldQuery.Proofs.ClauseFlaws
import FieldQuery.Proofs.EverySpelling
import FieldQuery.Proofs.JsonMarks

/-!
# The first problem in a list

A list of clauses is read item by item, and the rules are asked about an item as soon as its field
clause has ended. So what is reported is the first problem in reading order: what comes after it is
not looked at, and what is wrong with the form of an item is found before the rules are asked about
it. A list is read exactly if each of its items is, and then the clauses are those of the items.
-/
namespace FieldQuery.Reader

open Token Lexer

/-- The items of a list, each with its comma. -/
def listed (items : List String) : String := String.join (items.map (· ++ ","))

def Decoded (items : List String) (cs : List Clause) : Prop :=
  List.Forall₂ (fun item c => ofText clause item = .ok c) items cs

/-- The text is an array that goes on with `more` after items that decode to the given clauses. -/
def Reaches (s : String) (cs : List Clause) (more : String) : Prop :=
  ∃ lead items, Blank lead.toList ∧ Decoded items cs ∧ s = lead ++ "[" ++ listed items ++ more

/-- The text is an array of the given items. -/
def ArrayOf (items : List String) (s : String) : Prop :=
  ∃ lead inner trail, Blank lead.toList ∧ Blank inner.toList ∧ Blank trail.toList ∧
    s = lead ++ "[" ++ inner ++ ",".intercalate items ++ "]" ++ trail

/-- An element for a field clause, up to where the field clause ends. -/
def Element (f : FieldClause) (s : String) : Prop :=
  ∃ ts, TextOf (.openObject :: .text (some "Field") :: .colon :: ts) s.toList ∧ f.Form ts

def JsonText (s : String) : Prop := ∃ ts, TextOf ts s.toList ∧ AnyValue ts

/-- The items have the given tokens. -/
def ItemTexts (bodies : List (List Token)) (items : List String) : Prop :=
  List.Forall₂ (fun body item => TextOf body item.toList) bodies items

/-- The tokens spell clauses that keep the rules. -/
def Spelt (cs : List Clause) (bodies : List (List Token)) : Prop :=
  List.Forall₂ (fun c body => c.Form body ∧ c.check = .ok ()) cs bodies

variable {s : String} {items : List String} {bodies : List (List Token)} {cs : List Clause}
  {ts us rest : List Token} {r : Reason} {p : Problem}

theorem decoded_iff (h : ItemTexts bodies items) : Decoded items cs ↔ Spelt cs bodies := by
  induction h generalizing cs with
  | nil => cases cs <;> simp [Decoded, Spelt]
  | cons htext _ ih =>
    cases cs with
    | nil => simp [Decoded, Spelt]
    | cons c cs =>
      rw [Decoded, List.forall₂_cons, ofText, htext.tokens_eq, exact_clause.whole_eq_ok_iff, Spelt,
        List.forall₂_cons]
      exact and_congr_right fun _ => ih

theorem Decoded.itemTexts (h : Decoded items cs) : ∃ bodies, ItemTexts bodies items := by
  induction h with
  | nil => exact ⟨[], .nil⟩
  | cons hread _ ih =>
    obtain ⟨bodies, hbodies⟩ := ih
    obtain ⟨⟨ts, htext, -⟩, -⟩ :=
      (exact_clause.ofText_eq_ok_iff Clause.Form.stray_not_mem).mp hread
    exact ⟨ts :: bodies, .cons htext hbodies⟩

theorem toList_listed_cons (item : String) (items : List String) (more : List Char) :
    (listed (item :: items)).toList ++ more =
      item.toList ++ ',' :: ((listed items).toList ++ more) := by
  simp [listed]

theorem ItemTexts.tokens_listed (h : ItemTexts bodies items) (more : List Char) :
    tokens ((listed items).toList ++ more) = leading bodies ++ tokens more := by
  induction h with
  | nil => rfl
  | cons htext _ ih =>
    rw [toList_listed_cons, htext.tokens_append .comma, ih, leading_cons_append]

/-- A text whose tokens are those of items is one of items. -/
theorem exists_itemTexts {cs : List Char} (hstray : ∀ body ∈ bodies, .stray ∉ body)
    (h : tokens cs = leading bodies ++ us) :
    ∃ items more, cs = (listed items).toList ++ more ∧ ItemTexts bodies items ∧
      tokens more = us := by
  induction bodies generalizing cs with
  | nil => exact ⟨[], cs, rfl, .nil, h⟩
  | cons body bodies ih =>
    obtain ⟨hbody, hbodies⟩ := List.forall_mem_cons.mp hstray
    rw [leading_cons_append] at h
    obtain ⟨item, cs, rfl, hitem, hcs⟩ := tokens_cut .comma hbody h
    obtain ⟨items, more, rfl, hitems, hmore⟩ := ih hbodies hcs
    refine ⟨String.ofList item :: items, more, ?_, .cons ?_ hitems, hmore⟩
    · rw [toList_listed_cons, String.toList_ofList]
    · rwa [String.toList_ofList]

theorem blank_ofList {cs : List Char} (h : TextOf [] cs) : Blank (String.ofList cs).toList := by
  rw [String.toList_ofList]
  exact textOf_nil_iff.mp h

theorem Spelt.stray_not_mem (h : Spelt cs bodies) : ∀ body ∈ bodies, .stray ∉ body :=
  forall_mem_of_forall₂ h fun hc => hc.1.stray_not_mem

theorem Reaches.exists_tokens {more : String} (h : Reaches s cs more) :
    ∃ bodies, Spelt cs bodies ∧
      tokens s.toList = .openArray :: (leading bodies ++ tokens more.toList) := by
  obtain ⟨lead, items, hlead, hitems, rfl⟩ := h
  obtain ⟨bodies, hbodies⟩ := hitems.itemTexts
  refine ⟨bodies, (decoded_iff hbodies).mp hitems, ?_⟩
  have htext : (lead ++ "[" ++ listed items ++ more).toList =
      lead.toList ++ '[' :: ((listed items).toList ++ more.toList) := by
    simp [String.toList_append]
  rw [htext, (textOf_nil_iff.mpr hlead).tokens_append .openArray, hbodies.tokens_listed,
    List.nil_append]

theorem exists_reaches (h : Spelt cs bodies)
    (htokens : tokens s.toList = .openArray :: (leading bodies ++ us)) :
    ∃ more, Reaches s cs more ∧ tokens more.toList = us := by
  obtain ⟨lead, inner, hs, hlead, hinner⟩ := tokens_cut .openArray List.not_mem_nil htokens
  obtain ⟨items, more, rfl, hitems, hmore⟩ := exists_itemTexts h.stray_not_mem hinner
  refine ⟨String.ofList more, ⟨String.ofList lead, items, blank_ofList hlead,
    (decoded_iff hitems).mpr h, ?_⟩, ?_⟩
  · apply String.toList_inj.mp
    simp [hs, String.toList_append]
  · rw [String.toList_ofList, hmore]

theorem clauses_openArray (h : ∀ us, ts ≠ .closeArray :: us) :
    clauses (.openArray :: ts) = laterClauses ts := by
  unfold clauses
  split
  · next heq => exact absurd (List.cons.inj heq).2 (h _)
  · next heq => rw [(List.cons.inj heq).2]
  · next hne => exact absurd rfl (hne ts)

/-- A problem after items that were read is the problem of the list. -/
theorem laterClauses_leading (h : Spelt cs bodies) (hts : laterClauses ts = .error p) :
    laterClauses (leading bodies ++ ts) = .error p := by
  induction h with
  | nil => exact hts
  | @cons c body cs bodies hc _ ih =>
    have hread := exact_clause.complete hc.1 (.comma :: (leading bodies ++ ts))
    rw [hc.2] at hread
    rw [leading_cons_append, laterClauses_comma hread, ih]
    rfl

theorem clauses_leading (h : Spelt cs bodies) (hts : fieldClause ts = .error p) :
    clauses (.openArray ::
      (leading bodies ++ .openObject :: .text (some "Field") :: .colon :: ts)) = .error p := by
  have hclause : clause (.openObject :: .text (some "Field") :: .colon :: ts) = .error p := by
    change closing ((fieldClause ts).map _) = _
    rw [hts]
    rfl
  rw [clauses_openArray, laterClauses_leading h (laterClauses_error hclause)]
  intro us
  cases h with
  | nil => nofun
  | cons hc _ =>
    rw [leading_cons_append]
    exact hc.1.anyValue.ne_closeArray _ us

theorem ofText_of_reaches {more : String} (h : Reaches s cs more)
    (hmore : tokens more.toList = .openObject :: .text (some "Field") :: .colon :: ts)
    (hts : fieldClause ts = .error p) : ofText clauses s = .error p := by
  obtain ⟨bodies, hbodies, htokens⟩ := h.exists_tokens
  rw [ofText, whole, htokens, hmore, clauses_leading hbodies hts]

theorem clause_eq_refused (h : clause ts = .error (.refused r)) :
    ∃ (f : FieldClause) (body rest : List Token),
      ts = .openObject :: .text (some "Field") :: .colon :: (body ++ rest) ∧ f.Form body ∧
      f.check = .error r := by
  unfold clause at h
  split at h
  · next kind us =>
    split_ifs at h with hfield hlogical
    · cases hread : fieldClause us with
      | ok x =>
        rw [hread] at h
        exact absurd ((unrefused_ok _).closing _ h) nofun
      | error p =>
        rw [hread] at h
        cases h
        obtain ⟨f, body, rest, rfl, hbody, hcheck⟩ := fieldClause_eq_refused_iff.mp hread
        exact ⟨f, body, rest, by rw [hfield], hbody, hcheck⟩
    · exact absurd (((unrefused_named _ us).map _).closing _ h) nofun
    · cases h
  · cases h

/-- A list is refused for one of its items, after all items before it were read. -/
theorem laterClauses_eq_refused (h : laterClauses ts = .error (.refused r)) :
    ∃ cs bodies us, ts = leading bodies ++ us ∧ Spelt cs bodies ∧
      clause us = .error (.refused r) := by
  fun_induction laterClauses ts with
  | case1 ts c us hread ih =>
    cases hlater : laterClauses us with
    | ok x =>
      rw [hlater] at h
      cases h
    | error p =>
      rw [hlater] at h
      cases h
      obtain ⟨cs, bodies, us, rfl, hbodies, hus⟩ := ih hlater
      obtain ⟨⟨body, rfl, hbody⟩, hcheck⟩ := exact_clause.ok_iff.mp hread
      refine ⟨c :: cs, body :: bodies, us, ?_, .cons ⟨hbody, hcheck⟩ hbodies, hus⟩
      rw [leading_cons_append]
  | case2 => cases h
  | case3 => cases h
  | case4 ts p hread =>
    cases h
    exact ⟨[], [], ts, rfl, .nil, hread⟩

theorem clauses_eq_refused (h : clauses ts = .error (.refused r)) :
    ∃ (cs : List Clause) (bodies : List (List Token)) (f : FieldClause) (body rest : List Token),
      ts = .openArray :: (leading bodies ++
        .openObject :: .text (some "Field") :: .colon :: (body ++ rest)) ∧
      Spelt cs bodies ∧ f.Form body ∧ f.check = .error r := by
  unfold clauses at h
  split at h
  · cases h
  · obtain ⟨cs, bodies, us, rfl, hbodies, hus⟩ := laterClauses_eq_refused h
    obtain ⟨f, body, rest, rfl, hbody, hcheck⟩ := clause_eq_refused hus
    exact ⟨cs, bodies, f, body, rest, rfl, hbodies, hbody, hcheck⟩
  · cases h

theorem exists_mark {f : FieldClause} (h : f.Form ts) :
    ∃ before t c, ts = before ++ [t] ∧ Mark t c := by
  cases h with
  | object => exact ⟨_ :: _, _, _, rfl, .closeObject⟩
  | array => exact ⟨_ :: _, _, _, rfl, .closeArray⟩

/-- The bracket at the end of a field clause ends its text as well. -/
theorem Element.exists_tokens {f : FieldClause} (h : Element f s) (more : List Char) :
    ∃ body rest, f.Form body ∧
      tokens (s.toList ++ more) =
        .openObject :: .text (some "Field") :: .colon :: (body ++ rest) := by
  obtain ⟨ts, htext, hform⟩ := h
  obtain ⟨before, t, c, rfl, hmark⟩ := exists_mark hform
  rw [← List.cons_append, ← List.cons_append, ← List.cons_append] at htext
  obtain ⟨htokens, hstray⟩ := textOf_iff.mp htext
  rw [List.mem_append, not_or] at hstray
  obtain ⟨cs, ds, hs, hcs, -⟩ := tokens_cut hmark hstray.1 htokens
  refine ⟨_, tokens (ds ++ more), hform, ?_⟩
  rw [hs, List.append_assoc, List.cons_append, hcs.tokens_append hmark]
  simp

theorem exists_element {f : FieldClause} {body : List Token} {cs : List Char} (h : f.Form body)
    (htokens : tokens cs = .openObject :: .text (some "Field") :: .colon :: (body ++ rest)) :
    ∃ piece more : String, cs = (piece ++ more).toList ∧ Element f piece := by
  obtain ⟨before, t, c, rfl, hmark⟩ := exists_mark h
  have hstray := h.stray_not_mem
  rw [List.mem_append, not_or] at hstray
  rw [List.append_assoc, List.singleton_append, ← List.cons_append, ← List.cons_append,
    ← List.cons_append] at htokens
  obtain ⟨cs, ds, rfl, hcs, -⟩ := tokens_cut hmark (by simpa using hstray.1) htokens
  have htext := hcs.append hmark .nil
  refine ⟨String.ofList (cs ++ [c]), String.ofList ds, ?_, before ++ [t], ?_, h⟩
  · simp [String.toList_append]
  · rw [String.toList_ofList]
    exact htext

theorem ofText_eq_refused_of_element {f : FieldClause} {piece more : String}
    (h : Reaches s cs (piece ++ more)) (hpiece : Element f piece) (hcheck : f.check = .error r) :
    ofText clauses s = .error (.refused r) := by
  obtain ⟨body, rest, hform, htokens⟩ := hpiece.exists_tokens more.toList
  rw [← String.toList_append] at htokens
  exact ofText_of_reaches h htokens
    (fieldClause_eq_refused_iff.mpr ⟨f, body, rest, rfl, hform, hcheck⟩)

theorem exists_element_of_refused (h : ofText clauses s = .error (.refused r)) :
    ∃ cs piece more f, Reaches s cs (piece ++ more) ∧ Element f piece ∧ f.check = .error r := by
  have hread : clauses (tokens s.toList) = .error (.refused r) := by
    rw [ofText, whole] at h
    split at h
    · cases h
    · cases h
    · next heq =>
      cases h
      exact heq
  obtain ⟨cs, bodies, f, body, rest, htokens, hbodies, hbody, hcheck⟩ := clauses_eq_refused hread
  obtain ⟨more, hreaches, hmore⟩ := exists_reaches hbodies htokens
  obtain ⟨piece, later, hpiece, helement⟩ := exists_element hbody hmore
  rw [String.toList_inj.mp hpiece] at hreaches
  exact ⟨cs, piece, later, f, hreaches, helement, hcheck⟩

theorem ofText_of_no_form {more : String} (h : Reaches s cs more)
    (hmore : tokens more.toList = .openObject :: .text (some "Field") :: .colon :: ts)
    (hts : ∀ (f : FieldClause) body rest, ts = body ++ rest → ¬ f.Form body) :
    ofText clauses s = .error .malformed := by
  refine ofText_of_reaches h hmore ?_
  by_contra hread
  obtain ⟨f, body, rest, hbody, hform⟩ := fieldClause_sound hread
  exact hts f body rest hbody hform

theorem toList_intercalate_cons_cons (item next : String) (items : List String) :
    (",".intercalate (item :: next :: items)).toList =
      item.toList ++ ',' :: (",".intercalate (next :: items)).toList := by
  simp [String.toList_intercalate]

theorem ItemTexts.textOf_joined (h : ItemTexts bodies items) :
    TextOf (joined bodies) (",".intercalate items).toList := by
  induction h with
  | nil => exact .nil
  | @cons body item bodies items hitem hitems ih =>
    cases hitems with
    | nil => simpa [joined] using hitem
    | cons _ _ =>
      rw [joined_cons_cons, toList_intercalate_cons_cons]
      exact hitem.append .comma ih

theorem exists_itemTexts_of_joined {body : List Token} {cs : List Char}
    (h : TextOf (joined (body :: bodies)) cs) :
    ∃ items, cs = (",".intercalate items).toList ∧ ItemTexts (body :: bodies) items := by
  induction bodies generalizing body cs with
  | nil =>
    rw [joined, List.flatMap_nil, List.append_nil] at h
    exact ⟨[String.ofList cs], by simp, .cons (by simpa using h) .nil⟩
  | cons next bodies ih =>
    rw [joined_cons_cons, textOf_iff, List.mem_append, List.mem_cons, not_or, not_or] at h
    obtain ⟨htokens, hbody, -, hlater⟩ := h
    obtain ⟨item, cs, rfl, hitem, hcs⟩ := tokens_cut .comma hbody htokens
    obtain ⟨items, rfl, hitems⟩ := ih (textOf_iff.mpr ⟨hcs, hlater⟩)
    cases hitems with
    | @cons _ nextItem _ items hnext hrest =>
      refine ⟨String.ofList item :: nextItem :: items, ?_, .cons ?_ (.cons hnext hrest)⟩
      · rw [toList_intercalate_cons_cons, String.toList_ofList]
      · rwa [String.toList_ofList]

theorem ArrayOf.textOf (h : ArrayOf items s) (hitems : ItemTexts bodies items) :
    TextOf (.openArray :: (joined bodies ++ [.closeArray])) s.toList := by
  obtain ⟨lead, inner, trail, hlead, hinner, htrail, rfl⟩ := h
  have htext : (lead ++ "[" ++ inner ++ ",".intercalate items ++ "]" ++ trail).toList =
      lead.toList ++ '[' ::
        ((inner.toList ++ (",".intercalate items).toList) ++ ']' :: trail.toList) := by
    simp [String.toList_append]
  have hcontent := hitems.textOf_joined.blank_append hinner
  rw [htext]
  exact (textOf_nil_iff.mpr hlead).append .openArray
    (hcontent.append .closeArray (textOf_nil_iff.mpr htrail))

theorem exists_arrayOf (h : TextOf (.openArray :: (joined bodies ++ [.closeArray])) s.toList) :
    ∃ items, ArrayOf items s ∧ ItemTexts bodies items := by
  obtain ⟨htokens, hstray⟩ := textOf_iff.mp h
  rw [List.mem_cons, List.mem_append, not_or, not_or] at hstray
  obtain ⟨lead, cs, hs, hlead, hcs⟩ := tokens_cut .openArray List.not_mem_nil htokens
  obtain ⟨content, trail, rfl, hcontent, htrail⟩ := tokens_cut .closeArray hstray.2.1 hcs
  have htrail : TextOf [] trail := textOf_iff.mpr ⟨htrail, List.not_mem_nil⟩
  have harray : ∀ (inner : List Char) items, TextOf [] inner →
      content = inner ++ (",".intercalate items).toList → ArrayOf items s := by
    rintro inner items hinner rfl
    refine ⟨String.ofList lead, String.ofList inner, String.ofList trail, blank_ofList hlead,
      blank_ofList hinner, blank_ofList htrail, ?_⟩
    apply String.toList_inj.mp
    simp [hs, String.toList_append]
  cases bodies with
  | nil => exact ⟨[], harray content [] hcontent (by simp), .nil⟩
  | cons body bodies =>
    obtain ⟨items, rfl, hitems⟩ := exists_itemTexts_of_joined hcontent
    exact ⟨items, harray [] items .nil rfl, hitems⟩

theorem spelt_iff :
    Spelt cs bodies ↔ List.Forall₂ Clause.Form cs bodies ∧ Clause.checkAll cs = .ok () := by
  rw [Clause.checkAll_eq_ok_iff]
  induction cs generalizing bodies with
  | nil => cases bodies <;> simp [Spelt]
  | cons c cs ih =>
    cases bodies with
    | nil => simp [Spelt]
    | cons body bodies =>
      rw [Spelt, List.forall₂_cons, ← Spelt, ih, List.forall₂_cons, List.forall_mem_cons]
      tauto

/-- The items of an array of values are known from its tokens. -/
theorem listForm_iff (h : ∀ body ∈ bodies, AnyValue body) :
    Clause.ListForm cs (.openArray :: (joined bodies ++ [.closeArray])) ↔
      List.Forall₂ Clause.Form cs bodies := by
  constructor
  · intro hform
    generalize hts : Token.openArray :: (joined bodies ++ [.closeArray]) = ts at hform
    cases hform with
    | @intro others hothers =>
      have hvalues : ∀ body ∈ others, AnyValue body :=
        forall_mem_of_forall₂ hothers Clause.Form.anyValue
      have htokens := (List.cons.inj hts).2
      rw [← bodies.map_id, ← others.map_id] at htokens
      have heq : bodies = others := AnyValue.delimited.joined_inj h hvalues (by decide)
        (fun _ _ _ hbody => hbody.ne_closeArray _ _) htokens
      rw [heq]
      exact hothers
  · exact .intro

theorem exists_bodies (h : ∀ item ∈ items, JsonText item) :
    ∃ bodies, ItemTexts bodies items ∧ ∀ body ∈ bodies, AnyValue body := by
  induction items with
  | nil => exact ⟨[], .nil, List.forall_mem_nil _⟩
  | cons item items ih =>
    obtain ⟨⟨body, htext, hbody⟩, hitems⟩ := List.forall_mem_cons.mp h
    obtain ⟨bodies, htexts, hbodies⟩ := ih hitems
    exact ⟨body :: bodies, .cons htext htexts, List.forall_mem_cons.mpr ⟨hbody, hbodies⟩⟩

/-- An array of values is read exactly if each value is, and then to the clauses they decode to. -/
theorem ofText_eq_ok_iff_decoded (h : ArrayOf items s) (hitems : ∀ item ∈ items, JsonText item) :
    ofText clauses s = .ok cs ↔ Decoded items cs := by
  obtain ⟨bodies, htexts, hbodies⟩ := exists_bodies hitems
  rw [ofText, (h.textOf htexts).tokens_eq, exact_clauses.whole_eq_ok_iff, listForm_iff hbodies,
    ← spelt_iff, decoded_iff htexts]

theorem exists_arrayOf_of_ok (h : ofText clauses s = .ok cs) :
    ∃ items, ArrayOf items s ∧ ∀ item ∈ items, JsonText item := by
  obtain ⟨⟨ts, htext, ⟨hforms⟩⟩, -⟩ :=
    (exact_clauses.ofText_eq_ok_iff Clause.ListForm.stray_not_mem).mp h
  obtain ⟨items, harray, hitems⟩ := exists_arrayOf htext
  have hvalues := forall_mem_of_forall₂ hforms Clause.Form.anyValue
  have htexts := (List.forall₂_and_left _ _).mpr ⟨hvalues, hitems⟩
  exact ⟨items, harray, forall_mem_of_forall₂ htexts fun h => ⟨_, h.2, h.1⟩⟩

/-- A list is refused exactly if, after items that decode, it comes to a field clause that is
refused once it has ended, and for the reason of that clause, whatever the text goes on with. It is
malformed if there is no field clause to come to an end, as with every flaw, whatever the rules
would say of the parts. It is read exactly if it is an array of values each of which decodes, and
then to what they decode to, in their order. -/
theorem first_problem_decides :
    (∀ s r, ofText clauses s = .error (.refused r) ↔ ∃ cs piece more f,
      Reaches s cs (piece ++ more) ∧ Element f piece ∧ f.Verdict (.error r)) ∧
    (∀ s r, ofText clauses s = .error (.refused r) →
      r.kind = .substringTooShort ∨ r.kind = .invalidClause) ∧
    (∀ s cs more ts, Reaches s cs more →
      tokens more.toList = .openObject :: .text (some "Field") :: .colon :: ts →
      ((∀ (f : FieldClause) body rest, ts = body ++ rest → ¬ f.Form body) ∨ FieldClause.Flaw ts) →
      ofText clauses s = .error .malformed) ∧
    (∀ s cs, ofText clauses s = .ok cs →
      ∃ items, ArrayOf items s ∧ ∀ item ∈ items, JsonText item) ∧
    (∀ s items cs, ArrayOf items s → (∀ item ∈ items, JsonText item) →
      (ofText clauses s = .ok cs ↔ Decoded items cs)) := by
  refine ⟨?_, ?_, ?_, fun _ _ => exists_arrayOf_of_ok, fun _ _ _ => ofText_eq_ok_iff_decoded⟩
  · intro s r
    simp only [FieldClause.verdict_iff]
    constructor
    · exact exists_element_of_refused
    · rintro ⟨cs, piece, more, f, hreaches, hpiece, hcheck⟩
      exact ofText_eq_refused_of_element hreaches hpiece hcheck
  · intro s r h
    obtain ⟨-, -, -, f, -, -, hcheck⟩ := exists_element_of_refused h
    exact FieldClause.kind_of_check hcheck
  · rintro s cs more ts hreaches hmore (hts | hflaw)
    · exact ofText_of_no_form hreaches hmore hts
    · exact ofText_of_no_form hreaches hmore fun f body rest hbody => hflaw.not_form hbody

/-- A connective and then a field clause with a short substring. As an array that has ended, it is
refused although a stray character follows and nothing else has ended; as an object that names its
field once more, it is malformed. Without it, the list is read. -/
theorem first_problem_decides_at_short_substring :
    let item := "\x7b\"Logical\":\"And\"\x7d "
    let array := "\x7b\"Field\":[\"n\",\"Contains\",\x7b\"String\":\"ab\"\x7d,true]"
    let object := "\x7b\"Field\":\x7b\"field\":\"n\",\"operator\":\"Contains\"," ++
      "\"value\":\x7b\"String\":\"ab\"\x7d,\"field\""
    ofText clauses (" [" ++ item ++ "," ++ (array ++ " ?")) =
      .error (.refused (.shortSubstring "n")) ∧
    ofText clauses (" [" ++ item ++ "," ++ object) = .error .malformed ∧
    ofText clauses (" [" ++ item ++ "]") = .ok [.logical .and] := by
  intro item array object
  obtain ⟨hrefused, -, hmalformed, -, hread⟩ := first_problem_decides
  have hitem : ofText clause item = .ok (.logical .and) := by decide +kernel
  have hitems : Decoded [item] [.logical .and] := .cons hitem .nil
  have hreaches : ∀ more, Reaches (" [" ++ item ++ "," ++ more) [.logical .and] more :=
    fun more => ⟨" ", [item], by decide, hitems, rfl⟩
  let f : FieldClause := ⟨"n", .contains, .text "ab", true⟩
  refine ⟨?_, ?_, ?_⟩
  · have htokens : tokens array.toList = .openObject :: .text (some "Field") :: .colon ::
        .openArray :: (joined [[.text (some f.field)], [.text (some f.operator.name)],
          tagged "String" [.text (some "ab")], [.bool f.negated]] ++ [.closeArray]) := by
      decide +kernel
    have hform : f.Form (.openArray :: (joined [[.text (some f.field)],
        [.text (some f.operator.name)], tagged "String" [.text (some "ab")], [.bool f.negated]] ++
          [.closeArray])) := .array .name (.text "ab")
    have helement : Element f array := ⟨_, textOf_iff.mpr ⟨htokens, by decide⟩, hform⟩
    exact (hrefused _ _).mpr
      ⟨_, array, " ?", f, hreaches _, helement, .short rfl rfl (by decide)⟩
  · let members : List (String × List Token) := [("field", [.text (some "n")]),
      ("operator", [.text (some "Contains")]), ("value", tagged "String" [.text (some "ab")])]
    have htokens : tokens object.toList = .openObject :: .text (some "Field") :: .colon ::
        .openObject :: (leading (members.map namedMember) ++ [.text (some "field")]) := by
      decide +kernel
    have hvalues : ∀ m ∈ members, AnyValue m.2 := by
      simp only [members, List.forall_mem_cons]
      exact ⟨.text _, .text _, anyValue_tagged (.text _), List.forall_mem_nil _⟩
    have hflaw : FieldClause.Flaw (.openObject ::
        (leading (members.map namedMember) ++ [.text (some "field")])) :=
      .duplicate hvalues (by decide) (by decide)
    exact hmalformed _ _ _ _ (hreaches _) htokens (.inr hflaw)
  · have harray : ArrayOf [item] (" [" ++ item ++ "]") :=
      ⟨" ", "", "", by decide, by decide, by decide, by decide +kernel⟩
    have hvalue : JsonText item :=
      ⟨tagged "Logical" [.text (some "And")], textOf_iff.mpr ⟨by decide +kernel, by decide⟩,
        anyValue_tagged (.text _)⟩
    exact (hread _ _ _ harray (List.forall_mem_singleton.mpr hvalue)).mpr hitems

end FieldQuery.Reader
