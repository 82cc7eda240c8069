import FieldQuery.Proofs.JsonNumeral
import FieldQuery.Proofs.Quotation
import FieldQuery.Proofs.UniqueReading

/-!
# Decoding a query text

A text is taken apart into comparisons and what stands between them: a sign of negation, a subject,
a sign of comparison and a value, one after the other, with keys and strings unescaped. The text of
a query whose names are plain comes back as the comparisons of its field clauses, in order and
whatever keys and strings they hold. Only a number is known by its text alone.
-/
namespace FieldQuery

-- Texts are checked character by character, never by going through all characters there are.
attribute [local instance (high)] List.decidableBAll

/-- What a text tells of a value. -/
inductive Shown where
  | null
  | number (numeral : String)
  | text (content : String)
  deriving DecidableEq, Repr

structure Comparison where
  negated : Bool
  subject : Subject
  operator : Operator
  value : Shown
  deriving DecidableEq, Repr

def Value.shown : Value → Shown
  | .null => .null
  | .number n => .number n.text
  | .text s => .text s

/-- A field clause that makes a comparison. -/
structure FieldClause.Makes (f : FieldClause) (c : Comparison) : Prop where
  negated : f.negated = c.negated
  field : f.field = c.subject.expression
  operator : f.operator = c.operator
  value : f.value.shown = c.value

namespace Decoder

def isName (c : Char) : Bool := c ∉ stops

def isWord (c : Char) : Bool := c ≠ ' '

/-- A key follows its word in brackets and is quoted. -/
def key? (word cs : List Char) : Option (Subject × List Char) :=
  match Quoted.scan cs with
  | some (key, ']' :: rest) =>
    if word = Grammar.metadataWord.toList then some (.metadata (String.ofList key), rest) else none
  | _ => none

def subject? (cs : List Char) : Option (Subject × List Char) :=
  match cs.dropWhile isName with
  | '[' :: rest => key? (cs.takeWhile isName) rest
  | rest =>
    if cs.takeWhile isName = [] then none
    else some (.field (String.ofList (cs.takeWhile isName)), rest)

def operator? : List Char → Option (Operator × List Char)
  | ':' :: rest => some (.equals, rest)
  | '~' :: rest => some (.contains, rest)
  | '>' :: '=' :: rest => some (.range .greaterEqual, rest)
  | '<' :: '=' :: rest => some (.range .lesserEqual, rest)
  | '>' :: rest => some (.range .greater, rest)
  | '<' :: rest => some (.range .lesser, rest)
  | _ => none

def bare (word : List Char) : Shown :=
  if word = Grammar.nullWord.toList then .null else .number (String.ofList word)

def value? (cs : List Char) : Option (Shown × List Char) :=
  match cs with
  | '"' :: _ => (Quoted.scan cs).map fun (s, rest) => (.text (String.ofList s), rest)
  | _ => some (bare (cs.takeWhile isWord), cs.dropWhile isWord)

def comparison? (cs : List Char) : Option (Comparison × List Char) := do
  let (subject, rest) ← subject? (Lexer.minus cs).2
  let (operator, rest) ← operator? rest
  let (value, rest) ← value? rest
  return (⟨(Lexer.minus cs).1, subject, operator, value⟩, rest)

/-- What stands between two comparisons: a space, or a connective between spaces. -/
def joint? : List Char → Option (Option Connective × List Char)
  | ' ' :: 'A' :: 'N' :: 'D' :: ' ' :: rest => some (some .and, rest)
  | ' ' :: 'O' :: 'R' :: ' ' :: rest => some (some .or, rest)
  | ' ' :: rest => some (none, rest)
  | _ => none

theorem length_scan {cs s rest : List Char} (h : Quoted.scan cs = some (s, rest)) :
    rest.length < cs.length := by
  have hcs := congrArg List.length (Quoted.scan_eq_some_iff.mp h)
  rw [hcs, List.length_append, Quoted.toList_quote, List.length_cons]
  omega

theorem length_key {word cs rest : List Char} {s : Subject} (h : key? word cs = some (s, rest)) :
    rest.length < cs.length := by
  unfold key? at h
  split at h
  · next hscan =>
    have hlength := length_scan hscan
    rw [List.length_cons] at hlength
    split at h
    · cases h
      omega
    · cases h
  · cases h

theorem length_subject {cs rest : List Char} {s : Subject} (h : subject? cs = some (s, rest)) :
    rest.length ≤ cs.length := by
  have hdrop := List.length_dropWhile_le isName cs
  unfold subject? at h
  split at h
  · next hbracket =>
    have hkey := length_key h
    rw [hbracket, List.length_cons] at hdrop
    omega
  · split at h
    · cases h
    · cases h
      exact hdrop

theorem length_operator {cs rest : List Char} {o : Operator} (h : operator? cs = some (o, rest)) :
    rest.length < cs.length := by
  unfold operator? at h
  split at h <;> cases h <;> simp only [List.length_cons] <;> omega

theorem length_value {cs rest : List Char} {v : Shown} (h : value? cs = some (v, rest)) :
    rest.length ≤ cs.length := by
  unfold value? at h
  split at h
  · obtain ⟨⟨s, r⟩, hscan, hp⟩ := Option.map_eq_some_iff.mp h
    cases hp
    exact Nat.le_of_lt (length_scan hscan)
  · cases h
    exact List.length_dropWhile_le isWord cs

theorem length_comparison {cs rest : List Char} {c : Comparison}
    (h : comparison? cs = some (c, rest)) : rest.length < cs.length := by
  simp only [comparison?, Option.bind_eq_bind, Option.bind_eq_some_iff, Option.pure_def,
    Option.some.injEq, Prod.mk.injEq, Prod.exists] at h
  obtain ⟨subject, r, hsubject, operator, r', hoperator, value, r'', hvalue, -, rfl⟩ := h
  have := Lexer.length_minus cs
  have := length_subject hsubject
  have := length_operator hoperator
  have := length_value hvalue
  omega

theorem length_joint {cs rest : List Char} {j : Option Connective}
    (h : joint? cs = some (j, rest)) : rest.length < cs.length := by
  unfold joint? at h
  split at h <;> cases h <;> simp only [List.length_cons] <;> omega

/-- The comparisons of a text that has one at least, and what stands between neighbours. -/
def comparisons? (cs : List Char) : Option (List Comparison × List (Option Connective)) :=
  match _hc : comparison? cs with
  | none => none
  | some (c, []) => some ([c], [])
  | some (c, rest) =>
    match _hj : joint? rest with
    | none => none
    | some (j, rest) => (comparisons? rest).map fun (cs, js) => (c :: cs, j :: js)
termination_by cs.length
decreasing_by
  have := length_comparison _hc
  have := length_joint _hj
  omega

theorem subject?_expression {s : Subject} (hs : s.Plain) (o : Operator) (x : List Char) :
    subject? (s.expression.toList ++ (o.sign.toList ++ x)) = some (s, o.sign.toList ++ x) := by
  have hsign := o.head?_sign x
  generalize o.sign.toList ++ x = rest at hsign ⊢
  cases s with
  | field name =>
    have hname : ∀ c ∈ name.toList, isName c = true := fun c hc => decide_eq_true (hs.clear c hc)
    have hend : ∀ c ∈ rest.head?, isName c = false := by
      intro c hc
      simpa [isName] using (hsign c hc).1
    obtain ⟨htake, hdrop⟩ := take_drop_append hname hend
    rw [Subject.expression, subject?, htake, hdrop]
    split
    · exact absurd rfl (hsign '[' rfl).2.2
    · rw [if_neg hs.nonempty, String.ofList_toList]
  | metadata key =>
    have hword : ∀ c ∈ Grammar.metadataWord.toList, isName c = true := by decide
    have hend : ∀ c ∈ ('[' :: ((Quoted.quote key).toList ++ (']' :: rest))).head?,
        isName c = false := by
      rintro c ⟨⟩
      decide
    obtain ⟨htake, hdrop⟩ := take_drop_append hword hend
    rw [Subject.toList_metadata, subject?, htake, hdrop]
    simp only [key?, Quoted.scan_quote, if_true, String.ofList_toList]

theorem operator?_sign (o : Operator) {x : List Char} (hx : ∀ c ∈ x.head?, c ∉ signs) :
    operator? (o.sign.toList ++ x) = some (o, x) := by
  have hequals : ∀ y, x ≠ '=' :: y := by
    rintro y rfl
    exact hx '=' rfl (by decide)
  rcases o with _ | _ | b
  · rfl
  · rfl
  · cases b with
    | greater =>
      change operator? ('>' :: x) = _
      rw [operator?]
      exact hequals
    | lesser =>
      change operator? ('<' :: x) = _
      rw [operator?]
      exact hequals
    | greaterEqual => rfl
    | lesserEqual => rfl

theorem value?_bare {a x : List Char} (ha : Bare a) (hx : Spaced x) :
    value? (a ++ x) = some (bare a, x) := by
  have hword : ∀ c ∈ a, isWord c = true := by
    intro c hc
    refine decide_eq_true ?_
    rintro rfl
    exact ha.clear ' ' hc (by decide)
  have hend : ∀ c ∈ x.head?, isWord c = false := by
    intro c hc
    rw [hx c hc]
    rfl
  obtain ⟨htake, hdrop⟩ := take_drop_append hword hend
  obtain ⟨c, a, rfl⟩ := List.exists_cons_of_ne_nil ha.nonempty
  rw [List.cons_append, value?, ← List.cons_append, htake, hdrop]
  rintro y ⟨⟩
  exact ha.clear '"' List.mem_cons_self (by decide)

theorem value?_written (v : Value) {x : List Char} (hx : Spaced x) :
    value? (v.written.toList ++ x) = some (v.shown, x) := by
  cases v with
  | null => exact value?_bare Value.bare_null hx
  | number n =>
    have hne : n.text.toList ≠ Grammar.nullWord.toList := (Value.null_ne_number n).symm
    have hbare := value?_bare (Value.bare_number n) hx
    rwa [bare, Value.written, if_neg hne, String.ofList_toList] at hbare
  | text s =>
    have hscan := Quoted.scan_quote s x
    rw [Value.written]
    rw [Quoted.toList_quote, List.cons_append] at hscan ⊢
    rw [value?, hscan]
    simp only [Option.map_some, String.ofList_toList, Value.shown]

/-- A field clause at the front of a text is taken off as the comparison it makes. -/
theorem comparison?_text {f : FieldClause} {c : Comparison} (h : f.Makes c)
    (hplain : c.subject.Plain) {x : List Char} (hx : Spaced x) :
    comparison? (f.text.toList ++ x) = some (c, x) := by
  obtain ⟨negated, subject, operator, value⟩ := c
  obtain ⟨rfl, hfield, rfl, rfl⟩ := h
  have hminus : Lexer.minus (f.text.toList ++ x) = (f.negated, subject.expression.toList ++
      (f.operator.sign.toList ++ (f.value.written.toList ++ x))) := by
    have hopens := Subject.expression_opens hplain
      (f.operator.sign.toList ++ (f.value.written.toList ++ x))
    refine (Lexer.minus_eq_iff fun hsign => hopens '-' hsign rfl).mpr ?_
    rw [FieldClause.toList_text, hfield]
  simp only [comparison?, hminus, subject?_expression hplain,
    operator?_sign f.operator (f.value.head?_written x), value?_written f.value hx,
    Option.bind_eq_bind, Option.bind_some, Option.pure_def]

/-- A joint is told from the text after it, which starts with no connective. -/
theorem joint?_jointText (j : Option Connective) {x : List Char}
    (hx : ∀ (c : Connective) (y : List Char), x ≠ c.word.toList ++ (' ' :: y)) :
    joint? ((Layout.jointText j).toList ++ x) = some (j, x) := by
  rw [Layout.toList_jointText]
  cases j with
  | none =>
    change joint? (' ' :: x) = _
    rw [joint?]
    · exact fun y => hx .and y
    · exact fun y => hx .or y
  | some c => cases c <;> rfl

theorem comparisons?_last {cs : List Char} {c : Comparison} (h : comparison? cs = some (c, [])) :
    comparisons? cs = some ([c], []) := by
  rw [comparisons?, h]

theorem comparisons?_joint {cs rest rest' : List Char} {c : Comparison} {j : Option Connective}
    (h : comparison? cs = some (c, rest)) (hj : joint? rest = some (j, rest')) :
    comparisons? cs = (comparisons? rest').map fun (cs, js) => (c :: cs, j :: js) := by
  cases rest with
  | nil => cases hj
  | cons d rest =>
    rw [comparisons?, h]
    dsimp only
    split
    · next hnone =>
      rw [hj] at hnone
      cases hnone
    · next hsome =>
      rw [hj] at hsome
      cases hsome
      rfl

theorem comparisons?_blocksText {b : Block} {bs : List Block} {cs : List Comparison}
    (h : List.Forall₂ FieldClause.Makes ((b :: bs).map Prod.fst) cs)
    (hplain : ∀ c ∈ cs, c.subject.Plain) :
    comparisons? (Layout.blocksText (b :: bs)).toList =
      some (cs, (b :: bs).dropLast.map fun b => b.2.head?) := by
  induction bs generalizing b cs with
  | nil =>
    obtain ⟨c, cs, hb, hnil, rfl⟩ := List.forall₂_cons_left_iff.mp h
    cases hnil
    have hread := comparison?_text hb (hplain c List.mem_cons_self) (Layout.spaced_tailText none [])
    rw [Layout.toList_blocksText_cons]
    exact comparisons?_last hread
  | cons d bs ih =>
    obtain ⟨c, cs, hb, hds, rfl⟩ := List.forall₂_cons_left_iff.mp h
    obtain ⟨hc, hcs⟩ := List.forall_mem_cons.mp hplain
    have hread := comparison?_text hb hc (Layout.spaced_tailText b.2.head? (d :: bs))
    have hd : d.1.Plain := by
      obtain ⟨e, es, he, -, rfl⟩ := List.forall₂_cons_left_iff.mp hds
      exact ⟨e.subject, hcs e List.mem_cons_self, he.field⟩
    have hjoint := joint?_jointText b.2.head? (x := (Layout.blocksText (d :: bs)).toList) (by
      intro c y
      rw [Layout.toList_blocksText_cons]
      exact FieldClause.text_ne_word hd c _ y)
    rw [← String.toList_append] at hjoint
    rw [Layout.toList_blocksText_cons, comparisons?_joint hread hjoint, ih hds hcs]
    rfl

end Decoder

/-- The comparisons of a text, and what stands between neighbours. -/
def decode (text : String) : Option (List Comparison × List (Option Connective)) :=
  if text = "" then some ([], []) else Decoder.comparisons? text.toList

/-- The text of a query decodes to the comparisons that its field clauses make, in order, with the
joints of its layout between them. -/
theorem Query.decode_render {q : Query} {cs : List Comparison}
    (h : List.Forall₂ FieldClause.Makes (fieldClauses q.clauses) cs)
    (hplain : ∀ c ∈ cs, c.subject.Plain) :
    decode q.render = some (cs, (Layout.of q.clauses).joints) := by
  rw [render_eq, Layout.text]
  rw [← Layout.fields_of, Layout.fields] at h
  rw [Layout.joints]
  cases hblocks : (Layout.of q.clauses).blocks with
  | nil =>
    rw [hblocks] at h
    cases h
    rfl
  | cons b bs =>
    rw [hblocks] at h
    rw [decode, if_neg (Layout.blocksText_cons_ne_empty b bs)]
    exact Decoder.comparisons?_blocksText h hplain

end FieldQuery
