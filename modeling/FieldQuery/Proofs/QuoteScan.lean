import FieldQuery.Proofs.ClauseText
import FieldQuery.Proofs.Clauses

/-!
# Scanning a text for quoted strings

A scan goes through any text from left to right and knows nothing of the grammar. A quote opens a
string. The string goes on to the first quote that is not escaped, which is one with an even number
of backslashes right before it. The skeleton of a text is the text with every string emptied, and
its contents are the strings, with the backslashes that escape taken away.

A text that is closed, with no string left open at its end, can be scanned apart from what follows.
Every field clause is closed if the name of its field has no quote in it, whatever its key and its
value are: the name may have spaces, signs and backslashes in it.
-/
namespace FieldQuery

-- Texts are checked character by character, never by going through all characters there are.
attribute [local instance (high)] List.decidableBAll

/-- Where a scan is: outside of quotes, or inside a string of which some content has been read, and
right after a backslash that escapes, or not. -/
inductive Place where
  | outside
  | inside (content : List Char) (escaped : Bool)
  deriving DecidableEq, Repr

/-- What a scan has found so far. -/
structure Scan where
  skeleton : List Char
  contents : List String
  place : Place
  deriving DecidableEq, Repr

namespace Scan

def start : Scan := ⟨[], [], .outside⟩

def next (s : Scan) (c : Char) : Scan :=
  match s.place with
  | .outside =>
    if c = '"' then ⟨s.skeleton ++ ['"'], s.contents, .inside [] false⟩
    else { s with skeleton := s.skeleton ++ [c] }
  | .inside content true => { s with place := .inside (content ++ [c]) false }
  | .inside content false =>
    if c = '"' then ⟨s.skeleton ++ ['"'], s.contents ++ [String.ofList content], .outside⟩
    else if c = '\\' then { s with place := .inside content true }
    else { s with place := .inside (content ++ [c]) false }

def of (cs : List Char) : Scan := cs.foldl next start

/-- What is found after something else was found before. -/
def after (skeleton : List Char) (contents : List String) (s : Scan) : Scan :=
  ⟨skeleton ++ s.skeleton, contents ++ s.contents, s.place⟩

theorem next_after (k : List Char) (x : List String) (s : Scan) (c : Char) :
    (s.after k x).next c = (s.next c).after k x := by
  obtain ⟨l, y, p⟩ := s
  rcases p with _ | ⟨content, _ | _⟩
  · by_cases hc : c = '"' <;> simp [next, after, hc]
  · by_cases hc : c = '"'
    · simp [next, after, hc]
    · by_cases hb : c = '\\' <;> simp [next, after, hc, hb]
  · simp [next, after]

theorem foldl_after (k : List Char) (x : List String) (s : Scan) (cs : List Char) :
    cs.foldl next (s.after k x) = (cs.foldl next s).after k x := by
  induction cs generalizing s with
  | nil => rfl
  | cons c cs ih => rw [List.foldl_cons, next_after, ih, List.foldl_cons]

/-- After a closed text the scan starts over. -/
theorem of_append {cs : List Char} {k : List Char} {x : List String}
    (h : of cs = ⟨k, x, .outside⟩) (ds : List Char) : of (cs ++ ds) = (of ds).after k x := by
  have hstart : (⟨k, x, .outside⟩ : Scan) = start.after k x := by simp [start, after]
  rw [of, List.foldl_append]
  change ds.foldl next (of cs) = _
  rw [h, hstart, foldl_after, of]

theorem of_append_of_closed {cs ds : List Char} {k l : List Char} {x y : List String}
    (h : of cs = ⟨k, x, .outside⟩) (h' : of ds = ⟨l, y, .outside⟩) :
    of (cs ++ ds) = ⟨k ++ l, x ++ y, .outside⟩ := by
  rw [of_append h, h', after]

/-- A text without quotes is its own skeleton. -/
theorem of_unquoted {cs : List Char} (h : ∀ c ∈ cs, c ≠ '"') : of cs = ⟨cs, [], .outside⟩ := by
  induction cs with
  | nil => rfl
  | cons c cs ih =>
    have hhead : of [c] = ⟨[c], [], .outside⟩ := by simp [of, next, start, h c List.mem_cons_self]
    have htail := ih fun d hd => h d (List.mem_cons_of_mem c hd)
    exact of_append_of_closed hhead htail

/-- Inside a string, the escaped form of a character is read as that character. -/
theorem foldl_escaped (k : List Char) (x : List String) (content : List Char) (c : Char) :
    (Quoted.escaped c).foldl next ⟨k, x, .inside content false⟩ =
      ⟨k, x, .inside (content ++ [c]) false⟩ := by
  unfold Quoted.escaped
  split
  · rfl
  · next hc =>
    have hquote : c ≠ '"' := fun e => hc (.inl e)
    have hbackslash : c ≠ '\\' := fun e => hc (.inr e)
    simp [next, hquote, hbackslash]

theorem foldl_encode (k : List Char) (x : List String) (content cs : List Char) :
    (Quoted.encode cs).foldl next ⟨k, x, .inside content false⟩ =
      ⟨k, x, .inside (content ++ cs) false⟩ := by
  induction cs generalizing content with
  | nil => simp
  | cons c cs ih => rw [Quoted.encode_cons, List.foldl_append, foldl_escaped, ih]; simp

theorem of_quote (s : String) : of (Quoted.quote s).toList = ⟨['"', '"'], [s], .outside⟩ := by
  rw [of, Quoted.toList_quote, List.foldl_cons, List.foldl_append]
  change List.foldl next
    ((Quoted.encode s.toList).foldl next ⟨['"'], [], .inside [] false⟩) ['"'] = _
  rw [foldl_encode]
  simp [next]

/-- Closed texts are scanned one by one, also with spaces between them. -/
theorem of_intercalate {ts : List String} (h : ∀ t ∈ ts, (of t.toList).place = .outside) :
    of (" ".intercalate ts).toList =
      ⟨[' '].intercalate (ts.map fun t => (of t.toList).skeleton),
        ts.flatMap fun t => (of t.toList).contents, .outside⟩ := by
  have hclosed : ∀ t ∈ ts,
      of t.toList = ⟨(of t.toList).skeleton, (of t.toList).contents, .outside⟩ := by
    intro t ht
    rw [← h t ht]
  induction ts with
  | nil => rfl
  | cons t ts ih =>
    have hhead := hclosed t List.mem_cons_self
    have htail := ih (fun u hu => h u (List.mem_cons_of_mem t hu))
      (fun u hu => hclosed u (List.mem_cons_of_mem t hu))
    cases ts with
    | nil => simpa using hhead
    | cons u ts =>
      have hspace : of [' '] = ⟨[' '], [], .outside⟩ := rfl
      have hjoined := of_append_of_closed hhead (of_append_of_closed hspace htail)
      simpa [String.intercalate_cons_cons, String.toList_append] using hjoined

end Scan

/-- The strings of a subject: its key, if it is one of the metadata. -/
def Subject.strings : Subject → List String
  | .field _ => []
  | .metadata key => [key]

def Subject.skeleton : Subject → List Char
  | .field name => name.toList
  | .metadata _ => Grammar.metadataWord.toList ++ ['[', '"', '"', ']']

/-- The name of a plain field. -/
def Subject.name? : Subject → Option String
  | .field name => some name
  | .metadata _ => none

def Value.strings : Value → List String
  | .text s => [s]
  | _ => []

def Value.skeleton : Value → List Char
  | .text _ => ['"', '"']
  | v => v.written.toList

theorem Bare.unquoted {cs : List Char} (h : Bare cs) : ∀ c ∈ cs, c ≠ '"' := by
  rintro c hc rfl
  exact h.clear '"' hc (List.mem_cons_of_mem _ List.mem_cons_self)

theorem Value.scan_written (v : Value) :
    Scan.of v.written.toList = ⟨v.skeleton, v.strings, .outside⟩ := by
  cases v with
  | null => exact Scan.of_unquoted bare_null.unquoted
  | number n => exact Scan.of_unquoted (bare_number n).unquoted
  | text s => exact Scan.of_quote s

theorem Operator.scan_sign (o : Operator) :
    Scan.of o.sign.toList = ⟨o.sign.toList, [], .outside⟩ := by
  apply Scan.of_unquoted
  rintro c hc rfl
  exact absurd (o.mem_signs '"' hc) (by decide)

theorem Connective.scan_word (c : Connective) :
    Scan.of c.word.toList = ⟨c.word.toList, [], .outside⟩ := by
  cases c <;> rfl

theorem Subject.scan_expression {s : Subject} (h : ∀ name ∈ s.name?, '"' ∉ name.toList) :
    Scan.of s.expression.toList = ⟨s.skeleton, s.strings, .outside⟩ := by
  cases s with
  | field name =>
    apply Scan.of_unquoted
    rintro c hc rfl
    exact h name rfl hc
  | metadata key =>
    have hword :
        Scan.of Grammar.metadataWord.toList = ⟨Grammar.metadataWord.toList, [], .outside⟩ :=
      Scan.of_unquoted (by decide)
    have hopening : Scan.of ['['] = ⟨['['], [], .outside⟩ := rfl
    have hclosing : Scan.of [']'] = ⟨[']'], [], .outside⟩ := rfl
    have hscan := Scan.of_append_of_closed hword (Scan.of_append_of_closed hopening
      (Scan.of_append_of_closed (Scan.of_quote key) hclosing))
    simp only [List.cons_append, List.nil_append] at hscan
    rw [← List.append_nil (expression _).toList, toList_metadata, hscan]
    rfl

def FieldClause.skeletonOf (s : Subject) (f : FieldClause) : List Char :=
  (if f.negated then ['-'] else []) ++ (s.skeleton ++ (f.operator.sign.toList ++ f.value.skeleton))

theorem FieldClause.scan_text {f : FieldClause} {s : Subject}
    (h : ∀ name ∈ s.name?, '"' ∉ name.toList) (hf : f.field = s.expression) :
    Scan.of f.text.toList = ⟨f.skeletonOf s, s.strings ++ f.value.strings, .outside⟩ := by
  have hsign : Scan.of (if f.negated then ['-'] else []) =
      ⟨if f.negated then ['-'] else [], [], .outside⟩ := by
    cases f.negated <;> rfl
  have hscan := Scan.of_append_of_closed hsign (Scan.of_append_of_closed (Subject.scan_expression h)
    (Scan.of_append_of_closed f.operator.scan_sign f.value.scan_written))
  rw [← List.append_nil f.text.toList, toList_text, List.append_nil, hf]
  exact hscan

end FieldQuery
