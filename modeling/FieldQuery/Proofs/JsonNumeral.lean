import FieldQuery.Json.Lexer
import FieldQuery.Proofs.Derivation
import Mathlib.Data.List.TakeWhile

/-!
# The numerals of JSON

How a numeral may be spelt, part by part, and where it ends. What reads a numeral is exact for its
spelling: it takes each part as far as it goes, so it finds the numeral at the front of a text if
what follows does not go on with it.
-/
namespace FieldQuery.Lexer
open Grammar

-- Characters are checked one by one, never by going through all characters there are.
attribute [local instance (high)] List.decidableBAll

/-- The digits before the point: a lone zero, or digits that do not start with a zero. -/
inductive WholeText : List Char → Prop
  | zero : WholeText ['0']
  | digits {ds : List Char} : DigitsText ds → ds.head? ≠ some '0' → WholeText ds

inductive FractionText : Option (List Char) → List Char → Prop
  | absent : FractionText none []
  | digits {ds : List Char} : DigitsText ds → FractionText (some ds) ('.' :: ds)

/-- The sign of an exponent, and whether it is a minus sign. -/
inductive SignText : Bool → List Char → Prop
  | absent : SignText false []
  | plus : SignText false ['+']
  | minus : SignText true ['-']

def powerOf (negative : Bool) (ds : List Char) : Int :=
  if negative then -(Numeral.value ds : Int) else Numeral.value ds

inductive ExponentText : Option Int → List Char → Prop
  | absent : ExponentText none []
  | power {mark : Char} {negative : Bool} {sign ds : List Char} : mark ∈ ['e', 'E'] →
      SignText negative sign → DigitsText ds →
      ExponentText (some (powerOf negative ds)) (mark :: (sign ++ ds))

inductive NumeralText : Spelling → List Char → Prop
  | intro (negative : Bool) {whole f e : List Char} {fraction : Option (List Char)}
      {exponent : Option Int} : WholeText whole → FractionText fraction f →
      ExponentText exponent e →
      NumeralText ⟨negative, whole, fraction, exponent⟩
        ((if negative then ['-'] else []) ++ (whole ++ (f ++ e)))

def NoDigit (cs : List Char) : Prop := ∀ c ∈ cs.head?, c.isDigit = false

def Spelling.LoneZero (s : Spelling) : Prop :=
  s.whole = ['0'] ∧ s.fraction = none ∧ s.exponent = none

/-- What follows a numeral does not go on with it: a digit only after a lone zero, a point only
where there is a fraction or an exponent, and the mark of an exponent only where there is one. -/
structure Spelling.Ends (s : Spelling) (rest : List Char) : Prop where
  digit : ¬ s.LoneZero → NoDigit rest
  point : s.fraction = none → s.exponent = none → rest.head? ≠ some '.'
  mark : s.exponent = none → rest.head? ∉ [some 'e', some 'E']

theorem Spelling.ends_nil (s : Spelling) : s.Ends [] := ⟨nofun, nofun, by simp⟩

/-- Every numeral ends before a character that cannot be part of one. -/
theorem Spelling.ends_cons (s : Spelling) {c : Char} (hdigit : c.isDigit = false)
    (h : c ∉ ['.', 'e', 'E']) (rest : List Char) : s.Ends (c :: rest) := by
  simp only [List.mem_cons, List.not_mem_nil, or_false, not_or] at h
  refine ⟨?_, ?_, ?_⟩
  · rintro - d ⟨⟩
    exact hdigit
  · intro _ _ hpoint
    exact h.1 (Option.some.inj hpoint)
  · intro _
    simp [h.2]

theorem digits?_eq_some_iff {cs ds rest : List Char} :
    digits? cs = some (ds, rest) ↔ cs = ds ++ rest ∧ DigitsText ds ∧ NoDigit rest := by
  constructor
  · intro h
    unfold digits? at h
    split at h
    · cases h
    · next hne =>
      cases h
      refine ⟨List.takeWhile_append_dropWhile.symm, ⟨by simpa using hne, ?_⟩, ?_⟩
      · intro c hc
        exact List.mem_takeWhile_imp hc
      · intro c hc
        have hhead := List.head?_dropWhile_not Char.isDigit cs
        rw [Option.mem_def.mp hc] at hhead
        exact hhead
  · rintro ⟨rfl, hds, hrest⟩
    obtain ⟨htake, hdrop⟩ := take_drop_append hds.digits hrest
    have hne : ¬ ds.isEmpty = true := by simpa using hds.nonempty
    rw [digits?, htake, hdrop, if_neg hne]

theorem exists_cons_of_digitsText {ds : List Char} (h : DigitsText ds) :
    ∃ c cs, ds = c :: cs ∧ c.isDigit = true := by
  obtain ⟨c, cs, rfl⟩ := List.exists_cons_of_ne_nil h.nonempty
  exact ⟨c, cs, rfl, h.digits c List.mem_cons_self⟩

theorem whole?_eq_some_iff {cs ds rest : List Char} :
    whole? cs = some (ds, rest) ↔
      cs = ds ++ rest ∧ WholeText ds ∧ (ds ≠ ['0'] → NoDigit rest) := by
  constructor
  · intro h
    unfold whole? at h
    split at h
    · cases h
      exact ⟨rfl, .zero, fun hne => absurd rfl hne⟩
    · next cs hzero =>
      obtain ⟨rfl, hds, hrest⟩ := digits?_eq_some_iff.mp h
      refine ⟨rfl, .digits hds ?_, fun _ => hrest⟩
      obtain ⟨c, ds, rfl, -⟩ := exists_cons_of_digitsText hds
      rintro ⟨⟩
      exact hzero _ rfl
  · rintro ⟨rfl, hds, hrest⟩
    cases hds with
    | zero => rfl
    | digits hds hhead =>
      obtain ⟨c, cs, rfl, -⟩ := exists_cons_of_digitsText hds
      have hc : c ≠ '0' := fun e => hhead (by rw [e]; rfl)
      rw [List.cons_append, whole?, ← List.cons_append]
      · exact digits?_eq_some_iff.mpr ⟨rfl, hds, hrest fun e => hc (List.cons.inj e).1⟩
      · rintro cs' ⟨⟩
        exact hc rfl

theorem fraction?_eq_some_iff {cs rest : List Char} {fraction : Option (List Char)} :
    fraction? cs = some (fraction, rest) ↔ ∃ body, cs = body ++ rest ∧
      FractionText fraction body ∧ (fraction = none → rest.head? ≠ some '.') ∧
      (fraction ≠ none → NoDigit rest) := by
  constructor
  · intro h
    unfold fraction? at h
    split at h
    · next cs =>
      obtain ⟨⟨ds, rest'⟩, hds, he⟩ := Option.map_eq_some_iff.mp h
      cases he
      obtain ⟨rfl, hds, hrest⟩ := digits?_eq_some_iff.mp hds
      exact ⟨'.' :: ds, rfl, .digits hds, nofun, fun _ => hrest⟩
    · next cs hpoint =>
      cases h
      refine ⟨[], rfl, .absent, ?_, fun hne => absurd rfl hne⟩
      intro _ hhead
      obtain ⟨cs', rfl⟩ := List.head?_eq_some_iff.mp hhead
      exact hpoint cs' rfl
  · rintro ⟨body, rfl, hbody, hpoint, hrest⟩
    cases hbody with
    | absent =>
      rw [List.nil_append, fraction?]
      rintro cs rfl
      exact hpoint rfl rfl
    | @digits ds hds =>
      rw [List.cons_append, fraction?, digits?_eq_some_iff.mpr ⟨rfl, hds, hrest nofun⟩]
      rfl

theorem minus_of_ne {cs : List Char} (h : cs.head? ≠ some '-') : minus cs = (false, cs) := by
  unfold minus
  split
  · exact absurd rfl h
  · rfl

/-- A sign is taken as it is spelt if no other sign follows it. -/
theorem sign_eq_iff {cs rest : List Char} {negative : Bool}
    (h : rest.head? ∉ [some '+', some '-']) :
    sign cs = (negative, rest) ↔ ∃ body, cs = body ++ rest ∧ SignText negative body := by
  constructor
  · intro hsign
    unfold sign minus at hsign
    split at hsign
    · cases hsign
      exact ⟨['+'], rfl, .plus⟩
    · split at hsign
      · cases hsign
        exact ⟨['-'], rfl, .minus⟩
      · cases hsign
        exact ⟨[], rfl, .absent⟩
  · rintro ⟨body, rfl, hbody⟩
    cases hbody with
    | absent =>
      rw [List.nil_append, sign, minus_of_ne fun e => h (by simp [e])]
      rintro cs rfl
      exact h (by simp)
    | plus => rfl
    | minus => rfl

theorem head?_digits {ds : List Char} (h : DigitsText ds) (rest : List Char) :
    ∃ c, (ds ++ rest).head? = some c ∧ c.isDigit = true := by
  obtain ⟨c, cs, rfl, hc⟩ := exists_cons_of_digitsText h
  exact ⟨c, rfl, hc⟩

theorem head?_digits_ne_sign {ds : List Char} (h : DigitsText ds) (rest : List Char) :
    (ds ++ rest).head? ∉ [some '+', some '-'] := by
  obtain ⟨c, hc, hdigit⟩ := head?_digits h rest
  rw [hc]
  intro hmem
  rcases List.mem_cons.mp hmem with hmem | hmem
  · cases hmem
    exact absurd hdigit (by decide)
  · cases List.mem_singleton.mp hmem
    exact absurd hdigit (by decide)

theorem power?_eq_some_iff {cs rest : List Char} {e : Int} :
    power? cs = some (e, rest) ↔ ∃ negative body ds, cs = body ++ (ds ++ rest) ∧
      SignText negative body ∧ DigitsText ds ∧ NoDigit rest ∧ e = powerOf negative ds := by
  constructor
  · intro h
    obtain ⟨⟨ds, rest'⟩, hds, he⟩ := Option.map_eq_some_iff.mp h
    cases he
    obtain ⟨hcs, hds, hrest⟩ := digits?_eq_some_iff.mp hds
    have hsign : sign cs = ((sign cs).1, ds ++ rest) := by rw [← hcs]
    obtain ⟨body, hbody, hspelt⟩ := (sign_eq_iff (head?_digits_ne_sign hds rest)).mp hsign
    exact ⟨(sign cs).1, body, ds, hbody, hspelt, hds, hrest, rfl⟩
  · rintro ⟨negative, body, ds, rfl, hbody, hds, hrest, rfl⟩
    have hsign := (sign_eq_iff (head?_digits_ne_sign hds rest)).mpr ⟨body, rfl, hbody⟩
    rw [power?, hsign, digits?_eq_some_iff.mpr ⟨rfl, hds, hrest⟩]
    rfl

theorem exponent?_mark {mark : Char} (h : mark ∈ ['e', 'E']) (cs : List Char) :
    exponent? (mark :: cs) = (power? cs).map fun (e, rest) => (some e, rest) := by
  rcases List.mem_cons.mp h with rfl | h
  · rfl
  · rw [List.mem_singleton.mp h]
    rfl

theorem exponent?_eq_some_iff {cs rest : List Char} {exponent : Option Int} :
    exponent? cs = some (exponent, rest) ↔ ∃ body, cs = body ++ rest ∧
      ExponentText exponent body ∧ (exponent = none → rest.head? ∉ [some 'e', some 'E']) ∧
      (exponent ≠ none → NoDigit rest) := by
  have hpower : ∀ mark cs, mark ∈ ['e', 'E'] →
      (power? cs).map (fun (p : Int × List Char) => (some p.1, p.2)) = some (exponent, rest) →
      ∃ body, mark :: cs = body ++ rest ∧ ExponentText exponent body ∧ exponent ≠ none ∧
        NoDigit rest := by
    intro mark cs hmark h
    obtain ⟨⟨e, rest'⟩, he, hp⟩ := Option.map_eq_some_iff.mp h
    cases hp
    obtain ⟨negative, body, ds, rfl, hbody, hds, hrest, rfl⟩ := power?_eq_some_iff.mp he
    exact ⟨mark :: (body ++ ds), by simp, .power hmark hbody hds, nofun, hrest⟩
  constructor
  · intro h
    unfold exponent? at h
    split at h
    · obtain ⟨body, hcs, hbody, hne, hrest⟩ := hpower 'e' _ (by simp) h
      exact ⟨body, hcs, hbody, fun e => absurd e hne, fun _ => hrest⟩
    · obtain ⟨body, hcs, hbody, hne, hrest⟩ := hpower 'E' _ (by simp) h
      exact ⟨body, hcs, hbody, fun e => absurd e hne, fun _ => hrest⟩
    · next cs hlower hupper =>
      cases h
      refine ⟨[], rfl, .absent, ?_, fun hne => absurd rfl hne⟩
      intro _ hmem
      rcases List.mem_cons.mp hmem with hmem | hmem
      · obtain ⟨cs', rfl⟩ := List.head?_eq_some_iff.mp hmem
        exact hlower cs' rfl
      · obtain ⟨cs', rfl⟩ := List.head?_eq_some_iff.mp (List.mem_singleton.mp hmem)
        exact hupper cs' rfl
  · rintro ⟨body, rfl, hbody, hmark, hrest⟩
    cases hbody with
    | absent =>
      rw [List.nil_append, exponent?]
      · rintro cs rfl
        exact hmark rfl (by simp)
      · rintro cs rfl
        exact hmark rfl (by simp)
    | @power mark negative body ds hmem hbody hds =>
      rw [List.cons_append, exponent?_mark hmem, List.append_assoc,
        power?_eq_some_iff.mpr ⟨negative, body, ds, rfl, hbody, hds, hrest nofun, rfl⟩]
      rfl

theorem minus_eq_iff {cs rest : List Char} {negative : Bool} (h : rest.head? ≠ some '-') :
    minus cs = (negative, rest) ↔ cs = (if negative then ['-'] else []) ++ rest := by
  constructor
  · intro hminus
    unfold minus at hminus
    split at hminus <;> cases hminus <;> rfl
  · rintro rfl
    cases negative with
    | true => rfl
    | false => exact minus_of_ne h

theorem FractionText.noDigit_append {fraction : Option (List Char)} {f rest : List Char}
    (h : FractionText fraction f) (hrest : fraction = none → NoDigit rest) :
    NoDigit (f ++ rest) := by
  cases h with
  | absent => exact hrest rfl
  | digits _ =>
    intro c hc
    cases hc
    decide

theorem ExponentText.noDigit_append {exponent : Option Int} {e rest : List Char}
    (h : ExponentText exponent e) (hrest : exponent = none → NoDigit rest) :
    NoDigit (e ++ rest) := by
  cases h with
  | absent => exact hrest rfl
  | power hmark _ _ =>
    intro c hc
    cases hc
    exact (by decide : ∀ c ∈ ['e', 'E'], c.isDigit = false) _ hmark

theorem ExponentText.head?_ne_point {exponent : Option Int} {e rest : List Char}
    (h : ExponentText exponent e) (hrest : exponent = none → rest.head? ≠ some '.') :
    (e ++ rest).head? ≠ some '.' := by
  cases h with
  | absent => exact hrest rfl
  | power hmark _ _ =>
    intro hc
    cases hc
    exact absurd hmark (by decide)

theorem WholeText.digitsText {ds : List Char} (h : WholeText ds) : DigitsText ds := by
  cases h with
  | zero => exact ⟨by decide, by decide⟩
  | digits h _ => exact h

theorem WholeText.head?_ne_minus {ds : List Char} (h : WholeText ds) (rest : List Char) :
    (ds ++ rest).head? ≠ some '-' := by
  intro hminus
  exact head?_digits_ne_sign h.digitsText rest (by rw [hminus]; decide)

theorem numeralText_of_spelling? {cs rest : List Char} {s : Spelling}
    (h : spelling? cs = some (s, rest)) :
    ∃ body, cs = body ++ rest ∧ NumeralText s body ∧ s.Ends rest := by
  simp only [spelling?, Option.bind_eq_bind, Option.bind_eq_some_iff, Option.pure_def,
    Option.some.injEq, Prod.mk.injEq, Prod.exists] at h
  obtain ⟨whole, r, hwhole, fraction, r', hfraction, exponent, r'', hexponent, rfl, rfl⟩ := h
  obtain ⟨e, rfl, he, hmark, hpower⟩ := exponent?_eq_some_iff.mp hexponent
  obtain ⟨f, rfl, hf, hpoint, hplaces⟩ := fraction?_eq_some_iff.mp hfraction
  obtain ⟨hcs, hw, hdigit⟩ := whole?_eq_some_iff.mp hwhole
  have hsign : minus cs = ((minus cs).1, whole ++ (f ++ (e ++ r''))) := by rw [← hcs]
  rw [minus_eq_iff (hw.head?_ne_minus _)] at hsign
  refine ⟨_, ?_, .intro (minus cs).1 hw hf he, ?_, ?_, hmark⟩
  · simpa only [List.append_assoc] using hsign
  · intro hlone
    cases he with
    | power _ _ _ => exact hpower (Option.some_ne_none _)
    | absent =>
      cases hf with
      | digits _ => exact hplaces (Option.some_ne_none _)
      | absent => exact hdigit fun hzero => hlone ⟨hzero, rfl, rfl⟩
  · rintro hnone ⟨⟩
    cases he
    exact hpoint hnone

theorem NumeralText.spelling?_eq {s : Spelling} {body rest : List Char} (h : NumeralText s body)
    (hends : s.Ends rest) : spelling? (body ++ rest) = some (s, rest) := by
  obtain @⟨negative, whole, f, e, fraction, exponent, hw, hf, he⟩ := h
  obtain ⟨hdigit, hpoint, hmark⟩ := hends
  have hpower : exponent ≠ none → NoDigit rest := fun h => hdigit fun hlone => h hlone.2.2
  have hplaces : fraction ≠ none → NoDigit (e ++ rest) := fun h =>
    he.noDigit_append fun _ => hdigit fun hlone => h hlone.2.1
  have hwhole : whole ≠ ['0'] → NoDigit (f ++ (e ++ rest)) := fun h =>
    hf.noDigit_append fun _ => he.noDigit_append fun _ => hdigit fun hlone => h hlone.1
  have hfraction : fraction = none → (e ++ rest).head? ≠ some '.' := fun h =>
    he.head?_ne_point (hpoint h)
  have hsign : minus ((if negative then ['-'] else []) ++ (whole ++ (f ++ (e ++ rest)))) =
      (negative, whole ++ (f ++ (e ++ rest))) :=
    (minus_eq_iff (hw.head?_ne_minus _)).mpr rfl
  simp only [List.append_assoc, spelling?, hsign]
  simp only [whole?_eq_some_iff.mpr ⟨rfl, hw, hwhole⟩,
    fraction?_eq_some_iff.mpr ⟨f, rfl, hf, hfraction, hplaces⟩,
    exponent?_eq_some_iff.mpr ⟨e, rfl, he, hmark, hpower⟩, Option.bind_eq_bind, Option.bind_some,
    Option.pure_def]

/-- The numeral at the front of a text is found as it is spelt, and only if it ends there. -/
theorem spelling?_eq_some_iff {cs rest : List Char} {s : Spelling} :
    spelling? cs = some (s, rest) ↔
      ∃ body, cs = body ++ rest ∧ NumeralText s body ∧ s.Ends rest := by
  constructor
  · exact numeralText_of_spelling?
  · rintro ⟨body, rfl, hbody, hends⟩
    exact hbody.spelling?_eq hends

end FieldQuery.Lexer
