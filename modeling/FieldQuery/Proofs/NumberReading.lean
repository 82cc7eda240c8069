import FieldQuery.Proofs.EverySpelling
import FieldQuery.Proofs.NumberText
import FieldQuery.Proofs.ShortestDecimal
import Mathlib.Tactic.FieldSimp

/-!
# Reading numbers back

The text of a number is a numeral of JSON in plain form: a minus sign or none, digits, and possibly
a point with a fraction that does not end in zero. Any numeral is read as the finite double that its
value rounds to. The value of the text of a double rounds to the double itself, so all its bits come
back, and no two finite doubles are written alike.
-/
namespace FieldQuery

-- Powers are the built-in ones, whatever other structure is in scope.
attribute [local instance (high)] instPowNat
-- Characters are checked one by one, never by going through all characters there are.
attribute [local instance (high)] List.decidableBAll

open Lexer Binary64

namespace Lexer

/-- The number that a numeral stands for, without its sign. -/
def Spelling.magnitude (s : Spelling) : ℚ :=
  Numeral.value (s.whole ++ s.fraction.getD []) *
    10 ^ (s.exponent.getD 0 - (s.fraction.getD []).length)

/-- A numeral is read as the finite double of its sign that its value rounds to. -/
theorem Spelling.double?_eq_some_iff {s : Spelling} {x : Binary64} :
    s.number?.bind JsonNumber.double? = some x ↔
      x.negative = s.negative ∧ x.isFinite = true ∧ Rounds s.magnitude x.rank := by
  obtain ⟨negative, whole, fraction, exponent⟩ := s
  unfold number?
  dsimp only
  split
  · next hinteger =>
    obtain ⟨rfl, rfl, hzero⟩ := hinteger
    have hsign :
        decide ((if negative then -(Numeral.value whole : ℤ) else Numeral.value whole) < 0) =
          negative := by
      cases negative <;> simp at hzero ⊢
      omega
    have habs : (if negative then -(Numeral.value whole : ℤ) else Numeral.value whole).natAbs =
        Numeral.value whole := by
      cases negative <;> simp
    rw [Option.bind_some, JsonNumber.double?, Binary64.ofInt?, ofDecimal?_eq_some_iff, hsign, habs]
    simp [magnitude]
  · rw [magnitude, ← ofDecimal?_eq_some_iff]
    simp [Option.bind_eq_some_iff, JsonNumber.double?]

/-- There is no exponent, and no fraction that ends in zero. -/
structure Spelling.Plain (s : Spelling) : Prop where
  exponent : s.exponent = none
  fraction : ∀ ds ∈ s.fraction, ds.getLast? ≠ some '0'

theorem Spelling.plain_whole (negative : Bool) (whole : List Char) :
    (⟨negative, whole, none, none⟩ : Spelling).Plain := by
  refine ⟨rfl, ?_⟩
  intro ds h
  cases h

theorem wholeText_ofNat (n : ℕ) : WholeText (Numeral.ofNat n) := by
  by_cases h : n = 0
  · rw [h, Numeral.ofNat]
    exact .zero
  · exact .digits ⟨Numeral.ofNat_ne_nil n, Numeral.isDigit_ofNat n⟩ (Numeral.head?_ofNat h)

/-- A numeral in plain form, digit by digit. -/
theorem numeralText_plain (negative : Bool) (n : ℕ) {fraction : Option (List Char)} {f : List Char}
    (hf : FractionText fraction f) :
    NumeralText ⟨negative, Numeral.ofNat n, fraction, none⟩
      ((if negative then ['-'] else []) ++ (Numeral.ofNat n ++ f)) := by
  have htext := NumeralText.intro negative (wholeText_ofNat n) hf .absent
  rwa [List.append_nil] at htext

/-- Nothing in a numeral without exponent and fraction is a point. -/
theorem NumeralText.point_not_mem {s : Spelling} {cs : List Char} (h : NumeralText s cs)
    (hexponent : s.exponent = none) (hfraction : s.fraction = none) : '.' ∉ cs := by
  obtain ⟨negative, hw, hf, he⟩ := h
  cases hexponent
  cases hfraction
  cases he
  cases hf
  have hwhole : '.' ∉ _ := fun hmem => absurd (hw.digitsText.digits '.' hmem) (by decide)
  cases negative <;> simpa using hwhole

theorem NumeralText.getLast?_of_fraction {s : Spelling} {cs ds : List Char} (h : NumeralText s cs)
    (hexponent : s.exponent = none) (hfraction : s.fraction = some ds) :
    cs.getLast? = ds.getLast? := by
  obtain ⟨negative, hw, hf, he⟩ := h
  cases hexponent
  cases hfraction
  cases he
  cases hf with
  | digits hds =>
    obtain ⟨d, ds, rfl⟩ := List.exists_cons_of_ne_nil hds.nonempty
    simp [List.getLast?_append, List.getLast?_cons]

/-- A plain numeral does not end in a point and a zero. -/
theorem NumeralText.not_zero_fraction {s : Spelling} {cs : List Char} (h : NumeralText s cs)
    (hs : s.Plain) : ¬ ['.', '0'] <:+ cs := by
  intro hsuffix
  cases hfraction : s.fraction with
  | none => exact h.point_not_mem hs.exponent hfraction (hsuffix.subset (by simp))
  | some ds =>
    obtain ⟨front, rfl⟩ := hsuffix
    have hlast := h.getLast?_of_fraction hs.exponent hfraction
    rw [List.getLast?_append_of_ne_nil _ (by simp)] at hlast
    exact hs.fraction ds hfraction hlast.symm

end Lexer

/-- How the canonical numeral of an integer is spelt. -/
def Lexer.Spelling.ofInt (v : ℤ) : Spelling := ⟨decide (v < 0), Numeral.ofNat v.natAbs, none, none⟩

theorem Lexer.Spelling.plain_ofInt (v : ℤ) : (Spelling.ofInt v).Plain :=
  Spelling.plain_whole _ _

theorem Numeral.numeralText_ofInt (v : ℤ) : NumeralText (Spelling.ofInt v) (ofInt v) := by
  have htext := numeralText_plain (decide (v < 0)) v.natAbs .absent
  rw [List.append_nil] at htext
  unfold ofInt Spelling.ofInt
  split
  · next h => simpa [h] using htext
  · next h => simpa [h] using htext

theorem Lexer.Spelling.number?_ofInt (v : ℤ) : (Spelling.ofInt v).number? = some (.integer v) := by
  have hzero : ¬ (decide (v < 0) = true ∧ Numeral.value (Numeral.ofNat v.natAbs) = 0) := by
    rw [decide_eq_true_eq, Numeral.value_ofNat]
    omega
  have hvalue : (if decide (v < 0) = true then -(v.natAbs : ℤ) else v.natAbs) = v := by
    simp only [decide_eq_true_eq]
    split <;> omega
  rw [ofInt, Spelling.number?, if_pos ⟨rfl, rfl, hzero⟩, Numeral.value_ofNat, hvalue]

namespace Binary64

theorem getLast?_padded {places digits : ℕ} (hplaces : places ≠ 0) (h : digits % 10 ≠ 0) :
    (Numeral.padded places digits).getLast? ≠ some '0' := by
  obtain ⟨width, rfl⟩ := Nat.exists_eq_succ_of_ne_zero hplaces
  rw [Numeral.padded, List.getLast?_concat]
  intro hzero
  exact h (Numeral.digit_eq_zero _ (Nat.mod_lt _ (by decide)) (Option.some.inj hzero))

/-- Digits that are written out in full have the value they stand for, and end as they do. -/
theorem exists_plain_positional (negative : Bool) {digits : ℕ} (h : digits % 10 ≠ 0) (j : ℕ) :
    ∃ s, NumeralText s ((if negative then ['-'] else []) ++ positional digits j) ∧ s.Plain ∧
      s.negative = negative ∧ s.magnitude = (digits * 10 ^ j : ℕ) / 10 ^ scale := by
  by_cases hj : scale ≤ j
  · obtain ⟨n, rfl⟩ := Nat.exists_eq_add_of_le hj
    have htext := numeralText_plain negative (digits * 10 ^ n) .absent
    rw [List.append_nil] at htext
    rw [positional, if_pos hj, Nat.add_sub_cancel_left]
    refine ⟨_, htext, Spelling.plain_whole _ _, rfl, ?_⟩
    have hmagnitude : (⟨negative, Numeral.ofNat (digits * 10 ^ n), none, none⟩ :
        Spelling).magnitude = (digits * 10 ^ n : ℕ) := by
      simp only [Spelling.magnitude, Option.getD_none, List.append_nil, Numeral.value_ofNat,
        List.length_nil, Nat.cast_zero, sub_zero, zpow_zero, mul_one]
    rw [hmagnitude, eq_div_iff (by positivity), pow_add]
    push_cast
    rw [mul_assoc, mul_comm (10 ^ n)]
  · obtain ⟨places, hplaces⟩ : ∃ places, scale = j + places := ⟨scale - j, by omega⟩
    have hne : places ≠ 0 := by omega
    have hpadded : Grammar.DigitsText (Numeral.padded places digits) := by
      refine ⟨?_, Numeral.isDigit_padded places digits⟩
      rw [← List.length_pos_iff, Numeral.length_padded]
      exact Nat.pos_of_ne_zero hne
    have htext := numeralText_plain negative (digits / 10 ^ places) (.digits hpadded)
    have hsub : scale - j = places := by omega
    rw [positional, if_neg hj, hsub]
    refine ⟨_, htext, ⟨rfl, ?_⟩, rfl, ?_⟩
    · rintro _ ⟨⟩
      exact getLast?_padded hne h
    · have hvalue : Numeral.value (Numeral.ofNat (digits / 10 ^ places) ++
          Numeral.padded places digits) = digits := by
        rw [Numeral.value_append, Numeral.length_padded, Numeral.value_ofNat,
          Numeral.value_padded, Nat.div_add_mod']
      rw [Spelling.magnitude, hplaces]
      simp only [Option.getD_some, Option.getD_none, hvalue, Numeral.length_padded]
      rw [eq_div_iff (by positivity), zero_sub, zpow_neg, zpow_natCast, pow_add]
      push_cast
      field_simp

theorem text_toList {x : Binary64} (h : x.isFinite = true) :
    x.text.toList = (if x.negative then ['-'] else []) ++ magnitudeText x.rank := by
  have hrank : x.rank < infinityRank := of_decide_eq_true h
  have hnan : ¬ x.isNaN = true := by simp only [isNaN, decide_eq_true_eq]; omega
  have hinfinite : ¬ x.isInfinite = true := by simp only [isInfinite, decide_eq_true_eq]; omega
  simp only [text, if_neg hnan, if_neg hinfinite, String.toList_ofList]
  split <;> rfl

/-- The text of a finite double is a plain numeral of its sign, and the value of the numeral rounds
to the double. -/
theorem exists_plain_text {x : Binary64} (h : x.isFinite = true) :
    ∃ s, NumeralText s x.text.toList ∧ s.Plain ∧ s.negative = x.negative ∧
      Rounds s.magnitude x.rank := by
  rw [text_toList h]
  by_cases hzero : x.rank = 0
  · have htext := numeralText_plain x.negative 0 .absent
    rw [List.append_nil, Numeral.ofNat] at htext
    rw [magnitudeText, if_pos hzero]
    refine ⟨_, htext, Spelling.plain_whole _ _, rfl, ?_⟩
    have hround := readsBack_iff.mp (readsBack_steps 0)
    simpa [hzero, Spelling.magnitude, Numeral.value, Numeral.worth, steps, Magnitude.units,
      Numeral.digit] using hround
  · have hcoarsest := shortest_coarsest hzero
    obtain ⟨s, htext, hplain, hsign, hvalue⟩ :=
      exists_plain_positional x.negative hcoarsest.mod_ten_ne_zero (shortest x.rank).2
    rw [magnitudeText, if_neg hzero]
    refine ⟨s, htext, hplain, hsign, ?_⟩
    rw [hvalue]
    exact readsBack_iff.mp hcoarsest.reads

end Binary64

namespace Number

/-- The stored form of a number whose numeral is given: an object with one member, named after the
kind. -/
def payload (kind numeral : String) : String :=
  "\x7b\"" ++ kind ++ "\":" ++ numeral ++ "\x7d"

theorem tokens_payload {kind numeral : String} {s : Spelling}
    (hkind : ∀ c ∈ kind.toList, PlainInString c) (h : NumeralText s numeral.toList) :
    tokens (payload kind numeral).toList = Token.tagged kind [.number s.number?] := by
  have hends : s.Ends ['\x7d'] := s.ends_cons (by decide) (by decide) []
  have htext : TextOf (Token.tagged kind [.number s.number?])
      ('\x7b' :: '"' :: (kind.toList ++ '"' :: ':' :: (numeral.toList ++ ['\x7d']))) := by
    have hname := TokenText.plain hkind (':' :: (numeral.toList ++ ['\x7d']))
    rw [String.ofList_toList] at hname
    exact .token .openObject (.token hname (.token .colon (.token (.number h hends)
      (.token .closeObject .nil))))
  have hlist : (payload kind numeral).toList =
      '\x7b' :: '"' :: (kind.toList ++ '"' :: ':' :: (numeral.toList ++ ['\x7d'])) := by
    simp [payload]
  rw [hlist, htext.tokens_eq]

variable {kind numeral : String} {s : Spelling}

theorem ofText_payload (hkind : ∀ c ∈ kind.toList, PlainInString c)
    (h : NumeralText s numeral.toList) :
    Reader.ofText Reader.number (payload kind numeral) =
      (s.number?.bind (Reader.numberOf? kind)).elim (.error .malformed) .ok := by
  rw [Reader.ofText, tokens_payload hkind h]
  rcases s.number? with _ | m
  · rfl
  · have hread : Reader.number (Token.tagged kind [.number (some m)]) =
        Reader.found (Reader.numberOf? kind m) [] := rfl
    rw [Option.bind_some, Reader.whole, hread]
    rcases Reader.numberOf? kind m with _ | n <;> rfl

theorem ofText_integer (h : NumeralText s numeral.toList) {v : ℤ}
    (hs : s.number? = some (.integer v)) :
    Reader.ofText Reader.number (payload "Integer" numeral) =
      (ofInt? v).elim (.error .malformed) .ok := by
  rw [ofText_payload (by decide) h, hs]
  rfl

/-- Every numeral is read as the double of its sign that its value rounds to. -/
theorem ofText_float_eq_ok_iff (h : NumeralText s numeral.toList) {x : Binary64} :
    Reader.ofText Reader.number (payload "Float" numeral) = .ok (.float x) ↔
      x.negative = s.negative ∧ x.isFinite = true ∧ Rounds s.magnitude x.rank := by
  have hmap : s.number?.bind (Reader.numberOf? "Float") =
      (s.number?.bind JsonNumber.double?).map .float := by
    rcases s.number? with _ | m <;> rfl
  rw [← Spelling.double?_eq_some_iff, ofText_payload (by decide) h, hmap]
  rcases s.number?.bind JsonNumber.double? with _ | y <;> simp

theorem numeralText_integer (v : Int64) :
    NumeralText (.ofInt v.toInt) (integer v).text.toList := by
  rw [text, String.toList_ofList]
  exact Numeral.numeralText_ofInt v.toInt

theorem ofText_text_integer (v : Int64) :
    Reader.ofText Reader.number (payload "Integer" (integer v).text) = .ok (.integer v) := by
  rw [ofText_integer (numeralText_integer v) (Spelling.number?_ofInt v.toInt), ofInt?_toInt]
  rfl

theorem ofText_text_float {x : Binary64} (h : x.isFinite = true) :
    Reader.ofText Reader.number (payload "Float" (float x).text) = .ok (.float x) := by
  obtain ⟨s, htext, -, hsign, hround⟩ := exists_plain_text h
  exact (ofText_float_eq_ok_iff htext).mpr ⟨hsign.symm, h, hround⟩

theorem exists_plain_text {n : Number} (h : n.isFinite = true) :
    ∃ s, NumeralText s n.text.toList ∧ s.Plain := by
  cases n with
  | integer v => exact ⟨_, numeralText_integer v, Spelling.plain_ofInt v.toInt⟩
  | float x =>
    obtain ⟨s, htext, hplain, -⟩ := Binary64.exists_plain_text (x := x) h
    exact ⟨s, htext, hplain⟩

/-- Integers come back from their texts, and finite doubles with all their bits, so that no two of
these are written alike. The text of an integer is a plain numeral without a fraction, that of a
finite double a plain numeral of its sign with a value that rounds to it; and reading rounds every
numeral in that way. Every double is the double of its bits. It is finite unless the exponent field
is the greatest one, and the exponent field and the fraction field give the rational number that its
magnitude is. -/
theorem text_reads_back :
    (∀ v : Int64,
      Reader.ofText Reader.number (payload "Integer" (integer v).text) = .ok (.integer v) ∧
      ∃ s, NumeralText s (integer v).text.toList ∧ s.Plain ∧ s.fraction = none ∧
        (s.negative = true ↔ v.toInt < 0)) ∧
    (∀ word : UInt64, (ofBits word).isFinite = true →
      (∃ y, Reader.ofText Reader.number (payload "Float" (float (ofBits word)).text) =
        .ok (.float y) ∧ y.toBits = word) ∧
      ∃ s, NumeralText s (float (ofBits word)).text.toList ∧ s.Plain ∧
        (s.negative = true ↔ signWeight ≤ word.toNat) ∧
        Rounds s.magnitude (ofBits word).rank) ∧
    (∀ n : Number, n.isFinite = true →
      (∀ c ∈ n.text.toList, c ∉ ['e', 'E', ' ', '"', '=']) ∧ ¬ ['.', '0'] <:+ n.text.toList) ∧
    (∀ word word' : UInt64, (ofBits word).isFinite = true → (ofBits word').isFinite = true →
      (float (ofBits word)).text = (float (ofBits word')).text → word = word') ∧
    (∀ (s : Spelling) (numeral : String) (x : Binary64), NumeralText s numeral.toList →
      (Reader.ofText Reader.number (payload "Float" numeral) = .ok (.float x) ↔
        x.negative = s.negative ∧ x.isFinite = true ∧ Rounds s.magnitude x.rank)) ∧
    (∀ x : Binary64, ofBits x.toBits = x) ∧
    ∀ word : UInt64,
      ((ofBits word).isFinite = true ↔ exponentField word < 2047) ∧
      Binary64.magnitude (ofBits word).rank =
        if exponentField word = 0 then (fractionField word / 2 ^ scale : ℚ)
        else (2 ^ precision + fractionField word) * 2 ^ (exponentField word - 1) / 2 ^ scale := by
  refine ⟨?_, ?_, ?_, ?_, ?_, ofBits_toBits, ?_⟩
  · intro v
    exact ⟨ofText_text_integer v, _, numeralText_integer v, Spelling.plain_ofInt v.toInt, rfl,
      decide_eq_true_iff⟩
  · intro word h
    obtain ⟨s, htext, hplain, hsign, hround⟩ := Binary64.exists_plain_text h
    refine ⟨⟨_, ofText_text_float h, toBits_ofBits word⟩, s, htext, hplain, ?_, hround⟩
    rw [hsign]
    exact decide_eq_true_iff
  · intro n h
    obtain ⟨s, htext, hplain⟩ := exists_plain_text h
    refine ⟨?_, htext.not_zero_fraction hplain⟩
    intro c hc hmem
    exact (by decide : ∀ c ∈ ['e', 'E', ' ', '"', '='], ¬ Numeric c) c hmem
      (n.numericText_text.numeric c hc)
  · intro word word' h h' htext
    have hread := ofText_text_float h
    rw [htext, ofText_text_float h'] at hread
    rw [← toBits_ofBits word, ← toBits_ofBits word', ← Number.float.inj (Except.ok.inj hread)]
  · intro s numeral x htext
    exact ofText_float_eq_ok_iff htext
  · intro word
    exact ⟨isFinite_ofBits word, magnitude_ofBits word⟩

/-- The double next to `10 ^ 23`, which is no double itself, is written as this power. -/
theorem text_reads_back_ten_pow :
    let word : UInt64 := 0x44b52d02c7e14af6
    (ofBits word).isFinite = true ∧
      (float (ofBits word)).text = "100000000000000000000000" ∧
      ∃ y, Reader.ofText Reader.number (payload "Float" "100000000000000000000000") =
        .ok (.float y) ∧ y.toBits = word := by
  intro word
  have hfinite : (ofBits word).isFinite = true := by decide +kernel
  have htext : (float (ofBits word)).text = "100000000000000000000000" := by decide +kernel
  refine ⟨hfinite, htext, ?_⟩
  rw [← htext]
  exact (text_reads_back.2.1 word hfinite).1

end Number

end FieldQuery
