import FieldQuery.Json.Lexer
import Mathlib.Data.List.Basic

/-!
# The strings of JSON

How a string may be spelt, said without reading it: a character stands for itself or is escaped by a
letter or by four hexadecimal digits, and a character beyond the basic plane is escaped by two code
units. The relations below hold between a text and what it means, whatever follows it.

What takes a string apart is exact for them, and so is what puts the pieces together. A code unit
that is half of a character and has not its other half next to it means nothing, and then the string
has no content.
-/
namespace FieldQuery.Lexer

-- Tables are gone through entry by entry.
attribute [local instance (high)] List.decidableBAll

def hexDigits : List (Char × Nat) :=
  "0123456789abcdef".toList.zipIdx ++ "ABCDEF".toList.zipIdx 10

/-- The letters after a backslash, and what they stand for. -/
def shortEscapes : List (Char × Char) :=
  [('"', '"'), ('\\', '\\'), ('/', '/'), ('b', '\x08'), ('f', '\x0c'), ('n', '\n'), ('r', '\r'),
    ('t', '\t')]

/-- The pieces at the front of a text, the closing quote, and the rest. -/
inductive StringText : List Piece → List Char → List Char → Prop
  | close {rest : List Char} : StringText [] ('"' :: rest) rest
  | plain {c : Char} {ps : List Piece} {cs rest : List Char} : c ≠ '"' → c ≠ '\\' → 32 ≤ c.toNat →
      StringText ps cs rest → StringText (.scalar c :: ps) (c :: cs) rest
  | short {l c : Char} {ps : List Piece} {cs rest : List Char} : (l, c) ∈ shortEscapes →
      StringText ps cs rest → StringText (.scalar c :: ps) ('\\' :: l :: cs) rest
  | unit {a b c d : Char} {w x y z : Nat} {ps : List Piece} {cs rest : List Char} :
      (a, w) ∈ hexDigits → (b, x) ∈ hexDigits → (c, y) ∈ hexDigits → (d, z) ∈ hexDigits →
      StringText ps cs rest →
      StringText (.unit (4096 * w + 256 * x + 16 * y + z) :: ps)
        ('\\' :: 'u' :: a :: b :: c :: d :: cs) rest

/-- The characters that some pieces stand for. A code unit is the number of a character, or it and
the next one are the two halves of a greater number. -/
inductive Content : List Piece → List Char → Prop
  | nil : Content [] []
  | scalar {c : Char} {ps : List Piece} {s : List Char} : Content ps s →
      Content (.scalar c :: ps) (c :: s)
  | unit {c : Char} {ps : List Piece} {s : List Char} : Content ps s →
      Content (.unit c.toNat :: ps) (c :: s)
  | pair {c : Char} {m n : Nat} {ps : List Piece} {s : List Char} : m < 1024 → n < 1024 →
      c.toNat = 0x10000 + m * 1024 + n → Content ps s →
      Content (.unit (0xD800 + m) :: .unit (0xDC00 + n) :: ps) (c :: s)

theorem digit_mem_hexDigits : ∀ i < 10, (Char.ofNat (48 + i), i) ∈ hexDigits := by decide

theorem lower_mem_hexDigits : ∀ i < 6, (Char.ofNat (97 + i), 10 + i) ∈ hexDigits := by decide

theorem upper_mem_hexDigits : ∀ i < 6, (Char.ofNat (65 + i), 10 + i) ∈ hexDigits := by decide

theorem isDigit_iff {c : Char} : c.isDigit = true ↔ 48 ≤ c.toNat ∧ c.toNat ≤ 57 := by
  simp only [Char.isDigit, ge_iff_le, Bool.and_eq_true, decide_eq_true_eq, UInt32.le_iff_toNat_le]
  rfl

theorem hexWorth?_eq_some_iff {c : Char} {d : Nat} :
    hexWorth? c = some d ↔ (c, d) ∈ hexDigits := by
  constructor
  · intro h
    have hle : ∀ a b : Char, a ≤ b ↔ a.toNat ≤ b.toNat := fun _ _ => Iff.rfl
    have hc := Char.ofNat_toNat c
    simp only [hexWorth?, isDigit_iff, hle] at h
    generalize c.toNat = n at h hc
    rw [← hc]
    split at h
    · next hn =>
      obtain ⟨i, rfl⟩ := Nat.exists_eq_add_of_le hn.1
      cases h
      rw [Nat.add_sub_cancel_left]
      exact digit_mem_hexDigits i (by omega)
    · split at h
      · next hn =>
        change 97 ≤ n ∧ n ≤ 102 at hn
        obtain ⟨i, rfl⟩ := Nat.exists_eq_add_of_le hn.1
        cases h
        rw [show 97 + i - 87 = 10 + i by omega]
        exact lower_mem_hexDigits i (by omega)
      · split at h
        · next hn =>
          change 65 ≤ n ∧ n ≤ 70 at hn
          obtain ⟨i, rfl⟩ := Nat.exists_eq_add_of_le hn.1
          cases h
          rw [show 65 + i - 55 = 10 + i by omega]
          exact upper_mem_hexDigits i (by omega)
        · cases h
  · intro h
    exact (by decide : ∀ p ∈ hexDigits, hexWorth? p.1 = some p.2) (c, d) h

theorem escape?_eq_some_iff {l c : Char} : escape? l = some c ↔ (l, c) ∈ shortEscapes := by
  constructor
  · intro h
    unfold escape? at h
    split at h <;> cases h <;> decide
  · intro h
    exact (by decide : ∀ p ∈ shortEscapes, escape? p.1 = some p.2) (l, c) h

theorem unit?_eq_some_iff {a b c d : Char} {u : Nat} :
    unit? a b c d = some u ↔ ∃ w x y z, (a, w) ∈ hexDigits ∧ (b, x) ∈ hexDigits ∧
      (c, y) ∈ hexDigits ∧ (d, z) ∈ hexDigits ∧ u = 4096 * w + 256 * x + 16 * y + z := by
  have hworth : ∀ w x y z : Nat,
      (w * 16 + x) * 256 + y * 16 + z = 4096 * w + 256 * x + 16 * y + z := by
    intro w x y z
    omega
  simp only [unit?, Option.bind_eq_bind, Option.bind_eq_some_iff, Option.pure_def,
    Option.some.injEq, hexWorth?_eq_some_iff, hworth]
  constructor
  · rintro ⟨w, ha, x, hb, y, hc, z, hd, hu⟩
    exact ⟨w, x, y, z, ha, hb, hc, hd, hu.symm⟩
  · rintro ⟨w, x, y, z, ha, hb, hc, hd, hu⟩
    exact ⟨w, ha, x, hb, y, hc, z, hd, hu.symm⟩

theorem StringText.pieces_eq {ps : List Piece} {cs rest : List Char} (h : StringText ps cs rest) :
    pieces cs = some (ps, rest) := by
  induction h with
  | close => rfl
  | @plain c ps cs rest hquote hbackslash hcontrol _ ih =>
    have hc : ¬ (c = '\\' ∨ c.toNat < 32) := by
      rintro (rfl | hlt)
      · exact hbackslash rfl
      · omega
    rw [pieces, if_neg hc, ih]
    all_goals intros; simp_all
  | @short l c ps cs rest hl _ ih =>
    have hu : l ≠ 'u' := (by decide : ∀ p ∈ shortEscapes, p.1 ≠ 'u') (l, c) hl
    rw [pieces, escape?_eq_some_iff.mpr hl, ih]
    intros
    exact hu ‹_›
  | @unit a b c d w x y z ps cs rest ha hb hc hd _ ih =>
    rw [pieces, unit?_eq_some_iff.mpr ⟨w, x, y, z, ha, hb, hc, hd, rfl⟩, ih]

theorem stringText_of_pieces {ps : List Piece} {cs rest : List Char}
    (h : pieces cs = some (ps, rest)) : StringText ps cs rest := by
  fun_induction pieces cs generalizing ps rest with
  | case1 => cases h
  | case2 cs => cases h; exact .close
  | case3 a b c d cs u ps' rest' hps hu ih =>
    cases h
    obtain ⟨w, x, y, z, ha, hb, hc, hd, rfl⟩ := unit?_eq_some_iff.mp hu
    exact .unit ha hb hc hd (ih hps)
  | case4 => cases h
  | case5 l cs _ e ps' rest' hps he ih =>
    cases h
    exact .short (escape?_eq_some_iff.mp he) (ih hps)
  | case6 => cases h
  | case7 => cases h
  | case8 c cs hquote _ _ hc ps' rest' hps ih =>
    cases h
    rw [not_or, Nat.not_lt] at hc
    exact .plain hquote hc.1 hc.2 (ih hps)
  | case9 => cases h

/-- A string is taken apart exactly as it is spelt. -/
theorem pieces_eq_some_iff {ps : List Piece} {cs rest : List Char} :
    pieces cs = some (ps, rest) ↔ StringText ps cs rest :=
  ⟨stringText_of_pieces, StringText.pieces_eq⟩

theorem hexDigit_lt : ∀ p ∈ hexDigits, p.2 < 16 := by decide

theorem StringText.unit_lt {ps : List Piece} {cs rest : List Char} (h : StringText ps cs rest) :
    ∀ u, .unit u ∈ ps → u < 0x10000 := by
  induction h with
  | close => intro u hu; cases hu
  | plain _ _ _ _ ih | short _ _ ih =>
    intro u hu
    exact ih u (List.mem_of_ne_of_mem Piece.noConfusion hu)
  | @unit a b c d w x y z ps cs rest ha hb hc hd _ ih =>
    intro u hu
    have hw := hexDigit_lt _ ha
    have hx := hexDigit_lt _ hb
    have hy := hexDigit_lt _ hc
    have hz := hexDigit_lt _ hd
    rcases List.mem_cons.mp hu with hu | hu
    · rw [Piece.unit.inj hu]
      omega
    · exact ih u hu

theorem toNat_ofNat_of_valid {n : Nat} (h : n.isValidChar) : (Char.ofNat n).toNat = n := by
  rw [Char.ofNat, dif_pos h]
  rfl

theorem isLeading_iff {u : Nat} : isLeading u = true ↔ 0xD800 ≤ u ∧ u < 0xDC00 := by
  simp [isLeading]

theorem isTrailing_iff {u : Nat} : isTrailing u = true ↔ 0xDC00 ≤ u ∧ u < 0xE000 := by
  simp [isTrailing]

theorem toNat_paired {m n : Nat} (hm : m < 1024) (hn : n < 1024) :
    (paired (0xD800 + m) (0xDC00 + n)).toNat = 0x10000 + m * 1024 + n := by
  rw [paired, toNat_ofNat_of_valid (.inr (by omega))]
  omega

/-- A code unit that is no half stands for a character by itself, whatever comes after it. -/
theorem assemble_unit {u : Nat} (hl : ¬ isLeading u = true) (ht : ¬ isTrailing u = true)
    (ps : List Piece) : assemble (.unit u :: ps) = (assemble ps).map (Char.ofNat u :: ·) := by
  cases ps with
  | nil => simp [assemble, hl, ht]
  | cons p ps =>
    cases p with
    | scalar c => simp [assemble, hl, ht]
    | unit v => rw [assemble, if_neg hl, if_neg ht]

theorem assemble_pair {m n : Nat} (hm : m < 1024) (hn : n < 1024) (ps : List Piece) :
    assemble (.unit (0xD800 + m) :: .unit (0xDC00 + n) :: ps) =
      (assemble ps).map (paired (0xD800 + m) (0xDC00 + n) :: ·) := by
  rw [assemble, if_pos (isLeading_iff.mpr (by omega)), if_pos (isTrailing_iff.mpr (by omega))]

theorem Content.assemble_eq {ps : List Piece} {s : List Char} (h : Content ps s) :
    assemble ps = some s := by
  induction h with
  | nil => rfl
  | scalar _ ih => rw [assemble, ih]; rfl
  | @unit c ps s _ ih =>
    have hvalid : c.toNat.isValidChar := c.valid
    have hl : ¬ isLeading c.toNat = true := by rw [isLeading_iff]; omega
    have ht : ¬ isTrailing c.toNat = true := by rw [isTrailing_iff]; omega
    rw [assemble_unit hl ht, ih, Char.ofNat_toNat]
    rfl
  | @pair c m n ps s hm hn hc _ ih =>
    have hpaired : paired (0xD800 + m) (0xDC00 + n) = c := by
      rw [← Char.toNat_inj, toNat_paired hm hn, hc]
    rw [assemble_pair hm hn, ih, hpaired]
    rfl

theorem Content.unit_of_lt {u : Nat} {ps : List Piece} {s : List Char} (hu : u < 0x10000)
    (hl : ¬ isLeading u = true) (ht : ¬ isTrailing u = true) (h : Content ps s) :
    Content (.unit u :: ps) (Char.ofNat u :: s) := by
  rw [isLeading_iff] at hl
  rw [isTrailing_iff] at ht
  have htoNat : (Char.ofNat u).toNat = u := toNat_ofNat_of_valid (by unfold Nat.isValidChar; omega)
  have hcontent := Content.unit (c := Char.ofNat u) h
  rwa [htoNat] at hcontent

theorem content_of_assemble {ps : List Piece} {s : List Char}
    (hlt : ∀ u, .unit u ∈ ps → u < 0x10000) (h : assemble ps = some s) : Content ps s := by
  fun_induction assemble ps generalizing s with
  | case1 => cases h; exact .nil
  | case2 c ps ih =>
    obtain ⟨t, ht, rfl⟩ := Option.map_eq_some_iff.mp h
    exact .scalar (ih (fun u hu => hlt u (List.mem_cons_of_mem _ hu)) ht)
  | case3 u v ps hleading htrailing ih =>
    obtain ⟨t, ht, rfl⟩ := Option.map_eq_some_iff.mp h
    obtain ⟨hu, hu'⟩ := isLeading_iff.mp hleading
    obtain ⟨hv, hv'⟩ := isTrailing_iff.mp htrailing
    obtain ⟨m, rfl⟩ := Nat.exists_eq_add_of_le hu
    obtain ⟨n, rfl⟩ := Nat.exists_eq_add_of_le hv
    have hm : m < 1024 := by omega
    have hn : n < 1024 := by omega
    have hlt' : ∀ w, .unit w ∈ ps → w < 0x10000 := fun w hw =>
      hlt w (List.mem_cons_of_mem _ (List.mem_cons_of_mem _ hw))
    exact .pair hm hn (toNat_paired hm hn) (ih hlt' ht)
  | case4 => cases h
  | case5 => cases h
  | case6 u v ps hleading htrailing ih =>
    obtain ⟨t, ht, rfl⟩ := Option.map_eq_some_iff.mp h
    have htail := ih (fun w hw => hlt w (List.mem_cons_of_mem _ hw)) ht
    exact .unit_of_lt (hlt u List.mem_cons_self) hleading htrailing htail
  | case7 => cases h
  | case8 u ps _ hneither ih =>
    obtain ⟨t, ht, rfl⟩ := Option.map_eq_some_iff.mp h
    rw [Bool.or_eq_true, not_or] at hneither
    have htail := ih (fun w hw => hlt w (List.mem_cons_of_mem _ hw)) ht
    exact .unit_of_lt (hlt u List.mem_cons_self) hneither.1 hneither.2 htail

/-- The pieces of a string are put together exactly to its content. -/
theorem StringText.assemble_eq_some_iff {ps : List Piece} {cs rest s : List Char}
    (h : StringText ps cs rest) : assemble ps = some s ↔ Content ps s :=
  ⟨content_of_assemble h.unit_lt, Content.assemble_eq⟩

/-- A character that may stand for itself. -/
def PlainInString (c : Char) : Prop := c ≠ '"' ∧ c ≠ '\\' ∧ 32 ≤ c.toNat

instance (c : Char) : Decidable (PlainInString c) := inferInstanceAs (Decidable (_ ∧ _))

theorem stringText_plain {cs : List Char} (h : ∀ c ∈ cs, PlainInString c) (rest : List Char) :
    StringText (cs.map .scalar) (cs ++ '"' :: rest) rest := by
  induction cs with
  | nil => exact .close
  | cons c cs ih =>
    obtain ⟨⟨hquote, hbackslash, hcontrol⟩, hcs⟩ := List.forall_mem_cons.mp h
    exact .plain hquote hbackslash hcontrol (ih hcs)

theorem content_plain (cs : List Char) : Content (cs.map .scalar) cs := by
  induction cs with
  | nil => exact .nil
  | cons c cs ih => exact .scalar ih

end FieldQuery.Lexer
