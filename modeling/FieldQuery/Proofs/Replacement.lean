import FieldQuery.Quoted
import Mathlib.Data.List.Basic

/-!
# Quoting by two replacements

A string can be escaped by replacing first every backslash by two of them, and then every quote by
a backslash and the quote. Each replacement goes over the whole string. The second one meets the
backslashes that the first has put in and leaves them alone, so both together do to each character
what quoting does to it, whatever its neighbours are.

A replacement searches for the character. The search tells the matches from the stretches between
them, and from any position on its steps do to the rest of the string what is done to a character.
-/
namespace FieldQuery.Quoted
open String.Slice String.Slice.Pattern String.Slice.Pattern.Model

/-- What stands for a character when every `old` is replaced. -/
def substitute (old : Char) (new : String) (c : Char) : List Char :=
  if c = old then new.toList else [c]

section Search
variable {s : String.Slice} {old : Char} {new : String}

theorem toList_sliceFrom {p : s.Pos} (h : p ≠ s.endPos) :
    (s.sliceFrom p).copy.toList = p.get h :: (s.sliceFrom (p.next h)).copy.toList := by
  have hcut := p.splits.eq_right (p.splits_next_right h)
  rw [hcut, String.toList_append, String.toList_singleton, List.singleton_append]

/-- A stretch without a match stays as it is. -/
theorem flatMap_substitute_of_rejected {start stop : s.Pos} (hle : start ≤ stop)
    (h : ∀ p, start ≤ p → p < stop → ¬ MatchesAt old p) :
    (s.sliceFrom start).copy.toList.flatMap (substitute old new) =
      (s.slice start stop hle).copy.toList ++
        (s.sliceFrom stop).copy.toList.flatMap (substitute old new) := by
  induction start using WellFounded.induction String.Slice.Pos.wellFounded_gt with
  | h start ih =>
    by_cases hlt : start < stop
    · have hend := String.Slice.Pos.ne_endPos_of_lt hlt
      have hget : start.get hend ≠ old := by
        intro hold
        exact h start (Std.le_refl _) hlt (Char.matchesAt_iff.mpr ⟨hend, hold⟩)
      have hrest : ∀ p, start.next hend ≤ p → p < stop → ¬ MatchesAt old p := by
        intro p hp
        exact h p (Std.le_of_lt (by simpa using hp))
      have htail := ih (start.next hend) (by simp) (by simpa) hrest
      rw [toList_sliceFrom hend, List.flatMap_cons, htail, copy_slice_eq_append_of_lt hlt,
        substitute, if_neg hget]
      simp
    · obtain rfl : start = stop := Std.le_antisymm hle (Std.not_lt.mp hlt)
      simp

/-- What a replacement does with a step of the search. -/
def replaceStep (new sofar : String) : SearchStep s → String
  | .matched .. => sofar ++ new.toSlice
  | .rejected start stop => sofar ++ s.slice! start stop

theorem toList_foldl_replaceStep {p : s.Pos} {steps : List (SearchStep s)}
    (h : IsValidSearchFrom old p steps) (new sofar : String) :
    (steps.foldl (replaceStep new) sofar).toList =
      sofar.toList ++ (s.sliceFrom p).copy.toList.flatMap (substitute old new) := by
  induction h generalizing sofar with
  | endPos => simp
  | matched hmatch _ ih =>
    obtain ⟨hend, rfl, hget⟩ := Char.isLongestMatchAt_iff.mp hmatch
    rw [List.foldl_cons, ih, toList_sliceFrom hend, List.flatMap_cons, substitute, if_pos hget]
    simp [replaceStep]
  | mismatched hlt hnone _ ih =>
    have hle := Std.le_of_lt hlt
    rw [List.foldl_cons, ih, flatMap_substitute_of_rejected hle hnone, replaceStep,
      ← slice_eq_slice! (h := hle)]
    simp

end Search

/-- A replacement does the same to every character, wherever it stands. -/
theorem toList_replace (s : String) (old : Char) (new : String) :
    (s.replace old new).toList = s.toList.flatMap (substitute old new) := by
  have hsearch : IsValidSearchFrom old s.toSlice.startPos
      (ToForwardSearcher.toSearcher old s.toSlice).toList :=
    LawfulToForwardSearcherModel.isValidSearchFrom_toList s.toSlice
  have hreplace : s.replace old new =
      (ToForwardSearcher.toSearcher old s.toSlice).fold (replaceStep new) "" := by
    rw [String.replace, String.Slice.replace]
    congr 1
    funext sofar step
    cases step <;> rfl
  rw [hreplace, ← Std.Iter.foldl_toList, toList_foldl_replaceStep hsearch]
  simp

/-- The second replacement does nothing to the backslashes of the first. -/
theorem flatMap_substitute_substitute (c : Char) :
    (substitute '\\' "\\\\" c).flatMap (substitute '"' "\\\"") = escaped c := by
  by_cases hbackslash : c = '\\'
  · subst hbackslash
    decide
  · have hprotected : Protected c ↔ c = '"' := ⟨fun h => h.resolve_right hbackslash, .inl⟩
    rw [substitute, if_neg hbackslash, List.flatMap_singleton, substitute, escaped]
    by_cases hquote : c = '"'
    · rw [if_pos hquote, if_pos (hprotected.mpr hquote), hquote]
      rfl
    · rw [if_neg hquote, if_neg (hprotected.not.mpr hquote)]

/-- In the other order the backslash in front of a quote would be doubled. -/
example : (substitute '"' "\\\"" '"').flatMap (substitute '\\' "\\\\") = ['\\', '\\', '"'] := by
  decide

theorem toList_replace_replace (s : String) :
    ((s.replace '\\' "\\\\").replace '"' "\\\"").toList = encode s.toList := by
  rw [toList_replace, toList_replace, List.flatMap_assoc]
  exact List.flatMap_congr fun c _ => flatMap_substitute_substitute c

/-- What stands between the quotes of a quoted string. -/
def inner (quoted : String) : String := String.ofList quoted.toList.tail.dropLast

theorem toList_inner_quote (s : String) : (inner (quote s)).toList = encode s.toList := by
  simp [inner]

/-- To quote a string is to replace every backslash by two, then every quote by a backslash and the
quote, and to put quotes around the outcome. It comes to the same to write the characters one after
the other, a backslash as two, a quote behind a backslash, and any other one as it is. So what
stands between the quotes of two strings in a row is what stands between the quotes of each. -/
theorem quote_eq_replace_replace :
    (∀ r : String, "\"" ++ (r.replace '\\' "\\\\").replace '"' "\\\"" ++ "\"" = quote r) ∧
    (∀ r : String, (quote r).toList = '"' :: (r.toList.flatMap fun c =>
      if c = '\\' then ['\\', '\\'] else if c = '"' then ['\\', '"'] else [c]) ++ ['"']) ∧
    ∀ r s : String, inner (quote (r ++ s)) = inner (quote r) ++ inner (quote s) := by
  refine ⟨?_, ?_, ?_⟩
  · intro r
    apply String.toList_injective
    rw [String.toList_append, String.toList_append, toList_replace_replace, toList_quote]
    rfl
  · intro r
    have hescaped : escaped = fun c =>
        if c = '\\' then ['\\', '\\'] else if c = '"' then ['\\', '"'] else [c] := by
      funext c
      unfold escaped Protected
      grind
    rw [toList_quote, encode, hescaped, List.cons_append]
  · intro r s
    apply String.toList_injective
    rw [String.toList_append, toList_inner_quote, toList_inner_quote, toList_inner_quote,
      String.toList_append, encode, List.flatMap_append]
    rfl

end FieldQuery.Quoted
