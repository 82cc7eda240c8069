import FieldQuery.Clause.Reader
import FieldQuery.Proofs.Runs

/-!
# Admitted clauses

Field clauses come into being in two ways: by the comparisons that a query offers, and by reading
them from elsewhere, when the rules for clauses are checked. Both ways admit the same clauses. So no
run leads to a clause that could not be read, and no clause can be read that no run leads to.

`Verdict` lists what the rules say of a clause, case by case, and all else goes by it.
-/
namespace FieldQuery

/-- The comparisons of one plain field that stand for a single clause. -/
inductive Step.Compares (name : String) : Step → Prop
  | equals (negated : Bool) (value : Value) : Compares name (.equals (.field name) negated value)
  | contains (negated : Bool) (fragment : String) :
      Compares name (.contains (.field name) negated fragment)
  | isNull (negated : Bool) : Compares name (.isNull (.field name) negated)
  | compare (negated : Bool) (bound : Bound) (number : Number) :
      Compares name (.compare name negated bound number)

namespace FieldClause

inductive Verdict (c : FieldClause) : Except Reason Unit → Prop
  | equals : c.operator = .equals → Verdict c (.ok ())
  | contains {s : String} : c.operator = .contains → c.value = .text s → 3 ≤ s.length →
      Verdict c (.ok ())
  | range {b : Bound} {n : Number} : c.operator = .range b → c.value = .number n →
      Verdict c (.ok ())
  | short {s : String} : c.operator = .contains → c.value = .text s → s.length < 3 →
      Verdict c (.error (.shortSubstring c.field))
  | noText : c.operator = .contains → (∀ s, c.value ≠ .text s) →
      Verdict c (.error (.rejectedValue c.operator c.field c.value))
  | noNumber {b : Bound} : c.operator = .range b → (∀ n, c.value ≠ .number n) →
      Verdict c (.error (.rejectedValue c.operator c.field c.value))

theorem checkSubstring_of_lt {field fragment : String} (h : fragment.length < 3) :
    checkSubstring field fragment = .error (.shortSubstring field) := if_pos h

theorem checkSubstring_of_le {field fragment : String} (h : 3 ≤ fragment.length) :
    checkSubstring field fragment = .ok () := if_neg (Nat.not_lt_of_le h)

theorem verdict_check (c : FieldClause) : c.Verdict c.check := by
  obtain ⟨field, operator, value, negated⟩ := c
  rcases operator with _ | _ | b
  · exact .equals rfl
  · cases value with
    | null => exact .noText rfl nofun
    | number n => exact .noText rfl nofun
    | text s =>
      by_cases h : s.length < 3
      · simp only [check, checkSubstring_of_lt h]
        exact .short rfl rfl h
      · have h := Nat.le_of_not_lt h
        simp only [check, checkSubstring_of_le h]
        exact .contains rfl rfl h
  · cases value with
    | null => exact .noNumber rfl nofun
    | number n => exact .range rfl rfl
    | text s => exact .noNumber rfl nofun

theorem Verdict.result {c : FieldClause} {r : Except Reason Unit} (h : c.Verdict r) :
    c.check = r := by
  obtain ⟨field, operator, value, negated⟩ := c
  cases h with
  | equals ho => cases ho; rfl
  | contains ho hv h => cases ho; cases hv; exact checkSubstring_of_le h
  | range ho hv => cases ho; cases hv; rfl
  | short ho hv h => cases ho; cases hv; exact checkSubstring_of_lt h
  | noText ho hv =>
    cases ho
    cases value with
    | text s => exact absurd rfl (hv s)
    | _ => rfl
  | noNumber ho hv =>
    cases ho
    cases value with
    | number n => exact absurd rfl (hv n)
    | _ => rfl

theorem verdict_iff {c : FieldClause} {r : Except Reason Unit} : c.Verdict r ↔ c.check = r :=
  ⟨Verdict.result, fun h => h ▸ c.verdict_check⟩

end FieldClause

namespace Reader

theorem checked_eq_ok_iff {c : FieldClause} {rest : List Token} {x : FieldClause × List Token} :
    checked c rest = .ok x ↔ c.check = .ok () ∧ x = (c, rest) := by
  unfold checked
  cases c.check <;> simp [eq_comm]

theorem checked_eq_error_iff {c : FieldClause} {rest : List Token} {p : Problem} :
    checked c rest = .error p ↔ ∃ r, c.check = .error r ∧ p = .refused r := by
  unfold checked
  cases c.check <;> simp [eq_comm]

end Reader

theorem Step.verdict_of_clear {s : Step} {q : Query} (h : s.obstacle? q = none) :
    ∀ f ∈ fieldClauses s.contribution, f.Verdict (.ok ()) := by
  cases s with
  | equals subject negated value => exact List.forall_mem_singleton.mpr (.equals rfl)
  | contains subject negated fragment =>
    have hlength : 3 ≤ fragment.length :=
      Nat.le_of_not_lt fun hlt => by simp [obstacle?, hlt] at h
    exact List.forall_mem_singleton.mpr (.contains rfl rfl hlength)
  | isNull subject negated => exact List.forall_mem_singleton.mpr (.equals rfl)
  | compare name negated bound number => exact List.forall_mem_singleton.mpr (.range rfl rfl)
  | between name negated least greatest =>
    exact List.forall_mem_cons.mpr ⟨.range rfl rfl, List.forall_mem_singleton.mpr (.range rfl rfl)⟩
  | connect c => exact List.forall_mem_nil _
  | reset => exact List.forall_mem_nil _

/-- No run leads to a field clause that the rules refuse. -/
theorem Query.check_of_run (moves : List Move) :
    ∀ f ∈ fieldClauses (Query.empty.run moves).clauses, f.check = .ok () := by
  apply run_keeps (P := fun q => ∀ f ∈ fieldClauses q.clauses, f.check = .ok ())
  · exact List.forall_mem_nil _
  · intro _ _ s _ q h
    exact forall_fieldClauses_after h fun hs f hf => (Step.verdict_of_clear hs f hf).result

/-- A comparison on the empty query leads to one clause if it is taken. -/
theorem Step.Compares.run_empty {name : String} {s : Step} (h : s.Compares name)
    (hs : s.obstacle? .empty = none) :
    s.act.run .empty = .ok () ⟨s.contribution, none⟩ := by
  rw [run_act, hs]
  cases h <;> rfl

theorem FieldClause.exists_compares {c : FieldClause} (h : c.check = .ok ()) :
    ∃ s, Step.Compares c.field s ∧ s.act.run .empty = .ok () ⟨[.field c], none⟩ := by
  have hverdict := c.verdict_check
  obtain ⟨field, operator, value, negated⟩ := c
  rw [h] at hverdict
  cases hverdict with
  | equals ho =>
    cases ho
    exact ⟨_, .equals negated value, Step.Compares.run_empty (.equals negated value) rfl⟩
  | @contains s ho hv hlength =>
    cases ho
    cases hv
    have hs : (Step.contains (.field field) negated s).obstacle? .empty = none :=
      if_neg (Nat.not_lt_of_le hlength)
    exact ⟨_, .contains negated s, Step.Compares.run_empty (.contains negated s) hs⟩
  | @range b n ho hv =>
    cases ho
    cases hv
    exact ⟨_, .compare negated b n, Step.Compares.run_empty (.compare negated b n) rfl⟩

theorem FieldClause.check_of_run_empty {c : FieldClause} {s : Step}
    (h : s.act.run .empty = .ok () ⟨[.field c], none⟩) : c.check = .ok () := by
  have hafter : Query.empty.run [.step s] = ⟨[.field c], none⟩ := by
    change Query.empty.after s = _
    rw [Query.after, Action.leaves, h]
  apply Query.check_of_run [.step s]
  rw [hafter]
  exact List.mem_singleton_self c

namespace FieldClause

variable {c : FieldClause}

theorem check_short_iff :
    (∃ r, c.check = .error r ∧ r.kind = .substringTooShort) ↔
      c.operator = .contains ∧ ∃ s, c.value = .text s ∧ s.length < 3 := by
  constructor
  · rintro ⟨r, hr, hkind⟩
    have hverdict := c.verdict_check
    rw [hr] at hverdict
    cases hverdict with
    | @short s ho hv h => exact ⟨ho, s, hv, h⟩
    | noText _ _ => cases hkind
    | noNumber _ _ => cases hkind
  · rintro ⟨ho, s, hv, h⟩
    exact ⟨_, (Verdict.short ho hv h).result, rfl⟩

theorem check_invalid_iff :
    (∃ r, c.check = .error r ∧ r.kind = .invalidClause) ↔
      (c.operator = .contains ∧ ∀ s, c.value ≠ .text s) ∨
        ∃ b, c.operator = .range b ∧ ∀ n, c.value ≠ .number n := by
  constructor
  · rintro ⟨r, hr, hkind⟩
    have hverdict := c.verdict_check
    rw [hr] at hverdict
    cases hverdict with
    | short _ _ _ => cases hkind
    | noText ho hv => exact .inl ⟨ho, hv⟩
    | @noNumber b ho hv => exact .inr ⟨b, ho, hv⟩
  · rintro (⟨ho, hv⟩ | ⟨b, ho, hv⟩)
    · exact ⟨_, (Verdict.noText ho hv).result, rfl⟩
    · exact ⟨_, (Verdict.noNumber ho hv).result, rfl⟩

theorem kind_of_check {r : Reason} (h : c.check = .error r) :
    r.kind = .substringTooShort ∨ r.kind = .invalidClause := by
  have hverdict := c.verdict_check
  rw [h] at hverdict
  cases hverdict with
  | short _ _ _ => exact .inl rfl
  | noText _ _ => exact .inr rfl
  | noNumber _ _ => exact .inr rfl

end FieldClause

/-- A substring that is too short is refused in a clause for the same reason as in a query. -/
theorem Query.refusal?_contains (q : Query) {name fragment : String} (negated : Bool)
    (h : fragment.length < 3) :
    q.refusal? (.contains (.field name) negated fragment) = some (.shortSubstring name) := by
  rw [refusal?_eq]
  exact if_pos h

/-- A clause passes the check, with its parts unchanged, exactly when one comparison of its field on
an empty query is taken and adds just this clause; and every clause of every run passes. A clause
that does not pass has a substring that is too short, and is then refused for the same reason as by
any query, or it has an operator that does not go with its value. -/
theorem FieldClause.checked_iff_compares :
    (∀ (c : FieldClause) (rest : List Token),
      ((∃ x, Reader.checked c rest = .ok x) ↔
        ∃ s, Step.Compares c.field s ∧ s.act.run .empty = .ok () ⟨[.field c], none⟩) ∧
      ∀ x, Reader.checked c rest = .ok x → x = (c, rest)) ∧
    (∀ moves, ∀ f ∈ fieldClauses (Query.empty.run moves).clauses, ∀ rest,
      Reader.checked f rest = .ok (f, rest)) ∧
    ∀ (c : FieldClause) (rest : List Token),
      ((∃ r, Reader.checked c rest = .error (.refused r) ∧ r.kind = .substringTooShort) ↔
        c.operator = .contains ∧ ∃ s, c.value = .text s ∧ s.length < 3) ∧
      ((∃ r, Reader.checked c rest = .error (.refused r) ∧ r.kind = .invalidClause) ↔
        (c.operator = .contains ∧ ∀ s, c.value ≠ .text s) ∨
          ∃ b, c.operator = .range b ∧ ∀ n, c.value ≠ .number n) ∧
      (∀ p, Reader.checked c rest = .error p →
        ∃ r, p = .refused r ∧ (r.kind = .substringTooShort ∨ r.kind = .invalidClause)) ∧
      ∀ s, c.operator = .contains → c.value = .text s → s.length < 3 →
        ∃ r, Reader.checked c rest = .error (.refused r) ∧
          ∀ (q : Query) (negated : Bool),
            q.refusal? (.contains (.field c.field) negated s) = some r := by
  have herror : ∀ (c : FieldClause) (rest : List Token) (r : Reason),
      Reader.checked c rest = .error (.refused r) ↔ c.check = .error r := by
    intro c rest r
    simp [Reader.checked_eq_error_iff]
  refine ⟨?_, ?_, ?_⟩
  · intro c rest
    refine ⟨⟨?_, ?_⟩, fun x hx => (Reader.checked_eq_ok_iff.mp hx).2⟩
    · rintro ⟨x, hx⟩
      exact exists_compares (Reader.checked_eq_ok_iff.mp hx).1
    · rintro ⟨s, -, hs⟩
      exact ⟨_, Reader.checked_eq_ok_iff.mpr ⟨check_of_run_empty hs, rfl⟩⟩
  · intro moves f hf rest
    exact Reader.checked_eq_ok_iff.mpr ⟨Query.check_of_run moves f hf, rfl⟩
  · intro c rest
    simp only [herror]
    refine ⟨check_short_iff, check_invalid_iff, ?_, ?_⟩
    · intro p hp
      obtain ⟨r, hr, rfl⟩ := Reader.checked_eq_error_iff.mp hp
      exact ⟨r, rfl, kind_of_check hr⟩
    · intro s ho hv h
      exact ⟨_, (Verdict.short ho hv h).result, fun q negated => q.refusal?_contains negated h⟩

end FieldQuery
