import FieldQuery.Json.Token

/-!
# Values that are passed over

What may stand where a value is read only to see where it ends: any value, of any kind and size,
whatever its numerals and strings are worth. Passing over a value keeps the brackets that are open
in a list, so that it needs no room for values inside values; it finds the same end as the grammar,
which has values inside values.
-/
namespace FieldQuery.Token

/-- Several parts with a comma between each two. -/
def joined : List (List Token) → List Token
  | [] => []
  | part :: parts => part ++ parts.flatMap (.comma :: ·)

theorem joined_cons_cons (part next : List Token) (parts : List (List Token)) :
    joined (part :: next :: parts) = part ++ .comma :: joined (next :: parts) := by
  simp [joined]

/-- A member of an object. The name may be one that has no content. -/
def member (name : Option String) (ts : List Token) : List Token := .text name :: .colon :: ts

/-- The tokens of a value of any kind. -/
inductive AnyValue : List Token → Prop
  | null : AnyValue [.null]
  | bool (b : Bool) : AnyValue [.bool b]
  | number (n : Option JsonNumber) : AnyValue [.number n]
  | text (s : Option String) : AnyValue [.text s]
  | array {items : List (List Token)} : (∀ ts ∈ items, AnyValue ts) →
      AnyValue (.openArray :: (joined items ++ [.closeArray]))
  | object {members : List (Option String × List Token)} : (∀ m ∈ members, AnyValue m.2) →
      AnyValue (.openObject :: (joined (members.map fun m => member m.1 m.2) ++ [.closeObject]))

/-- What brings all of the open brackets to their end, innermost first, and the rest. -/
inductive Leaves : List Bracket → List Token → List Token → Prop
  | done {rest : List Token} : Leaves [] rest rest
  | array {outer : List Bracket} {items : List (List Token)} {ts rest : List Token} :
      (∀ ts ∈ items, AnyValue ts) → Leaves outer ts rest →
      Leaves (.array :: outer) (items.flatMap (.comma :: ·) ++ .closeArray :: ts) rest
  | object {outer : List Bracket} {members : List (Option String × List Token)}
      {ts rest : List Token} : (∀ m ∈ members, AnyValue m.2) → Leaves outer ts rest →
      Leaves (.object :: outer)
        (members.flatMap (fun m => .comma :: member m.1 m.2) ++ .closeObject :: ts) rest

/-- A value is passed over whatever brackets are open around it. -/
def Passed (ts : List Token) : Prop :=
  ∀ outer rest, skipWithin outer (ts ++ rest) = leave outer rest

theorem leave_items {items : List (List Token)} (h : ∀ ts ∈ items, Passed ts)
    (outer : List Bracket) (rest : List Token) :
    leave (.array :: outer) (items.flatMap (.comma :: ·) ++ .closeArray :: rest) =
      leave outer rest := by
  induction items with
  | nil => rw [List.flatMap_nil, List.nil_append, leave]
  | cons ts items ih =>
    rw [List.flatMap_cons, List.append_assoc, List.cons_append, leave, h ts List.mem_cons_self]
    exact ih fun us hus => h us (List.mem_cons_of_mem ts hus)

theorem leave_members {members : List (Option String × List Token)}
    (h : ∀ m ∈ members, Passed m.2) (outer : List Bracket) (rest : List Token) :
    leave (.object :: outer)
        (members.flatMap (fun m => .comma :: member m.1 m.2) ++ .closeObject :: rest) =
      leave outer rest := by
  induction members with
  | nil => rw [List.flatMap_nil, List.nil_append, leave]
  | cons m members ih =>
    rw [List.flatMap_cons, List.append_assoc, List.cons_append, member, List.cons_append,
      List.cons_append, leave, h m List.mem_cons_self]
    exact ih fun n hn => h n (List.mem_cons_of_mem m hn)

theorem AnyValue.ne_closeArray {ts : List Token} (h : AnyValue ts) (rest us : List Token) :
    ts ++ rest ≠ .closeArray :: us := by
  cases h <;> nofun

theorem AnyValue.passed {ts : List Token} (h : AnyValue ts) : Passed ts := by
  induction h with
  | null | bool | number | text => intro outer rest; rw [List.singleton_append, skipWithin]
  | @array items hitems ih =>
    intro outer rest
    rw [List.cons_append, List.append_assoc, List.singleton_append]
    cases items with
    | nil => rw [joined, List.nil_append, skipWithin]
    | cons ts items =>
      rw [joined, List.append_assoc, skipWithin, ih ts List.mem_cons_self]
      · exact leave_items (fun us hus => ih us (List.mem_cons_of_mem ts hus)) outer rest
      · exact fun us => (hitems ts List.mem_cons_self).ne_closeArray _ us
  | @object members _ ih =>
    intro outer rest
    rw [List.cons_append, List.append_assoc, List.singleton_append]
    cases members with
    | nil => rw [List.map_nil, joined, List.nil_append, skipWithin]
    | cons m members =>
      rw [List.map_cons, joined, member, List.flatMap_map, List.cons_append, List.cons_append,
        List.cons_append, List.cons_append, List.append_assoc, skipWithin, ih m List.mem_cons_self]
      exact leave_members (fun n hn => ih n (List.mem_cons_of_mem m hn)) outer rest

theorem Leaves.exists_items {outer : List Bracket} {ts rest : List Token}
    (h : Leaves (.array :: outer) ts rest) :
    ∃ (items : List (List Token)) (us : List Token),
      ts = items.flatMap (.comma :: ·) ++ .closeArray :: us ∧ (∀ ts ∈ items, AnyValue ts) ∧
      Leaves outer us rest := by
  cases h with
  | array hitems h => exact ⟨_, _, rfl, hitems, h⟩

theorem Leaves.exists_members {outer : List Bracket} {ts rest : List Token}
    (h : Leaves (.object :: outer) ts rest) :
    ∃ (members : List (Option String × List Token)) (us : List Token),
      ts = members.flatMap (fun m => .comma :: member m.1 m.2) ++ .closeObject :: us ∧
      (∀ m ∈ members, AnyValue m.2) ∧ Leaves outer us rest := by
  cases h with
  | object hmembers h => exact ⟨_, _, rfl, hmembers, h⟩

/-- A further value in the innermost brackets. -/
theorem Leaves.item {outer : List Bracket} {item ts rest : List Token} (hitem : AnyValue item)
    (h : Leaves (.array :: outer) ts rest) :
    Leaves (.array :: outer) (.comma :: (item ++ ts)) rest := by
  obtain ⟨items, us, rfl, hitems, h⟩ := h.exists_items
  simpa using Leaves.array (List.forall_mem_cons.mpr ⟨hitem, hitems⟩) h

theorem Leaves.member {outer : List Bracket} {content ts rest : List Token} (name : Option String)
    (hcontent : AnyValue content) (h : Leaves (.object :: outer) ts rest) :
    Leaves (.object :: outer) (.comma :: .text name :: .colon :: (content ++ ts)) rest := by
  obtain ⟨members, us, rfl, hmembers, h⟩ := h.exists_members
  have hcons : ∀ m ∈ (name, content) :: members, AnyValue m.2 :=
    List.forall_mem_cons.mpr ⟨hcontent, hmembers⟩
  simpa [Token.member] using Leaves.object hcons h

/-- Where a value can be passed over, there is one, and after it the brackets are left. -/
def Finds (outer : List Bracket) (ts : List Token) : Prop :=
  ∀ rest, skipWithin outer ts = some rest →
    ∃ body us, ts = body ++ us ∧ AnyValue body ∧ Leaves outer us rest

theorem Finds.of_leaves {outer : List Bracket} {body us : List Token} (hbody : AnyValue body)
    (h : ∀ rest, leave outer us = some rest → Leaves outer us rest) : Finds outer (body ++ us) := by
  intro rest hrest
  rw [hbody.passed] at hrest
  exact ⟨body, us, rfl, hbody, h rest hrest⟩

theorem Finds.array {outer : List Bracket} {ts : List Token} (h : Finds (.array :: outer) ts)
    (hne : ∀ us, ts = .closeArray :: us → False) : Finds outer (.openArray :: ts) := by
  intro rest hrest
  rw [skipWithin] at hrest
  · obtain ⟨item, us, rfl, hitem, hleaves⟩ := h rest hrest
    obtain ⟨items, us, rfl, hitems, hleaves⟩ := hleaves.exists_items
    refine ⟨.openArray :: (joined (item :: items) ++ [.closeArray]), us, by simp [joined],
      .array ?_, hleaves⟩
    exact List.forall_mem_cons.mpr ⟨hitem, hitems⟩
  · exact hne

theorem Finds.object {outer : List Bracket} {ts : List Token} {name : Option String}
    (h : Finds (.object :: outer) ts) :
    Finds outer (.openObject :: .text name :: .colon :: ts) := by
  intro rest hrest
  rw [skipWithin] at hrest
  obtain ⟨content, us, rfl, hcontent, hleaves⟩ := h rest hrest
  obtain ⟨members, us, rfl, hmembers, hleaves⟩ := hleaves.exists_members
  refine ⟨.openObject :: (joined (((name, content) :: members).map fun m => member m.1 m.2) ++
    [.closeObject]), us, ?_, .object ?_, hleaves⟩
  · simp [joined, member, List.flatMap_map]
  · exact List.forall_mem_cons.mpr ⟨hcontent, hmembers⟩

theorem finds_and_leaves :
    (∀ outer ts, Finds outer ts) ∧
    (∀ outer ts rest, leave outer ts = some rest → Leaves outer ts rest) := by
  apply skipWithin.mutual_induct
  -- Where a value is to come: a token that is one, or a bracket that opens, empty or not.
  case case1 => exact fun _ _ h => .of_leaves .null h
  case case2 => exact fun _ b _ h => .of_leaves (.bool b) h
  case case3 => exact fun _ n _ h => .of_leaves (.number n) h
  case case4 => exact fun _ s _ h => .of_leaves (.text s) h
  case case5 => exact fun _ _ h => .of_leaves (@AnyValue.array [] (List.forall_mem_nil _)) h
  case case6 => exact fun _ _ hne h => h.array hne
  case case7 => exact fun _ _ h => .of_leaves (@AnyValue.object [] (List.forall_mem_nil _)) h
  case case8 => exact fun _ _ _ h => h.object
  case case9 =>
    intros
    intro rest hrest
    rw [skipWithin] at hrest
    · cases hrest
    all_goals assumption
  -- After a value: no bracket is open, or the innermost one goes on or closes.
  case case10 =>
    intro ts rest hrest
    rw [leave] at hrest
    cases hrest
    exact .done
  case case11 =>
    intro outer ts h rest hrest
    rw [leave] at hrest
    obtain ⟨item, us, rfl, hitem, hleaves⟩ := h rest hrest
    exact hleaves.item hitem
  case case12 =>
    intro outer ts h rest hrest
    rw [leave] at hrest
    exact @Leaves.array outer [] ts rest (List.forall_mem_nil _) (h rest hrest)
  case case13 =>
    intro outer name ts h rest hrest
    rw [leave] at hrest
    obtain ⟨content, us, rfl, hcontent, hleaves⟩ := h rest hrest
    exact hleaves.member name hcontent
  case case14 =>
    intro outer ts h rest hrest
    rw [leave] at hrest
    exact @Leaves.object outer [] ts rest (List.forall_mem_nil _) (h rest hrest)
  case case15 =>
    intros
    rename_i rest hrest
    rw [leave] at hrest
    · cases hrest
    all_goals assumption

/-- One value of any kind is passed over, whatever follows it, and nothing else is. -/
theorem skip_eq_some_iff {ts rest : List Token} :
    skip ts = some rest ↔ ∃ body, ts = body ++ rest ∧ AnyValue body := by
  constructor
  · intro h
    obtain ⟨body, us, rfl, hbody, hleaves⟩ := finds_and_leaves.1 [] ts rest h
    cases hleaves
    exact ⟨body, rfl, hbody⟩
  · rintro ⟨body, rfl, hbody⟩
    rw [skip, hbody.passed, leave]

end FieldQuery.Token
