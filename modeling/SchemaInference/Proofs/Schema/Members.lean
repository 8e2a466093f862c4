/-
Members as a finite map. A list of members is looked up by name (`get?`), and what `put` and
`relaxMissing` do is told by what is found afterwards and by the names in their order. Two lists of
unique names are equal when both agree (`Members.ext`).
-/
import SchemaInference.Schema.Node

namespace SchemaInference.Schema

namespace Members

/-- The names of the members, in order. -/
def names (ms : Members) : List Identifier := ms.map (·.1)

@[simp] theorem names_nil : names [] = [] := rfl

@[simp] theorem names_cons (m : Identifier × Node) (ms : Members) :
    names (m :: ms) = m.1 :: names ms := rfl

@[simp] theorem names_append (ms ns : Members) : names (ms ++ ns) = names ms ++ names ns :=
  List.map_append

theorem unique_iff (ms : Members) : Unique ms ↔ (names ms).Nodup := Iff.rfl

theorem unique_nil : Unique [] := List.nodup_nil

theorem unique_cons {m : Identifier × Node} {ms : Members} :
    Unique (m :: ms) ↔ m.1 ∉ names ms ∧ Unique ms := List.nodup_cons

/-! ## Look-up -/

@[simp] theorem get?_nil (name : Identifier) : get? [] name = none := rfl

theorem get?_cons (m : Identifier × Node) (ms : Members) (name : Identifier) :
    get? (m :: ms) name = if m.1 = name then some m.2 else get? ms name := by
  unfold get?
  by_cases h : m.1 = name <;> simp [h]

theorem mem_of_get? {ms : Members} {name : Identifier} {a : Node} (h : get? ms name = some a) :
    (name, a) ∈ ms := by
  unfold get? at h
  obtain ⟨m, hm, rfl⟩ := Option.map_eq_some_iff.1 h
  have : m.1 = name := by simpa using List.find?_some hm
  exact this ▸ List.mem_of_find?_eq_some hm

theorem get?_of_mem {ms : Members} (hu : Unique ms) {name : Identifier} {a : Node}
    (h : (name, a) ∈ ms) : get? ms name = some a := by
  induction ms with
  | nil => cases h
  | cons m ms ih =>
    obtain ⟨hm, hu⟩ := unique_cons.1 hu
    rw [get?_cons]
    rcases List.mem_cons.1 h with rfl | h
    · simp
    · have : m.1 ≠ name := by
        rintro rfl
        exact hm (List.mem_map.2 ⟨_, h, rfl⟩)
      rw [if_neg this, ih hu h]

theorem get?_eq_none_iff {ms : Members} {name : Identifier} :
    get? ms name = none ↔ name ∉ names ms := by
  induction ms with
  | nil => simp
  | cons m ms ih =>
    rw [get?_cons]
    by_cases h : m.1 = name
    · simp [h]
    · rw [if_neg h, ih, names_cons, List.mem_cons, not_or]
      exact ⟨fun h' => ⟨fun e => h e.symm, h'⟩, And.right⟩

theorem mem_names_iff {ms : Members} {name : Identifier} :
    name ∈ names ms ↔ ∃ a, get? ms name = some a := by
  rw [← Option.isSome_iff_exists, Option.isSome_iff_ne_none, ne_eq, get?_eq_none_iff,
    Decidable.not_not]

theorem mem_names_of_get? {ms : Members} {name : Identifier} {a : Node}
    (h : get? ms name = some a) : name ∈ names ms :=
  mem_names_iff.2 ⟨a, h⟩

theorem contains_eq (ms : Members) (name : Identifier) :
    contains ms name = (get? ms name).isSome := by
  unfold contains get?
  rw [Option.isSome_map, List.isSome_find?]

/-- Members are determined by their names and what is found under each. -/
theorem ext {ms ns : Members} (hu : Unique ms) (hn : names ms = names ns)
    (h : ∀ name, get? ms name = get? ns name) : ms = ns := by
  induction ms generalizing ns with
  | nil => exact (List.map_eq_nil_iff.1 hn.symm).symm
  | cons m ms ih =>
    cases ns with
    | nil => simp at hn
    | cons n ns =>
      obtain ⟨hm, hu⟩ := unique_cons.1 hu
      simp only [names_cons, List.cons.injEq] at hn
      obtain ⟨hk, hn⟩ := hn
      have hmn : m = n := by
        have := h m.1
        rw [get?_cons, get?_cons, if_pos rfl, if_pos hk.symm, Option.some.injEq] at this
        exact Prod.ext hk this
      subst hmn
      rw [ih hu hn]
      intro name
      by_cases e : m.1 = name
      · subst e
        rw [get?_eq_none_iff.2 hm, get?_eq_none_iff.2 (hn ▸ hm)]
      · have := h name
        rwa [get?_cons, get?_cons, if_neg e, if_neg e] at this

/-! ## Replacing and adding -/

theorem get?_put (ms : Members) (name : Identifier) (a : Node) (other : Identifier) :
    get? (put ms name a) other = if name = other then some a else get? ms other := by
  induction ms with
  | nil => rw [put, get?_cons]
  | cons m ms ih =>
    unfold put
    by_cases h : m.1 = name
    · subst h
      rw [if_pos rfl, get?_cons, get?_cons]
      by_cases e : m.1 = other <;> simp [e]
    · rw [if_neg h, get?_cons, get?_cons, ih]
      by_cases e : m.1 = other
      · subst e
        rw [if_pos rfl, if_neg (Ne.symm h), if_pos rfl]
      · rw [if_neg e, if_neg e]

theorem names_put (ms : Members) (name : Identifier) (a : Node) :
    names (put ms name a) = if name ∈ names ms then names ms else names ms ++ [name] := by
  induction ms with
  | nil => rfl
  | cons m ms ih =>
    unfold put
    by_cases h : m.1 = name
    · subst h
      simp
    · rw [if_neg h, names_cons, ih, names_cons]
      by_cases e : name ∈ names ms
      · rw [if_pos e, if_pos (List.mem_cons_of_mem _ e)]
      · have : name ∉ m.1 :: names ms := by
          rw [List.mem_cons, not_or]
          exact ⟨Ne.symm h, e⟩
        rw [if_neg e, if_neg this, List.cons_append]

theorem names_put_of_mem {ms : Members} {name : Identifier} {a : Node} (h : name ∈ names ms) :
    names (put ms name a) = names ms := by
  rw [names_put, if_pos h]

theorem put_of_not_mem {ms : Members} {name : Identifier} {a : Node} (h : name ∉ names ms) :
    put ms name a = ms ++ [(name, a)] := by
  induction ms with
  | nil => rfl
  | cons m ms ih =>
    rw [names_cons, List.mem_cons, not_or] at h
    rw [put, if_neg (Ne.symm h.1), ih h.2, List.cons_append]

theorem mem_names_put {ms : Members} {name : Identifier} {a : Node} {other : Identifier} :
    other ∈ names (put ms name a) ↔ other = name ∨ other ∈ names ms := by
  simp only [mem_names_iff, get?_put]
  by_cases h : name = other
  · simp [h]
  · simp [h, Ne.symm h]

theorem unique_put {ms : Members} (hu : Unique ms) (name : Identifier) (a : Node) :
    Unique (put ms name a) := by
  rw [unique_iff, names_put]
  split
  · exact hu
  · rename_i h
    refine List.nodup_append.2 ⟨hu, List.pairwise_singleton .., ?_⟩
    intro x hx y hy
    rw [List.mem_singleton] at hy
    rintro rfl
    exact h (hy ▸ hx)

theorem mem_put {ms : Members} {name : Identifier} {a : Node} {m : Identifier × Node}
    (h : m ∈ put ms name a) : m = (name, a) ∨ m ∈ ms := by
  induction ms with
  | nil => exact .inl (List.mem_singleton.1 h)
  | cons k ms ih =>
    unfold put at h
    split at h
    · rcases List.mem_cons.1 h with h | h
      · exact .inl h
      · exact .inr (List.mem_cons_of_mem _ h)
    · rcases List.mem_cons.1 h with rfl | h
      · exact .inr (List.mem_cons_self ..)
      · exact (ih h).imp_right (List.mem_cons_of_mem _)

/-! ## Members that others lack -/

@[simp] theorem names_relaxMissing (ms others : Members) :
    names (relaxMissing ms others) = names ms := by
  unfold relaxMissing names
  rw [List.map_map]
  refine List.map_congr_left fun m _ => ?_
  show (if contains others m.1 then m else (m.1, m.2.relax)).1 = m.1
  split <;> rfl

theorem get?_relaxMissing (ms others : Members) (name : Identifier) :
    get? (relaxMissing ms others) name =
      (get? ms name).map fun a => if (get? others name).isSome then a else a.relax := by
  induction ms with
  | nil => rfl
  | cons m ms ih =>
    have hc : relaxMissing (m :: ms) others =
        (m.1, if (get? others m.1).isSome then m.2 else m.2.relax) :: relaxMissing ms others := by
      unfold relaxMissing
      rw [List.map_cons, contains_eq]
      split <;> rfl
    rw [hc, get?_cons, get?_cons]
    by_cases h : m.1 = name
    · subst h
      rw [if_pos rfl, if_pos rfl, Option.map_some]
    · rw [if_neg h, if_neg h, ih]

/-- A member that the others have as well stays as it is. -/
theorem get?_relaxMissing_of_get? (ms : Members) {others : Members} {name : Identifier} {b : Node}
    (h : get? others name = some b) : get? (relaxMissing ms others) name = get? ms name := by
  simp [get?_relaxMissing, h]

theorem unique_relaxMissing {ms : Members} (hu : Unique ms) (others : Members) :
    Unique (relaxMissing ms others) := by
  rw [unique_iff, names_relaxMissing]
  exact hu

end Members

end SchemaInference.Schema
