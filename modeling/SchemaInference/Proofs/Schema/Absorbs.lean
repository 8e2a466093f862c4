/-
When a node already tells all that another one does: `Absorbs p a b` says that joining `b` into `a`
changes nothing (`Absorbs.iff_joins`). A join absorbs both of its sides; what a node absorbs it still
absorbs after it was joined with more, and it absorbs the join of two nodes if it absorbs each. All
this holds under either policy, although keeping the first of two clashing nodes is neither
commutative nor associative.
-/
import SchemaInference.Proofs.Schema.Joins

namespace SchemaInference.Schema

open Members

/-! ## Scalars

A scalar covers another one where the join of both is itself. There are four scalars, so each law is
a finite table. -/

namespace Scalar

variable {s t u v : Scalar}

theorem join_self (s : Scalar) : s.join? s = some s := by cases s <;> rfl

theorem join_trans (hs : s.join? t = some s) (ht : t.join? u = some t) : s.join? u = some s := by
  revert hs ht
  cases s <;> cases t <;> cases u <;> decide

theorem join_antisymm (hs : s.join? t = some s) (ht : t.join? s = some t) : s = t := by
  revert hs ht
  cases s <;> cases t <;> decide

theorem join_grow (h : s.join? t = some s) (hu : s.join? u = some v) : v.join? t = some v := by
  revert h hu
  cases s <;> cases t <;> cases u <;> cases v <;> decide

theorem join_right (h : s.join? t = some u) : u.join? t = some u := by
  revert h
  cases s <;> cases t <;> cases u <;> decide

theorem join_both (ht : s.join? t = some s) (hu : s.join? u = some s) (hv : t.join? u = some v) :
    s.join? v = some s := by
  revert ht hu hv
  cases s <;> cases t <;> cases u <;> cases v <;> decide

/-- Two scalars that one scalar covers go together. -/
theorem join_of_bound (ht : s.join? t = some s) (hu : s.join? u = some s) :
    (t.join? u).isSome = true := by
  revert ht hu
  cases s <;> cases t <;> cases u <;> decide

/-- A scalar that covers `s` goes together with what `s` goes together with. -/
theorem join_of_cover (h : v.join? s = some v) (hu : s.join? t = some u) : v.join? t ≠ none := by
  revert h hu
  cases v <;> cases s <;> cases t <;> cases u <;> decide

theorem clash_grow (h : s.join? t = some u) (hv : s.join? v = none) : u.join? v = none := by
  revert h hv
  cases s <;> cases t <;> cases u <;> cases v <;> decide

theorem clash_join (h : v.join? s = none) (hu : s.join? t = some u) : v.join? u = none := by
  revert h hu
  cases v <;> cases s <;> cases t <;> cases u <;> decide

end Scalar

/-! ## Absorbing -/

inductive Absorbs (p : Policy) : Node → Node → Prop
  | null {a : Node} (h : a.isOptional = true) : Absorbs p a .null
  | scalar {s t : Scalar} {x y : Bool} (h : s.join? t = some s) (o : y = true → x = true) :
      Absorbs p (.scalar s x) (.scalar t y)
  | array {e f : Node} {x y : Bool} (h : Absorbs p e f) (o : y = true → x = true) :
      Absorbs p (.array e x) (.array f y)
  | object {n : Identifier} {ms ns : Members} {x y : Bool}
      (present : ∀ name b, get? ns name = some b → ∃ a, get? ms name = some a)
      (both : ∀ name a b, get? ms name = some a → get? ns name = some b → Absorbs p a b)
      (absent : ∀ name a, get? ms name = some a → get? ns name = none → a.isOptional = true)
      (o : y = true → x = true) : Absorbs p (.object n ms x) (.object n ns y)
  | map {n : Identifier} {v w : Node} {x y : Bool} (h : Absorbs p v w) (o : y = true → x = true) :
      Absorbs p (.map n v x) (.map n w y)
  | settled {a b : Node} (hp : p = .preferFirst) (hk : a.kind.clashes b.kind = true)
      (o : b.isOptional = true → a.isOptional = true) : Absorbs p a b

namespace Absorbs

variable {p : Policy} {a b k : Node}

theorem or_eq {x y : Bool} (h : y = true → x = true) : (x || y) = x := by
  cases x <;> cases y <;> simp_all

theorem joins (h : Absorbs p a b) : Joins p a b a := by
  induction h with
  | @null a h =>
    have := Joins.nullRight (p := p) a
    rwa [Node.relax_eq_self h] at this
  | @scalar s t x y h o =>
    have := Joins.scalar (p := p) x y h
    rwa [or_eq o] at this
  | @array e f x y _ o ih =>
    have := Joins.array (p := p) x y ih
    rwa [or_eq o] at this
  | @map n v w x y _ o ih =>
    have := Joins.map (p := p) n x y ih
    rwa [or_eq o] at this
  | @settled a b hp hk o =>
    have := Joins.settled (p := p) hp hk
    rwa [or_eq o, Node.setOptional_isOptional] at this
  | @object n ms ns x y present _ absent o ih =>
    -- every incoming name is known, so no name is added
    have hn : names ms = names ms ++ (names ns).filter (· ∉ names ms) := by
      have : (names ns).filter (· ∉ names ms) = [] := List.filter_eq_nil_iff.2 fun name hm => by
        obtain ⟨b, hb⟩ := mem_names_iff.1 hm
        simpa using mem_names_iff.2 (present name b hb)
      rw [this, List.append_nil]
    have : Joins p (.object n ms x) (.object n ns y) (.object n ms (x || y)) := by
      refine .object n x y hn (fun name a b k ha hb hk => ?_) (fun name a ha hb => ?_)
        fun name b ha hb => ?_
      · rw [ha, Option.some.injEq] at hk
        exact hk ▸ ih name a b ha hb
      · rw [Node.relax_eq_self (absent name a ha hb), ha]
      · obtain ⟨a, ha'⟩ := present name b hb
        rw [ha] at ha'; cases ha'
    rwa [or_eq o] at this

theorem of_joins (h : Joins p a b k) (hk : k = a) : Absorbs p a b := by
  induction h with
  | nullRight a => exact .null (hk ▸ Node.isOptional_relax a)
  | nullLeft b =>
    have : b = .null := by
      rw [← Node.kind_eq_null, ← Node.kind_relax, hk]
      rfl
    subst this
    exact .null rfl
  | @scalar s t u x y hu =>
    simp only [Node.scalar.injEq] at hk
    exact .scalar (hk.1 ▸ hu) fun e => by simp_all
  | @array e f k x y _ ih =>
    simp only [Node.array.injEq] at hk
    exact .array (ih hk.1) fun e => by simp_all
  | @map n v w k x y _ ih =>
    simp only [Node.map.injEq, true_and] at hk
    exact .map (ih hk.1) fun e => by simp_all
  | @settled a b hp hc =>
    refine .settled hp hc fun e => ?_
    rw [e, Bool.or_true] at hk
    exact hk ▸ Node.isOptional_relax a
  | @object n ms ns ks x y hn _ left right ih =>
    simp only [Node.object.injEq, true_and] at hk
    obtain ⟨rfl, hk⟩ := hk
    refine .object (fun name b hb => ?_) (fun name a b ha hb => ih name a b a ha hb ha rfl)
      (fun name a ha hb => ?_) fun e => by simp_all
    · exact Joins.exists_get? hn (.inr (mem_names_of_get? hb))
    · have := left name a ha hb
      rw [ha, Option.some.injEq] at this
      rw [this]
      exact Node.isOptional_relax a

/-- A node absorbs another one just where joining the two gives the node again. -/
theorem iff_joins : Absorbs p a b ↔ Joins p a b a := ⟨joins, fun h => of_joins h rfl⟩

/-- What it takes to absorb a scalar under the strict policy. -/
theorem of_scalar {t : Scalar} {y : Bool} (h : Absorbs .strict a (.scalar t y)) :
    ∃ s x, a = .scalar s x ∧ s.join? t = some s := by
  cases h with
  | scalar hs _ => exact ⟨_, _, rfl, hs⟩
  | settled hp => cases hp

/-- What it takes to absorb an object. -/
theorem of_object {n m : Identifier} {ms ns : Members} {x y : Bool}
    (h : Absorbs p (.object n ms x) (.object m ns y)) :
    n = m ∧ (∀ name b, get? ns name = some b → ∃ a, get? ms name = some a) ∧
      (∀ name a b, get? ms name = some a → get? ns name = some b → Absorbs p a b) ∧
      ∀ name a, get? ms name = some a → get? ns name = none → a.isOptional = true := by
  cases h with
  | object present both absent _ => exact ⟨rfl, present, both, absent⟩
  | settled _ hk => cases hk

/-! ## Kinds and flags -/

theorem isOptional (h : Absorbs p a b) (hb : b.isOptional = true) : a.isOptional = true := by
  rw [h.joins.isOptional, hb, Bool.or_true]

theorem refl (a : Node) : Absorbs p a a := by
  induction a using Node.induction with
  | null => exact .null rfl
  | scalar s x => exact .scalar (Scalar.join_self s) id
  | array e x ih => exact .array ih id
  | map n v x ih => exact .map ih id
  | object n ms x ih =>
    refine .object (fun name a ha => ⟨a, ha⟩) (fun name a b ha hb => ?_)
      (fun name a ha hb => ?_) id
    · rw [ha, Option.some.injEq] at hb
      exact hb ▸ ih _ (mem_of_get? ha)
    · rw [ha] at hb; cases hb

/-- What a node clashes with it still clashes with after it was joined with more. -/
theorem clashes_join {l : Kind} (h : Joins p a b k) (hl : a.kind.clashes l = true) :
    k.kind.clashes l = true := by
  cases h with
  | nullRight => rwa [Node.kind_relax]
  | nullLeft => simp [Node.kind, Kind.clashes] at hl
  | @scalar s t u x y hu =>
    cases l with
    | scalar v =>
      simp only [Node.kind, Kind.clashes, Option.isNone_iff_eq_none] at hl ⊢
      exact Scalar.clash_grow hu hl
    | null => simp [Node.kind, Kind.clashes] at hl
    | _ => rfl
  | settled => rwa [Node.kind_setOptional]
  | _ => exact hl

/-! ## Joining into the node -/

/-- What a node absorbs it still absorbs after it was joined with more. -/
theorem grow (h : Absorbs p a b) {c : Node} (hj : Joins p a c k) : Absorbs p k b := by
  induction h generalizing c k with
  | null h => exact .null (hj.isOptional_left h)
  | scalar h o =>
    have ho := fun e => hj.isOptional_left (o e)
    cases hj with
    | nullRight => exact .scalar h ho
    | scalar _ _ hu => exact .scalar (Scalar.join_grow h hu) ho
    | settled => exact .scalar h ho
  | array h o ih =>
    have ho := fun e => hj.isOptional_left (o e)
    cases hj with
    | nullRight => exact .array h ho
    | array _ _ hj => exact .array (ih hj) ho
    | settled => exact .array h ho
  | map h o ih =>
    have ho := fun e => hj.isOptional_left (o e)
    cases hj with
    | nullRight => exact .map h ho
    | map _ _ _ hj => exact .map (ih hj) ho
    | settled => exact .map h ho
  | settled hp hk o => exact .settled hp (clashes_join hj hk) fun e => hj.isOptional_left (o e)
  | object present both absent o ih =>
    have ho := fun e => hj.isOptional_left (o e)
    cases hj with
    | nullRight => exact .object present both absent ho
    | settled => exact .object present both absent ho
    | @object n ms cs ks x z hn hboth hleft hright =>
      refine .object (fun name b hb => ?_) (fun name k b hk hb => ?_) (fun name k hk hb => ?_) ho
      · obtain ⟨a, ha⟩ := present name b hb
        exact Joins.exists_get? hn (.inl (mem_names_of_get? ha))
      · obtain ⟨a, ha⟩ := present name b hb
        rcases hc : get? cs name with _ | c
        · rw [hleft name a ha hc, Option.some.injEq] at hk
          exact hk ▸ ih name a b ha hb (.nullRight a)
        · exact ih name a b ha hb (hboth name a c k ha hc hk)
      · -- a member of the join that `b` lacks is optional, whichever side it comes from
        rcases Joins.member_cases hn hleft hright hk with
          ⟨a, c, ha, hc⟩ | ⟨a, -, -, rfl⟩ | ⟨c, -, -, rfl⟩
        · exact (hboth name a c k ha hc hk).isOptional_left (absent name a ha hb)
        · exact Node.isOptional_relax a
        · exact Node.isOptional_relax c

theorem relax (h : Absorbs p a b) : Absorbs p a.relax b := h.grow (.nullRight a)

/-- A join absorbs its left side. -/
theorem of_joins_left (h : Joins p a b k) : Absorbs p k a := (refl a).grow h

/-- A join absorbs its right side. -/
theorem of_joins_right (h : Joins p a b k) : Absorbs p k b := by
  have ho := fun e => h.isOptional_right e
  induction h with
  | nullRight a => exact .null (Node.isOptional_relax a)
  | nullLeft b => exact (refl b).relax
  | scalar _ _ hu => exact .scalar (Scalar.join_right hu) ho
  | array _ _ hj ih => exact .array (ih hj.isOptional_right) ho
  | map _ _ _ hj ih => exact .map (ih hj.isOptional_right) ho
  | settled hp hk => exact .settled hp (by rwa [Node.kind_setOptional]) ho
  | @object n ms ns ks x y hn both left right ih =>
    refine .object (fun name b hb => ?_) (fun name k b hk hb => ?_) (fun name k hk hb => ?_) ho
    · exact Joins.exists_get? hn (.inr (mem_names_of_get? hb))
    · rcases ha : get? ms name with _ | a
      · rw [right name b ha hb, Option.some.injEq] at hk
        exact hk ▸ (refl b).relax
      · exact ih name a b k ha hb hk (both name a b k ha hb hk).isOptional_right
    · rcases Joins.member_cases hn left right hk with
        ⟨a, b, -, hb'⟩ | ⟨a, -, -, rfl⟩ | ⟨b, -, hb', rfl⟩
      · rw [hb] at hb'; cases hb'
      · exact Node.isOptional_relax a
      · exact Node.isOptional_relax b

/-! ## Joining into what is absorbed -/

theorem setOptional (h : Absorbs p a b) {o : Bool} (ho : o = true → a.isOptional = true) :
    Absorbs p a (b.setOptional o) := by
  cases h with
  | null h => exact .null h
  | scalar h _ => exact .scalar h ho
  | array h _ => exact .array h ho
  | object present both absent _ => exact .object present both absent ho
  | map h _ => exact .map h ho
  | settled hp hk _ =>
    refine .settled hp (by rwa [Node.kind_setOptional]) fun e => ho ?_
    rwa [Node.isOptional_setOptional] at e
    intro hn
    rw [hn] at hk
    cases ha : a.kind <;> simp [ha, Kind.clashes] at hk

theorem isOptional_of_both {c : Node} (hb : Absorbs p a b) (hc : Absorbs p a c)
    (hj : Joins p b c k) (hk : k.isOptional = true) : a.isOptional = true := by
  rw [hj.isOptional, Bool.or_eq_true] at hk
  exact hk.elim hb.isOptional hc.isOptional

/-- A node that absorbs both sides of a join absorbs the join. -/
theorem of_both {c : Node} (hb : Absorbs p a b) (hc : Absorbs p a c) (hj : Joins p b c k) :
    Absorbs p a k := by
  have ho := isOptional_of_both hb hc hj
  induction hj generalizing a with
  | nullRight b => exact hb.setOptional fun _ => hc.isOptional rfl
  | nullLeft c => exact hc.setOptional fun _ => hb.isOptional rfl
  | settled hp hk => exact hb.setOptional fun e => ho (by rw [e]; exact Node.isOptional_relax _)
  | @scalar s t u x y hu =>
    cases hb with
    | @scalar v _ _ _ hs _ =>
      cases hc with
      | scalar ht _ => exact .scalar (Scalar.join_both hs ht hu) ho
      | settled _ hk _ =>
        simp only [Node.kind, Kind.clashes, Option.isNone_iff_eq_none] at hk
        exact absurd hk (Scalar.join_of_cover hs hu)
    | settled hp hk _ =>
      refine .settled hp ?_ ho
      cases a with
      | scalar v z =>
        simp only [Node.kind, Kind.clashes, Option.isNone_iff_eq_none] at hk ⊢
        exact Scalar.clash_join hk hu
      | null => simp [Node.kind, Kind.clashes] at hk
      | _ => rfl
  | array x y hj ih =>
    cases hb with
    | array hb _ =>
      cases hc with
      | array hc _ => exact .array (ih hb hc (isOptional_of_both hb hc hj)) ho
      | settled _ hk _ => simp [Node.kind, Kind.clashes] at hk
    | settled hp hk _ => exact .settled hp hk ho
  | map n x y hj ih =>
    cases hb with
    | map hb _ =>
      cases hc with
      | map hc _ => exact .map (ih hb hc (isOptional_of_both hb hc hj)) ho
      | settled _ hk _ => simp [Node.kind, Kind.clashes] at hk
    | settled hp hk _ => exact .settled hp hk ho
  | @object n ns cs ks x y hn both left right ih =>
    cases hb with
    | settled hp hk _ => exact .settled hp hk ho
    | @object _ ms _ _ _ present₁ both₁ absent₁ _ =>
      cases hc with
      | settled _ hk _ => simp [Node.kind, Kind.clashes] at hk
      | object present₂ both₂ absent₂ _ =>
        refine .object (fun name k hk => ?_) (fun name a k ha hk => ?_) (fun name a ha hk => ?_) ho
        · rcases (Joins.mem_names hn).1 (mem_names_of_get? hk) with hb | hc
          · obtain ⟨b, hb⟩ := mem_names_iff.1 hb
            exact present₁ name b hb
          · obtain ⟨c, hc⟩ := mem_names_iff.1 hc
            exact present₂ name c hc
        · rcases Joins.member_cases hn left right hk with
            ⟨b, c, hb, hc⟩ | ⟨b, hb, hc, rfl⟩ | ⟨c, hb, hc, rfl⟩
          · have h₁ := both₁ name a b ha hb
            have h₂ := both₂ name a c ha hc
            have hj := both name b c k hb hc hk
            exact ih name b c k hb hc hk h₁ h₂ (isOptional_of_both h₁ h₂ hj)
          · exact (both₁ name a b ha hb).setOptional fun _ => absent₂ name a ha hc
          · exact (both₂ name a c ha hc).setOptional fun _ => absent₁ name a ha hb
        · refine absent₁ name a ha (get?_eq_none_iff.2 fun hb => ?_)
          exact get?_eq_none_iff.1 hk ((Joins.mem_names hn).2 (.inl hb))

end Absorbs

end SchemaInference.Schema
