/-
What a node can become while more is observed in its slot. It keeps its kind, but for null, which may
become any optional node, and an integer, which may become a real; a flag that is set stays set; the
members of an object stay where they are, and those that come after them are optional. So it goes at
every depth (`Node.Grows`). A join is always a growth of its left side, under either policy: what was
known first is never given up (`Joins.grows`).
-/
import SchemaInference.Proofs.Schema.Joins

namespace SchemaInference.Schema

open Members

/-- The first node may become the second one. -/
inductive Node.Grows : Node → Node → Prop
  | null {b : Node} (o : b.isOptional = true) : Grows .null b
  | scalar {s t : Scalar} {x y : Bool} (h : t = s ∨ s = .integer ∧ t = .real)
      (o : x = true → y = true) : Grows (.scalar s x) (.scalar t y)
  | array {e f : Node} {x y : Bool} (h : Grows e f) (o : x = true → y = true) :
      Grows (.array e x) (.array f y)
  | object (n : Identifier) {ms ks : Members} {x y : Bool} (names : names ms <+: names ks)
      (kept : ∀ name a b, get? ms name = some a → get? ks name = some b → Grows a b)
      (added : ∀ name b, get? ms name = none → get? ks name = some b → b.isOptional = true)
      (o : x = true → y = true) : Grows (.object n ms x) (.object n ks y)
  | map (n : Identifier) {v w : Node} {x y : Bool} (h : Grows v w) (o : x = true → y = true) :
      Grows (.map n v x) (.map n w y)

namespace Node.Grows

variable {a b c : Node}

theorem isOptional (h : a.Grows b) (ha : a.isOptional = true) : b.isOptional = true := by
  cases h with
  | null o => exact o
  | scalar _ o => exact o ha
  | array _ o => exact o ha
  | object _ _ _ _ o => exact o ha
  | map _ _ o => exact o ha

theorem refl (a : Node) : a.Grows a := by
  induction a using Node.induction with
  | null => exact .null rfl
  | scalar s x => exact .scalar (.inl rfl) id
  | array e x ih => exact .array ih id
  | map n v x ih => exact .map n ih id
  | object n ms x ih =>
    refine .object n (List.prefix_refl _) (fun name a b ha hb => ?_) (fun name b ha hb => ?_) id
    · rw [ha, Option.some.injEq] at hb
      exact hb ▸ ih _ (mem_of_get? ha)
    · rw [ha] at hb
      cases hb

/-- A flag may be set at any time. -/
theorem setOptional {o : Bool} (h : a.isOptional = true → o = true) : a.Grows (a.setOptional o) := by
  have hself := refl a
  cases hself with
  | null => exact .null rfl
  | scalar hs _ => exact .scalar hs h
  | array he _ => exact .array he h
  | object n hn hk hadd _ => exact .object n hn hk hadd h
  | map n hv _ => exact .map n hv h

theorem relax (a : Node) : a.Grows a.relax := setOptional fun _ => rfl

theorem trans (h : a.Grows b) (h' : b.Grows c) : a.Grows c := by
  induction h generalizing c with
  | null o => exact .null (h'.isOptional o)
  | @scalar s t x y hs o =>
    cases h' with
    | scalar ht o' =>
      refine .scalar ?_ fun e => o' (o e)
      rcases hs with rfl | ⟨rfl, rfl⟩
      · exact ht
      · exact .inr ⟨rfl, ht.elim id And.right⟩
  | array _ o ih =>
    cases h' with
    | array h' o' => exact .array (ih h') fun e => o' (o e)
  | map n _ o ih =>
    cases h' with
    | map _ h' o' => exact .map n (ih h') fun e => o' (o e)
  | @object n ms ks x y hn _ added o ih =>
    cases h' with
    | @object _ _ ls _ _ hn' kept' added' o' =>
      refine .object n (hn.trans hn') (fun name a c ha hc => ?_) (fun name c ha hc => ?_)
        fun e => o' (o e)
      · obtain ⟨b, hb⟩ := mem_names_iff.1 (hn.mem (mem_names_of_get? ha))
        exact ih name a b ha hb (kept' name b c hb hc)
      · -- a member that came later was optional then, and a growth leaves it optional
        rcases hb : get? ks name with _ | b
        · exact added' name c hb hc
        · exact (kept' name b c hb hc).isOptional (added name b ha hb)

end Node.Grows

/-- A scalar that is joined with another one stays as it is, or an integer becomes a real. -/
theorem Scalar.join_cases {s t u : Scalar} (h : s.join? t = some u) :
    u = s ∨ s = .integer ∧ u = .real := by
  revert h
  cases s <;> cases t <;> cases u <;> decide

/-- A join is a growth of its left side. -/
theorem Joins.grows {p : Policy} {a b k : Node} (h : Joins p a b k) : a.Grows k := by
  have ho := fun e => h.isOptional_left e
  induction h with
  | nullRight a => exact .relax a
  | nullLeft b => exact .null (Node.isOptional_relax b)
  | scalar _ _ hu => exact .scalar (Scalar.join_cases hu) ho
  | array _ _ h ih => exact .array (ih h.isOptional_left) ho
  | map n _ _ h ih => exact .map n (ih h.isOptional_left) ho
  | settled => exact .setOptional fun e => by rw [e, Bool.true_or]
  | @object n ms ns ks x y hn both left right ih =>
    refine .object n (hn ▸ List.prefix_append _ _) (fun name a k ha hk => ?_)
      (fun name k ha hk => ?_) ho
    · rcases hb : get? ns name with _ | b
      · rw [left name a ha hb, Option.some.injEq] at hk
        exact hk ▸ .relax a
      · exact ih name a b k ha hb hk (both name a b k ha hb hk).isOptional_left
    · rcases member_cases hn left right hk with ⟨a, b, ha', -⟩ | ⟨a, ha', -, -⟩ | ⟨b, -, -, rfl⟩
      · rw [ha] at ha'
        cases ha'
      · rw [ha] at ha'
        cases ha'
      · exact Node.isOptional_relax b

end SchemaInference.Schema
