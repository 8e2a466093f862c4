/-
The strict rules as an order. Where every clash is a fault, absorbing is transitive, nodes that
absorb each other differ in the order of members only (`Node.Alike`), and two nodes have a join just
where some node absorbs both. A join is then the least of the nodes that absorb both sides, so what
several observations come to cannot depend on their order.
-/
import SchemaInference.Proofs.Schema.Absorbs
import Mathlib.Data.List.Nodup
import Mathlib.Data.List.Perm.Basic

namespace SchemaInference.Schema

open Members

/-! ## Transitivity -/

theorem Absorbs.trans {a b c : Node} (h : Absorbs .strict a b) (h' : Absorbs .strict b c) :
    Absorbs .strict a c := by
  induction h generalizing c with
  | null h =>
    cases h' with
    | null => exact .null h
    | settled hp => cases hp
  | @scalar s t x y hs o =>
    cases h' with
    | null h => exact .null (o h)
    | @scalar _ u _ _ ht o' =>
      exact .scalar (Scalar.join_trans hs ht) fun e => o (o' e)
    | settled hp => cases hp
  | array _ o ih =>
    cases h' with
    | null h => exact .null (o h)
    | array h' o' => exact .array (ih h') fun e => o (o' e)
    | settled hp => cases hp
  | map _ o ih =>
    cases h' with
    | null h => exact .null (o h)
    | map h' o' => exact .map (ih h') fun e => o (o' e)
    | settled hp => cases hp
  | settled hp => cases hp
  | @object n ms ns x y present both absent o ih =>
    cases h' with
    | null h => exact .null (o h)
    | settled hp => cases hp
    | @object _ _ cs _ z present' both' absent' o' =>
      refine .object (fun name c hc => ?_) (fun name a c ha hc => ?_) (fun name a ha hc => ?_)
        fun e => o (o' e)
      · obtain ⟨b, hb⟩ := present' name c hc
        exact present name b hb
      · obtain ⟨b, hb⟩ := present' name c hc
        exact ih name a b ha hb (both' name b c hb hc)
      · rcases hb : get? ns name with _ | b
        · exact absent name a ha hb
        · exact (both name a b ha hb).isOptional (absent' name b hb hc)

/-! ## Joins of nodes with a bound -/

theorem exists_taken {J : Node → Node → Node → Prop} {ms ns : Members} (hms : Unique ms)
    (hns : Unique ns)
    (hJ : ∀ name a b, get? ms name = some a → get? ns name = some b → ∃ k, J a b k) :
    ∃ ks, Taken J ms ns ks := by
  induction ns generalizing ms with
  | nil => exact ⟨ms, (taken_nil hms).2 rfl⟩
  | cons m ns ih =>
    obtain ⟨name, b⟩ := m
    obtain ⟨hn, hns⟩ := unique_cons.1 hns
    have hcons : get? ((name, b) :: ns) name = some b := by rw [get?_cons, if_pos rfl]
    obtain ⟨k, hk⟩ : ∃ k, Takes J (get? ms name) (some b) (some k) := by
      rcases ha : get? ms name with _ | a
      · exact ⟨_, .fresh b⟩
      · obtain ⟨k, hk⟩ := hJ name a b ha hcons
        exact ⟨k, .joined hk⟩
    obtain ⟨ks, hks⟩ := ih (unique_put hms name k) hns fun other a c ha hc => by
      obtain ⟨ha, hc⟩ := get?_of_put b hn ha hc
      exact hJ other a c ha hc
    exact ⟨ks, (taken_cons hn).2 ⟨k, hk, hks⟩⟩

theorem exists_merged {J : Node → Node → Node → Prop} {ms ns : Members} (hms : Unique ms)
    (hns : Unique ns)
    (hJ : ∀ name a b, get? ms name = some a → get? ns name = some b → ∃ k, J a b k) :
    ∃ ks, Merged J ms ns ks := by
  obtain ⟨ks, hks⟩ := exists_taken (unique_relaxMissing hms ns) hns fun name a b ha hb => by
    rw [get?_relaxMissing_of_get? ms hb] at ha
    exact hJ name a b ha hb
  exact ⟨ks, taken_relaxMissing.1 hks⟩

/-- Two nodes that one node absorbs have a join. -/
theorem exists_joins {a b d : Node} (ha : a.WF) (hb : b.WF) (hda : Absorbs .strict d a)
    (hdb : Absorbs .strict d b) : ∃ k, Joins .strict a b k := by
  induction hda generalizing b with
  | null => exact ⟨_, .nullLeft b⟩
  | settled hp => cases hp
  | @scalar s t x y hs =>
    cases hdb with
    | null => exact ⟨_, .nullRight _⟩
    | settled hp => cases hp
    | @scalar _ u _ z hu =>
      obtain ⟨v, hv⟩ := Option.isSome_iff_exists.1 (Scalar.join_of_bound hs hu)
      exact ⟨_, .scalar y z hv⟩
  | @array e f x y _ _ ih =>
    cases hdb with
    | null => exact ⟨_, .nullRight _⟩
    | settled hp => cases hp
    | @array _ f' _ z h =>
      obtain ⟨k, hk⟩ := ih ha.element hb.element h
      exact ⟨_, .array y z hk⟩
  | @map n v w x y _ _ ih =>
    cases hdb with
    | null => exact ⟨_, .nullRight _⟩
    | settled hp => cases hp
    | @map _ _ w' _ z h =>
      obtain ⟨k, hk⟩ := ih ha.value hb.value h
      exact ⟨_, .map n y z hk⟩
  | @object n ms ns x y present _ _ _ ih =>
    cases hdb with
    | null => exact ⟨_, .nullRight _⟩
    | settled hp => cases hp
    | @object _ _ cs _ z _ both' _ _ =>
      obtain ⟨ks, hks⟩ := exists_merged (J := Joins .strict) ha.unique hb.unique
        fun name b c hb' hc => by
          obtain ⟨d, hd⟩ := present name b hb'
          exact ih name d b hd hb' (ha.member hb') (hb.member hc) (both' name d c hd hc)
      exact ⟨_, joins_object.2 ⟨rfl, ks, hks, rfl⟩⟩

/-! ## Equality up to the order of members -/

/-- The same node, but for the order of members at any level. -/
inductive Node.Alike : Node → Node → Prop
  | null : Alike .null .null
  | scalar (s : Scalar) (o : Bool) : Alike (.scalar s o) (.scalar s o)
  | array {e f : Node} (o : Bool) (h : Alike e f) : Alike (.array e o) (.array f o)
  | object (n : Identifier) {ms ns : Members} (o : Bool) (names : (names ms).Perm (names ns))
      (both : ∀ name a b, get? ms name = some a → get? ns name = some b → Alike a b) :
      Alike (.object n ms o) (.object n ns o)
  | map (n : Identifier) {v w : Node} (o : Bool) (h : Alike v w) :
      Alike (.map n v o) (.map n w o)

namespace Node.Alike

variable {a b c : Node}

theorem symm (h : Node.Alike a b) : Node.Alike b a := by
  induction h with
  | null => exact .null
  | scalar s o => exact .scalar s o
  | array o _ ih => exact .array o ih
  | map n o _ ih => exact .map n o ih
  | object n o hn _ ih => exact .object n o hn.symm fun name a b ha hb => ih name b a hb ha

theorem refl (a : Node) : Node.Alike a a := by
  induction a using Node.induction with
  | null => exact .null
  | scalar s o => exact .scalar s o
  | array e o ih => exact .array o ih
  | map n v o ih => exact .map n o ih
  | object n ms o ih =>
    refine .object n o (List.Perm.refl _) fun name a b ha hb => ?_
    rw [ha, Option.some.injEq] at hb
    exact hb ▸ ih _ (mem_of_get? ha)

theorem trans (h : Node.Alike a b) (h' : Node.Alike b c) : Node.Alike a c := by
  induction h generalizing c with
  | null => exact h'
  | scalar => exact h'
  | array o _ ih =>
    cases h' with
    | array _ h' => exact .array o (ih h')
  | map n o _ ih =>
    cases h' with
    | map _ _ h' => exact .map n o (ih h')
  | object n o hn _ ih =>
    cases h' with
    | object _ _ hn' both' =>
      refine .object n o (hn.trans hn') fun name a c ha hc => ?_
      obtain ⟨b, hb⟩ := mem_names_iff.1 (hn.mem_iff.1 (mem_names_of_get? ha))
      exact ih name a b ha hb (both' name b c hb hc)

theorem isOptional (h : Node.Alike a b) : a.isOptional = b.isOptional := by
  cases h <;> rfl

theorem absorbs {p : Policy} (h : Node.Alike a b) : Absorbs p a b := by
  induction h with
  | null => exact .null rfl
  | scalar s o => exact .refl _
  | array o _ ih => exact .array ih id
  | map n o _ ih => exact .map ih id
  | object n o hn _ ih =>
    refine .object (fun name b hb => ?_) ih (fun name a ha hb => ?_) id
    · exact mem_names_iff.1 (hn.mem_iff.2 (mem_names_of_get? hb))
    · exact absurd (hn.mem_iff.1 (mem_names_of_get? ha)) (get?_eq_none_iff.1 hb)

/-- Nodes that absorb each other are alike. -/
theorem of_absorbs (ha : a.WF) (hb : b.WF) (h : Absorbs .strict a b) (h' : Absorbs .strict b a) :
    Node.Alike a b := by
  induction h with
  | null h =>
    cases h' with
    | null => exact .null
    | settled hp => cases hp
  | settled hp => cases hp
  | @scalar s t x y hs o =>
    cases h' with
    | settled hp => cases hp
    | scalar ht o' =>
      have hst : s = t := Scalar.join_antisymm hs ht
      have hxy : x = y := Bool.eq_iff_iff.2 ⟨o', o⟩
      exact hst ▸ hxy ▸ .scalar s x
  | array _ o ih =>
    cases h' with
    | settled hp => cases hp
    | array h' o' => exact Bool.eq_iff_iff.2 ⟨o', o⟩ ▸ .array _ (ih ha.element hb.element h')
  | map _ o ih =>
    cases h' with
    | settled hp => cases hp
    | map h' o' => exact Bool.eq_iff_iff.2 ⟨o', o⟩ ▸ .map _ _ (ih ha.value hb.value h')
  | @object n ms ns x y present _ _ o ih =>
    cases h' with
    | settled hp => cases hp
    | object present' both' _ o' =>
      have hn : (names ms).Perm (names ns) :=
        (List.perm_ext_iff_of_nodup ha.unique hb.unique).2 fun name => by
          show name ∈ names ms ↔ name ∈ names ns
          rw [mem_names_iff, mem_names_iff]
          exact ⟨fun ⟨a, h⟩ => present' name a h, fun ⟨b, h⟩ => present name b h⟩
      have hxy : x = y := Bool.eq_iff_iff.2 ⟨o', o⟩
      subst hxy
      exact .object n x hn fun name a b ha' hb' =>
        ih name a b ha' hb' (ha.member ha') (hb.member hb') (both' name b a hb' ha')

end Node.Alike

end SchemaInference.Schema
