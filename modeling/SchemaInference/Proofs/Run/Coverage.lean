/-
The registry subsumes every embedded object. A declared object is absorbed by the entry that gathers
the objects of its name; what an entry absorbs is closed under joins and under making nodes optional
(`Covered.joins`), so no object in the root or in an entry, at any depth, adds anything to the entry
of its name (`Reached.merge_eq_self`).
-/
import SchemaInference.Proofs.Run.Documents

namespace SchemaInference

open Schema

/-! ## Objects inside a node -/

namespace Schema.Node

/-- The node `a` stands somewhere in another node, at any depth. -/
inductive Within (a : Node) : Node → Prop
  | here : Within a a
  | element {e : Node} (o : Bool) (h : Within a e) : Within a (.array e o)
  | member (n : Identifier) {ms : Members} (o : Bool) {m : Identifier × Node} (hm : m ∈ ms)
      (h : Within a m.2) : Within a (.object n ms o)
  | value (n : Identifier) {v : Node} (o : Bool) (h : Within a v) : Within a (.map n v o)

/-- Every object in the node, at any depth, is absorbed by the entry of its name. -/
inductive Covered (p : Policy) (r : Registry) : Node → Prop
  | null : Covered p r .null
  | scalar (s : Scalar) (o : Bool) : Covered p r (.scalar s o)
  | array {e : Node} (o : Bool) (h : Covered p r e) : Covered p r (.array e o)
  | object {n : Identifier} {ms : Members} {e : Object} (o : Bool) (he : r.find? n = some e)
      (h : Absorbs p e.node (.object n ms false))
      (members : ∀ name b, ms.get? name = some b → Covered p r b) :
      Covered p r (.object n ms o)
  | map (n : Identifier) {v : Node} (o : Bool) (h : Covered p r v) : Covered p r (.map n v o)

namespace Covered

variable {p : Policy} {r : Registry} {a b k : Node}

theorem setOptional (h : Covered p r a) (o : Bool) : Covered p r (a.setOptional o) := by
  cases h with
  | null => exact .null
  | scalar => exact .scalar ..
  | array _ h => exact .array _ h
  | object _ ha h hms => exact .object _ ha h hms
  | map _ _ h => exact .map _ _ h

/-- A join of covered nodes is covered: the entry that absorbs both sides absorbs the join. -/
theorem joins (ha : Covered p r a) (hb : Covered p r b) (h : Joins p a b k) :
    Covered p r k := by
  induction h with
  | nullRight a => exact ha.setOptional true
  | nullLeft b => exact hb.setOptional true
  | settled => exact ha.setOptional _
  | scalar => exact .scalar ..
  | array x y _ ih =>
    cases ha with
    | array _ ha =>
      cases hb with
      | array _ hb => exact .array _ (ih ha hb)
  | map n x y _ ih =>
    cases ha with
    | map _ _ ha =>
      cases hb with
      | map _ _ hb => exact .map n _ (ih ha hb)
  | @object n ms ns ks x y hn both left right ih =>
    obtain _ | _ | _ | ⟨_, hea, hma, hms⟩ := ha
    obtain _ | _ | _ | ⟨_, heb, hmb, hns⟩ := hb
    rw [hea, Option.some.injEq] at heb
    subst heb
    refine .object _ hea (hma.of_both hmb (.object n false false hn both left right)) ?_
    intro name k hk
    -- a member of the join is a join of covered members, or one of them made optional
    rcases Joins.member_cases hn left right hk with
      ⟨a, b, ha, hb⟩ | ⟨a, ha, -, rfl⟩ | ⟨b, -, hb, rfl⟩
    · exact ih name a b k ha hb hk (hms name a ha) (hns name b hb)
    · exact (hms name a ha).setOptional true
    · exact (hns name b hb).setOptional true

/-- In a covered node, an object at any depth is covered. -/
theorem within (h : Covered p r b) (hb : b.WF) (ha : a.Within b) :
    Covered p r a ∧ a.WF := by
  induction ha with
  | here => exact ⟨h, hb⟩
  | element _ _ ih =>
    cases h with
    | array _ h => exact ih h hb.element
  | member _ _ hm _ ih =>
    cases h with
    | object _ _ _ hms =>
      have hget := Members.get?_of_mem hb.unique hm
      exact ih (hms _ _ hget) (hb.member hget)
  | value _ _ _ ih =>
    cases h with
    | map _ _ h => exact ih h hb.value

end Covered

end Schema.Node

/-! ## Entries that absorb -/

/-- An object that an entry absorbs changes nothing when it is merged into the entry. -/
theorem Registry.merge_of_absorbs {p : Policy} {e o : Object} (he : e.node.WF) (ho : o.node.WF)
    (hr : e.optional = false) (h : Absorbs p e.node (.object o.name o.members false)) :
    (e.merge p o).outcome = .ok e := by
  have hu := (value?_unify he (ho.setOptional false)).2 h.joins
  obtain ⟨n, ms, x⟩ := e
  obtain ⟨m, ns, y⟩ := o
  obtain rfl : x = false := hr
  obtain rfl : n = m := h.of_object.1
  -- merging is what the joining of two objects does with their members
  have hu : (unify p (.object n ms false) (.object n ns false)).value? =
      some (.object n ms false) := hu
  rw [Registry.value?_unify_object] at hu
  obtain ⟨ks, hks, e⟩ := Option.map_eq_some_iff.1 hu
  simp only [Node.object.injEq] at e
  obtain ⟨-, rfl, -⟩ := e
  apply Traced.value?_eq_some.1
  rw [Object.value?_merge]
  exact Option.map_eq_some_iff.2 ⟨ks, hks, rfl⟩

/-- Where an object that is declared is absorbed by its entry, what is covered is kept. -/
theorem kept_covered (p : Policy) (r : Registry) : Slot.Kept p (Node.Covered p r) fun o =>
    ∃ e, r.find? o.name = some e ∧ Absorbs p e.node (.object o.name o.members false) where
  null := .null
  scalar s := .scalar s false
  array _ h := .array false h
  map hint _ h := .map hint false h
  object := fun o ⟨_, he, h⟩ hms => .object o.optional he h hms
  joins _ _ _ := .joins

namespace Run

namespace Outcome

variable {c : Settings} {vs : List Document.Value} {r : Run} {ns : List Node} {w : Findings}

/-- What the documents show is covered by the registry: the nodes, and the objects they declare. -/
theorem covered_shown (h : Outcome c vs r ns w) :
    (∀ n ∈ ns, n.Covered c.policy r.gathered.registry) ∧
      ∀ o ∈ w.objects, o.node.Covered c.policy r.gathered.registry := by
  refine Slot.collect?_forall h.shown (fun o ho => h.absorbs_declared ho) fun v _ n w' hv hq => ?_
  obtain ⟨hn, ho⟩ := Slot.shown?_known (kept_covered c.policy r.gathered.registry) hv hq
  exact ⟨hn.2, fun o hm => (ho o hm).2.1⟩

theorem covered_root (h : Outcome c vs r ns w) :
    Known (Node.Covered c.policy r.gathered.registry) r.root :=
  h.root_known (fun _ _ _ => .joins) h.covered_shown.1

theorem covered_entry (h : Outcome c vs r ns w) {e : Object}
    (he : e ∈ r.gathered.registry.objects) :
    e.node.Covered c.policy r.gathered.registry :=
  h.entry_known (fun _ _ _ => .joins) h.covered_shown.2 he

end Outcome

/-- However many documents were observed, and under either policy: an object that stands anywhere in
the root or in an entry of the registry has an entry of its name, and merging it into that entry
succeeds and leaves the entry as it is. -/
theorem Reached.merge_eq_self {c : Settings} {r : Run} (h : Reached c r) {tree : Node}
    (ht : tree = r.finish.root ∨ ∃ e ∈ r.finish.registry.objects, tree = e.node) {o : Object}
    (ho : o.node.Within tree) :
    ∃ e, r.finish.registry.find? o.name = some e ∧ (e.merge c.policy o).outcome = .ok e := by
  obtain ⟨vs, hvs⟩ := h.observed
  obtain ⟨ns, w, h⟩ := outcome_iff.1 hvs
  have htree : tree.WF ∧ tree.Covered c.policy r.gathered.registry := by
    rcases ht with rfl | ⟨e, he, rfl⟩
    · show (r.root.getD .null).WF ∧ (r.root.getD .null).Covered c.policy _
      rcases hroot : r.root with _ | root
      · exact ⟨.null, .null⟩
      · exact h.covered_root root hroot
    · exact ⟨h.registry_wf.nodes e he, h.covered_entry he⟩
  obtain ⟨hcov, hwf⟩ := htree.2.within htree.1 ho
  obtain ⟨e, he, habs⟩ : ∃ e, r.gathered.registry.find? o.name = some e ∧
      Absorbs c.policy e.node (.object o.name o.members false) := by
    unfold Object.node at hcov
    cases hcov with
    | object _ he h _ => exact ⟨_, he, h⟩
  have hmem := Registry.mem_of_find? he
  exact ⟨e, he, Registry.merge_of_absorbs (h.registry_wf.nodes e hmem) hwf
    (h.registry_wf.required e hmem) habs⟩

/-- Below `root.b` an object `a_t` has a string where the entry of that name keeps the integer that
came first. -/
theorem Reached.merge_eq_self_after_clash :
    ∃ r e, Reached .default r ∧
      Node.Within (.object ⟨"a_t"⟩ [(⟨"x"⟩, .scalar .string false)] false) r.finish.root ∧
      r.finish.registry.find? ⟨"a_t"⟩ = some e ∧
      e.members = [(⟨"x"⟩, .scalar .integer false)] ∧
      (e.merge .preferFirst ⟨⟨"a_t"⟩, [(⟨"x"⟩, .scalar .string false)], false⟩).outcome = .ok e := by
  let run := (Run.start .default).observe (.object [("a", .object [("x", .integer "1")]),
    ("b", .array [.object [("a", .object [("x", .string "s")])]])])
  have hroot : run.value?.map (·.finish.root) = some (.object ⟨"root_object_t"⟩
      [(⟨"a"⟩, .object ⟨"a_t"⟩ [(⟨"x"⟩, .scalar .integer false)] false),
        (⟨"b"⟩, .array (.object ⟨"b_element_t"⟩
          [(⟨"a"⟩, .object ⟨"a_t"⟩ [(⟨"x"⟩, .scalar .string false)] false)] false) false)]
        false) := by
    decide +kernel
  have hentry : (run.value?.bind fun r => r.finish.registry.find? ⟨"a_t"⟩).map (·.members) =
      some [(⟨"x"⟩, .scalar .integer false)] := by decide +kernel
  obtain ⟨r, hr, hroot⟩ := Option.map_eq_some_iff.1 hroot
  rw [hr, Option.bind_some] at hentry
  have hreached : Reached .default r := .observe .start (Traced.value?_eq_some.1 hr)
  have hwithin : Node.Within (.object ⟨"a_t"⟩ [(⟨"x"⟩, .scalar .string false)] false)
      r.finish.root := by
    rw [hroot]
    exact .member _ _ (List.mem_cons_of_mem _ (List.mem_singleton.2 rfl))
      (.element _ (.member _ _ (List.mem_singleton.2 rfl) .here))
  obtain ⟨e, he, hmerge⟩ := Reached.merge_eq_self hreached (.inl rfl)
    (o := ⟨⟨"a_t"⟩, [(⟨"x"⟩, .scalar .string false)], false⟩) hwithin
  refine ⟨r, e, hreached, hwithin, he, ?_, hmerge⟩
  rw [he] at hentry
  exact Option.some.inj hentry

end Run

end SchemaInference
