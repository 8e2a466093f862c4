/-
The references of a view. A view refers to just the objects that its root and its entries mention
(`View.refers_render_iff`), and all of them are defined, since the registry covers what stands in the
root and in the entries. Where nothing was dropped, each object that was declared stands in the root
as well, and a walk down to it passes only objects whose definitions mention the next one: so each
definition is met by following references from the root (`Run.Emitted.references`).
-/
import SchemaInference.View.Render
import SchemaInference.Proofs.Identifier.Sanitize
import SchemaInference.Proofs.Run.Unwarned

namespace SchemaInference

open Schema Traced

/-! ## Trees -/

namespace Tree

/-- The field of that name. -/
def field? (name : String) : Tree → Option Tree
  | .record fields => (fields.find? (·.1 = name)).map (·.2)
  | _ => none

/-- The names of the fields, in order. -/
def keys : Tree → List String
  | .record fields => fields.map (·.1)
  | _ => []

/-- At some depth of the tree a field `$ref` holds the text. -/
inductive Refers (s : String) : Tree → Prop
  | here {fields : List (String × Tree)} (h : ("$ref", .text s) ∈ fields) :
      Refers s (.record fields)
  | field {fields : List (String × Tree)} {f : String × Tree} (hf : f ∈ fields)
      (h : Refers s f.2) : Refers s (.record fields)
  | item {items : List Tree} {t : Tree} (ht : t ∈ items) (h : Refers s t) :
      Refers s (.list items)

/-- Following references from the root of the view leads to the definition of that name. -/
inductive Leads (view : Tree) : String → Prop
  | root {root : Tree} {key : String} (ht : view.field? "root" = some root)
      (h : root.Refers ("#/definitions/" ++ key)) : Leads view key
  | definition {defs t : Tree} {before key : String} (hb : Leads view before)
      (hd : view.field? "definitions" = some defs) (ht : defs.field? before = some t)
      (h : t.Refers ("#/definitions/" ++ key)) : Leads view key

section Refers

variable {s : String}

@[simp] theorem refers_record {fields : List (String × Tree)} :
    (Tree.record fields).Refers s ↔
      ("$ref", .text s) ∈ fields ∨ ∃ f ∈ fields, f.2.Refers s := by
  constructor
  · rintro (h | ⟨hf, h⟩ | _)
    · exact .inl h
    · exact .inr ⟨_, hf, h⟩
  · rintro (h | ⟨f, hf, h⟩)
    · exact .here h
    · exact .field hf h

@[simp] theorem refers_list {items : List Tree} :
    (Tree.list items).Refers s ↔ ∃ t ∈ items, t.Refers s := by
  constructor
  · rintro (_ | _ | ⟨ht, h⟩)
    exact ⟨_, ht, h⟩
  · rintro ⟨t, ht, h⟩
    exact .item ht h

@[simp] theorem not_refers_text {text : String} : ¬ (Tree.text text).Refers s := fun h => nomatch h

@[simp] theorem not_refers_boolean {b : Bool} : ¬ (Tree.boolean b).Refers s := fun h => nomatch h

end Refers

end Tree

/-! ## Mentioned objects -/

namespace Schema.Node

/-- An object of that name stands in the node with no other object around it. -/
inductive Mentions (name : Identifier) : Node → Prop
  | here (ms : Members) (o : Bool) : Mentions name (.object name ms o)
  | element {e : Node} (o : Bool) (h : Mentions name e) : Mentions name (.array e o)
  | value (n : Identifier) {v : Node} (o : Bool) (h : Mentions name v) :
      Mentions name (.map n v o)

namespace Mentions

variable {name n : Identifier} {a b : Node} {o : Bool}

@[simp] theorem not_null : ¬ Node.null.Mentions name := fun h => nomatch h

@[simp] theorem not_scalar {s : Scalar} : ¬ (Node.scalar s o).Mentions name := fun h => nomatch h

@[simp] theorem in_array_iff : (Node.array a o).Mentions name ↔ a.Mentions name :=
  ⟨fun | .element _ h => h, .element o⟩

@[simp] theorem in_map_iff : (Node.map n a o).Mentions name ↔ a.Mentions name :=
  ⟨fun | .value _ _ h => h, .value n o⟩

@[simp] theorem in_object_iff {ms : Members} : (Node.object n ms o).Mentions name ↔ name = n :=
  ⟨fun | .here .. => rfl, fun h => h ▸ .here ms o⟩

theorem isNull (h : a.Mentions name) : a.isNull = false := by cases h <;> rfl

/-- A node that absorbs another one mentions what that one does. -/
theorem of_absorbs (h : b.Mentions name) (habs : Absorbs .strict a b) : a.Mentions name := by
  induction h generalizing a with
  | here =>
    cases habs with
    | object => exact .here ..
    | settled hp => cases hp
  | element _ _ ih =>
    cases habs with
    | array habs _ => exact .element _ (ih habs)
    | settled hp => cases hp
  | value _ _ _ ih =>
    cases habs with
    | map habs _ => exact .value _ _ (ih habs)
    | settled hp => cases hp

/-- What a covered node mentions is an entry. -/
theorem mem_names {p : Policy} {r : Registry} (h : a.Mentions name) (hc : a.Covered p r) :
    name ∈ r.names := by
  induction h with
  | here =>
    cases hc with
    | object _ he _ _ => exact Registry.mem_names_iff.2 ⟨_, he⟩
  | element _ _ ih =>
    cases hc with
    | array _ hc => exact ih hc
  | value _ _ _ ih =>
    cases hc with
    | map _ _ hc => exact ih hc

end Mentions

end Schema.Node

/-! ## Views -/

namespace View

variable {s : String} {hideNullOnly : Bool} {i : Inferred}

@[simp] theorem refers_orNull {o : Bool} {t : Tree} : (orNull o t).Refers s ↔ t.Refers s := by
  cases o <;> simp [orNull, nullType, typed]

/-- A node is written as a record, whatever it is. -/
theorem node_ne_text (a : Node) : node a ≠ .text s := by
  cases a with
  | null => exact Tree.noConfusion
  | scalar t o => cases t <;> cases o <;> exact Tree.noConfusion
  | array e o => cases o <;> exact Tree.noConfusion
  | object n ms o => cases o <;> exact Tree.noConfusion
  | map n v o => cases o <;> exact Tree.noConfusion

theorem refers_node_iff {a : Node} :
    (node a).Refers s ↔ ∃ name, a.Mentions name ∧ "#/definitions/" ++ name.text = s := by
  induction a using Node.induction with
  | null => simp [node, nullType, typed]
  | scalar t o => cases t <;> simp [node, scalarType, typed]
  | array e o ih => simp [node, ih]
  | map n v o ih => simp [node, ih]
  | object n ms o => simp [node, reference, eq_comm]

/-- Members that are left out mention nothing. -/
theorem mem_shown_of_mentions {ms : Members} {m : Identifier × Node} {name : Identifier}
    (h : m.2.Mentions name) : m ∈ shown hideNullOnly ms ↔ m ∈ ms := by
  unfold shown
  rw [List.mem_filter, h.isNull, Bool.and_false]
  exact and_iff_left rfl

theorem refers_definition_iff {o : Object} :
    (definition hideNullOnly o).Refers s ↔
      ∃ m ∈ o.members, ∃ name, m.2.Mentions name ∧ "#/definitions/" ++ name.text = s := by
  simp only [definition, Tree.refers_record, Tree.refers_list, List.mem_cons, List.mem_map,
    List.not_mem_nil, or_false, Prod.mk.injEq, exists_eq_or_imp, exists_eq_left, node_ne_text,
    Tree.not_refers_text, refers_node_iff, reduceCtorEq, and_false, false_and, exists_false,
    false_or, exists_exists_and_eq_and, String.reduceEq]
  constructor
  · rintro ⟨m, hm, name, hname, rfl⟩
    exact ⟨m, (mem_shown_of_mentions hname).1 hm, name, hname, rfl⟩
  · rintro ⟨m, hm, name, hname, rfl⟩
    exact ⟨m, (mem_shown_of_mentions hname).2 hm, name, hname, rfl⟩

theorem definition_ne_text (o : Object) : definition hideNullOnly o ≠ .text s := Tree.noConfusion

/-- The references of a view are to what its root and its entries mention. -/
theorem refers_render_iff : (render hideNullOnly i).Refers s ↔
    ∃ name, (i.root.Mentions name ∨
      ∃ e ∈ i.registry.objects, ∃ m ∈ e.members, m.2.Mentions name) ∧
      "#/definitions/" ++ name.text = s := by
  simp only [render, features, Tree.refers_record, List.mem_cons, List.mem_map,
    List.not_mem_nil, or_false, Prod.mk.injEq, exists_eq_or_imp, exists_eq_left,
    definition_ne_text, Tree.not_refers_text, Tree.not_refers_boolean, refers_node_iff,
    refers_definition_iff, reduceCtorEq, and_false, false_and, exists_false,
    false_or, exists_exists_and_eq_and, String.reduceEq]
  constructor
  · rintro (⟨name, h, rfl⟩ | ⟨e, he, m, hm, name, h, rfl⟩)
    · exact ⟨name, .inl h, rfl⟩
    · exact ⟨name, .inr ⟨e, he, m, hm, h⟩, rfl⟩
  · rintro ⟨name, h | ⟨e, he, m, hm, h⟩, rfl⟩
    · exact .inl ⟨name, h, rfl⟩
    · exact .inr ⟨e, he, m, hm, name, h, rfl⟩

/-! ### From definition to definition -/

/-- The definitions, each under the name of its object. -/
def definitions (hideNullOnly : Bool) (r : Registry) : Tree :=
  .record (r.objects.map fun o => (o.name.text, definition hideNullOnly o))

theorem field?_definitions_render : (render hideNullOnly i).field? "definitions" =
    some (definitions hideNullOnly i.registry) := rfl

theorem definitions_eq {r : Registry} (hr : r.Keyed) : definitions hideNullOnly r =
    .record (r.entries.map fun e => (e.1.text, definition hideNullOnly e.2)) := by
  unfold definitions Registry.objects
  rw [List.map_map]
  refine congrArg Tree.record (List.map_congr_left fun e he => ?_)
  rw [Function.comp_apply, hr e he]

theorem keys_definitions {r : Registry} (hr : r.Keyed) :
    (definitions hideNullOnly r).keys = r.names.map (·.text) := by
  simp only [definitions_eq hr, Tree.keys, Registry.names, List.map_map]
  rfl

theorem field?_definitions {r : Registry} (hr : r.Keyed) (key : String) :
    (definitions hideNullOnly r).field? key = (r.find? ⟨key⟩).map (definition hideNullOnly) := by
  have hname : ∀ name : Identifier, decide (name.text = key) = decide (name = ⟨key⟩) :=
    fun name => by rw [decide_eq_decide, ← Identifier.text_injective.eq_iff]
  simp only [definitions_eq hr, Registry.find?, Tree.field?, List.find?_map, Function.comp_def,
    hname, Option.map_map]

theorem leads_root {name : Identifier} (h : i.root.Mentions name) :
    (render hideNullOnly i).Leads name.text :=
  .root rfl (refers_node_iff.2 ⟨name, h, rfl⟩)

theorem leads_member (hi : i.registry.Keyed) {before name : Identifier} {e : Object}
    (hb : (render hideNullOnly i).Leads before.text) (he : i.registry.find? before = some e)
    {m : Identifier × Node} (hm : m ∈ e.members) (h : m.2.Mentions name) :
    (render hideNullOnly i).Leads name.text := by
  have hd : (definitions hideNullOnly i.registry).field? before.text =
      some (definition hideNullOnly e) := by
    rw [field?_definitions hi, he, Option.map_some]
  exact .definition hb field?_definitions_render hd (refers_definition_iff.2 ⟨m, hm, name, h, rfl⟩)

/-- If the view leads to what a covered node mentions, it leads to every object in the node: each
object on the way down is absorbed by its entry, which then mentions the next one as well. -/
theorem leads_within (hi : i.registry.Keyed) {a : Node} (ha : a.Covered .strict i.registry)
    (hwf : a.WF) (hm : ∀ name, a.Mentions name → (render hideNullOnly i).Leads name.text) {name : Identifier}
    {ms : Members} {o : Bool} (h : (Node.object name ms o).Within a) :
    (render hideNullOnly i).Leads name.text := by
  induction h with
  | here => exact hm name (.here ms o)
  | element _ _ ih =>
    cases ha with
    | array _ ha => exact ih ha hwf.element fun name h => hm name (.element _ h)
  | value _ _ _ ih =>
    cases ha with
    | map _ _ ha => exact ih ha hwf.value fun name h => hm name (.value _ _ h)
  | @member n ms _ m hmem _ ih =>
    cases ha with
    | object _ he habs hms =>
      have hget := Members.get?_of_mem hwf.unique hmem
      obtain ⟨-, present, both, -⟩ := habs.of_object
      obtain ⟨b, hb⟩ := present _ _ hget
      refine ih (hms _ _ hget) (hwf.member hget) fun name h => ?_
      exact leads_member hi (hm n (.here ..)) he (Members.mem_of_get? hb)
        (h.of_absorbs (both _ _ _ hb hget))

end View

/-! ## Runs -/

namespace Run

variable {c : Settings} {vs : List Document.Value} {r : Run}

/-- Findings tell of objects by their names. -/
theorem tell_objects (name : Identifier) :
    Findings.Tell (fun w => ∃ o ∈ w.objects, o.name = name)
      fun a => ∃ ms o, a = .object name ms o where
  none := fun ⟨_, ho, _⟩ => nomatch ho
  append _ _ := fun ⟨o, ho, hn⟩ =>
    (Slot.mem_append_objects.1 ho).imp (fun ho => ⟨o, ho, hn⟩) fun ho => ⟨o, ho, hn⟩
  kind _ := fun ⟨_, ho, _⟩ => nomatch ho
  optional _ := fun ⟨_, ho, _⟩ => nomatch ho
  object o := by
    rintro ⟨o', ho, rfl⟩
    obtain rfl := List.mem_singleton.1 ho
    exact ⟨_, _, rfl⟩
  absorbs a b habs := by
    rintro ⟨ms, o, rfl⟩
    cases habs with
    | object => exact ⟨_, _, rfl⟩
    | settled hp => cases hp

/-- What the view refers to is an entry. -/
theorem Outcome.mem_names_of_refers {ns : List Node} {w : Findings} (h : Outcome c vs r ns w)
    {hideNullOnly : Bool} {s : String} (hs : (View.render hideNullOnly r.finish).Refers s) :
    ∃ name ∈ r.finish.registry.names, "#/definitions/" ++ name.text = s := by
  obtain ⟨name, hm, rfl⟩ := View.refers_render_iff.1 hs
  refine ⟨name, ?_, rfl⟩
  rcases hm with hm | ⟨e, he, m, hmem, hm⟩
  · have hroot : (r.root.getD .null).Covered c.policy r.gathered.registry := by
      rcases hroot : r.root with _ | root
      · exact .null
      · exact (h.covered_root root hroot).2
    exact hm.mem_names hroot
  · have hget := Members.get?_of_mem (h.registry_wf.nodes e he).unique hmem
    have hcov := h.covered_entry he
    unfold Object.node at hcov
    cases hcov with
    | object _ _ _ hms => exact hm.mem_names (hms _ _ hget)

/-- Without a warning, the view leads to every entry: each was declared in a document, so that an
object of its name stands in the root. -/
theorem Emitted.leads {es : List Event} (h : Emitted c vs es r)
    (hq : c.policy = .strict ∨ Quiet es) (hideNullOnly : Bool) {name : Identifier}
    (hname : name ∈ r.finish.registry.names) :
    (View.render hideNullOnly r.finish).Leads name.text := by
  obtain ⟨ns, w, hs⟩ := h.exists_strict hq
  obtain ⟨root, a, hr, ha, ms, o, rfl⟩ :=
    hs.stands (tell_objects name) rfl (hs.mem_names_iff.1 hname)
  obtain ⟨hwf, hcov⟩ : root.WF ∧ root.Covered .strict r.finish.registry := hs.covered_root root hr
  have hroot : r.finish.root = root := by
    show r.root.getD .null = root
    rw [show r.root = some root from hr, Option.getD_some]
  refine View.leads_within hs.registry_wf.keyed hcov hwf (fun name hm => View.leads_root ?_) ha
  rw [hroot]
  exact hm

/-- The definitions are the entries of the registry, in their order, and all references are to them;
and after a run without a warning each of them is met by following references from the root. -/
theorem Emitted.references {es : List Event} (h : Emitted c vs es r) (hideNullOnly : Bool) :
    let view := View.render hideNullOnly r.finish
    ∃ defs, view.field? "definitions" = some defs ∧
      defs.keys = r.finish.registry.names.map (·.text) ∧ defs.keys.Nodup ∧
      (∀ s, view.Refers s → ∃ key ∈ defs.keys, s = "#/definitions/" ++ key) ∧
      (c.policy = .strict ∨ Quiet es → ∀ key ∈ defs.keys, view.Leads key) := by
  intro view
  obtain ⟨ns, w, ho⟩ := h.observed.exists_outcome
  have hkeys : (View.definitions hideNullOnly r.finish.registry).keys =
      r.finish.registry.names.map (·.text) := View.keys_definitions ho.registry_wf.keyed
  refine ⟨_, View.field?_definitions_render, hkeys, ?_, ?_, ?_⟩
  · rw [hkeys, ← Registry.names_slots]
    exact ho.registry_wf.unique.map Identifier.text_injective
  · intro s hs
    obtain ⟨name, hname, rfl⟩ := ho.mem_names_of_refers hs
    refine ⟨name.text, ?_, rfl⟩
    rw [hkeys]
    exact List.mem_map_of_mem hname
  · intro hq key hkey
    rw [hkeys] at hkey
    obtain ⟨name, hname, rfl⟩ := List.mem_map.1 hkey
    exact h.leads hq hideNullOnly hname

/-- An object in an array, in a member that is null elsewhere, and one in an object of its own name. -/
theorem Emitted.references_nested :
    ∃ es r defs, Emitted .default [.object [("a", .null)], .object [("a", .array [.object [("b",
        .object [("b", .object [])])]])]] es r ∧
      (View.render true r.finish).field? "definitions" = some defs ∧
      defs.keys = ["root_object_t", "b_t", "a_element_t"] ∧
      ∀ key ∈ defs.keys, (View.render true r.finish).Leads key := by
  let first : Document.Value := .object [("a", .null)]
  let second : Document.Value := .object [("a", .array [.object [("b",
    .object [("b", .object [])])]])]
  let run := (Run.start .default).observe first
  have hrun : run.value?.isSome = true := by decide +kernel
  obtain ⟨r₁, h₁⟩ := Option.isSome_iff_exists.1 hrun
  -- no run over the second document has anything to warn of, and the registry has three entries
  have hrun' : (run.value?.bind fun r => (r.observe second).value?).map
      (fun r => r.finish.registry.names) = some [⟨"root_object_t"⟩, ⟨"b_t"⟩, ⟨"a_element_t"⟩] := by
    decide +kernel
  have hquiet : Quiet run.events ∧ ∀ r ∈ run.value?, Quiet (r.observe second).events := by
    unfold Quiet
    decide +kernel
  rw [h₁, Option.bind_some] at hrun'
  obtain ⟨r, hr, hnames⟩ := Option.map_eq_some_iff.1 hrun'
  have h : Emitted .default [first, second] (run.events ++ (r₁.observe second).events) r :=
    (Emitted.start.observe (value?_eq_some.1 h₁)).observe (value?_eq_some.1 hr)
  obtain ⟨defs, hdefs, hkeys, -, -, hleads⟩ := h.references true
  refine ⟨_, r, defs, h, hdefs, ?_, hleads (.inr (hquiet.1.append (hquiet.2 r₁ h₁)))⟩
  rw [hkeys, hnames]
  rfl

end Run

end SchemaInference
