/-
What the order of documents cannot decide about a view. In the definitions the names of the
properties hang only on which names an entry knows and, where members that are null are left out,
under which of them a value is known; and a property is required just where the entry cannot do
without it (`View.hasProperty_render_iff`, `View.requires_render_iff`). So under the lenient policy
and without map paths, runs over documents that differ in order only come to views that agree in this,
to the same features and to registries that agree (`Run.observeAll_agree`).
-/
import SchemaInference.Proofs.Run.Gaps
import SchemaInference.Proofs.View.References

namespace SchemaInference

open Schema Document

/-! ## Trees -/

namespace Tree

/-- The definition in the view under that key. -/
def definition? (view : Tree) (key : String) : Option Tree :=
  (view.field? "definitions").bind (·.field? key)

/-- The definition under that key has a property of that name. -/
def HasProperty (view : Tree) (key name : String) : Prop :=
  ∃ d, view.definition? key = some d ∧
    ∃ props, d.field? "properties" = some props ∧ name ∈ props.keys

/-- The definition under that key lists the name among the required ones. -/
def Requires (view : Tree) (key name : String) : Prop :=
  ∃ d, view.definition? key = some d ∧
    ∃ names, d.field? "required" = some (.list names) ∧ .text name ∈ names

/-- The same definitions, the same names of properties in each, and the same ones required. -/
structure Agree (view view' : Tree) : Prop where
  definitions : ∀ key, (∃ d, view.definition? key = some d) ↔ ∃ d, view'.definition? key = some d
  properties : ∀ key name, view.HasProperty key name ↔ view'.HasProperty key name
  required : ∀ key name, view.Requires key name ↔ view'.Requires key name

end Tree

/-! ## Views -/

namespace View

variable {hideNullOnly : Bool} {i i' : Inferred} {key name : String}

theorem mem_names_shown {ms : Members} (hu : ms.Unique) {name : Identifier} :
    name ∈ (shown hideNullOnly ms).names ↔
      name ∈ ms.names ∧ (hideNullOnly = true → ms.Knows name) := by
  have hnull : ∀ a : Node, a.isNull = false ↔ a ≠ .null := fun a => by cases a <;> simp [Node.isNull]
  simp only [Members.names, shown, List.mem_map, List.mem_filter, Bool.not_eq_true']
  constructor
  · rintro ⟨m, ⟨hm, hs⟩, rfl⟩
    refine ⟨⟨m, hm, rfl⟩, fun h => ⟨m.2, Members.get?_of_mem hu hm, ?_⟩⟩
    rwa [h, Bool.true_and, hnull] at hs
  · rintro ⟨⟨m, hm, rfl⟩, hknows⟩
    refine ⟨m, ⟨hm, ?_⟩, rfl⟩
    cases hideNullOnly with
    | false => rfl
    | true =>
      obtain ⟨a, ha, hne⟩ := hknows rfl
      rw [Members.get?_of_mem hu hm, Option.some.injEq] at ha
      rw [Bool.true_and, hnull, ha]
      exact hne

/-- What is left out is optional anyway. -/
theorem required_shown (hideNullOnly : Bool) (ms : Members) :
    Members.required (shown hideNullOnly ms) = Members.required ms := by
  unfold Members.required shown
  rw [List.filter_filter]
  refine congrArg _ (List.filter_congr fun m _ => ?_)
  cases m.2 <;> simp [Node.isOptional, Node.isNull]

theorem definition?_render (hi : i.registry.Keyed) : (render hideNullOnly i).definition? key =
    (i.registry.find? ⟨key⟩).map (definition hideNullOnly) := by
  rw [Tree.definition?, field?_definitions_render, Option.bind_some, field?_definitions hi]

/-- What a definition in the view says, it says of an entry. -/
theorem exists_definition_iff (hi : i.registry.Keyed) {P : Tree → Prop} :
    (∃ d, (render hideNullOnly i).definition? key = some d ∧ P d) ↔
      ∃ e, i.registry.find? ⟨key⟩ = some e ∧ P (definition hideNullOnly e) := by
  rw [definition?_render hi]
  simp

theorem keys_properties (ms : Members) (f : Node → Tree) :
    (Tree.record (ms.map fun m => (m.1.text, f m.2))).keys = ms.names.map Identifier.text := by
  simp only [Tree.keys, Members.names, List.map_map]
  rfl

theorem mem_keys_properties {ms : Members} {f : Node → Tree} :
    name ∈ (Tree.record (ms.map fun m => (m.1.text, f m.2))).keys ↔ ⟨name⟩ ∈ ms.names := by
  rw [keys_properties]
  exact List.mem_map_of_injective Identifier.text_injective (a := ⟨name⟩)

theorem hasProperty_render_iff (hi : i.registry.WF) :
    (render hideNullOnly i).HasProperty key name ↔ ∃ e, i.registry.find? ⟨key⟩ = some e ∧
      ⟨name⟩ ∈ e.members.names ∧ (hideNullOnly = true → e.members.Knows ⟨name⟩) := by
  unfold Tree.HasProperty
  rw [exists_definition_iff hi.keyed]
  refine exists_congr fun e => and_congr_right fun he => ?_
  have hu := (hi.nodes e (Registry.mem_of_find? he)).unique
  rw [← mem_names_shown hu, ← mem_keys_properties (f := node)]
  constructor
  · rintro ⟨_, ⟨⟩, hname⟩
    exact hname
  · intro hname
    exact ⟨_, rfl, hname⟩

theorem requires_render_iff (hi : i.registry.WF) :
    (render hideNullOnly i).Requires key name ↔ ∃ e, i.registry.find? ⟨key⟩ = some e ∧
      ¬ e.members.MayLack ⟨name⟩ := by
  unfold Tree.Requires
  rw [exists_definition_iff hi.keyed]
  refine exists_congr fun e => and_congr_right fun he => ?_
  have hu := (hi.nodes e (Registry.mem_of_find? he)).unique
  -- the listed names are written as texts
  rw [← Members.mem_required_iff hu, ← required_shown hideNullOnly]
  constructor
  · rintro ⟨_, ⟨⟩, hname⟩
    obtain ⟨other, hother, e⟩ := List.mem_map.1 hname
    cases e
    exact hother
  · intro hname
    exact ⟨_, rfl, List.mem_map.2 ⟨_, hname, rfl⟩⟩

/-- Where the registries agree, the views do. -/
theorem agree_render (hi : i.registry.WF) (hi' : i'.registry.WF)
    (h : i.registry.Agree i'.registry) (hideNullOnly : Bool) :
    (render hideNullOnly i).Agree (render hideNullOnly i') where
  definitions key := by
    have hkey : ∀ i : Inferred, i.registry.Keyed →
        ((∃ d, (render hideNullOnly i).definition? key = some d) ↔ ⟨key⟩ ∈ i.registry.names) :=
      fun i hi => by
        rw [definition?_render hi, Registry.mem_names_iff]
        simp
    rw [hkey i hi.keyed, hkey i' hi'.keyed, h.names]
  properties key name := by
    have hmembers : ∀ ms ns : Members, ms.Agree ns →
        (⟨name⟩ ∈ ms.names ∧ (hideNullOnly = true → ms.Knows ⟨name⟩) ↔
          ⟨name⟩ ∈ ns.names ∧ (hideNullOnly = true → ns.Knows ⟨name⟩)) := fun ms ns ha => by
      rw [ha.names, (Members.agree_iff.1 ha _).2.2]
    rw [hasProperty_render_iff hi, hasProperty_render_iff hi']
    exact h.exists_iff hmembers _
  required key name := by
    have hmembers : ∀ ms ns : Members, ms.Agree ns →
        (¬ ms.MayLack ⟨name⟩ ↔ ¬ ns.MayLack ⟨name⟩) := fun ms ns ha =>
      not_congr (Members.agree_iff.1 ha _).2.1
    rw [requires_render_iff hi, requires_render_iff hi']
    exact h.exists_iff hmembers _

end View

/-! ## Runs -/

namespace Run

variable {c : Settings} {vs us vs' : List Value}

/-- Under the lenient policy and without map paths: over the documents in another order, each of them
rearranged, there is a run as well. Both come to registries with the same names, and in the entries of
a name to the same members, which may be missing in the one just where they may be in the other and
are null in the one just where they are in the other; to the same features; and to views with the same
names of properties and the same required ones. -/
theorem observeAll_agree (hp : c.policy = .preferFirst) (hm : c.mapPaths = [])
    (hperm : vs.Perm us) (hre : List.Forall₂ Value.Rearranged us vs') :
    ∃ r r', (vs.foldlM observe (start c)).outcome = .ok r ∧
      (vs'.foldlM observe (start c)).outcome = .ok r' ∧
      r.finish.registry.Agree r'.finish.registry ∧ r.finish.features = r'.finish.features ∧
      ∀ hideNullOnly,
        (View.render hideNullOnly r.finish).Agree (View.render hideNullOnly r'.finish) := by
  have hc : c.Lenient := ⟨hp, hm⟩
  obtain ⟨r, hr⟩ := hc.exists_run vs
  obtain ⟨r', hr'⟩ := hc.exists_run vs'
  obtain ⟨ns, w, h⟩ := outcome_iff.1 (Traced.value?_eq_some.2 hr)
  obtain ⟨ns', w', h'⟩ := outcome_iff.1 (Traced.value?_eq_some.2 hr')
  have hw : w.Agree w' :=
    h.agree_findings h' ((Slot.AgreeSamples.congruence hc).documents c hperm hre)
  have hregistry := h.agree_registry h' hw
  have hfeatures :=
    h.agree_features hc h' hw hregistry (Sample.congruence_gap.documents c hperm hre)
  exact ⟨r, r', hr, hr', hregistry, hfeatures,
    View.agree_render h.registry_wf h'.registry_wf hregistry⟩

/-- An array in the one document clashes with an integer in the other, and the one that comes first is
kept; the members of its elements agree nevertheless. -/
theorem observeAll_agree_after_clash :
    let vs : List Value := [.object [("a", .array [.object [("x", .integer "1")],
        .object [("y", .null)]]), ("b", .string "s")], .object [("b", .null), ("a", .integer "7")]]
    let vs' : List Value := [.object [("a", .integer "7"), ("b", .null)],
      .object [("a", .array [.object [("y", .null)], .object [("x", .integer "1")]]),
        ("b", .string "s")]]
    let kind (r : Run) : Option Kind :=
      ((r.finish.registry.find? ⟨"root_object_t"⟩).bind (·.members.get? ⟨"a"⟩)).map Node.kind
    ∃ r r', (vs.foldlM observe (start .default)).outcome = .ok r ∧
      (vs'.foldlM observe (start .default)).outcome = .ok r' ∧
      kind r = some .array ∧ kind r' = some (.scalar .integer) ∧
      r.finish.registry.Agree r'.finish.registry ∧ r.finish.features = r'.finish.features ∧
      ∀ hideNullOnly,
        (View.render hideNullOnly r.finish).Agree (View.render hideNullOnly r'.finish) := by
  intro vs vs' kind
  have hperm : vs.Perm [.object [("b", .null), ("a", .integer "7")],
      .object [("a", .array [.object [("x", .integer "1")], .object [("y", .null)]]),
        ("b", .string "s")]] := List.Perm.swap ..
  have hre : List.Forall₂ Value.Rearranged [.object [("b", .null), ("a", .integer "7")],
      .object [("a", .array [.object [("x", .integer "1")], .object [("y", .null)]]),
        ("b", .string "s")]] vs' :=
    .cons (.members (List.Perm.swap ..)) (.cons (.member [] [("b", .string "s")] "a"
      (.items (List.Perm.swap ..))) .nil)
  obtain ⟨r, r', hr, hr', h⟩ := observeAll_agree (c := .default) rfl rfl hperm hre
  have hkind : (vs.foldlM observe (start .default)).value?.map kind = some (some .array) := by
    decide +kernel
  have hkind' : (vs'.foldlM observe (start .default)).value?.map kind =
      some (some (.scalar .integer)) := by decide +kernel
  rw [Traced.value?_eq_some.2 hr, Option.map_some, Option.some.injEq] at hkind
  rw [Traced.value?_eq_some.2 hr', Option.map_some, Option.some.injEq] at hkind'
  exact ⟨r, r', hr, hr', hkind, hkind', h⟩

end Run

end SchemaInference
