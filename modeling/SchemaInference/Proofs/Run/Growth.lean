/-
The registry only grows. Whatever object is merged and whatever document is observed, the names that
are there keep their places and new ones come after them, and each entry grows into what is found
under its name afterwards (`Registry.Grows`): no member is lost, moved or required again. It holds of
one merge, since an entry is joined with what comes in, and so of all that a document declares.
-/
import SchemaInference.Proofs.Run.Documents
import SchemaInference.Proofs.Schema.Growth

namespace SchemaInference

open Schema Traced

namespace Registry

/-- The names keep their places, and each entry has grown into what is found under its name. -/
structure Grows (r r' : Registry) : Prop where
  names : r.names <+: r'.names
  entries : ∀ name e, r.find? name = some e →
    ∃ e', r'.find? name = some e' ∧ e.node.Grows e'.node

variable {p : Policy} {r r' r'' : Registry}

theorem Grows.refl (r : Registry) : r.Grows r :=
  ⟨List.prefix_refl _, fun _ e he => ⟨e, he, .refl _⟩⟩

theorem Grows.trans (h : r.Grows r') (h' : r'.Grows r'') : r.Grows r'' := by
  refine ⟨h.names.trans h'.names, fun name e he => ?_⟩
  obtain ⟨e', he', hg⟩ := h.entries name e he
  obtain ⟨e'', he'', hg'⟩ := h'.entries name e' he'
  exact ⟨e'', he'', hg.trans hg'⟩

/-- Each entry is found under its own name, and under no other one. -/
theorem find?_iff (hr : r.WF) {name : Identifier} {e : Object} :
    r.find? name = some e ↔ e ∈ r.objects ∧ e.name = name := by
  constructor
  · exact fun h => ⟨mem_of_find? h, name_of_find? hr.keyed h⟩
  · rintro ⟨he, rfl⟩
    exact find?_of_mem hr he

/-- Merging one object is a growth. -/
theorem grows_register (hr : r.WF) {o : Object} (ho : o.node.WF)
    (h : (r.register p o).value? = some r') : r.Grows r' := by
  obtain ⟨n, hj, hs⟩ := register_eq_some hr h
  refine ⟨?_, fun name e he => ?_⟩
  · rw [← names_slots, ← names_slots, hs, Members.names_put]
    split
    · exact List.prefix_refl _
    · exact List.prefix_append _ _
  · by_cases hn : name = o.name
    · subst hn
      have hget : (r'.find? o.name).map Object.node = some n := by
        rw [← get?_slots, hs, Members.get?_put, if_pos rfl]
      obtain ⟨e', he', rfl⟩ := Option.map_eq_some_iff.1 hget
      rw [get?_slots, he] at hj
      have hj := (joinKnown?_of_some (hr.nodes e (mem_of_find? he)) (ho.setOptional false)).1 hj
      exact ⟨e', he', hj.grows⟩
    · exact ⟨e, (find?_register_of_ne hr h hn).trans he, .refl _⟩

end Registry

/-- All that is declared one after the other is a growth. -/
theorem Gathered.grows_declareAll? {p : Policy} {g g' : Gathered} {os : List Object}
    (hg : g.registry.WF) (hos : ∀ o ∈ os, o.node.WF) (h : declareAll? p g os = some g') :
    g.registry.Grows g'.registry := by
  induction os generalizing g with
  | nil =>
    cases h
    exact .refl _
  | cons o os ih =>
    obtain ⟨ho, hos⟩ := List.forall_mem_cons.1 hos
    obtain ⟨g₁, h₁, h⟩ := Option.bind_eq_some_iff.1 h
    have hr := declare?_eq_some h₁
    exact (Registry.grows_register hg ho hr).trans (ih (Registry.register_wf hg ho hr) hos h)

namespace Run

variable {c : Settings} {r r' : Run}

theorem Reached.registry_wf (h : Reached c r) : r.finish.registry.WF := by
  obtain ⟨vs, hvs⟩ := h.observed
  obtain ⟨ns, w, h⟩ := outcome_iff.1 hvs
  exact h.registry_wf

/-- A document is a growth. -/
theorem grows_observe {v : Document.Value} (hr : r.gathered.registry.WF)
    (h : (r.observe v).value? = some r') :
    r.gathered.registry.Grows r'.gathered.registry := by
  obtain ⟨n, w, g, k, hs, hw, -, rfl⟩ := value?_observe.1 h
  obtain ⟨g', hg, rfl⟩ := Option.map_eq_some_iff.1 hw
  have hgrows : r.gathered.registry.Grows g'.registry :=
    Gathered.grows_declareAll? hr (fun o ho => ((Slot.shown?_wf hs).2 o ho).1) hg
  exact hgrows

end Run

namespace Registry

/-- The registries of runs, and those that merging more objects into one of them leads to, under any
policy. No two members of an object that is merged share a name. -/
inductive Reached (c : Settings) : Registry → Prop
  | run {r : Run} (h : Run.Reached c r) : Reached c r.finish.registry
  | register {r r' : Registry} {p : Policy} {o : Object} (h : Reached c r) (ho : o.node.WF)
      (hm : (r.register p o).outcome = .ok r') : Reached c r'

/-- One more object is merged into the registry, or one more document observed by its run. -/
inductive Step (c : Settings) : Registry → Registry → Prop
  | register {r r' : Registry} {p : Policy} {o : Object} (ho : o.node.WF)
      (hm : (r.register p o).outcome = .ok r') : Step c r r'
  | observe {r r' : Run} {v : Document.Value} (h : Run.Reached c r)
      (ho : (r.observe v).outcome = .ok r') : Step c r.finish.registry r'.finish.registry
  | observeText {r r' : Run} {text : String} (h : Run.Reached c r)
      (ho : (r.observeText text).outcome = .ok r') : Step c r.finish.registry r'.finish.registry

variable {c : Settings} {r r' : Registry}

theorem Reached.wf (h : Reached c r) : r.WF := by
  induction h with
  | run h => exact h.registry_wf
  | register _ ho hm ih => exact register_wf ih ho (value?_eq_some.2 hm)

theorem Step.reached (h : Reached c r) (hs : Step c r r') : Reached c r' := by
  cases hs with
  | register ho hm => exact h.register ho hm
  | observe hrun ho => exact .run (hrun.observe ho)
  | observeText hrun ho => exact .run (hrun.observeText ho)

/-- In every registry that is reached there is one entry of each name, which is found under that name
and is not optional; and every further step keeps the names in their places and lets each entry only
grow. -/
theorem Reached.grows_step (h : Reached c r) (hs : Step c r r') :
    (r.WF ∧ ∀ name e, r.find? name = some e ↔ e ∈ r.objects ∧ e.name = name) ∧
    (r'.WF ∧ ∀ name e, r'.find? name = some e ↔ e ∈ r'.objects ∧ e.name = name) ∧
    r.Grows r' := by
  have hr := h.wf
  have hr' := (hs.reached h).wf
  refine ⟨⟨hr, fun _ _ => find?_iff hr⟩, ⟨hr', fun _ _ => find?_iff hr'⟩, ?_⟩
  cases hs with
  | register ho hm => exact grows_register hr ho (value?_eq_some.2 hm)
  | observe _ ho => exact Run.grows_observe hr (value?_eq_some.2 ho)
  | observeText _ ho =>
    obtain ⟨v, -, ho⟩ := Run.value?_observeText.1 (value?_eq_some.2 ho)
    exact Run.grows_observe hr ho

/-- The second document has a string where the first one has an integer, a value where it has null, a
real where it has an integer, and a member of its own. -/
theorem Reached.grows_step_after_clash :
    ∃ r r' : Run, Run.Reached .default r ∧
      (r.observe (.object [("d", .boolean true), ("c", .real "0.5"), ("b", .array []),
        ("a", .string "s")])).outcome = .ok r' ∧
      r.finish.registry.Grows r'.finish.registry ∧
      (r'.finish.registry.find? ⟨"root_object_t"⟩).map (·.members) =
        some [(⟨"a"⟩, .scalar .integer false), (⟨"b"⟩, .array .null true),
          (⟨"c"⟩, .scalar .real false), (⟨"d"⟩, .scalar .boolean true)] := by
  let first : Document.Value := .object [("a", .integer "1"), ("b", .null), ("c", .integer "2")]
  let second : Document.Value := .object [("d", .boolean true), ("c", .real "0.5"),
    ("b", .array []), ("a", .string "s")]
  have hrun : ((Run.start .default).observe first).value?.isSome = true := by decide +kernel
  obtain ⟨r, hr⟩ := Option.isSome_iff_exists.1 hrun
  have hmembers : (((Run.start .default).observe first).value?.bind fun r =>
      (r.observe second).value?).map
        (fun r => (r.finish.registry.find? ⟨"root_object_t"⟩).map (·.members)) =
      some (some [(⟨"a"⟩, .scalar .integer false), (⟨"b"⟩, .array .null true),
        (⟨"c"⟩, .scalar .real false), (⟨"d"⟩, .scalar .boolean true)]) := by decide +kernel
  rw [hr, Option.bind_some] at hmembers
  obtain ⟨r', hr', hmembers⟩ := Option.map_eq_some_iff.1 hmembers
  have hreached : Run.Reached .default r := .observe .start (value?_eq_some.1 hr)
  have hstep : Step .default r.finish.registry r'.finish.registry :=
    .observe hreached (value?_eq_some.1 hr')
  exact ⟨r, r', hreached, value?_eq_some.1 hr', (Reached.grows_step (.run hreached) hstep).2.2,
    hmembers⟩

end Registry

end SchemaInference
