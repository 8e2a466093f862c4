/-
The registry as a gathering. Its entries are members, each under the name of its object
(`Registry.slots`), and declaring objects gathers them: an entry is the join of all objects of its
name (`slots_declareAll?`). So the laws of `gather?` are laws of the registry.
-/
import SchemaInference.Proofs.Run.Shown

namespace SchemaInference

open Schema Traced

/-- What the registry gets to know of an object: its own flag is about its slot. -/
def Schema.Object.entry (o : Object) : Identifier × Node := (o.name, .object o.name o.members false)

theorem Schema.Object.entry_snd {o : Object} (h : o.optional = false) : o.entry.2 = o.node := by
  unfold entry node
  rw [h]

theorem Schema.Object.node_inj {o o' : Object} (h : o.node = o'.node) : o = o' := by
  obtain ⟨n, ms, x⟩ := o
  obtain ⟨m, ns, y⟩ := o'
  simp only [node, Node.object.injEq] at h
  obtain ⟨rfl, rfl, rfl⟩ := h
  rfl

namespace Registry

/-- Every object is under its own name. -/
def Keyed (r : Registry) : Prop := ∀ e ∈ r.entries, e.2.name = e.1

/-- The entries as members. -/
def slots (r : Registry) : Members := r.entries.map fun e => (e.1, e.2.node)

/-- One entry of each name, each under its own name, none optional, and each of them well formed. -/
structure WF (r : Registry) : Prop where
  keyed : r.Keyed
  unique : Members.Unique r.slots
  nodes : ∀ o ∈ r.objects, o.node.WF
  required : ∀ o ∈ r.objects, o.optional = false

variable {r : Registry} {name : Identifier} {o : Object}

theorem mem_objects : o ∈ r.objects ↔ ∃ name, (name, o) ∈ r.entries := by
  unfold objects
  simp

theorem forall_objects_append {P : Object → Prop} (hr : ∀ e ∈ r.objects, P e) (ho : P o) :
    ∀ e ∈ (⟨r.entries ++ [(name, o)]⟩ : Registry).objects, P e := by
  simp only [objects, List.map_append, List.forall_mem_append]
  exact ⟨hr, List.forall_mem_singleton.2 ho⟩

theorem forall_objects_replace {P : Object → Prop} (hr : ∀ e ∈ r.objects, P e) (ho : P o) :
    ∀ e ∈ (r.replace name o).objects, P e := by
  refine List.forall_mem_map.2 (List.forall_mem_map.2 fun a ha => ?_)
  split
  · exact ho
  · exact hr a.2 (List.mem_map_of_mem ha)

theorem names_eq (hr : r.Keyed) : r.names = r.objects.map (·.name) := by
  unfold names objects
  rw [List.map_map]
  exact List.map_congr_left fun e he => (hr e he).symm

theorem names_slots (r : Registry) : Members.names r.slots = r.names := by
  unfold slots names Members.names
  rw [List.map_map]
  rfl

theorem empty_wf : Registry.empty.WF :=
  ⟨by simp [Keyed, empty], Members.unique_nil, by simp [empty, objects], by simp [empty, objects]⟩

theorem get?_slots (r : Registry) (name : Identifier) :
    r.slots.get? name = (r.find? name).map Object.node := by
  unfold slots Members.get? find?
  rw [List.find?_map, Option.map_map, Option.map_map]
  rfl

theorem entry_of_find? (h : r.find? name = some o) : (name, o) ∈ r.entries := by
  obtain ⟨e, he, rfl⟩ := Option.map_eq_some_iff.1 h
  have hname : e.1 = name := by simpa using List.find?_some he
  rw [← hname]
  exact List.mem_of_find?_eq_some he

theorem mem_of_find? (h : r.find? name = some o) : o ∈ r.objects :=
  mem_objects.2 ⟨name, entry_of_find? h⟩

theorem name_of_find? (hr : r.Keyed) (h : r.find? name = some o) : o.name = name :=
  hr _ (entry_of_find? h)

theorem find?_of_mem (hr : r.WF) (h : o ∈ r.objects) : r.find? o.name = some o := by
  obtain ⟨name, h⟩ := mem_objects.1 h
  obtain rfl : o.name = name := hr.keyed _ h
  have hget : r.slots.get? o.name = some o.node :=
    Members.get?_of_mem hr.unique (List.mem_map.2 ⟨_, h, rfl⟩)
  rw [get?_slots] at hget
  obtain ⟨e, he, hn⟩ := Option.map_eq_some_iff.1 hget
  rwa [Object.node_inj hn] at he

theorem mem_names_iff : name ∈ r.names ↔ ∃ e, r.find? name = some e := by
  rw [← names_slots, Members.mem_names_iff]
  simp [get?_slots]

theorem wf_node (hr : r.WF) {n : Node} (h : r.slots.get? name = some n) :
    n.WF ∧ ∃ ms, n = .object name ms false := by
  rw [get?_slots] at h
  obtain ⟨o, ho, rfl⟩ := Option.map_eq_some_iff.1 h
  have hm := mem_of_find? ho
  exact ⟨hr.nodes o hm, o.members, by
    rw [Object.node, hr.required o hm, name_of_find? hr.keyed ho]⟩

/-! ## Registering -/

theorem value?_unify_object (p : Policy) (n : Identifier) (ms ns : Members) (x y : Bool) :
    (unify p (.object n ms x) (.object n ns y)).value? =
      (Members.merge p ms ns).value?.map fun ks => .object n ks (x || y) := by
  rw [unify, if_pos rfl, value?_bind, value?_mapFault]
  unfold Members.merge
  cases (absorb p (Members.relaxMissing ms ns) ns).value? <;> rfl

theorem slots_replace (hr : Members.Unique r.slots) (h : name ∈ r.names) :
    (r.replace name o).slots = r.slots.put name o.node := by
  obtain ⟨entries⟩ := r
  unfold slots names replace at *
  simp only at *
  induction entries with
  | nil => cases h
  | cons a entries ih =>
    rw [List.map_cons] at hr h
    obtain ⟨ha, hr⟩ := Members.unique_cons.1 hr
    rw [List.map_cons, List.map_cons, List.map_cons, Members.put]
    -- names are unique, so no later entry is replaced
    by_cases e : a.1 = name
    · have : ∀ b ∈ entries, (if b.1 = name then (name, o) else b) = b := fun b hb => by
        refine if_neg fun h => ha ?_
        exact List.mem_map.2 ⟨_, List.mem_map.2 ⟨b, hb, rfl⟩, h.trans e.symm⟩
      rw [if_pos e, if_pos e, List.map_congr_left this, List.map_id']
    · rw [if_neg e, if_neg e]
      rw [ih hr ((List.mem_cons.1 h).resolve_left (Ne.symm e))]

/-- An object keeps its name when another one is merged into it, also where that fails. -/
theorem ends_merge_name (p : Policy) (e o : Object) :
    (e.merge p o).Ends (fun e' => e'.name = e.name) fun h => h.left.name = e.name := by
  unfold Object.merge
  generalize Members.merge p e.members o.members = x
  obtain ⟨es, _ | _⟩ := x
  · exact .error rfl
  · exact .ok rfl

/-- Every object stays under its own name. -/
theorem keyed_register (hr : r.Keyed) (p : Policy) (o : Object) :
    (r.register p o).Ends Keyed fun h => h.left.Keyed := by
  unfold register
  rcases he : r.find? o.name with _ | e
  · refine .emit_bind (.pure fun a ha => ?_)
    rcases List.mem_append.1 ha with ha | ha
    · exact hr a ha
    · rw [List.mem_singleton.1 ha]
  · have hreplace : ∀ e' : Object, e'.name = e.name → (r.replace o.name e').Keyed :=
      fun e' he' => List.forall_mem_map.2 fun a ha => by
        split
        · exact he'.trans (name_of_find? hr he)
        · exact hr a ha
    have hmerge := ends_merge_name p e { o with optional := false }
    exact .emit_bind (Ends.bind (.mapFault hmerge fun h => hreplace h.left) fun _ hm =>
      .pure (hreplace _ hm))

/-- To register an object is to join it with what is known under its name. -/
theorem slots_register {p : Policy} (hr : r.WF) (o : Object) :
    (r.register p o).value?.map slots =
      (joinKnown? p (r.slots.get? o.name) o.entry.2).map fun n => r.slots.put o.name n := by
  unfold register
  rw [get?_slots]
  rcases he : r.find? o.name with _ | e
  · have hn : o.name ∉ Members.names r.slots := by
      rw [← Members.get?_eq_none_iff, get?_slots, he]
      rfl
    simp only [value?_bind, value?_emit, Option.bind_some, pure_eq, value?_ok, Option.map_some,
      Option.map_none, joinKnown?, Option.some.injEq, Members.put_of_not_mem hn]
    unfold slots
    rw [List.map_append]
    rfl
  · have hm := mem_of_find? he
    have hname := name_of_find? hr.keyed he
    have hu : (unify p e.node o.entry.2).value? =
        (Members.merge p e.members o.members).value?.map fun ks =>
          ({ e with members := ks } : Object).node := by
      unfold Object.node Object.entry
      rw [← hname, value?_unify_object, hr.required e hm]
      rfl
    simp only [value?_bind, value?_emit, Option.bind_some, pure_eq, value?_ok, value?_mapFault,
      Option.map_some, joinKnown?, hu, Object.value?_merge]
    cases (Members.merge p e.members o.members).value? with
    | none => rfl
    | some ks =>
      simp only [Option.map_some, Option.bind_some, Option.some.injEq]
      exact slots_replace hr.unique (mem_names_iff.2 ⟨e, he⟩)

theorem register_eq_some {p : Policy} {r r' : Registry} (hr : r.WF)
    (h : (r.register p o).value? = some r') :
    ∃ n, joinKnown? p (r.slots.get? o.name) o.entry.2 = some n ∧
      r'.slots = r.slots.put o.name n := by
  have := slots_register (p := p) hr o
  rw [h, Option.map_some, eq_comm, Option.map_eq_some_iff] at this
  obtain ⟨n, hn, e⟩ := this
  exact ⟨n, hn, e.symm⟩

theorem register_wf {p : Policy} {r r' : Registry} (hr : r.WF) (ho : o.node.WF)
    (h : (r.register p o).value? = some r') : r'.WF := by
  obtain ⟨n, hn, hs⟩ := register_eq_some hr h
  have hentry : o.entry.2.WF := ho.setOptional false
  have hnew : n.WF ∧ n.isOptional = false := by
    rcases hk : r.slots.get? o.name with _ | m
    · rw [hk] at hn
      cases hn
      exact ⟨hentry, rfl⟩
    · rw [hk] at hn
      obtain ⟨hm, ms, rfl⟩ := wf_node hr hk
      have hj := (joinKnown?_of_some hm hentry).1 hn
      exact ⟨hj.wf hm hentry, by rw [hj.isOptional]; rfl⟩
  have hall : ∀ e ∈ r'.objects, e.node.WF ∧ e.node.isOptional = false := fun e he => by
    obtain ⟨name, he⟩ := mem_objects.1 he
    have hmem : (name, e.node) ∈ r'.slots := List.mem_map.2 ⟨_, he, rfl⟩
    rw [hs] at hmem
    rcases Members.mem_put hmem with e | hmem
    · rw [Prod.mk.injEq] at e
      exact e.2 ▸ hnew
    · obtain ⟨⟨key, a⟩, ha, e'⟩ := List.mem_map.1 hmem
      rw [Prod.mk.injEq] at e'
      have ha := mem_objects.2 ⟨key, ha⟩
      exact e'.2 ▸ ⟨hr.nodes a ha, hr.required a ha⟩
  exact ⟨(keyed_register hr.keyed p o).of_ok (value?_eq_some.1 h),
    hs ▸ Members.unique_put hr.unique _ _, fun e he => (hall e he).1, fun e he => (hall e he).2⟩

/-- Entries of other names stay as they are. -/
theorem find?_register_of_ne {p : Policy} {r r' : Registry} (hr : r.WF) {o : Object}
    (h : (r.register p o).value? = some r') {name : Identifier} (hn : name ≠ o.name) :
    r'.find? name = r.find? name := by
  obtain ⟨n, -, hs⟩ := register_eq_some hr h
  have hget : (r'.find? name).map Object.node = (r.find? name).map Object.node := by
    rw [← get?_slots, ← get?_slots, hs, Members.get?_put, if_neg (Ne.symm hn)]
  exact Option.map_injective (fun _ _ => Object.node_inj) hget

/-- An entry is still there afterwards, and absorbs what it was. -/
theorem find?_register {p : Policy} {r r' : Registry} (hr : r.WF) {o : Object} (ho : o.node.WF)
    (h : (r.register p o).value? = some r') {name : Identifier} {e : Object}
    (he : r.find? name = some e) :
    ∃ e', r'.find? name = some e' ∧ Absorbs p e'.node e.node := by
  by_cases hn : name = o.name
  · subst hn
    obtain ⟨n, hj, hs⟩ := register_eq_some hr h
    have hget : (r'.find? o.name).map Object.node = some n := by
      rw [← get?_slots, hs, Members.get?_put, if_pos rfl]
    obtain ⟨e', he', rfl⟩ := Option.map_eq_some_iff.1 hget
    rw [get?_slots, he] at hj
    have hj := (joinKnown?_of_some (hr.nodes e (mem_of_find? he)) (ho.setOptional false)).1 hj
    exact ⟨e', he', .of_joins_left hj⟩
  · exact ⟨e, (find?_register_of_ne hr h hn).trans he, .refl _⟩

/-! ## Optional members -/

/-- Whether an entry has a member that may be missing. -/
def hasOptional (r : Registry) : Bool := r.objects.any fun e => e.members.any (·.2.isOptional)

theorem hasOptional_iff {r : Registry} (hr : r.WF) :
    r.hasOptional = true ↔
      ∃ name e, r.find? name = some e ∧ e.members.any (·.2.isOptional) = true := by
  unfold hasOptional
  rw [List.any_eq_true]
  constructor
  · rintro ⟨e, he, ho⟩
    exact ⟨e.name, e, find?_of_mem hr he, ho⟩
  · rintro ⟨name, e, he, ho⟩
    exact ⟨e, mem_of_find? he, ho⟩

/-- Only the entry that an object is merged into can gain the first optional member. -/
theorem hasOptional_register {p : Policy} {r r' : Registry} (hr : r.WF) {o : Object}
    (ho : o.node.WF) (h : (r.register p o).value? = some r') :
    r'.hasOptional =
      (r.hasOptional || (r'.find? o.name).any fun e => e.members.any (·.2.isOptional)) := by
  have hr' := register_wf hr ho h
  rw [Bool.eq_iff_iff, Bool.or_eq_true, hasOptional_iff hr, hasOptional_iff hr']
  constructor
  · rintro ⟨name, e, he, hopt⟩
    by_cases hn : name = o.name
    · subst hn
      rw [he]
      exact .inr hopt
    · rw [find?_register_of_ne hr h hn] at he
      exact .inl ⟨name, e, he, hopt⟩
  · rintro (⟨name, e, he, hopt⟩ | hmet)
    · obtain ⟨e', he', habs⟩ := find?_register hr ho h he
      have hwf := (hr.nodes e (mem_of_find? he)).unique
      have hwf' := (hr'.nodes e' (mem_of_find? he')).unique
      exact ⟨name, e', he', Members.any_isOptional_of_absorbs habs hwf' hwf hopt⟩
    · rw [Option.any_eq_true] at hmet
      obtain ⟨e, he, hopt⟩ := hmet
      exact ⟨o.name, e, he, hopt⟩

end Registry

namespace Gathered

variable {p : Policy} {g g' : Gathered} {os : List Object}

theorem declare?_eq_some {o : Object} (h : g.declare? p o = some g') :
    (g.registry.register p o).value? = some g'.registry := by
  obtain ⟨r, hr, rfl⟩ := Option.map_eq_some_iff.1 h
  exact hr

/-- Declaring objects keeps the registry well formed. -/
theorem declareAll?_wf (hg : g.registry.WF) (hos : ∀ o ∈ os, o.node.WF)
    (h : declareAll? p g os = some g') : g'.registry.WF := by
  induction os generalizing g with
  | nil =>
    cases h
    exact hg
  | cons o os ih =>
    obtain ⟨ho, hos⟩ := List.forall_mem_cons.1 hos
    obtain ⟨g₁, h₁, h⟩ := Option.bind_eq_some_iff.1 h
    exact ih (Registry.register_wf hg ho (declare?_eq_some h₁)) hos h

/-- Declaring objects gathers their entries, and fails just where that does. -/
theorem slots_declareAll? (hg : g.registry.WF) (hos : ∀ o ∈ os, o.node.WF) :
    (declareAll? p g os).map (·.registry.slots) =
      Members.gather? p g.registry.slots (os.map Object.entry) := by
  induction os generalizing g with
  | nil => rfl
  | cons o os ih =>
    obtain ⟨ho, hos⟩ := List.forall_mem_cons.1 hos
    have hreg := Registry.slots_register (p := p) hg o
    rw [declareAll?, List.map_cons, Members.gather?]
    show _ = (joinKnown? p (g.registry.slots.get? o.name) o.entry.2).bind fun k =>
      Members.gather? p (g.registry.slots.put o.name k) (os.map Object.entry)
    unfold declare?
    rcases hr : (g.registry.register p o).value? with _ | r
    · rw [hr, Option.map_none, eq_comm, Option.map_eq_none_iff] at hreg
      rw [hreg]
      rfl
    · rw [hr, Option.map_some, eq_comm, Option.map_eq_some_iff] at hreg
      obtain ⟨n, hn, hs⟩ := hreg
      rw [hn, Option.bind_some, hs]
      exact ih (Registry.register_wf hg ho hr) hos

theorem gather?_of_declareAll? (hg : g.registry.WF) (hos : ∀ o ∈ os, o.node.WF)
    (h : declareAll? p g os = some g') :
    Members.gather? p g.registry.slots (os.map Object.entry) = some g'.registry.slots := by
  rw [← slots_declareAll? hg hos, h, Option.map_some]

/-- Of the features, declaring objects only sets the one for what is optional, and just where the
registry shows it at the end. -/
theorem declareAll?_features (hg : g.registry.WF) (hos : ∀ o ∈ os, o.node.WF)
    (hf : g.features = { optionals := g.registry.hasOptional })
    (h : declareAll? p g os = some g') :
    g'.features = { optionals := g'.registry.hasOptional } := by
  induction os generalizing g with
  | nil =>
    cases h
    exact hf
  | cons o os ih =>
    obtain ⟨ho, hos⟩ := List.forall_mem_cons.1 hos
    obtain ⟨g₁, h₁, h⟩ := Option.bind_eq_some_iff.1 h
    have hr := declare?_eq_some h₁
    refine ih (Registry.register_wf hg ho hr) hos ?_ h
    rw [Registry.hasOptional_register hg ho hr]
    obtain ⟨r, -, rfl⟩ := Option.map_eq_some_iff.1 h₁
    show g.features.meetOptional _ = _
    rw [hf]
    rfl

end Gathered

end SchemaInference
