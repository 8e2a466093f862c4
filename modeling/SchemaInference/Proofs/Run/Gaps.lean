/-
What is optional, whatever the order. A run looks for optional members, elements and values as it
joins them, so what it finds on the way hangs on the order. But it finds the same in the end: either
a member of an entry is optional, or a document has a gap, which is null or an array without items
(`Outcome.optionals_iff`). Documents without gaps show no optional elements, so an optional node that
is met there is a member, and its entry tells of it as well (`shown?_solid`).
-/
import SchemaInference.Proofs.Run.Agree
import SchemaInference.Proofs.Run.Features

namespace SchemaInference

open Schema Document

/-! ## Gaps -/

/-- Null or an array without items stands somewhere in the sample. -/
inductive Sample.Gap : Sample → Prop
  | null : Gap .null
  | empty : Gap (.array [])
  | item {items : List Sample} {s : Sample} (hs : s ∈ items) (h : Gap s) : Gap (.array items)
  | member {members : List (Identifier × Sample)} {m : Identifier × Sample} (hm : m ∈ members)
      (h : Gap m.2) : Gap (.object members)

namespace Sample

theorem gap_array_iff {items : List Sample} :
    (Sample.array items).Gap ↔ items = [] ∨ ∃ s ∈ items, s.Gap := by
  constructor
  · rintro (_ | _ | ⟨hs, h⟩)
    · exact .inl rfl
    · exact .inr ⟨_, hs, h⟩
  · rintro (rfl | ⟨s, hs, h⟩)
    · exact .empty
    · exact .item hs h

theorem gap_object_iff {members : List (Identifier × Sample)} :
    (Sample.object members).Gap ↔ ∃ m ∈ members, m.2.Gap := by
  constructor
  · rintro (_ | _ | _ | ⟨hm, h⟩)
    exact ⟨_, hm, h⟩
  · rintro ⟨m, hm, h⟩
    exact .member hm h

/-- No order makes a gap or fills one. -/
theorem congruence_gap : Congruence fun s s' => s.Gap ↔ s'.Gap where
  refl _ := Iff.rfl
  trans := Iff.trans
  array {items items'} h := by
    have hnil : items = [] ↔ items' = [] :=
      ⟨fun e => Matched.eq_nil (e ▸ h), fun e => Matched.eq_nil (e ▸ h.symm fun _ _ h => h.symm)⟩
    rw [gap_array_iff, gap_array_iff, hnil, h.exists_iff fun _ _ h => h]
  object h := by rw [gap_object_iff, gap_object_iff, h.exists_iff fun _ _ h => h.2]

end Sample

/-! ## Samples -/

namespace Slot

variable {c : Settings} {path : Path} {hint : Identifier} {s : Sample} {n : Node} {w : Findings}

/-- Where nothing optional is told of, there is no gap. -/
theorem shown?_gapless (h : shown? c path hint s = some (n, w))
    (hw : w.features.optionals = false) : ¬ s.Gap := fun hg => by
  induction hg generalizing path hint n w with
  | null =>
    cases h
    cases hw
  | empty =>
    obtain ⟨ns, w₁, e, w₂, hi, he, rfl, rfl⟩ := shown?_array.1 h
    cases hi
    cases he
    cases hw
  | item hs _ ih =>
    obtain ⟨ns, w₁, e, w₂, hi, he, rfl, rfl⟩ := shown?_array.1 h
    rw [Findings.optionals_append, Findings.optionals_append] at hw
    obtain ⟨m, -, w', hm, -⟩ := collect?_left hi hs
    exact ih hm ((collect?_within hi hs hm).optionals hw.2.1)
  | member hm _ ih =>
    by_cases hp : c.isMapPath (path ++ [hint]) = true
    · obtain ⟨ms, w₁, v, w₂, hi, hv, rfl, rfl⟩ := (shown?_map hp).1 h
      rw [Findings.optionals_append, Findings.optionals_append] at hw
      obtain ⟨k, -, w', hk, -⟩ := collect?_left hi hm
      exact ih (shownMember?_eq_some.1 hk).2 ((collect?_within hi hm hk).optionals hw.2.1)
    · rw [Bool.not_eq_true] at hp
      obtain ⟨named, w₁, ms, hi, hg, rfl, rfl⟩ := (shown?_object hp).1 h
      rw [Findings.optionals_append] at hw
      obtain ⟨k, -, w', hk, -⟩ := collect?_left hi hm
      exact ih (shownMember?_eq_some.1 hk).2 ((collect?_within hi hm hk).optionals hw.1)

/-- Not optional, nor is anything in it but members; and the registry covers it. -/
structure Solid (p : Policy) (r : Registry) (a : Node) : Prop where
  required : a.isOptional = false
  dense : a.Dense
  covered : a.Covered p r

theorem Solid.joins {p : Policy} {r : Registry} {a b k : Node} (ha : Solid p r a)
    (hb : Solid p r b) (h : Joins p a b k) : Solid p r k := by
  refine ⟨?_, ha.dense.joins hb.dense h, ha.covered.joins hb.covered h⟩
  rw [h.isOptional, ha.required, hb.required]
  rfl

/-- A fold of solid nodes is solid, and it tells of nothing optional but for a member of an entry. -/
theorem concluded?_solid {p : Policy} {r : Registry} (hr : r.WF) {ns : List Node} (hne : ns ≠ [])
    (hns : ∀ n ∈ ns, n.WF ∧ Solid p r n) {e : Node} (h : concluded? p none ns = some (e, w)) :
    Solid p r e ∧ (w.features.optionals = true → r.hasOptional = true) := by
  obtain ⟨k, hk, rfl, rfl⟩ := concluded?_eq_some.1 h
  rcases k with _ | e
  · exact absurd (joinAll?_eq_none hk) hne
  · obtain ⟨hwf, he⟩ := joinAll?_known (fun _ _ _ => Solid.joins) (known_none _) hns hk e rfl
    refine ⟨he, fun ho => ?_⟩
    obtain ⟨a, ha, hopt⟩ := Node.Within.of_carriesOptional ho
    exact he.dense.hasOptional hr he.covered hwf he.required ha hopt

/-- Where every item is solid and tells of nothing optional but for a member of an entry, all of a list
is and does. -/
theorem collect?_solid {p : Policy} {r : Registry} {α β : Type} {f : α → Option (β × Findings)}
    {g : β → Node} {xs : List α} {ys : List β} (h : collect? f xs = some (ys, w))
    (hf : ∀ x ∈ xs, ∀ y w', f x = some (y, w') → (∀ o ∈ w'.objects, o ∈ w.objects) →
      (g y).WF ∧ Solid p r (g y) ∧ (w'.features.optionals = true → r.hasOptional = true)) :
    (∀ y ∈ ys, (g y).WF ∧ Solid p r (g y)) ∧
      (w.features.optionals = true → r.hasOptional = true) := by
  refine ⟨fun y hy => ?_, fun ho => ?_⟩
  · obtain ⟨x, hx, w', hfx, hsub⟩ := collect?_right h hy
    obtain ⟨hwf, hsolid, -⟩ := hf x hx y w' hfx hsub
    exact ⟨hwf, hsolid⟩
  · obtain ⟨x, hx, y, -, w', hfx, hw'⟩ := collect?_tell Run.tell_optionals h ho
    exact (hf x hx y w' hfx (collect?_sub h hx hfx)).2.2 hw'

/-- Without a gap a sample shows a solid node, where its objects are absorbed by their entries. -/
theorem shown?_solid (hc : c.Lenient) {r : Registry} (hr : r.WF)
    (h : shown? c path hint s = some (n, w))
    (hq : ∀ o ∈ w.objects, ∃ e, r.find? o.name = some e ∧
      Absorbs c.policy e.node (.object o.name o.members false)) (hg : ¬ s.Gap) :
    n.WF ∧ Solid c.policy r n ∧ (w.features.optionals = true → r.hasOptional = true) := by
  induction s using Sample.induction generalizing path hint n w with
  | null => exact absurd .null hg
  | scalar s =>
    cases h
    refine ⟨.scalar s false, ⟨rfl, .scalar s false, .scalar s false⟩, fun ho => ?_⟩
    rcases s with _ | _ | _ | _ <;> cases ho
  | array items ih =>
    obtain ⟨⟨hwf, hcov⟩, -⟩ := shown?_known (kept_covered c.policy r) h hq
    obtain ⟨ns, w₁, e, w₂, hi, he, rfl, rfl⟩ := shown?_array.1 h
    simp only [forall_mem_append_objects] at hq
    rw [Sample.gap_array_iff, not_or, not_exists] at hg
    obtain ⟨hns, hw₁⟩ := collect?_solid (g := id) hi fun s hs n w hn hsub =>
      ih s hs hn (fun o ho => hq.2.1 o (hsub o ho)) fun h => hg.2 s ⟨hs, h⟩
    have hne : ns ≠ [] := by
      rintro rfl
      obtain ⟨s, hs⟩ := List.exists_mem_of_ne_nil items hg.1
      obtain ⟨n, hn, -⟩ := collect?_left hi hs
      cases hn
    obtain ⟨hsolid, hw₂⟩ := concluded?_solid hr hne hns he
    refine ⟨hwf, ⟨rfl, .array false hsolid.required hsolid.dense, hcov⟩, fun ho => ?_⟩
    have ho : (w₁.features.optionals || w₂.features.optionals) = true := ho
    exact (Bool.or_eq_true_iff.1 ho).elim hw₁ hw₂
  | object members ih =>
    obtain ⟨⟨hwf, hcov⟩, -⟩ := shown?_known (kept_covered c.policy r) h hq
    obtain ⟨named, w₁, ms, hi, hgather, rfl, rfl⟩ := (shown?_object (hc.isMapPath _)).1 h
    simp only [forall_mem_append_objects] at hq
    rw [Sample.gap_object_iff, not_exists] at hg
    obtain ⟨hnamed, hw₁⟩ := collect?_solid (g := Prod.snd) hi fun m hm k w hk hsub =>
      ih m hm (shownMember?_eq_some.1 hk).2 (fun o ho => hq.1 o (hsub o ho)) fun h => hg m ⟨hm, h⟩
    have hms : ∀ name a, ms.get? name = some a → a.Dense := fun name a ha => by
      refine (Members.gather?_known (fun _ _ _ => Node.Dense.joins) hgather ?_ ha).2
      intro n hn
      exact ⟨(hnamed _ hn).1, (hnamed _ hn).2.dense⟩
    refine ⟨hwf, ⟨rfl, .object _ false hms, hcov⟩, fun ho => hw₁ ?_⟩
    have ho : (w₁.features.optionals || false) = true := ho
    rwa [Bool.or_false] at ho

end Slot

/-! ## Runs -/

theorem Registry.hasOptional_iff_mayLack {r : Registry} (hr : r.WF) :
    r.hasOptional = true ↔ ∃ name e, r.find? name = some e ∧
      ∃ other ∈ e.members.names, e.members.MayLack other := by
  rw [hasOptional_iff hr]
  refine exists_congr fun name => exists_congr fun e => and_congr_right fun he => ?_
  rw [Members.any_isOptional_iff (hr.nodes e (mem_of_find? he)).unique]
  refine exists_congr fun other => ?_
  rw [Members.mem_names_iff]
  constructor
  · rintro ⟨a, ha, ho⟩
    refine ⟨⟨a, ha⟩, fun b hb => ?_⟩
    rw [ha, Option.some.injEq] at hb
    exact hb ▸ ho
  · rintro ⟨⟨a, ha⟩, hlack⟩
    exact ⟨a, ha, hlack a ha⟩

/-- Registries that agree both have an optional member or neither has one. -/
theorem Registry.Agree.hasOptional {r r' : Registry} (h : r.Agree r') (hr : r.WF) (hr' : r'.WF) :
    r.hasOptional = true ↔ r'.hasOptional = true := by
  have hmembers : ∀ ms ns : Members, ms.Agree ns →
      ((∃ other ∈ ms.names, ms.MayLack other) ↔ ∃ other ∈ ns.names, ns.MayLack other) :=
    fun ms ns ha => exists_congr fun other => by
      rw [ha.names other, (Members.agree_iff.1 ha other).2.1]
  rw [hasOptional_iff_mayLack hr, hasOptional_iff_mayLack hr']
  exact exists_congr (h.exists_iff hmembers)

namespace Run

variable {c : Settings} {vs vs' : List Value} {r r' : Run} {ns ns' : List Node} {w w' : Findings}

/-- Something optional was met just where a member of an entry is optional or a document has a gap. -/
theorem Outcome.optionals_iff (hc : c.Lenient) (h : Outcome c vs r ns w) :
    r.gathered.features.optionals = true ↔ r.gathered.registry.hasOptional = true ∨
      ∃ v ∈ vs, (rooted c (.ofValue c.dialect v)).Gap := by
  rw [h.features]
  show (r.gathered.registry.hasOptional || w.features.optionals) = true ↔ _
  rw [Bool.or_eq_true]
  constructor
  · rintro (ho | ho)
    · exact .inl ho
    · obtain ⟨v, hv, n, -, w', hs, hw⟩ := Slot.collect?_tell tell_optionals h.shown ho
      by_cases hg : (rooted c (.ofValue c.dialect v)).Gap
      · exact .inr ⟨v, hv, hg⟩
      · have hq := fun o ho => h.absorbs_declared (Slot.collect?_sub h.shown hv hs o ho)
        exact .inl ((Slot.shown?_solid hc h.registry_wf hs hq hg).2.2 hw)
  · rintro (ho | ⟨v, hv, hg⟩)
    · exact .inl ho
    · obtain ⟨n, -, w', hs, -⟩ := Slot.collect?_left h.shown hv
      rcases hw : w.features.optionals with _ | _
      · have hw' := (Slot.collect?_within h.shown hv hs).optionals hw
        exact absurd hg (Slot.shown?_gapless hs hw')
      · exact .inr rfl

/-- Where the findings and the registries agree and the documents have the same gaps, the features
are the same. -/
theorem Outcome.agree_features (hc : c.Lenient) (h : Outcome c vs r ns w)
    (h' : Outcome c vs' r' ns' w') (hw : w.Agree w')
    (hr : r.gathered.registry.Agree r'.gathered.registry)
    (hgap : Matched (fun v v' => (rooted c (.ofValue c.dialect v)).Gap ↔
      (rooted c (.ofValue c.dialect v')).Gap) vs vs') :
    r.gathered.features = r'.gathered.features := by
  have hopt : r.gathered.features.optionals = r'.gathered.features.optionals := by
    rw [Bool.eq_iff_iff, h.optionals_iff hc, h'.optionals_iff hc,
      hr.hasOptional h.registry_wf h'.registry_wf, hgap.exists_iff fun _ _ h => h]
  have hrest := hw.features
  rw [h.features, h'.features] at hopt ⊢
  simp only [Features.or, Bool.false_or, Bool.or_true, Features.mk.injEq, Bool.or_false,
    true_and] at hrest hopt ⊢
  exact ⟨hrest.1, hrest.2.1, hopt, hrest.2.2⟩

end Run

end SchemaInference
