/-
Soundness of the inferred schema. `Conforms` says when a value fits a node, objects being looked up
by name in the registry. What a node is fit for, a node that absorbs it under the strict rules is fit
for too; so a value fits the node that it shows, and with that the root and the entries, however much
is joined into them later. A run without a warning comes to what the strict run comes to, and so
every document fits its schema (`inferTexts_conforms`).
-/
import SchemaInference.Proofs.Run.Documents
import SchemaInference.Proofs.Run.Lockstep
import SchemaInference.Proofs.Settings.Built

namespace SchemaInference

open Schema Document

/-! ## Conformance -/

/-- The value fits the node, where `r` has the objects and `d` is the dialect of the names. What an
object node itself has as members does not matter, since the entry of its name has more. -/
inductive Conforms (d : Dialect) (r : Registry) : Value → Node → Prop
  | null {n : Node} (h : n.isOptional = true) : Conforms d r .null n
  | boolean (b o : Bool) : Conforms d r (.boolean b) (.scalar .boolean o)
  | integer (t : String) (o : Bool) : Conforms d r (.integer t) (.scalar .integer o)
  | integral (t : String) (o : Bool) : Conforms d r (.integer t) (.scalar .real o)
  | real (t : String) (o : Bool) : Conforms d r (.real t) (.scalar .real o)
  | string (raw : String) (o : Bool) : Conforms d r (.string raw) (.scalar .string o)
  | array {items : List Value} {e : Node} (o : Bool) (each : ∀ v ∈ items, Conforms d r v e) :
      Conforms d r (.array items) (.array e o)
  | map {members : List (String × Value)} (n : Identifier) {v : Node} (o : Bool)
      (each : ∀ m ∈ members, Conforms d r m.2 v) : Conforms d r (.object members) (.map n v o)
  | object {members : List (String × Value)} {n : Identifier} (ms : Members) (o : Bool) {e : Object}
      (entry : r.find? n = some e)
      (known : ∀ m ∈ members, Identifier.sanitize d m.1 ∈ e.members.names)
      (each : ∀ m ∈ members, ∀ a, e.members.get? (Identifier.sanitize d m.1) = some a →
        Conforms d r m.2 a)
      (required : ∀ name ∈ e.members.required, ∃ m ∈ members, Identifier.sanitize d m.1 = name) :
      Conforms d r (.object members) (.object n ms o)

/-- A value fits whatever absorbs a node that it fits. -/
theorem Conforms.mono {d : Dialect} {r : Registry} {v : Value} {a b : Node} (h : Conforms d r v b)
    (hab : Absorbs .strict a b) : Conforms d r v a := by
  induction h generalizing a with
  | null h => exact .null (hab.isOptional h)
  | boolean =>
    obtain ⟨s, x, rfl, hs⟩ := hab.of_scalar
    cases s with
    | boolean => exact .boolean ..
    | _ => cases hs
  | integer =>
    obtain ⟨s, x, rfl, hs⟩ := hab.of_scalar
    cases s with
    | integer => exact .integer ..
    | real => exact .integral ..
    | _ => cases hs
  | integral =>
    obtain ⟨s, x, rfl, hs⟩ := hab.of_scalar
    cases s with
    | real => exact .integral ..
    | _ => cases hs
  | real =>
    obtain ⟨s, x, rfl, hs⟩ := hab.of_scalar
    cases s with
    | real => exact .real ..
    | _ => cases hs
  | string =>
    obtain ⟨s, x, rfl, hs⟩ := hab.of_scalar
    cases s with
    | string => exact .string ..
    | _ => cases hs
  | array _ _ ih =>
    cases hab with
    | array hab _ => exact .array _ fun v hv => ih v hv hab
    | settled hp => cases hp
  | map n _ _ ih =>
    cases hab with
    | map hab _ => exact .map n _ fun m hm => ih m hm hab
    | settled hp => cases hp
  | object ms o entry known each required _ =>
    cases hab with
    | object => exact .object _ _ entry known each required
    | settled hp => cases hp

/-! ## What a value shows -/

namespace Slot

/-- The outcome of a fold of nodes absorbs each of them. -/
theorem concluded?_absorbs {p : Policy} {ns : List Node} {a : Node} {w : Findings}
    (h : concluded? p none ns = some (a, w)) (hns : ∀ n ∈ ns, n.WF) {n : Node} (hn : n ∈ ns) :
    Absorbs p a n := by
  obtain ⟨k, hk, rfl, -⟩ := concluded?_eq_some.1 h
  obtain ⟨a, rfl, ha⟩ := joinAll?_of_mem hns hk hn
  exact ha

/-- For every object that is found, the registry has an entry of its name that absorbs it. -/
def Takes (r : Registry) (w : Findings) : Prop :=
  ∀ o ∈ w.objects, ∃ e, r.find? o.name = some e ∧
    Absorbs .strict e.node (.object o.name o.members false)

theorem takes_append {r : Registry} {w w' : Findings} :
    Takes r (w.append w') ↔ Takes r w ∧ Takes r w' := forall_mem_append_objects

/-- The value fits the node that it shows in any slot, once the registry takes what is found. -/
def ShownFits (c : Settings) (r : Registry) (v : Value) : Prop :=
  ∀ {path hint n w}, shown? c path hint (.ofValue c.dialect v) = some (n, w) → Takes r w →
    Conforms c.dialect r v n

section Fits

variable {c : Settings} {r : Registry} {path : Path} {hint : Identifier} {n : Node} {w : Findings}

theorem fits_array (hc : c.policy = .strict) {items : List Value}
    (ih : ∀ v ∈ items, ShownFits c r v)
    (h : shown? c path hint (.array (Sample.ofItems c.dialect items)) = some (n, w))
    (hw : Takes r w) : Conforms c.dialect r (.array items) n := by
  obtain ⟨ns, w₁, e, w₂, hi, he, rfl, rfl⟩ := shown?_array.1 h
  obtain ⟨-, hw, -⟩ : _ ∧ Takes r w₁ ∧ _ := by simpa only [takes_append] using hw
  refine .array _ fun v hv => ?_
  obtain ⟨n, hn, w', hs, hsub⟩ := collect?_left hi
    (Sample.ofItems_eq .. ▸ List.mem_map_of_mem (f := Sample.ofValue c.dialect) hv)
  have hv : Conforms c.dialect r v n := ih v hv hs fun o ho => hw o (hsub o ho)
  exact hv.mono (hc ▸ concluded?_absorbs he (shownItems_wf hi) hn)

/-- Each member of a value shows a node that it fits, under its name. -/
theorem fits_member {slot : Identifier → Identifier} {members : List (String × Value)}
    {named : Members} (ih : ∀ m ∈ members, ShownFits c r m.2)
    (hi : collect? (shownMember? c path slot) (Sample.ofMembers c.dialect members) =
      some (named, w))
    (hw : Takes r w) {m : String × Value} (hm : m ∈ members) :
    ∃ k ∈ named, k.1 = Identifier.sanitize c.dialect m.1 ∧ Conforms c.dialect r m.2 k.2 := by
  have hmem : (Identifier.sanitize c.dialect m.1, Sample.ofValue c.dialect m.2) ∈
      Sample.ofMembers c.dialect members := by
    rw [Sample.ofMembers_eq]
    exact List.mem_map.2 ⟨m, hm, rfl⟩
  obtain ⟨k, hk, w', hs, hsub⟩ := collect?_left hi hmem
  obtain ⟨hname, hs⟩ := shownMember?_eq_some.1 hs
  exact ⟨k, hk, hname.symm, ih m hm hs fun o ho => hw o (hsub o ho)⟩

theorem fits_map (hc : c.policy = .strict) (hp : c.isMapPath (path ++ [hint]) = true)
    {members : List (String × Value)} (ih : ∀ m ∈ members, ShownFits c r m.2)
    (h : shown? c path hint (.object (Sample.ofMembers c.dialect members)) = some (n, w))
    (hw : Takes r w) : Conforms c.dialect r (.object members) n := by
  obtain ⟨ms, w₁, a, w₂, hi, ha, rfl, rfl⟩ := (shown?_map hp).1 h
  obtain ⟨-, hw, -⟩ : _ ∧ Takes r w₁ ∧ _ := by simpa only [takes_append] using hw
  refine .map _ _ fun m hm => ?_
  obtain ⟨k, hk, -, hv⟩ := fits_member ih hi hw hm
  have hns : ∀ n ∈ ms.map (·.2), n.WF := List.forall_mem_map.2 (shownMembers_wf hi)
  exact hv.mono (hc ▸ concluded?_absorbs ha hns (List.mem_map_of_mem hk))

/-- What every object of the name has in an entry, this one has. -/
theorem mem_of_required {members : List (String × Value)} {slot : Identifier → Identifier}
    {named ms : Members} {e : Object} (he : e.node.WF)
    (hi : collect? (shownMember? c path slot) (Sample.ofMembers c.dialect members) =
      some (named, w))
    (hg : Members.gather? c.policy [] named = some ms)
    (absent : ∀ name a, e.members.get? name = some a → ms.get? name = none →
      a.isOptional = true)
    {name : Identifier} (hname : name ∈ e.members.required) :
    ∃ m ∈ members, Identifier.sanitize c.dialect m.1 = name := by
  obtain ⟨k, hk, rfl⟩ := List.mem_map.1 hname
  obtain ⟨hk, hopt⟩ := List.mem_filter.1 hk
  have ha := Members.get?_of_mem he.unique hk
  -- what the object lacks the entry has as optional only
  obtain ⟨b, hb⟩ : ∃ b, ms.get? k.1 = some b := by
    rcases hb : ms.get? k.1 with _ | b
    · rw [absent k.1 k.2 ha hb] at hopt
      cases hopt
    · exact ⟨b, rfl⟩
  have hin := (Members.mem_names_gather? hg).1 (Members.mem_names_of_get? hb)
  obtain ⟨j, hj, hjk⟩ := List.mem_map.1 (hin.resolve_left fun h => nomatch h)
  obtain ⟨s, hs, w', hsj, -⟩ := collect?_right hi hj
  rw [Sample.ofMembers_eq] at hs
  obtain ⟨m, hm, rfl⟩ := List.mem_map.1 hs
  exact ⟨m, hm, (shownMember?_eq_some.1 hsj).1.trans hjk⟩

theorem fits_object (hc : c.policy = .strict) (hr : r.WF)
    (hp : c.isMapPath (path ++ [hint]) = false) {members : List (String × Value)}
    (ih : ∀ m ∈ members, ShownFits c r m.2)
    (h : shown? c path hint (.object (Sample.ofMembers c.dialect members)) = some (n, w))
    (hw : Takes r w) : Conforms c.dialect r (.object members) n := by
  obtain ⟨named, w₁, ms, hi, hg, rfl, rfl⟩ := (shown?_object hp).1 h
  obtain ⟨hw, hself⟩ := takes_append.1 hw
  obtain ⟨e, he, habs⟩ := hself _ (List.mem_singleton.2 rfl)
  have hewf := hr.nodes e (Registry.mem_of_find? he)
  obtain ⟨-, present, both, absent⟩ := habs.of_object
  -- a member shows a node that the one of its name in the entry absorbs
  have hmember : ∀ m ∈ members, ∃ a, e.members.get? (Identifier.sanitize c.dialect m.1) = some a ∧
      Conforms c.dialect r m.2 a := fun m hm => by
    obtain ⟨k, hk, hname, hv⟩ := fits_member ih hi hw hm
    obtain ⟨b, hb, hbk⟩ := Members.gather?_of_mem (shownMembers_wf hi) hg hk
    obtain ⟨a, ha⟩ := present k.1 b hb
    have hak : Absorbs .strict a k.2 := (both k.1 a b ha hb).trans (hc ▸ hbk)
    exact ⟨a, hname ▸ ha, hv.mono hak⟩
  refine .object _ _ he (fun m hm => ?_) (fun m hm a ha => ?_) fun name hname => ?_
  · obtain ⟨a, ha, -⟩ := hmember m hm
    exact Members.mem_names_of_get? ha
  · obtain ⟨b, hb, hv⟩ := hmember m hm
    rw [ha, Option.some.injEq] at hb
    exact hb ▸ hv
  · exact mem_of_required hewf hi hg absent hname

/-- Under the strict rules, a value fits the node that it shows in any slot, once the registry
absorbs all objects that it declares. -/
theorem shown?_conforms (hc : c.policy = .strict) (hr : r.WF) (v : Value) : ShownFits c r v := by
  intro path hint n w h hw
  induction v using Value.induction generalizing path hint n w with
  | null =>
    cases h
    exact .null rfl
  | boolean b =>
    cases h
    exact .boolean ..
  | integer t =>
    cases h
    exact .integer ..
  | real t =>
    cases h
    exact .real ..
  | string raw =>
    cases h
    exact .string ..
  | array items ih => exact fits_array hc (fun v hv {_ _ _ _} => ih v hv) h hw
  | object members ih =>
    by_cases hp : c.isMapPath (path ++ [hint]) = true
    · exact fits_map hc hp (fun m hm {_ _ _ _} => ih m hm) h hw
    · rw [Bool.not_eq_true] at hp
      exact fits_object hc hr hp (fun m hm {_ _ _ _} => ih m hm) h hw

end Fits

end Slot

/-! ## Runs -/

namespace Run

/-- Every document of a strict run fits the root that the run comes to. -/
theorem Outcome.conforms {c : Settings} {vs : List Value} {r : Run} {ns : List Node} {w : Findings}
    (h : Outcome c vs r ns w) (hp : c.policy = .strict)
    (hc : c.sanitize c.rootName.text = c.rootName) {v : Value} (hv : v ∈ vs) :
    Conforms c.dialect r.finish.registry (rootedValue c v) r.finish.root := by
  obtain ⟨n, hn, w', hs, hsub⟩ := Slot.collect?_left h.shown hv
  have hs : Slot.shown? c [] c.rootName (rooted c (Sample.ofValue c.dialect v)) = some (n, w') := hs
  rw [rooted_ofValue hc] at hs
  have hn' : Conforms c.dialect r.gathered.registry (rootedValue c v) n :=
    Slot.shown?_conforms hp h.registry_wf _ hs fun o ho => hp ▸ h.absorbs_declared (hsub o ho)
  obtain ⟨root, hroot, habs⟩ := joinAll?_of_mem h.nodes_wf h.root hn
  show Conforms c.dialect r.gathered.registry (rootedValue c v) (r.root.getD .null)
  rw [hroot]
  exact hn'.mono (hp ▸ habs)

end Run

/-- Settings built in any way, and any texts: when the run over them succeeds without a warning, or
under the strict policy, every document fits the schema that it comes to. -/
theorem inferTexts_conforms {c : Settings} (hc : c.Built) {texts : List String} {r : Inferred}
    (h : (inferTexts c texts).outcome = .ok r)
    (hq : c.policy = .strict ∨ Quiet (inferTexts c texts).events) {text : String}
    (ht : text ∈ texts) :
    ∃ v, parse text = .ok v ∧
      Conforms c.dialect r.registry (Run.rootedValue c v) r.root := by
  have hstrict := Traced.value?_eq_some.2 (inferTexts_strict h hq)
  unfold inferTexts at hstrict
  rw [Traced.value?_bind] at hstrict
  obtain ⟨r', hr', e⟩ := Option.bind_eq_some_iff.1 hstrict
  obtain rfl : r'.finish = r := Option.some.inj e
  obtain ⟨vs, hvs, hrun⟩ := Run.value?_observeTexts.1 hr'
  obtain ⟨ns, w, ho⟩ := Run.outcome_iff.1 hrun
  obtain ⟨v, hv, hparse⟩ := exists_of_forall₂ hvs ht
  exact ⟨v, hparse, ho.conforms rfl hc.sanitize_rootName hv⟩

/-- A lenient run without a warning over an object and a number; the number stands for an object
with one member. -/
theorem inferTexts_conforms_unwarned :
    ∃ r v, (inferTexts .default ["\x7b\"root_object\":3,\"b\":[\x7b\"x\":null\x7d]\x7d", "7.5"]).outcome =
        .ok r ∧ parse "7.5" = .ok v ∧
      Conforms .cpp r.registry (Run.rootedValue .default v) r.root := by
  let texts := ["\x7b\"root_object\":3,\"b\":[\x7b\"x\":null\x7d]\x7d", "7.5"]
  have hrun : (inferTexts .default texts).value?.isSome = true := by decide +kernel
  have hquiet : ∀ e ∈ (inferTexts .default texts).events, e.level ≠ .warn := by decide +kernel
  obtain ⟨r, hr⟩ := Option.isSome_iff_exists.1 hrun
  have hmem : "7.5" ∈ texts := List.mem_cons_of_mem _ (List.mem_singleton.2 rfl)
  have hr := Traced.value?_eq_some.1 hr
  obtain ⟨v, hv, hconf⟩ := inferTexts_conforms .default hr (.inr hquiet) hmem
  exact ⟨r, v, hr, hv, hconf⟩

end SchemaInference
