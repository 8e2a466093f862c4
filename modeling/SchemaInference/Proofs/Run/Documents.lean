/-
Runs by what their documents show. The schema of a run is the join of what the documents show of the
root, and its registry gathers all objects they declare (`Run.value?_observeAll`): the state of a run
is a fold over outcomes that hang on one document each.
-/
import SchemaInference.Proofs.Run.Registry

namespace SchemaInference

open Schema Traced

/-! ## Samples of values -/

open Document in
/-- Induction on values: the items of an array and the members of an object are all below it. -/
@[elab_as_elim]
theorem Document.Value.induction {P : Value → Prop} (null : P .null)
    (boolean : ∀ b, P (.boolean b)) (integer : ∀ t, P (.integer t)) (real : ∀ t, P (.real t))
    (string : ∀ raw, P (.string raw)) (array : ∀ items, (∀ v ∈ items, P v) → P (.array items))
    (object : ∀ members, (∀ m ∈ members, P m.2) → P (.object members)) (v : Value) : P v :=
  Value.rec (motive_1 := P) (motive_2 := fun items => ∀ v ∈ items, P v)
    (motive_3 := fun members => ∀ m ∈ members, P m.2) (motive_4 := fun m => P m.2) null boolean
    integer real string array object (fun _ h => nomatch h)
    (fun _ _ hv hi => List.forall_mem_cons.2 ⟨hv, hi⟩) (fun _ h => nomatch h)
    (fun _ _ hm hms => List.forall_mem_cons.2 ⟨hm, hms⟩) (fun _ _ h => h) v

namespace Sample

theorem ofItems_eq (d : Dialect) (items : List Document.Value) : ofItems d items = items.map (ofValue d) := by
  induction items with
  | nil => rfl
  | cons v items ih => rw [ofItems, ih, List.map_cons]

theorem ofMembers_eq (d : Dialect) (members : List (String × Document.Value)) :
    ofMembers d members = members.map fun m => (Identifier.sanitize d m.1, ofValue d m.2) := by
  induction members with
  | nil => rfl
  | cons m members ih => rw [ofMembers, ih, List.map_cons]

end Sample

/-! ## What is taken in -/

namespace Findings

variable {p : Policy} {w : Findings} {g g' : Gathered}

section

variable (hg : g.registry.WF) (hos : ∀ o ∈ w.objects, o.node.WF) (h : w.into? p g = some g')

include hg hos h

/-- The registry gathers all declared objects. -/
theorem slots_into? : Members.gather? p g.registry.slots (w.objects.map Object.entry) =
    some g'.registry.slots := by
  obtain ⟨g₁, hg₁, rfl⟩ := Option.map_eq_some_iff.1 h
  have hslots := Gathered.gather?_of_declareAll? hg hos hg₁
  exact hslots

theorem wf_into? : g'.registry.WF := by
  obtain ⟨g₁, hg₁, rfl⟩ := Option.map_eq_some_iff.1 h
  have hwf : g₁.registry.WF := Gathered.declareAll?_wf hg hos hg₁
  exact hwf

/-- Afterwards an entry absorbs what it absorbed before, and every object that is declared under its
name. -/
theorem into?_absorbs {name : Identifier} {n : Node}
    (hn : (∃ e, g.registry.find? name = some e ∧ Absorbs p e.node n) ∨
      ∃ o ∈ w.objects, o.entry = (name, n)) :
    ∃ e, g'.registry.find? name = some e ∧ Absorbs p e.node n := by
  have hjoin := Members.gather?_get? (slots_into? hg hos h) name
  have hknown : ∀ m ∈ g.registry.slots.get? name, m.WF := fun m hm => (Registry.wf_node hg hm).1
  have hunder : ∀ m ∈ Members.under (w.objects.map Object.entry) name, m.WF := fun m hm => by
    obtain ⟨o, ho, e⟩ := List.mem_map.1 (Members.mem_under.1 hm)
    obtain rfl : o.entry.2 = m := congrArg Prod.snd e
    exact (hos o ho).setOptional false
  obtain ⟨a, ha, habs⟩ : ∃ a, g'.registry.slots.get? name = some a ∧ Absorbs p a n := by
    refine joinAll?_absorbs hknown hunder hjoin ?_
    rcases hn with ⟨e, he, habs⟩ | ⟨o, ho, e⟩
    · exact .inl ⟨e.node, by rw [Registry.get?_slots, he, Option.map_some], habs⟩
    · exact .inr (Members.mem_under.2 (List.mem_map.2 ⟨o, ho, e⟩))
  rw [Registry.get?_slots] at ha
  obtain ⟨e, he, rfl⟩ := Option.map_eq_some_iff.1 ha
  exact ⟨e, he, habs⟩

/-- The entry of its name absorbs every declared object. -/
theorem absorbs_into? {o : Object} (ho : o ∈ w.objects) :
    ∃ e, g'.registry.find? o.name = some e ∧
      Absorbs p e.node (.object o.name o.members false) :=
  into?_absorbs hg hos h (.inr ⟨o, ho, rfl⟩)

end

/-- What all entries and all declared objects have and a join keeps, every entry has afterwards. -/
theorem known_into? {P : Node → Prop} (hP : ∀ a b k, P a → P b → Joins p a b k → P k)
    (hg : g.registry.WF) (hentries : ∀ e ∈ g.registry.objects, P e.node)
    (hos : ∀ o ∈ w.objects, o.node.WF ∧ o.optional = false ∧ P o.node)
    (h : w.into? p g = some g') {e : Object} (he : e ∈ g'.registry.objects) : P e.node := by
  have hwf := fun o ho => (hos o ho).1
  have hslot : g'.registry.slots.get? e.name = some e.node := by
    rw [Registry.get?_slots, Registry.find?_of_mem (wf_into? hg hwf h) he, Option.map_some]
  have hjoin := Members.gather?_get? (slots_into? hg hwf h) e.name
  rw [hslot] at hjoin
  refine (joinAll?_known hP (fun m hm => ?_) (fun n hn => ?_) hjoin e.node rfl).2
  · rw [Registry.get?_slots] at hm
    obtain ⟨e', he', rfl⟩ := Option.map_eq_some_iff.1 hm
    have hmem := Registry.mem_of_find? he'
    exact ⟨hg.nodes e' hmem, hentries e' hmem⟩
  · obtain ⟨o, ho, e⟩ := List.mem_map.1 (Members.mem_under.1 hn)
    obtain rfl : o.entry.2 = n := congrArg Prod.snd e
    obtain ⟨hwf, hopt, hPo⟩ := hos o ho
    rw [Object.entry_snd hopt]
    exact ⟨hwf, hPo⟩

end Findings

namespace Run

/-! ## One document -/

/-- The document as the object it stands for. -/
def rooted (c : Settings) : Sample → Sample
  | .object members => .object members
  | s => .object [(c.rootName, s)]

/-- An object with the document as its one member, under the name of the root. -/
def wrapped (c : Settings) (v : Document.Value) : Document.Value :=
  .object [(c.rootName.text, v)]

/-- The document as the object it stands for: one that is no object is the member of one. -/
def rootedValue (c : Settings) : Document.Value → Document.Value
  | .object members => .object members
  | v => wrapped c v

/-- The builder sanitizes the name that is written, and comes to that of the root. -/
theorem ofValue_wrapped {c : Settings} (hc : c.sanitize c.rootName.text = c.rootName)
    (v : Document.Value) :
    Sample.ofValue c.dialect (wrapped c v) = .object [(c.rootName, Sample.ofValue c.dialect v)] := by
  have hroot : Identifier.sanitize c.dialect c.rootName.text = c.rootName := hc
  simp only [wrapped, Sample.ofValue, Sample.ofMembers, hroot]

theorem rooted_ofValue {c : Settings} (hc : c.sanitize c.rootName.text = c.rootName)
    (v : Document.Value) : rooted c (Sample.ofValue c.dialect v) = Sample.ofValue c.dialect (rootedValue c v) := by
  cases v with
  | object members => rfl
  | _ => exact (ofValue_wrapped hc _).symm

/-- The node of the root that a document alone shows, and its findings. -/
def shownDocument? (c : Settings) (v : Document.Value) : Option (Node × Findings) :=
  Slot.shown? c [] c.rootName (rooted c (Sample.ofValue c.dialect v))

theorem value?_inferRoot (c : Settings) (s : Sample) (g : Gathered) :
    (inferRoot c s g).value? = (Slot.infer c [] c.rootName (rooted c s) g).value? := by
  have h : ∀ members, (Slot.infer c [] c.rootName (.object members) g).value? =
      (Slot.inferObject c [] c.rootName members g).value? := fun members => by
    rw [Slot.infer_object, value?_bind, value?_emit, Option.bind_some]
  cases s with
  | object members => rfl
  | _ => exact (h _).symm

theorem value?_observe {r r' : Run} {v : Document.Value} :
    (r.observe v).value? = some r' ↔
      ∃ n w g k, shownDocument? r.settings v = some (n, w) ∧
        w.into? r.settings.policy r.gathered = some g ∧
        joinKnown? r.settings.policy r.root n = some k ∧
        r' = ⟨r.settings, g, some k, r.documents + 1⟩ := by
  unfold observe
  simp only [value?_bind, Option.bind_eq_some_iff, Prod.exists, value?_inferRoot,
    Slot.value?_infer, Slot.value?_join, pure_eq, value?_ok, Option.some.injEq]
  constructor
  · rintro ⟨n, g, ⟨w, hs, hw⟩, k, hk, rfl⟩
    exact ⟨n, w, g, k, hs, hw, hk, rfl⟩
  · rintro ⟨n, w, g, k, hs, hw, hk, rfl⟩
    exact ⟨n, g, ⟨w, hs, hw⟩, k, hk, rfl⟩

theorem shownDocuments_wf {c : Settings} {vs : List Document.Value} {ns : List Node} {w : Findings}
    (h : Slot.collect? (shownDocument? c) vs = some (ns, w)) :
    (∀ n ∈ ns, n.WF) ∧ ∀ o ∈ w.objects, o.node.WF ∧ o.optional = false :=
  Slot.collect?_forall (Q := fun _ => True) h (fun _ _ => trivial) fun _ _ _ _ hv _ =>
    Slot.shown?_wf hv

/-! ## All documents -/

/-- A run over documents, and what it comes to by what they show. -/
theorem value?_observeAll {r r' : Run} {vs : List Document.Value} :
    (vs.foldlM observe r).value? = some r' ↔
      ∃ ns w g k, Slot.collect? (shownDocument? r.settings) vs = some (ns, w) ∧
        w.into? r.settings.policy r.gathered = some g ∧
        joinAll? r.settings.policy r.root ns = some k ∧
        r' = ⟨r.settings, g, k, r.documents + vs.length⟩ := by
  induction vs generalizing r with
  | nil =>
    rw [List.foldlM_nil, pure_eq, value?_ok, Option.some.injEq]
    constructor
    · rintro rfl
      exact ⟨[], {}, r.gathered, r.root, rfl, Findings.into?_none .., rfl, rfl⟩
    · rintro ⟨_, _, g, k, ⟨⟩, hw, ⟨⟩, rfl⟩
      rw [Findings.into?_none, Option.some.injEq] at hw
      subst hw
      rfl
  | cons v vs ih =>
    rw [List.foldlM_cons, value?_bind, Option.bind_eq_some_iff]
    constructor
    · rintro ⟨r₁, h₁, h⟩
      obtain ⟨n, w₁, g₁, k₁, hs, hw₁, hk₁, rfl⟩ := value?_observe.1 h₁
      obtain ⟨ns, w, g, k, hss, hw, hk, rfl⟩ := ih.1 h
      refine ⟨n :: ns, w₁.append w, g, k, Slot.collect?_cons.2 ⟨n, w₁, ns, w, hs, hss, rfl, rfl⟩,
        ?_, Option.bind_eq_some_iff.2 ⟨k₁, hk₁, hk⟩, ?_⟩
      · rw [Findings.into?_append, hw₁]
        exact hw
      · simp only [List.length_cons, Nat.add_assoc, Nat.add_comm 1]
    · rintro ⟨_, _, g, k, hall, hw, hk, rfl⟩
      obtain ⟨n, w₁, ns, w, hs, hss, rfl, rfl⟩ := Slot.collect?_cons.1 hall
      rw [Findings.into?_append] at hw
      obtain ⟨g₁, hw₁, hw⟩ := Option.bind_eq_some_iff.1 hw
      obtain ⟨k₁, hk₁, hk⟩ := Option.bind_eq_some_iff.1 hk
      refine ⟨_, value?_observe.2 ⟨n, w₁, g₁, k₁, hs, hw₁, hk₁, rfl⟩,
        ih.2 ⟨ns, w, g, k, hss, hw, hk, ?_⟩⟩
      simp only [List.length_cons, Nat.add_assoc, Nat.add_comm 1]

/-- A text is observed as the document that it holds. -/
theorem value?_observeText {r r' : Run} {text : String} :
    (r.observeText text).value? = some r' ↔
      ∃ v, Document.parse text = .ok v ∧ (r.observe v).value? = some r' := by
  unfold observeText
  simp only [value?_bind, Option.bind_eq_some_iff, value?_mapFault, value?_eq_some,
    Traced.ofExcept]

/-- A run over texts is a run over the documents that they hold. -/
theorem value?_observeTexts {r r' : Run} {texts : List String} :
    (texts.foldlM observeText r).value? = some r' ↔
      ∃ vs, List.Forall₂ (fun text v => Document.parse text = .ok v) texts vs ∧
        (vs.foldlM observe r).value? = some r' := by
  induction texts generalizing r with
  | nil =>
    rw [List.foldlM_nil]
    constructor
    · intro h
      exact ⟨[], .nil, h⟩
    · rintro ⟨_, ⟨⟩, h⟩
      exact h
  | cons text texts ih =>
    rw [List.foldlM_cons, value?_bind, Option.bind_eq_some_iff]
    constructor
    · rintro ⟨r₁, h₁, h⟩
      obtain ⟨v, hv, h₁⟩ := value?_observeText.1 h₁
      obtain ⟨vs, hvs, h⟩ := ih.1 h
      refine ⟨v :: vs, .cons hv hvs, ?_⟩
      rw [List.foldlM_cons, value?_bind]
      exact Option.bind_eq_some_iff.2 ⟨r₁, h₁, h⟩
    · rintro ⟨_, _ | @⟨_, v, _, vs, hv, hvs⟩, h⟩
      rw [List.foldlM_cons, value?_bind] at h
      obtain ⟨r₁, h₁, h⟩ := Option.bind_eq_some_iff.1 h
      exact ⟨r₁, value?_observeText.2 ⟨v, hv, h₁⟩, ih.2 ⟨vs, hvs, h⟩⟩

/-! ## Runs from the start -/

/-- The runs that observing documents one after the other leads to. -/
inductive Reached (c : Settings) : Run → Prop
  | start : Reached c (Run.start c)
  | observe {r r' : Run} {v : Document.Value} (h : Reached c r)
      (ho : (r.observe v).outcome = .ok r') : Reached c r'
  | observeText {r r' : Run} {text : String} (h : Reached c r)
      (ho : (r.observeText text).outcome = .ok r') : Reached c r'

/-- The runs that observing just these documents leads to, in their order, each of them handed over
as it is or as a text. -/
inductive Observed (c : Settings) : List Document.Value → Run → Prop
  | start : Observed c [] (Run.start c)
  | observe {vs : List Document.Value} {r r' : Run} {v : Document.Value} (h : Observed c vs r)
      (ho : (r.observe v).outcome = .ok r') : Observed c (vs ++ [v]) r'
  | observeText {vs : List Document.Value} {r r' : Run} {text : String} {v : Document.Value}
      (h : Observed c vs r) (hv : Document.parse text = .ok v)
      (ho : (r.observeText text).outcome = .ok r') : Observed c (vs ++ [v]) r'

theorem Reached.exists_observed {c : Settings} {r : Run} (h : Reached c r) :
    ∃ vs, Observed c vs r := by
  induction h with
  | start => exact ⟨[], .start⟩
  | observe _ ho ih =>
    obtain ⟨vs, h⟩ := ih
    exact ⟨_, h.observe ho⟩
  | observeText _ ho ih =>
    obtain ⟨vs, h⟩ := ih
    obtain ⟨v, hv, -⟩ := value?_observeText.1 (value?_eq_some.2 ho)
    exact ⟨_, h.observeText hv ho⟩

/-- However the documents are handed over, the run is the one over the documents as they are. -/
theorem Observed.value? {c : Settings} {vs : List Document.Value} {r : Run}
    (h : Observed c vs r) : (vs.foldlM Run.observe (Run.start c)).value? = some r := by
  -- one more document at the end
  have hstep : ∀ {r r' : Run} {vs : List Document.Value} {v : Document.Value},
      (vs.foldlM Run.observe (Run.start c)).value? = some r → (r.observe v).value? = some r' →
      ((vs ++ [v]).foldlM Run.observe (Run.start c)).value? = some r' := by
    intro r r' vs v hvs hv
    rw [List.foldlM_append, value?_bind, hvs, Option.bind_some, List.foldlM_cons, value?_bind, hv]
    rfl
  induction h with
  | start => rfl
  | observe _ ho ih => exact hstep ih (value?_eq_some.2 ho)
  | observeText _ hv ho ih =>
    obtain ⟨v', hv', ho⟩ := value?_observeText.1 (value?_eq_some.2 ho)
    cases hv.symm.trans hv'
    exact hstep ih ho

theorem Reached.observed {c : Settings} {r : Run} (h : Reached c r) :
    ∃ vs : List Document.Value, (vs.foldlM Run.observe (Run.start c)).value? = some r := by
  obtain ⟨vs, h⟩ := h.exists_observed
  exact ⟨vs, h.value?⟩

/-- What a run from the start comes to: `ns` are the nodes that the documents show of the root, and
`w` is all that they declare. -/
structure Outcome (c : Settings) (vs : List Document.Value) (r : Run) (ns : List Node)
    (w : Findings) : Prop where
  settings : r.settings = c
  shown : Slot.collect? (shownDocument? c) vs = some (ns, w)
  gathered : w.into? c.policy {} = some r.gathered
  root : joinAll? c.policy none ns = some r.root
  documents : r.documents = vs.length

/-- A run from the start ends in `r` just where `r` is an outcome of what the documents show. -/
theorem outcome_iff {c : Settings} {vs : List Document.Value} {r : Run} :
    (vs.foldlM observe (start c)).value? = some r ↔ ∃ ns w, Outcome c vs r ns w := by
  rw [value?_observeAll]
  constructor
  · rintro ⟨ns, w, g, k, hs, hw, hk, rfl⟩
    exact ⟨ns, w, rfl, hs, hw, hk, Nat.zero_add _⟩
  · rintro ⟨ns, w, h⟩
    refine ⟨ns, w, _, _, h.shown, h.gathered, h.root, ?_⟩
    obtain ⟨c', g, k, n⟩ := r
    obtain ⟨rfl, -, -, -, rfl⟩ := h
    rw [start, Nat.zero_add]

theorem Observed.exists_outcome {c : Settings} {vs : List Document.Value} {r : Run}
    (h : Observed c vs r) : ∃ ns w, Outcome c vs r ns w := outcome_iff.1 h.value?

namespace Outcome

variable {c : Settings} {vs : List Document.Value} {r : Run} {ns : List Node} {w : Findings}

theorem nodes_wf (h : Outcome c vs r ns w) : ∀ n ∈ ns, n.WF := (shownDocuments_wf h.shown).1

theorem objects_wf (h : Outcome c vs r ns w) : ∀ o ∈ w.objects, o.node.WF ∧ o.optional = false :=
  (shownDocuments_wf h.shown).2

theorem declared (h : Outcome c vs r ns w) :
    ∃ g, Gathered.declareAll? c.policy {} w.objects = some g ∧
      r.gathered = g.addFeatures w.features := by
  obtain ⟨g, hg, e⟩ := Option.map_eq_some_iff.1 h.gathered
  exact ⟨g, hg, e.symm⟩

theorem features (h : Outcome c vs r ns w) : r.gathered.features =
    ({ optionals := r.gathered.registry.hasOptional } : Features).or w.features := by
  obtain ⟨g, hg, e⟩ := h.declared
  have hf : ({} : Gathered).features =
      { optionals := ({} : Gathered).registry.hasOptional } := rfl
  have := Gathered.declareAll?_features Registry.empty_wf (fun o ho => (h.objects_wf o ho).1) hf hg
  rw [e]
  show g.features.or w.features = _
  rw [this]
  rfl

theorem registry_wf (h : Outcome c vs r ns w) : r.gathered.registry.WF :=
  Findings.wf_into? Registry.empty_wf (fun o ho => (h.objects_wf o ho).1) h.gathered

/-- The registry gathers all declared objects. -/
theorem registry (h : Outcome c vs r ns w) :
    Members.gather? c.policy [] (w.objects.map Object.entry) = some r.gathered.registry.slots :=
  Findings.slots_into? Registry.empty_wf (fun o ho => (h.objects_wf o ho).1) h.gathered

/-- The registry has an entry for each name that an object is declared under, and no other one. -/
theorem mem_names_iff (h : Outcome c vs r ns w) {name : Identifier} :
    name ∈ r.gathered.registry.names ↔ ∃ o ∈ w.objects, o.name = name := by
  rw [← Registry.names_slots, Members.mem_names_gather? h.registry]
  simp [Members.names, Object.entry]

/-- The entry of its name absorbs every declared object. -/
theorem absorbs_declared (h : Outcome c vs r ns w) {o : Object} (ho : o ∈ w.objects) :
    ∃ e, r.gathered.registry.find? o.name = some e ∧
      Absorbs c.policy e.node (.object o.name o.members false) :=
  Findings.absorbs_into? Registry.empty_wf (fun o ho => (h.objects_wf o ho).1) h.gathered ho

/-- What all nodes of the documents have and a join keeps, the root has. -/
theorem root_known {P : Node → Prop} (hP : ∀ a b k, P a → P b → Joins c.policy a b k → P k)
    (h : Outcome c vs r ns w) (hns : ∀ n ∈ ns, P n) : Known P r.root :=
  joinAll?_known hP (known_none _) (fun n hn => ⟨h.nodes_wf n hn, hns n hn⟩) h.root

/-- What all declared objects have and a join keeps, every entry has. -/
theorem entry_known {P : Node → Prop} (hP : ∀ a b k, P a → P b → Joins c.policy a b k → P k)
    (h : Outcome c vs r ns w) (ho : ∀ o ∈ w.objects, P o.node) {e : Object}
    (he : e ∈ r.gathered.registry.objects) : P e.node := by
  refine Findings.known_into? hP Registry.empty_wf (List.forall_mem_nil _) (fun o hm => ?_)
    h.gathered he
  obtain ⟨hwf, hopt⟩ := h.objects_wf o hm
  exact ⟨hwf, hopt, ho o hm⟩

end Outcome

end Run

end SchemaInference
