/-
Features, exactly. Arrays, integers, strings and maps are features where documents have them
(`Outcome.flag_iff`). That something may be missing is told by looks at one level each: at the members
of the entry that an object was merged into, and at the elements or values that a fold has come to.
No optional node escapes them, however deep it stands (`Outcome.optionals_of_within`): the elements
and values in a node stay required unless the fold said otherwise (`Node.Dense`), and a member is never
optional unless that of its entry is. Without a warning there is such a node in turn
(`Emitted.exists_optional`).
-/
import SchemaInference.Proofs.Run.Replay
import SchemaInference.Proofs.Run.Seen
import SchemaInference.Proofs.Run.Unwarned

namespace SchemaInference

open Schema Document Traced

/-! ## Nodes without optional elements -/

namespace Schema.Node

/-- A node that carries nothing optional is not optional. -/
theorem isOptional_of_carries {a : Node} (h : a.carriesOptional = false) : a.isOptional = false := by
  cases a with
  | null => cases h
  | scalar s o => exact h
  | array e o => exact (Bool.or_eq_false_iff.1 h).1
  | object n ms o => exact (Bool.or_eq_false_iff.1 h).1
  | map n v o => exact (Bool.or_eq_false_iff.1 h).1

/-- No element of an array and no value of a map in the node is optional; members may be. -/
inductive Dense : Node → Prop
  | null : Dense .null
  | scalar (s : Scalar) (o : Bool) : Dense (.scalar s o)
  | array {e : Node} (o : Bool) (he : e.isOptional = false) (h : Dense e) : Dense (.array e o)
  | object (n : Identifier) {ms : Members} (o : Bool)
      (h : ∀ name a, ms.get? name = some a → Dense a) : Dense (.object n ms o)
  | map (n : Identifier) {v : Node} (o : Bool) (hv : v.isOptional = false) (h : Dense v) :
      Dense (.map n v o)

namespace Dense

variable {p : Policy} {a b k x : Node}

theorem setOptional (h : a.Dense) (o : Bool) : (a.setOptional o).Dense := by
  cases h with
  | null => exact .null
  | scalar s _ => exact .scalar s o
  | array _ he h => exact .array o he h
  | object n _ h => exact .object n o h
  | map n _ hv h => exact .map n o hv h

theorem joins (ha : a.Dense) (hb : b.Dense) (h : Joins p a b k) : k.Dense := by
  induction h with
  | nullRight => exact ha.setOptional true
  | nullLeft => exact hb.setOptional true
  | settled => exact ha.setOptional _
  | scalar => exact .scalar ..
  | array x y hj ih =>
    cases ha with
    | array _ he ha =>
      cases hb with
      | array _ hf hb => exact .array _ (by rw [hj.isOptional, he, hf]; rfl) (ih ha hb)
  | map n x y hj ih =>
    cases ha with
    | map _ _ hv ha =>
      cases hb with
      | map _ _ hu hb => exact .map n _ (by rw [hj.isOptional, hv, hu]; rfl) (ih ha hb)
  | object n x y hn both left right ih =>
    cases ha with
    | object _ _ hms =>
      cases hb with
      | object _ _ hns =>
        refine .object n _ fun name k hk => ?_
        rcases Joins.member_cases hn left right hk with
          ⟨a, b, ha, hb⟩ | ⟨a, ha, -, rfl⟩ | ⟨b, -, hb, rfl⟩
        · exact ih name a b k ha hb hk (hms name a ha) (hns name b hb)
        · exact (hms name a ha).setOptional true
        · exact (hns name b hb).setOptional true

/-- An optional node in one that is covered and not optional itself is a member, or stands in one; so
the entry that absorbs the object around it has an optional member. -/
theorem hasOptional {r : Registry} (hr : r.WF) (h : a.Dense) (hc : a.Covered p r) (hwf : a.WF)
    (ha : a.isOptional = false) (hx : x.Within a) (ho : x.isOptional = true) :
    r.hasOptional = true := by
  induction hx with
  | here => rw [ho] at ha; cases ha
  | element _ _ ih =>
    cases h with
    | array _ he h =>
      cases hc with
      | array _ hc => exact ih h hc hwf.element he
  | value _ _ _ ih =>
    cases h with
    | map _ _ hv h =>
      cases hc with
      | map _ _ hc => exact ih h hc hwf.value hv
  | @member n ms _ m hm _ ih =>
    have hget := Members.get?_of_mem hwf.unique hm
    cases h with
    | object _ _ h =>
      cases hc with
      | @object _ _ e _ he habs hms =>
        rcases hopt : m.2.isOptional with _ | _
        · exact ih (h _ _ hget) (hms _ _ hget) (hwf.member hget) hopt
        · obtain ⟨-, present, both, -⟩ := habs.of_object
          obtain ⟨b, hb⟩ := present _ _ hget
          refine (Registry.hasOptional_iff hr).2 ⟨n, e, he, List.any_eq_true.2 ?_⟩
          exact ⟨_, Members.mem_of_get? hb, (both _ _ _ hb hget).isOptional hopt⟩

end Dense

end Schema.Node

/-! ## What a sample shows -/

theorem Features.Within.optionals {f g : Features} (h : f.Within g) (hg : g.optionals = false) :
    f.optionals = false := by
  rw [← h] at hg
  exact (Bool.or_eq_false_iff.1 hg).1

theorem Findings.optionals_append {w w' : Findings} :
    (w.append w').features.optionals = false ↔
      w.features.optionals = false ∧ w'.features.optionals = false := Bool.or_eq_false_iff

namespace Slot

/-- What holds of every item's outcome without the feature holds of all outcomes without it. -/
theorem collect?_plain {α β : Type} {f : α → Option (β × Findings)} {P : β → Prop}
    {R : Object → Prop} {xs : List α} {ys : List β} {w : Findings}
    (h : collect? f xs = some (ys, w)) (hw : w.features.optionals = false)
    (hf : ∀ x ∈ xs, ∀ y w', f x = some (y, w') → w'.features.optionals = false →
      P y ∧ ∀ o ∈ w'.objects, R o) :
    (∀ y ∈ ys, P y) ∧ ∀ o ∈ w.objects, R o := by
  constructor
  · intro y hy
    obtain ⟨x, hx, w', hfx, -⟩ := collect?_right h hy
    exact (hf x hx y w' hfx ((collect?_within h hx hfx).optionals hw)).1
  · intro o ho
    obtain ⟨x, hx, y, w', hfx, ho, -⟩ := collect?_objects h ho
    exact (hf x hx y w' hfx ((collect?_within h hx hfx).optionals hw)).2 o ho

/-- A fold that has not told of anything optional has come to a node that is not. -/
theorem concluded?_dense {p : Policy} {ns : List Node} {e : Node} {w : Findings}
    (h : concluded? p none ns = some (e, w)) (hw : w.features.optionals = false)
    (hns : ∀ n ∈ ns, n.WF ∧ n.Dense) : e.isOptional = false ∧ e.Dense := by
  refine ⟨?_, (concluded?_known (fun _ _ _ => .joins) .null hns h).2⟩
  obtain ⟨k, -, rfl, rfl⟩ := concluded?_eq_some.1 h
  exact Node.isOptional_of_carries hw

/-- What a sample shows without telling of anything optional is dense. -/
theorem shown?_dense {c : Settings} {s : Sample} {path : Path} {hint : Identifier} {n : Node}
    {w : Findings} (h : shown? c path hint s = some (n, w)) (hw : w.features.optionals = false) :
    n.Dense ∧ ∀ o ∈ w.objects, o.node.Dense := by
  induction s using Sample.induction generalizing path hint n w with
  | null =>
    cases h
    exact ⟨.null, fun o ho => nomatch ho⟩
  | scalar s =>
    cases h
    exact ⟨.scalar s false, fun o ho => nomatch ho⟩
  | array items ih =>
    obtain ⟨ns, w₁, e, w₂, hi, hc, rfl, rfl⟩ := shown?_array.1 h
    rw [Findings.optionals_append, Findings.optionals_append] at hw
    obtain ⟨-, hw₁, hw₂⟩ := hw
    obtain ⟨hns, ho⟩ := collect?_plain hi hw₁ fun s hs _ _ h hw => ih s hs h hw
    obtain ⟨he, hd⟩ := concluded?_dense hc hw₂ fun n hn => ⟨shownItems_wf hi n hn, hns n hn⟩
    refine ⟨.array false he hd, fun o hmem => ?_⟩
    exact ho o ((mem_container_objects hc).1 hmem)
  | object members ih =>
    have hmember : ∀ {slot : Identifier → Identifier} {named w₁},
        collect? (shownMember? c (path ++ [hint]) slot) members = some (named, w₁) →
        w₁.features.optionals = false →
        (∀ m ∈ named, m.2.Dense) ∧ ∀ o ∈ w₁.objects, o.node.Dense := by
      intro slot named w₁ hi hw₁
      exact collect?_plain hi hw₁ fun m hm _ _ h hw => ih m hm (shownMember?_eq_some.1 h).2 hw
    by_cases hp : c.isMapPath (path ++ [hint]) = true
    · obtain ⟨ms, w₁, v, w₂, hi, hc, rfl, rfl⟩ := (shown?_map hp).1 h
      rw [Findings.optionals_append, Findings.optionals_append] at hw
      obtain ⟨-, hw₁, hw₂⟩ := hw
      obtain ⟨hms, ho⟩ := hmember hi hw₁
      obtain ⟨hv, hd⟩ := concluded?_dense hc hw₂
        (List.forall_mem_map.2 fun m hm => ⟨shownMembers_wf hi m hm, hms m hm⟩)
      refine ⟨.map hint false hv hd, fun o hmem => ?_⟩
      exact ho o ((mem_container_objects hc).1 hmem)
    · rw [Bool.not_eq_true] at hp
      obtain ⟨named, w₁, ms, hi, hg, rfl, rfl⟩ := (shown?_object hp).1 h
      rw [Findings.optionals_append] at hw
      obtain ⟨hw₁, -⟩ := hw
      obtain ⟨hnamed, ho⟩ := hmember hi hw₁
      have hd : (Node.object (c.objectName hint.text) ms false).Dense := by
        refine .object _ false fun name a ha => ?_
        refine (Members.gather?_known (fun _ _ _ => Node.Dense.joins) hg ?_ ha).2
        intro n hm
        exact ⟨shownMembers_wf hi _ hm, hnamed _ hm⟩
      refine ⟨hd, fun o hmem => ?_⟩
      rcases mem_append_objects.1 hmem with hmem | hmem
      · exact ho o hmem
      · obtain rfl := List.mem_singleton.1 hmem
        exact hd

/-- An object by itself is not optional. -/
theorem shown?_required {c : Settings} {members : List (Identifier × Sample)} {path : Path}
    {hint : Identifier} {n : Node} {w : Findings}
    (h : shown? c path hint (.object members) = some (n, w)) : n.isOptional = false := by
  by_cases hp : c.isMapPath (path ++ [hint]) = true
  · obtain ⟨ms, w₁, v, w₂, -, -, rfl, -⟩ := (shown?_map hp).1 h
    rfl
  · rw [Bool.not_eq_true] at hp
    obtain ⟨named, w₁, ms, -, -, rfl, -⟩ := (shown?_object hp).1 h
    rfl

end Slot

/-! ## Runs -/

namespace Gathered

variable {p : Policy} {g g' : Gathered}

theorem declareAll?_within {os : List Object} (h : declareAll? p g os = some g') :
    g.features.Within g'.features := by
  induction os generalizing g with
  | nil =>
    cases h
    exact Features.or_self _
  | cons o os ih =>
    obtain ⟨g₁, h₁, h⟩ := Option.bind_eq_some_iff.1 h
    obtain ⟨r, -, rfl⟩ := Option.map_eq_some_iff.1 h₁
    refine Features.Within.trans ?_ (ih h)
    show g.features.Within (g.features.meetOptional _)
    rw [Features.meetOptional_eq]
    exact Features.within_or_left ..

theorem into?_within {w : Findings} (h : w.into? p g = some g') :
    g.features.Within g'.features := by
  obtain ⟨g₁, h₁, rfl⟩ := Option.map_eq_some_iff.1 h
  exact (declareAll?_within h₁).trans (Features.within_or_left ..)

end Gathered

namespace Run

variable {c : Settings} {vs : List Value} {es : List Event} {r r' : Run} {ns : List Node}
  {w : Findings}

/-- A document sets features and resets none. -/
theorem within_observe {v : Value} (h : (r.observe v).value? = some r') :
    r.finish.features.Within r'.finish.features := by
  obtain ⟨n, w, g, k, -, hw, -, rfl⟩ := value?_observe.1 h
  exact Gathered.into?_within hw

namespace Outcome

theorem dense (h : Outcome c vs r ns w) (hw : w.features.optionals = false) :
    (∀ n ∈ ns, n.Dense) ∧ ∀ o ∈ w.objects, o.node.Dense :=
  Slot.collect?_plain h.shown hw fun _ _ _ _ hs hw => Slot.shown?_dense hs hw

/-- A root is not optional, since every document is an object. -/
theorem root_required (h : Outcome c vs r ns w) :
    Known (fun n => n.isOptional = false) r.root := by
  refine h.root_known (fun a b k ha hb hj => ?_) fun n hn => ?_
  · rw [hj.isOptional, ha, hb]
    rfl
  · obtain ⟨v, -, w', hs, -⟩ := Slot.collect?_right h.shown hn
    unfold shownDocument? rooted at hs
    split at hs <;> exact Slot.shown?_required hs

/-- Where an optional node stands in the root or in an entry, the feature is set. -/
theorem optionals_of_within (h : Outcome c vs r ns w) {tree a : Node}
    (ht : r.root = some tree ∨ ∃ e ∈ r.gathered.registry.objects, tree = e.node)
    (ha : a.Within tree) (ho : a.isOptional = true) : r.gathered.features.optionals = true := by
  rcases hw : w.features.optionals with _ | _
  · obtain ⟨hns, hos⟩ := h.dense hw
    refine h.optionals ?_
    rcases ht with hr | ⟨e, he, rfl⟩
    · obtain ⟨hwf, hc⟩ := h.covered_root tree hr
      have hd := (h.root_known (fun _ _ _ => .joins) hns tree hr).2
      exact hd.hasOptional h.registry_wf hc hwf (h.root_required tree hr).2 ha ho
    · have hd := h.entry_known (fun _ _ _ => .joins) hos he
      exact hd.hasOptional h.registry_wf (h.covered_entry he) (h.registry_wf.nodes e he)
        (h.registry_wf.required e he) ha ho
  · rw [h.features]
    show (r.gathered.registry.hasOptional || w.features.optionals) = true
    rw [hw, Bool.or_true]

end Outcome

/-- Findings tell of what is optional. -/
theorem tell_optionals :
    Findings.Tell (fun w => w.features.optionals = true) fun a => a.isOptional = true where
  none := Bool.false_ne_true
  append _ _ := Bool.or_eq_true_iff.1
  kind k := by
    intro h
    rcases k with _ | ⟨_ | _ | _ | _⟩ | _ | _ | _ <;> first | exact ⟨rfl, rfl⟩ | cases h
  optional _ := Node.Within.of_carriesOptional
  object _ h := nomatch h
  absorbs _ _ := Absorbs.isOptional

/-- Without a warning, the feature is only set where an optional node stands in the root or in an
entry. -/
theorem Emitted.exists_optional (h : Emitted c vs es r) (hq : c.policy = .strict ∨ Quiet es)
    (ho : r.finish.features.optionals = true) :
    ∃ tree, (tree = r.finish.root ∨ ∃ e ∈ r.finish.registry.objects, tree = e.node) ∧
      ∃ a : Node, a.Within tree ∧ a.isOptional = true := by
  obtain ⟨ns, w, hs⟩ := h.exists_strict hq
  have ho : (r.under .strict).gathered.features.optionals = true := ho
  rw [hs.features] at ho
  rcases Bool.or_eq_true_iff.1 ho with ho | ho
  · obtain ⟨e, he, hany⟩ := List.any_eq_true.1 ho
    obtain ⟨m, hm, hopt⟩ := List.any_eq_true.1 hany
    exact ⟨e.node, .inr ⟨e, he, rfl⟩, m.2, .member _ _ hm .here, hopt⟩
  · obtain ⟨root, a, hr, ha, hopt⟩ := hs.stands tell_optionals rfl ho
    refine ⟨root, .inl ?_, a, ha, hopt⟩
    show root = r.root.getD .null
    rw [show r.root = some root from hr, Option.getD_some]

/-- With a document there is a root. -/
theorem Outcome.exists_root (h : Outcome c vs r ns w) (hvs : vs ≠ []) :
    ∃ root, r.root = some root := by
  obtain ⟨v, hv⟩ := List.exists_mem_of_ne_nil vs hvs
  obtain ⟨n, hn, -⟩ := Slot.collect?_left h.shown hv
  obtain ⟨root, hroot, -⟩ := joinAll?_of_mem h.nodes_wf h.root hn
  exact ⟨root, hroot⟩

/-- What the features of a run say of its documents, and of the schema that these have come to. -/
structure FeaturesExact (c : Settings) (vs : List Value) (es : List Event) (r : Run) : Prop where
  arrays : r.finish.features.arrays = true ↔ ∃ v ∈ vs, v.Contains .array
  integrals : r.finish.features.integrals = true ↔ ∃ v ∈ vs, v.Contains (.scalar .integer)
  strings : r.finish.features.strings = true ↔ ∃ v ∈ vs, v.Contains (.scalar .string)
  maps : r.finish.features.maps = true ↔ ∃ v ∈ vs, v.HasMap c
  optionals : ∀ tree, (vs ≠ [] ∧ tree = r.finish.root) ∨
      (∃ e ∈ r.finish.registry.objects, tree = e.node) →
    ∀ a : Node, a.Within tree → a.isOptional = true → r.finish.features.optionals = true
  exists_optional : c.policy = .strict ∨ Quiet es → r.finish.features.optionals = true →
    ∃ tree, (tree = r.finish.root ∨ ∃ e ∈ r.finish.registry.objects, tree = e.node) ∧
      ∃ a : Node, a.Within tree ∧ a.isOptional = true
  /-- One more document resets no feature. -/
  kept : ∀ r', (∃ v, (r.observe v).outcome = .ok r') ∨
      (∃ text, (r.observeText text).outcome = .ok r') →
    r.finish.features.Within r'.finish.features

/-- The features of every run are exact, under either policy. -/
theorem Emitted.featuresExact (h : Emitted c vs es r) : FeaturesExact c vs es r := by
  obtain ⟨ns, w, ho⟩ := h.observed.exists_outcome
  -- scalars and arrays are the same ones in a document and in the object that it stands for
  have hcontains : ∀ {F : Features → Bool} {k : Kind}, Features.Flag F k → k ≠ .map →
      k ≠ .object → (F r.finish.features = true ↔ ∃ v ∈ vs, v.Contains k) := by
    intro F k hF hm hobj
    rw [ho.flag_iff hF (Slot.spots_within hm hobj)]
    simp only [Slot.inDocument_contains hm]
  constructor
  · exact hcontains Features.flag_arrays Kind.noConfusion Kind.noConfusion
  · exact hcontains Features.flag_integrals Kind.noConfusion Kind.noConfusion
  · exact hcontains Features.flag_strings Kind.noConfusion Kind.noConfusion
  · rw [ho.flag_iff Features.flag_maps Slot.spots_maps]
    simp only [Slot.inDocument_holdsMap]
  · intro tree ht a ha hopt
    refine ho.optionals_of_within (ht.imp_left ?_) ha hopt
    rintro ⟨hvs, rfl⟩
    obtain ⟨root, hroot⟩ := ho.exists_root hvs
    show r.root = some (r.root.getD .null)
    rw [hroot, Option.getD_some]
  · exact h.exists_optional
  · rintro r' (⟨v, hv⟩ | ⟨text, ht⟩)
    · exact within_observe (value?_eq_some.2 hv)
    · obtain ⟨v, -, hv⟩ := value?_observeText.1 (value?_eq_some.2 ht)
      exact within_observe hv

/-- Every feature is set, and the strings are those of a map. -/
theorem Emitted.featuresExact_all :
    ∃ (c : Settings) (es : List Event) (r : Run),
      FeaturesExact c [.object [("m", .object [("k", .string "s")]),
        ("xs", .array [.integer "1", .null])]] es r ∧
      r.finish.features = ⟨true, true, true, true, true⟩ := by
  let c := Settings.default.withMapPath "m"
  let v : Value := .object [("m", .object [("k", .string "s")]),
    ("xs", .array [.integer "1", .null])]
  have hrun : ((Run.start c).observe v).value?.map (·.finish.features) =
      some ⟨true, true, true, true, true⟩ := by decide +kernel
  obtain ⟨r, hr, hfeatures⟩ := Option.map_eq_some_iff.1 hrun
  exact ⟨c, _, r, (Emitted.start.observe (value?_eq_some.1 hr)).featuresExact, hfeatures⟩

/-- Without any document the root is null, which is optional, but no feature is set. -/
theorem Emitted.optionals_without_documents :
    Emitted .default [] [] (Run.start .default) ∧
      ¬ ∀ tree, (tree = (Run.start .default).finish.root ∨
          ∃ e ∈ (Run.start .default).finish.registry.objects, tree = e.node) →
        ∀ a : Node, a.Within tree → a.isOptional = true →
          (Run.start .default).finish.features.optionals = true :=
  ⟨.start, fun h => Bool.false_ne_true (h .null (.inl rfl) .null .here rfl)⟩

end Run

end SchemaInference
