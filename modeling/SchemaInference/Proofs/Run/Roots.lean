/-
The roots of documents always go together. Two nodes of one place are maps or objects alike, since
the map paths say which, and have the names of their slots; so under the lenient policy they join
(`Node.Fits.exists_joins`). Under the strict policy a kind could still clash, but of two objects of
one name that the registry covers, its entry absorbs both (`Node.Covered.exists_joins`), and once a
document is inferred, the registry covers its root as well as the one before. Where the root is no
map, a document that can be inferred is therefore one that can be observed (`Reached.roots_join`).
-/
import SchemaInference.Proofs.Run.Closed
import SchemaInference.Proofs.Run.Naming
import SchemaInference.Proofs.Run.Places

namespace SchemaInference

open Schema Traced

namespace Schema.Node

/-! ## Nodes that go together -/

/-- Nodes of one place join under the lenient policy: what does not go together there is settled. -/
theorem Fits.exists_joins {c : Settings} {path : Path} {hint : Identifier} {a b : Node}
    (ha : a.Fits c path hint) (hb : b.Fits c path hint) (hwa : a.WF) (hwb : b.WF)
    (hna : a.Named c hint) (hnb : b.Named c hint) : ∃ k, Joins .preferFirst a b k := by
  induction ha generalizing b with
  | null => exact ⟨_, .nullLeft b⟩
  | scalar path hint s x =>
    cases hb with
    | null => exact ⟨_, .nullRight _⟩
    | scalar _ _ t y =>
      rcases hu : s.join? t with _ | u
      · exact ⟨_, .settled rfl (by simp [kind, Kind.clashes, hu])⟩
      · exact ⟨_, .scalar x y hu⟩
    | _ => exact ⟨_, .settled rfl rfl⟩
  | @array path hint e x _ ih =>
    cases hb with
    | null => exact ⟨_, .nullRight _⟩
    | array y he =>
      obtain _ | _ | ⟨_, hna⟩ := hna
      obtain _ | _ | ⟨_, hnb⟩ := hnb
      obtain ⟨k, hk⟩ := ih he hwa.element hwb.element hna hnb
      exact ⟨_, .array x y hk⟩
    | _ => exact ⟨_, .settled rfl rfl⟩
  | @map path hint v x hp _ ih =>
    cases hb with
    | null => exact ⟨_, .nullRight _⟩
    | map y _ hv =>
      cases hna with
      | map _ _ _ hna =>
        cases hnb with
        | map _ _ _ hnb =>
          obtain ⟨k, hk⟩ := ih hv hwa.value hwb.value hna hnb
          exact ⟨_, .map hint x y hk⟩
    | object _ _ hp' => cases hp.symm.trans hp'
    | _ => exact ⟨_, .settled rfl rfl⟩
  | @object path hint n ms x hp _ _ ih =>
    cases hb with
    | null => exact ⟨_, .nullRight _⟩
    | @object _ _ _ ns y _ _ hns =>
      -- both are named after the slot
      cases hna with
      | object _ _ hna =>
        cases hnb with
        | object _ _ hnb =>
          obtain ⟨ks, hks⟩ := exists_merged (J := Joins .preferFirst) hwa.unique hwb.unique
            fun name a b ha hb => ih name a ha (hns name b hb) (hwa.member ha) (hwb.member hb)
              (hna _ (Members.mem_of_get? ha)) (hnb _ (Members.mem_of_get? hb))
          exact ⟨_, joins_object.2 ⟨rfl, ks, hks, rfl⟩⟩
    | map _ hp' => cases hp'.symm.trans hp
    | _ => exact ⟨_, .settled rfl rfl⟩

/-- Objects of one name that the registry covers join under the strict policy: the entry of that name
bounds them both. -/
theorem Covered.exists_joins {r : Registry} {n : Identifier} {ms ns : Members} {x y : Bool}
    (ha : (Node.object n ms x).Covered .strict r) (hb : (Node.object n ns y).Covered .strict r)
    (hwa : (Node.object n ms x).WF) (hwb : (Node.object n ns y).WF) :
    ∃ k, Joins .strict (.object n ms x) (.object n ns y) k := by
  cases ha with
  | object _ hea ha _ =>
    cases hb with
    | object _ heb hb _ =>
      rw [hea, Option.some.injEq] at heb
      subst heb
      obtain ⟨k, hk⟩ := Schema.exists_joins (hwa.setOptional false) (hwb.setOptional false) ha hb
      obtain ⟨-, ks, hks, -⟩ := joins_object.1 hk
      exact ⟨_, joins_object.2 ⟨rfl, ks, hks, rfl⟩⟩

/-! ## Roots -/

/-- An object named after the root, its members in their places. -/
def IsRoot (c : Settings) (n : Node) : Prop :=
  ∃ (ms : Members) (o : Bool), n = .object (c.objectName c.rootName.text) ms o ∧
    ∀ (name : Identifier) (a : Node), ms.get? name = some a → a.Fits c [c.rootName] name

theorem IsRoot.joins {c : Settings} {p : Policy} {a b k : Node} (ha : a.IsRoot c) (hb : b.IsRoot c)
    (h : Joins p a b k) : k.IsRoot c := by
  obtain ⟨ms, x, rfl, hms⟩ := ha
  obtain ⟨ns, y, rfl, hns⟩ := hb
  obtain ⟨-, ks, hks, rfl⟩ := joins_object.1 h
  refine ⟨ks, _, rfl, fun name k hk => ?_⟩
  rcases Joins.member_cases hks.names hks.left hks.right hk with
    ⟨a, b, ha, hb⟩ | ⟨a, ha, -, rfl⟩ | ⟨b, -, hb, rfl⟩
  · exact (hms name a ha).joins (hns name b hb) (hks.both name a b k ha hb hk)
  · exact (hms name a ha).setOptional true
  · exact (hns name b hb).setOptional true

end Schema.Node

namespace Run

variable {c : Settings} {vs : List Document.Value} {v : Document.Value} {r : Run} {n : Node}
  {ns : List Node} {w w' : Findings} {g : Gathered}

/-- What stands for a document that is no object has the document for its one member. -/
theorem shown?_wrapped {s : Sample} (hs : s.Spelled) (hc : c.isMapPath [c.rootName] = false)
    (h : Slot.shown? c [] c.rootName (.object [(c.rootName, s)]) = some (n, w)) : n.IsRoot c := by
  obtain ⟨named, w₁, ms, hi, hg, rfl, -⟩ := (Slot.shown?_object hc).1 h
  refine ⟨ms, false, rfl, fun name a ha => ?_⟩
  refine (Members.gather?_known (fun _ _ _ => Node.Fits.joins) hg (fun m hm => ?_) ha).2
  obtain ⟨s', hs', w', hshown, -⟩ := Slot.collect?_right hi hm
  obtain rfl := List.mem_singleton.1 hs'
  obtain ⟨hname, hshown⟩ := Slot.shownMember?_eq_some.1 hshown
  obtain rfl : c.rootName = name := hname
  exact ⟨(Slot.shown?_wf hshown).1, Slot.shown?_fits hs hshown⟩

theorem shownDocument?_isRoot (hc : c.isMapPath [c.rootName] = false)
    (h : shownDocument? c v = some (n, w)) : n.IsRoot c := by
  have hspelled := Sample.spelled_ofValue c.dialect v
  unfold shownDocument? at h
  cases v with
  | object members =>
    have hfits := Slot.shown?_fits hspelled h
    obtain ⟨-, -, ms, -, -, rfl, -⟩ := (Slot.shown?_object hc).1 h
    cases hfits with
    | object _ _ _ _ hms => exact ⟨ms, false, rfl, hms⟩
  | _ => exact shown?_wrapped hspelled hc h

/-- Whatever the document has brought, the registry covers its root and the one before. -/
theorem Outcome.covered_roots (h : Outcome c vs r ns w) (hs : shownDocument? c v = some (n, w'))
    (hw : w'.into? c.policy r.gathered = some g) :
    Known (Node.Covered c.policy g.registry) r.root ∧ n.Covered c.policy g.registry := by
  obtain ⟨⟨-, hn⟩, hos⟩ := Slot.covered_shown h.registry_wf hs (fun _ ho => ho)
    (fun o ho => ((Slot.shown?_wf hs).2 o ho).1) hw
  have hbelow := (Findings.closed_into? h.closed hos hw).2
  refine ⟨fun m hm => ?_, hn⟩
  obtain ⟨hwf, hm⟩ := h.covered_root m hm
  exact ⟨hwf, hm.mono hbelow⟩

theorem Outcome.isRoot (h : Outcome c vs r ns w) (hc : c.isMapPath [c.rootName] = false) :
    Known (Node.IsRoot c) r.root := by
  refine h.root_known (fun _ _ _ => .joins) fun n hn => ?_
  obtain ⟨v, -, w', hv, -⟩ := Slot.collect?_right h.shown hn
  exact shownDocument?_isRoot hc hv

/-- The root of one document more joins with the root there is. -/
theorem Outcome.exists_joinKnown (h : Outcome c vs r ns w) (hr : Named c r)
    (hc : c.isMapPath [c.rootName] = false) (hs : shownDocument? c v = some (n, w'))
    (hn : n.Named c c.rootName) (hw : w'.into? c.policy r.gathered = some g) :
    ∃ k, joinKnown? c.policy r.root n = some k := by
  rcases hroot : r.root with _ | m
  · exact ⟨n, rfl⟩
  have hwn := (Slot.shown?_wf hs).1
  obtain ⟨hknown, hcovered⟩ := h.covered_roots hs hw
  obtain ⟨hwm, hm⟩ := hknown m hroot
  obtain ⟨ms, x, rfl, hms⟩ := (h.isRoot hc m hroot).2
  obtain ⟨ns, y, rfl, hns⟩ := shownDocument?_isRoot hc hs
  suffices hk : ∃ k, Joins c.policy (.object (c.objectName c.rootName.text) ms x)
      (.object (c.objectName c.rootName.text) ns y) k by
    obtain ⟨k, hk⟩ := hk
    exact ⟨k, (joinKnown?_of_some hwm hwn).2 hk⟩
  rcases hp : c.policy with _ | _
  · rw [hp] at hm hcovered
    exact hm.exists_joins hcovered hwm hwn
  · have hnm := hr.root _ hroot
    cases hnm with
    | object _ _ hnm =>
      cases hn with
      | object _ _ hn =>
        obtain ⟨ks, hks⟩ := exists_merged (J := Joins .preferFirst) hwm.unique hwn.unique
          fun name a b ha hb => (hms name a ha).exists_joins (hns name b hb) (hwm.member ha)
            (hwn.member hb) (hnm _ (Members.mem_of_get? ha)) (hn _ (Members.mem_of_get? hb))
        exact ⟨_, joins_object.2 ⟨rfl, ks, hks, rfl⟩⟩

/-- After a document is inferred, its root joins with the root of all documents before. -/
theorem Reached.exists_root (h : Reached c r) (hc : c.isMapPath [c.rootName] = false)
    (hn : (inferRoot c (Sample.ofValue c.dialect v) r.gathered).value? = some (n, g)) :
    ∃ root, (Slot.join c [] c.rootName r.root n).value? = some root := by
  obtain ⟨vs, hvs⟩ := h.observed
  obtain ⟨ns, w, ho⟩ := outcome_iff.1 hvs
  have hnamed : n.Named c c.rootName := (((invariant_named c).keeps_inferRoot trivial v
    (named_iff.1 h.named).registry).of_ok (value?_eq_some.1 hn)).1
  rw [value?_inferRoot] at hn
  obtain ⟨w', hs, hw⟩ := (Slot.value?_infer ..).1 hn
  rw [Slot.value?_join]
  exact ho.exists_joinKnown h.named hc hs hnamed hw

/-- Where the root is no map, a document that can be inferred can be observed: its root goes together
with the root of all documents before, under either policy. -/
theorem Reached.roots_join (h : Reached c r) (hc : [c.rootName] ∉ c.mapPaths)
    (hn : (inferRoot c (Sample.ofValue c.dialect v) r.gathered).outcome = .ok (n, g)) :
    ∃ root, (Slot.join c [] c.rootName r.root n).outcome = .ok root ∧
      (r.observe v).outcome = .ok ⟨c, g, some root, r.documents + 1⟩ := by
  have hn := value?_eq_some.2 hn
  obtain ⟨root, hroot⟩ := h.exists_root (decide_eq_false hc) hn
  refine ⟨root, value?_eq_some.1 hroot, value?_eq_some.1 ?_⟩
  unfold Run.observe
  simp only [h.named.settings, value?_bind, hn, hroot, Option.bind_some, pure_eq, value?_ok]

/-- The entry `a_t` keeps the integer `x` that came first, where the root has a string below
`root.b`: a boolean there clashes with both, and the roots go together. -/
theorem Reached.roots_join_after_clash :
    ∃ r n g root, Reached .default r ∧
      r.root = some (.object ⟨"root_object_t"⟩
        [(⟨"a"⟩, .object ⟨"a_t"⟩ [(⟨"x"⟩, .scalar .integer false)] false),
          (⟨"b"⟩, .array (.object ⟨"b_element_t"⟩
            [(⟨"a"⟩, .object ⟨"a_t"⟩ [(⟨"x"⟩, .scalar .string false)] false)] false) false)]
        false) ∧
      (r.gathered.registry.find? ⟨"a_t"⟩).map (·.members) =
        some [(⟨"x"⟩, .scalar .integer false)] ∧
      (inferRoot .default (Sample.ofValue Settings.default.dialect
        (.object [("b", .array [.object [("a", .object [("x", .boolean true)])]])]))
        r.gathered).outcome = .ok (n, g) ∧
      (Slot.join .default [] ⟨"root_object"⟩ r.root n).outcome = .ok root := by
  let below : Document.Value → Document.Value := fun v =>
    .array [.object [("a", .object [("x", v)])]]
  let run := (Run.start .default).observe (.object [("a", .object [("x", .integer "1")]),
    ("b", below (.string "s"))])
  have hroot : run.value?.map (·.root) = some (some (.object ⟨"root_object_t"⟩
      [(⟨"a"⟩, .object ⟨"a_t"⟩ [(⟨"x"⟩, .scalar .integer false)] false),
        (⟨"b"⟩, .array (.object ⟨"b_element_t"⟩
          [(⟨"a"⟩, .object ⟨"a_t"⟩ [(⟨"x"⟩, .scalar .string false)] false)] false) false)]
        false)) := by
    decide +kernel
  have hentry : (run.value?.bind fun r => r.gathered.registry.find? ⟨"a_t"⟩).map (·.members) =
      some [(⟨"x"⟩, .scalar .integer false)] := by
    decide +kernel
  have hinfers : (run.value?.bind fun r => (inferRoot .default (Sample.ofValue
      Settings.default.dialect (.object [("b", below (.boolean true))])) r.gathered).value?).isSome := by
    decide +kernel
  rcases hr : run.value? with _ | r
  · rw [hr] at hroot
    cases hroot
  rw [hr] at hroot hentry hinfers
  obtain ⟨⟨n, g⟩, hn⟩ := Option.isSome_iff_exists.1 hinfers
  have hreached : Reached .default r := .observe .start (value?_eq_some.1 hr)
  have hn := value?_eq_some.1 hn
  obtain ⟨root, hjoin, -⟩ := hreached.roots_join (v := .object [("b", below (.boolean true))])
    (by decide) hn
  exact ⟨r, n, g, root, hreached, Option.some.inj hroot, hentry, hn, hjoin⟩

end Run

end SchemaInference
