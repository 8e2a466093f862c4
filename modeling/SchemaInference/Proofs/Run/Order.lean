/-
Order independence under the strict policy. Documents in another order, with items and members in
another order at any depth, lead to the same schema up to the order of members and entries, or both
fail (`observeAll_rearranged`). Such documents are in any relation that holds of samples whose parts
are in it, whatever the order of these (`Sample.Congruence.documents`). The root and the registry are joins of alike nodes; whether
anything optional was met while objects were declared can be read off the registry at the end, since
an entry keeps its optional members (`declareAll?_features`).
-/
import SchemaInference.Proofs.Run.Alike
import SchemaInference.Proofs.Run.Documents

namespace SchemaInference

open Schema Document

/-! ## Rearranged values -/

/-- The same value, but for the order of items and members at any depth. -/
inductive Document.Value.Rearranged : Value → Value → Prop
  | refl (v : Value) : Rearranged v v
  | trans {u v w : Value} (h : Rearranged u v) (h' : Rearranged v w) : Rearranged u w
  | items {xs ys : List Value} (h : xs.Perm ys) : Rearranged (.array xs) (.array ys)
  | item (xs ys : List Value) {v w : Value} (h : Rearranged v w) :
      Rearranged (.array (xs ++ v :: ys)) (.array (xs ++ w :: ys))
  | members {ms ns : List (String × Value)} (h : ms.Perm ns) : Rearranged (.object ms) (.object ns)
  | member (ms ns : List (String × Value)) (name : String) {v w : Value} (h : Rearranged v w) :
      Rearranged (.object (ms ++ (name, v) :: ns)) (.object (ms ++ (name, w) :: ns))

/-- A relation that samples are in whose parts are, in whatever order these stand. -/
structure Sample.Congruence (R : Sample → Sample → Prop) : Prop where
  refl : ∀ s, R s s
  trans : ∀ {s s' s''}, R s s' → R s' s'' → R s s''
  array : ∀ {items items'}, Matched R items items' → R (.array items) (.array items')
  object : ∀ {members members' : List (Identifier × Sample)},
    Matched (fun m m' => m.1 = m'.1 ∧ R m.2 m'.2) members members' →
      R (.object members) (.object members')

/-- Rearranged values are in it, and so they are as documents. -/
theorem Sample.Congruence.of_rearranged {R : Sample → Sample → Prop} (hR : Congruence R)
    (c : Settings) {v w : Value} (h : Value.Rearranged v w) :
    R (.ofValue c.dialect v) (.ofValue c.dialect w) ∧
      R (Run.rooted c (.ofValue c.dialect v)) (Run.rooted c (.ofValue c.dialect w)) := by
  have hself : ∀ m : Identifier × Sample, m.1 = m.1 ∧ R m.2 m.2 := fun m => ⟨rfl, hR.refl m.2⟩
  have harray : ∀ {xs ys : List Sample}, Matched R xs ys →
      R (.array xs) (.array ys) ∧
        R (Run.rooted c (.array xs)) (Run.rooted c (.array ys)) := fun hm => by
    have ha := hR.array hm
    exact ⟨ha, hR.object (.singleton ⟨rfl, ha⟩)⟩
  induction h with
  | refl v => exact ⟨hR.refl _, hR.refl _⟩
  | trans _ _ ih ih' => exact ⟨hR.trans ih.1 ih'.1, hR.trans ih.2 ih'.2⟩
  | items h =>
    refine harray (matched_of_perm hR.refl ?_)
    rw [Sample.ofItems_eq, Sample.ofItems_eq]
    exact h.map _
  | item xs ys _ ih =>
    refine harray ?_
    rw [Sample.ofItems_eq, Sample.ofItems_eq, List.map_append, List.map_append, List.map_cons,
      List.map_cons]
    exact matched_of_middle hR.refl _ _ ih.1
  | members h =>
    have ha := hR.object (matched_of_perm hself
      (h.map fun m => (Identifier.sanitize c.dialect m.1, Sample.ofValue c.dialect m.2)))
    rw [← Sample.ofMembers_eq, ← Sample.ofMembers_eq] at ha
    exact ⟨ha, ha⟩
  | @member ms ns name v w _ ih =>
    have hpair : (fun m m' : Identifier × Sample => m.1 = m'.1 ∧ R m.2 m'.2)
        (Identifier.sanitize c.dialect name, Sample.ofValue c.dialect v)
        (Identifier.sanitize c.dialect name, Sample.ofValue c.dialect w) := ⟨rfl, ih.1⟩
    have ha := hR.object (matched_of_middle hself (Sample.ofMembers c.dialect ms)
      (Sample.ofMembers c.dialect ns) hpair)
    have heq : ∀ v, Sample.ofMembers c.dialect (ms ++ (name, v) :: ns) =
        Sample.ofMembers c.dialect ms ++
          (Identifier.sanitize c.dialect name, Sample.ofValue c.dialect v) ::
            Sample.ofMembers c.dialect ns := fun v => by
      simp only [Sample.ofMembers_eq, List.map_append, List.map_cons]
    rw [← heq, ← heq] at ha
    exact ⟨ha, ha⟩

/-- Documents in another order, each of them rearranged, are matched by such a relation. -/
theorem Sample.Congruence.documents {R : Sample → Sample → Prop} (hR : Congruence R)
    (c : Settings) {vs us vs' : List Value} (hp : vs.Perm us)
    (hr : List.Forall₂ Value.Rearranged us vs') :
    Matched (fun v v' => R (Run.rooted c (.ofValue c.dialect v))
      (Run.rooted c (.ofValue c.dialect v'))) vs vs' := by
  have hperm : Matched Eq vs us := matched_of_perm (fun _ => rfl) hp
  refine hperm.trans (matched_of_forall₂ hr) ?_
  rintro v _ v' rfl h
  exact (hR.of_rearranged c h).2

theorem Slot.AlikeSamples.congruence {c : Settings} (hc : c.policy = .strict) :
    Sample.Congruence (AlikeSamples c) where
  refl := refl c
  trans := trans
  array := array hc
  object := object hc

/-! ## Outcomes up to order -/

/-- The same entries in another order, each of them alike. -/
structure Registry.Alike (r r' : Registry) : Prop where
  names : r.names.Perm r'.names
  both : ∀ name e e', r.find? name = some e → r'.find? name = some e' → e.node.Alike e'.node

/-- The same outcome, but for the order of entries and of members at any depth. -/
structure Inferred.Alike (i i' : Inferred) : Prop where
  root : i.root.Alike i'.root
  registry : i.registry.Alike i'.registry
  features : i.features = i'.features
  documents : i.documents = i'.documents

namespace Registry

variable {r r' : Registry}

theorem alike_of_slots (h : Members.Alike r.slots r'.slots) : r.Alike r' := by
  refine ⟨?_, fun name e e' he he' => h.both name _ _ ?_ ?_⟩
  · rw [← names_slots, ← names_slots]
    exact h.names
  · rw [get?_slots, he, Option.map_some]
  · rw [get?_slots, he', Option.map_some]

theorem Alike.symm (h : r.Alike r') : r'.Alike r :=
  ⟨h.names.symm, fun name e e' he he' => (h.both name e' e he' he).symm⟩

theorem Alike.hasOptional (h : r.Alike r') (hr : r.WF) (hr' : r'.WF) :
    r.hasOptional = r'.hasOptional := by
  have hle : ∀ {r r' : Registry}, r.Alike r' → r.WF → r'.WF → r.hasOptional = true →
      r'.hasOptional = true := by
    intro r r' h hr hr' ho
    obtain ⟨name, e, he, ho⟩ := (hasOptional_iff hr).1 ho
    obtain ⟨e', he'⟩ := mem_names_iff.1 (h.names.mem_iff.1 (mem_names_iff.2 ⟨e, he⟩))
    have hn := h.both name e e' he he'
    refine (hasOptional_iff hr').2 ⟨name, e', he', ?_⟩
    exact Members.any_isOptional_of_absorbs (p := .strict) hn.symm.absorbs
      (hr'.nodes e' (mem_of_find? he')).unique (hr.nodes e (mem_of_find? he)).unique ho
  exact Bool.eq_iff_iff.2 ⟨hle h hr hr', hle h.symm hr' hr⟩

end Registry

namespace Run

variable {c : Settings} {vs vs' : List Value} {r : Run} {ns : List Node} {w : Findings}

/-- Objects that are declared once and alike objects gather into alike registries. -/
theorem Outcome.declared_alike (hc : c.policy = .strict) (h : Outcome c vs r ns w) {w' : Findings}
    (hwf : ∀ o ∈ w'.objects, o.node.WF ∧ o.optional = false) (hw : w.Alike w') :
    ∃ g, Gathered.declareAll? .strict {} w'.objects = some g ∧
      r.gathered.registry.Alike g.registry := by
  have hentries : Matched (fun m m' : Identifier × Node => m.1 = m'.1 ∧ m.2.Alike m'.2)
      (w.objects.map Object.entry) (w'.objects.map Object.entry) := by
    refine .map _ _ (hw.objects.imp fun o ho o' ho' h' => ⟨h'.1, ?_⟩)
    rw [Object.entry_snd (h.objects_wf o ho).2, Object.entry_snd (hwf o' ho').2]
    exact h'.2
  have hreg := h.registry
  rw [hc] at hreg
  obtain ⟨slots, hslots, ha⟩ := Members.gather?_alike
    (List.forall_mem_map.2 fun o ho => (h.objects_wf o ho).1.setOptional false)
    (List.forall_mem_map.2 fun o ho => (hwf o ho).1.setOptional false) hentries hreg
  have hdecl := Gathered.slots_declareAll? (p := .strict) (g := {}) Registry.empty_wf
    (fun o ho => (hwf o ho).1)
  have hslots : Members.gather? .strict ({} : Gathered).registry.slots
      (w'.objects.map Object.entry) = some slots := hslots
  rw [hslots] at hdecl
  obtain ⟨g, hg, rfl⟩ := Option.map_eq_some_iff.1 hdecl
  exact ⟨g, hg, Registry.alike_of_slots ha⟩

/-- Documents that show the same, matched in any way, come to the same outcome up to order. -/
theorem Outcome.alike (hc : c.policy = .strict) (h : Outcome c vs r ns w)
    (hm : Matched (fun v v' => Slot.AlikeSamples c (rooted c (.ofValue c.dialect v))
      (rooted c (.ofValue c.dialect v'))) vs vs') (hlen : vs.length = vs'.length) :
    ∃ r' ns' w', Outcome c vs' r' ns' w' ∧ Inferred.Alike r.finish r'.finish := by
  have hshown : Shows (Matched Node.Alike) (Slot.collect? (shownDocument? c) vs)
      (Slot.collect? (shownDocument? c) vs') :=
    Slot.collect?_shows (hm.imp fun _ _ _ _ h => h [] c.rootName)
  rw [h.shown] at hshown
  obtain ⟨ns', w', hshown', hns, hw⟩ := hshown.of_some
  obtain ⟨hwf, howf⟩ := shownDocuments_wf hshown'
  have hroot := h.root
  rw [hc] at hroot
  obtain ⟨k, hk, hrel⟩ := joinAll?_alike h.nodes_wf hwf hns hroot
  obtain ⟨g, hg, hregistry⟩ := h.declared_alike hc howf hw
  -- the run over the other documents, put together from what they show
  have houtcome : Outcome c vs' ⟨c, g.addFeatures w'.features, k, vs'.length⟩ ns' w' := by
    refine ⟨rfl, hshown', ?_, ?_, rfl⟩
    · unfold Findings.into?
      rw [hc, hg, Option.map_some]
    · rw [hc]
      exact hk
  refine ⟨_, ns', w', houtcome, ?_, hregistry, ?_, h.documents.trans hlen⟩
  · show (r.root.getD .null).Alike (k.getD .null)
    generalize r.root = root at hrel
    cases hrel with
    | none => exact .null
    | some h => exact h
  · show r.gathered.features = (g.addFeatures w'.features).features
    rw [h.features, houtcome.features, hw.features,
      hregistry.hasOptional h.registry_wf houtcome.registry_wf]
    rfl

/-- The documents in another order, and each of them rearranged: one run succeeds just where the
other does, and their outcomes differ in order only. -/
theorem observeAll_rearranged (hc : c.policy = .strict) {us : List Value} (hp : vs.Perm us)
    (hr : List.Forall₂ Value.Rearranged us vs') :
    ((∃ r, (vs.foldlM observe (start c)).outcome = .ok r) ↔
      ∃ r, (vs'.foldlM observe (start c)).outcome = .ok r) ∧
    ∀ r r', (vs.foldlM observe (start c)).outcome = .ok r →
      (vs'.foldlM observe (start c)).outcome = .ok r' → Inferred.Alike r.finish r'.finish := by
  have hlen : vs.length = vs'.length := hp.length_eq.trans hr.length_eq
  have hm : Matched (fun v v' => Slot.AlikeSamples c (rooted c (.ofValue c.dialect v))
      (rooted c (.ofValue c.dialect v'))) vs vs' :=
    (Slot.AlikeSamples.congruence hc).documents c hp hr
  refine ⟨⟨?_, ?_⟩, ?_⟩
  · rintro ⟨r, h⟩
    obtain ⟨ns, w, h⟩ := outcome_iff.1 (Traced.value?_eq_some.2 h)
    obtain ⟨r', ns', w', h', -⟩ := h.alike hc hm hlen
    exact ⟨r', Traced.value?_eq_some.1 (outcome_iff.2 ⟨ns', w', h'⟩)⟩
  · rintro ⟨r, h⟩
    obtain ⟨ns, w, h⟩ := outcome_iff.1 (Traced.value?_eq_some.2 h)
    obtain ⟨r', ns', w', h', -⟩ := h.alike hc (hm.symm fun _ _ h => h.symm) hlen.symm
    exact ⟨r', Traced.value?_eq_some.1 (outcome_iff.2 ⟨ns', w', h'⟩)⟩
  · intro r r' h h'
    obtain ⟨ns, w, h⟩ := outcome_iff.1 (Traced.value?_eq_some.2 h)
    obtain ⟨r'', ns', w', h'', ha⟩ := h.alike hc hm hlen
    have h' := Traced.value?_eq_some.2 h'
    rw [outcome_iff.2 ⟨ns', w', h''⟩, Option.some.injEq] at h'
    exact h' ▸ ha

/-- Two documents the other way round, the second one with its members and items reversed. -/
theorem observeAll_rearranged_reversed :
    ∃ r r', ([.integer "3", .object [("a", .array [.integer "1", .real "2.5"]), ("b", .null)]].foldlM
        observe (start (Settings.default.withPolicy .strict))).outcome = .ok r ∧
      ([.object [("b", .null), ("a", .array [.real "2.5", .integer "1"])], .integer "3"].foldlM
        observe (start (Settings.default.withPolicy .strict))).outcome = .ok r' ∧
      Inferred.Alike r.finish r'.finish := by
  let doc : Value := .object [("a", .array [.integer "1", .real "2.5"]), ("b", .null)]
  let doc' : Value := .object [("b", .null), ("a", .array [.real "2.5", .integer "1"])]
  let c := Settings.default.withPolicy .strict
  have hdoc : Value.Rearranged doc doc' :=
    .trans (.members (List.Perm.swap ..)) (.member [("b", .null)] [] "a" (.items (List.Perm.swap ..)))
  have hrun : (([.integer "3", doc].foldlM observe (start c)).value?).isSome = true := by
    decide +kernel
  have hrun' : (([doc', .integer "3"].foldlM observe (start c)).value?).isSome = true := by
    decide +kernel
  obtain ⟨r, hr⟩ := Option.isSome_iff_exists.1 hrun
  obtain ⟨r', hr'⟩ := Option.isSome_iff_exists.1 hrun'
  have hr := Traced.value?_eq_some.1 hr
  have hr' := Traced.value?_eq_some.1 hr'
  have hc : c.policy = .strict := rfl
  have hall := observeAll_rearranged hc (List.Perm.swap doc (.integer "3") [])
    (.cons hdoc (.cons (.refl (.integer "3")) .nil))
  exact ⟨r, r', hr, hr', hall.2 r r' hr hr'⟩

end Run

end SchemaInference
