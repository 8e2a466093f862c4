/-
Names follow from slots. Whatever is joined in one slot, its objects and maps bear the names that the
slot gives them (`Node.Named`), at every depth, and so do the members of every entry. Nodes of one
slot can therefore clash only by their kinds or as an object and a map (`Clash.Possible`): the first
is settled under the lenient policy, and for the second there has to be a map path. So no other clash
ends a run, and a lenient run without map paths ends in a value (`fails_only_where_possible`).
-/
import SchemaInference.Proofs.Run.Invariant

namespace SchemaInference

open Schema Traced

namespace Schema

/-- The node in the slot `hint`, with the names that follow from its slots: an object is named after
its slot, a map bears the name of its slot, and a map needs a map path to be one. -/
inductive Node.Named (c : Settings) : Identifier → Node → Prop
  | null (hint : Identifier) : Named c hint .null
  | scalar (hint : Identifier) (s : Scalar) (o : Bool) : Named c hint (.scalar s o)
  | array {hint : Identifier} {e : Node} (o : Bool) (h : Named c (c.elementHint hint) e) :
      Named c hint (.array e o)
  | object (hint : Identifier) {ms : Members} (o : Bool) (h : ∀ m ∈ ms, Named c m.1 m.2) :
      Named c hint (.object (c.objectName hint.text) ms o)
  | map (hint : Identifier) {v : Node} (o : Bool) (hc : c.mapPaths ≠ [])
      (h : Named c (c.valueHint hint) v) : Named c hint (.map hint v o)

/-- Each member is the slot of its name. -/
def Members.Named (c : Settings) (ms : Members) : Prop := ∀ m ∈ ms, m.2.Named c m.1

/-- How nodes with the names of their slots can clash. -/
inductive Clash.Possible (c : Settings) : Clash → Prop
  | kinds (hc : c.policy = .strict) (l r : Kind) : Possible c (.kinds l r)
  | objectAndMap (hc : c.mapPaths ≠ []) (o m : Identifier) : Possible c (.objectAndMap o m)

variable {c : Settings} {hint : Identifier}

theorem Clash.possible_iff {clash : Clash} : clash.Possible c ↔
    (c.policy = .strict ∧ ∃ l r, clash = .kinds l r) ∨
      (c.mapPaths ≠ [] ∧ ∃ o m, clash = .objectAndMap o m) := by
  constructor
  · rintro (⟨hc, l, r⟩ | ⟨hc, o, m⟩)
    · exact .inl ⟨hc, l, r, rfl⟩
    · exact .inr ⟨hc, o, m, rfl⟩
  · rintro (⟨hc, l, r, rfl⟩ | ⟨hc, o, m, rfl⟩)
    · exact .kinds hc l r
    · exact .objectAndMap hc o m

theorem Node.Named.setOptional {a : Node} (h : a.Named c hint) (o : Bool) :
    (a.setOptional o).Named c hint := by
  cases h with
  | null => exact .null hint
  | scalar => exact .scalar hint _ o
  | array _ h => exact .array o h
  | object _ _ h => exact .object hint o h
  | map _ _ hc h => exact .map hint o hc h

theorem Node.Named.relax {a : Node} (h : a.Named c hint) : a.relax.Named c hint :=
  h.setOptional true

theorem Members.named_iff {ms : Members} :
    ms.Named c ↔ Members.Keep (fun _ => True) (Node.Named c) ms := by
  simp only [Members.Named, Members.Keep, true_and]

/-! ## Joining -/

theorem ends_settle {a : Node} (ha : a.Named c hint) (b : Node) :
    (settle c.policy a b).Ends (Node.Named c hint) fun f => f.clash.Possible c := by
  rcases hp : c.policy with _ | _
  · exact .error (.kinds hp ..)
  · exact .ok (ha.setOptional _)

/-- Nodes of one slot join to a node of that slot, or they clash in a way that is possible. -/
theorem ends_unify {a b : Node} (ha : a.Named c hint) (hb : b.Named c hint) :
    (unify c.policy a b).Ends (Node.Named c hint) fun f => f.clash.Possible c := by
  induction b using Node.induction generalizing a hint with
  | null =>
    cases a <;> exact .pure ha.relax
  | scalar t y =>
    cases a with
    | null => exact .pure hb.relax
    | scalar s x =>
      unfold unify
      split
      · exact .pure (.scalar ..)
      · exact ends_settle ha _
    | _ => exact ends_settle ha _
  | array f y ih =>
    cases a with
    | null => exact .pure hb.relax
    | array e x =>
      unfold unify
      obtain _ | _ | ⟨_, he⟩ := ha
      obtain _ | _ | ⟨_, hf⟩ := hb
      exact (ih he hf).bind fun k hk => .pure (.array _ hk)
    | _ => exact ends_settle ha _
  | map m w y ih =>
    cases a with
    | null => exact .pure hb.relax
    | map n v x =>
      -- both bear the name of the slot
      cases ha with
      | map _ _ hc hv =>
        cases hb with
        | map _ _ _ hw =>
          unfold unify
          rw [if_pos rfl]
          exact (ih hv hw).bind fun k hk => .pure (.map _ _ hc hk)
    | object =>
      cases hb with
      | map _ _ hc _ => exact .error (.objectAndMap hc ..)
    | _ => exact ends_settle ha _
  | object m ns y ih =>
    cases a with
    | null => exact .pure hb.relax
    | object n ms x =>
      -- both are named after the slot
      cases ha with
      | object _ _ hms =>
        cases hb with
        | object _ _ hns =>
          unfold unify
          rw [if_pos rfl]
          have hms := (Members.named_iff.1 hms).relaxMissing (fun _ _ ha => ha.relax) ns
          have habsorb := ends_absorb (p := c.policy) (fun _ _ ha => ha.relax)
            (E := fun f => f.clash.Possible c) (D := fun f => f.clash.Possible c)
            (fun _ _ _ he => he) (Members.named_iff.1 hns) hms
            fun m hm a ha => ih m hm ha (hns m hm)
          refine Ends.bind (.mapFault habsorb fun _ he => he) fun ks hks => ?_
          exact .pure (.object _ _ (Members.named_iff.2 hks))
    | map =>
      cases ha with
      | map _ _ hc _ => exact .error (.objectAndMap hc ..)
    | _ => exact ends_settle ha _

end Schema

/-- Names that follow from slots are kept along a run. -/
theorem invariant_named (c : Settings) :
    Invariant c (fun _ => True) (Node.Named c) fun f => f.clash.Possible c where
  sanitize _ := trivial
  null hint := .null hint
  scalar hint s := .scalar hint s false
  array _ _ h := .array false h
  map _ _ _ hc h := .map _ false hc h
  object _ _ h := .object _ false (Members.named_iff.2 h)
  relax _ _ h := h.relax
  unify _ _ _ ha hb := ends_unify ha hb
  within _ _ _ h := h

/-- The members of every entry have the names of their slots. -/
def Registry.Named (c : Settings) (r : Registry) : Prop := ∀ e ∈ r.objects, e.members.Named c

/-! ## Runs -/

namespace Run

/-- The root and the registry of a run have the names of their slots. -/
structure Named (c : Settings) (r : Run) : Prop where
  settings : r.settings = c
  root : ∀ n ∈ r.root, n.Named c c.rootName
  registry : r.gathered.registry.Named c

variable {c : Settings} {r : Run}

theorem named_iff : Named c r ↔ Keeps c (fun _ => True) (Node.Named c) r := by
  have hentries : r.gathered.registry.Named c ↔
      r.gathered.registry.Keep (fun _ => True) (Node.Named c) := by
    simp only [Registry.Named, Registry.Keep, Members.named_iff, true_and]
  exact ⟨fun h => ⟨h.settings, h.root, hentries.1 h.registry⟩,
    fun h => ⟨h.settings, h.root, hentries.2 h.registry⟩⟩

/-- A document keeps the names of a run, or it clashes in a way that is possible. -/
theorem ends_observe (h : Named c r) (v : Document.Value) :
    (r.observe v).Ends (Named c) fun f => f.clash.Possible c :=
  ((invariant_named c).ends_observe trivial (named_iff.1 h) v).imp (fun _ => named_iff.2)
    fun _ he => he

/-- Whether handed over as a text or not: a document keeps the names, or it clashes in a way that is
possible, or its text is none of a document. -/
theorem ends_observeText (h : Named c r) (text : String) :
    (r.observeText text).Ends (Named c) fun e =>
      (∃ f, e = .malformed f ∧ Document.parse text = .error f) ∨
        ∃ f, e = .unfit f ∧ f.clash.Possible c := by
  exact ((invariant_named c).ends_observeText trivial (named_iff.1 h) text).imp
    (fun _ => named_iff.2) fun _ he => he

theorem Reached.named (h : Reached c r) : Named c r :=
  named_iff.2 ((invariant_named c).keeps_reached trivial h)

/-- A run over texts of documents ends in a value, or in a clash that is possible. -/
theorem ends_inferTexts {texts : List String}
    (h : ∀ text ∈ texts, ∃ v, Document.parse text = .ok v) :
    (inferTexts c texts).Ends (fun _ => True) fun e => ∃ f, e = .unfit f ∧ f.clash.Possible c := by
  have hstep : ∀ text ∈ texts, ∀ r, Named c r → (r.observeText text).Ends (Named c) fun e =>
      ∃ f, e = .unfit f ∧ f.clash.Possible c := fun text ht r hr => by
    obtain ⟨v, hv⟩ := h text ht
    have hends := ends_observeText hr text
    generalize r.observeText text = x at hends
    cases hends with
    | ok hr => exact .ok hr
    | error he =>
      refine .error (he.resolve_left ?_)
      rintro ⟨f, -, hf⟩
      cases hv.symm.trans hf
  unfold inferTexts
  exact (Ends.foldlM hstep Reached.start.named).bind fun _ _ => .pure trivial

/-- Without map paths and under the lenient policy, texts that are all documents have a schema. In
general, a document ends a run only where two kinds clash under the strict policy, or where an object
and a map meet, and for that there has to be a map path. -/
theorem fails_only_where_possible (c : Settings) :
    (c.mapPaths = [] → c.policy = .preferFirst → ∀ texts : List String,
      (∀ text ∈ texts, ∃ v, Document.parse text = .ok v) →
        ∃ i, (inferTexts c texts).outcome = .ok i) ∧
    ∀ r, Reached c r → ∀ f, ((∃ v, (r.observe v).outcome = .error f) ∨
        ∃ text, (r.observeText text).outcome = .error (.unfit f)) →
      (c.policy = .strict ∧ ∃ left right, f.clash = .kinds left right) ∨
        (c.mapPaths ≠ [] ∧ ∃ object map, f.clash = .objectAndMap object map) := by
  constructor
  · intro hpaths hpolicy texts htexts
    refine (ends_inferTexts (c := c) htexts).exists_ok ?_
    rintro _ ⟨f, -, hf⟩
    rcases Clash.possible_iff.1 hf with ⟨hc, -⟩ | ⟨hc, -⟩
    · cases hpolicy.symm.trans hc
    · exact hc hpaths
  · intro r hr f hf
    apply Clash.possible_iff.1
    rcases hf with ⟨v, hv⟩ | ⟨text, ht⟩
    · exact (ends_observe hr.named v).of_error hv
    · rcases (ends_observeText hr.named text).of_error ht with ⟨_, e, -⟩ | ⟨_, ⟨⟩, h⟩
      · cases e
      · exact h

/-- Documents that clash in every member have a schema without map paths. With one, the map at
`p.a.x` meets the object at `q.a.x`, since both are the member `x` of the entry `a_t`. -/
theorem fails_only_where_possible_map_path :
    (∃ i, (inferTexts .default ["\x7b\"a\":[1,\"x\",null],\"b\":\x7b\x7d\x7d",
      "\x7b\"a\":3,\"b\":[\x7b\"b\":1\x7d]\x7d"]).outcome = .ok i) ∧
    ∃ f, ((start (Settings.default.withMapPath "p.a.x")).observe
        (.object [("p", .object [("a", .object [("x", .object [("k", .integer "1")])])]),
          ("q", .object [("a", .object [("x", .object [("k", .integer "1")])])])])).outcome =
            .error f ∧
      f.path.dotted = "root_object.q.a.x" ∧ ∃ object map, f.clash = .objectAndMap object map := by
  let texts := ["\x7b\"a\":[1,\"x\",null],\"b\":\x7b\x7d\x7d",
    "\x7b\"a\":3,\"b\":[\x7b\"b\":1\x7d]\x7d"]
  let c := Settings.default.withMapPath "p.a.x"
  let below : Document.Value := .object [("a", .object [("x", .object [("k", .integer "1")])])]
  have htexts : ∀ text ∈ texts, (Document.parse text).toOption.isSome = true := by decide +kernel
  have hlenient := (fails_only_where_possible .default).1 rfl rfl texts fun text ht => by
    have h := htexts text ht
    rcases hv : Document.parse text with f | v
    · rw [hv] at h
      cases h
    · exact ⟨v, rfl⟩
  have hfails : ((start c).observe (.object [("p", below), ("q", below)])).fault? =
      some ⟨[⟨"root_object"⟩, ⟨"q"⟩, ⟨"a"⟩, ⟨"x"⟩], .objectAndMap ⟨"x_t"⟩ ⟨"x"⟩⟩ := by
    decide +kernel
  have hfails := fault?_eq_some.1 hfails
  refine ⟨hlenient, _, hfails, by decide +kernel, ?_⟩
  rcases (fails_only_where_possible c).2 _ .start _ (.inl ⟨_, hfails⟩) with ⟨hc, -⟩ | ⟨-, h⟩
  · cases hc
  · exact h

end Run

end SchemaInference
