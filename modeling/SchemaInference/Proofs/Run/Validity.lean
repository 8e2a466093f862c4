/-
Every name that leaves a run may stand in its dialect as it is. The names of objects, maps and members
are valid at every depth (`Node.Spelled`), and joining only puts names together that were there
before, so a run keeps this, and the path of a fault is made of such names too. With what is known of
names by their slots (`Node.Named`), the slot says what a container is called: each slot has a valid
name, an object is named after it and a map bears it (`Reached.valid_names`).
-/
import SchemaInference.Proofs.Run.Naming
import SchemaInference.Proofs.Run.Places

namespace SchemaInference

open Schema Traced Identifier

namespace Schema

/-! ## Names at every depth -/

/-- All names in the node are valid in the dialect: of objects, of maps and of members. -/
inductive Node.Spelled (d : Dialect) : Node → Prop
  | null : Spelled d .null
  | scalar (s : Scalar) (o : Bool) : Spelled d (.scalar s o)
  | array {e : Node} (o : Bool) (h : Spelled d e) : Spelled d (.array e o)
  | object {n : Identifier} {ms : Members} (o : Bool) (hn : isValid d n.text = true)
      (hnames : ∀ m ∈ ms, isValid d m.1.text = true) (h : ∀ m ∈ ms, Spelled d m.2) :
      Spelled d (.object n ms o)
  | map {n : Identifier} {v : Node} (o : Bool) (hn : isValid d n.text = true) (h : Spelled d v) :
      Spelled d (.map n v o)

/-- The names on the way to the fault are valid. -/
def Fault.Spelled (d : Dialect) (f : Fault) : Prop := ∀ n ∈ f.path, isValid d n.text = true

variable {d : Dialect}

theorem Node.Spelled.setOptional {a : Node} (h : a.Spelled d) (o : Bool) :
    (a.setOptional o).Spelled d := by
  cases h with
  | null => exact .null
  | scalar s => exact .scalar s o
  | array _ h => exact .array o h
  | object _ hn hnames h => exact .object o hn hnames h
  | map _ hn h => exact .map o hn h

theorem Node.Spelled.relax {a : Node} (h : a.Spelled d) : a.relax.Spelled d :=
  h.setOptional true

/-- The names in members, and their own, are valid. -/
def Members.Spelled (d : Dialect) (ms : Members) : Prop :=
  Members.Keep (fun n => isValid d n.text = true) (fun _ => Node.Spelled d) ms

theorem Node.Spelled.members {n : Identifier} {ms : Members} {o : Bool}
    (h : (Node.object n ms o).Spelled d) : ms.Spelled d := by
  cases h with
  | object _ _ hnames h => exact fun m hm => ⟨hnames m hm, h m hm⟩

theorem Node.Spelled.ofMembers {n : Identifier} {ms : Members} (o : Bool)
    (hn : isValid d n.text = true) (h : ms.Spelled d) : (Node.object n ms o).Spelled d :=
  .object o hn (fun m hm => (h m hm).1) fun m hm => (h m hm).2

/-! ## Joining -/

/-- A clash is found at the two nodes themselves. -/
theorem Fault.spelled_clash (clash : Clash) : Fault.Spelled d ⟨[], clash⟩ :=
  List.forall_mem_nil _

theorem Fault.Spelled.within {name : Identifier} {f : Fault} (hn : isValid d name.text = true)
    (hf : f.Spelled d) : (f.within name).Spelled d :=
  List.forall_mem_cons.2 ⟨hn, hf⟩

theorem spelled_settle {p : Policy} {a : Node} (ha : a.Spelled d) (b : Node) :
    (settle p a b).Ends (Node.Spelled d) (Fault.Spelled d) := by
  cases p with
  | strict => exact .error (Fault.spelled_clash _)
  | preferFirst => exact .ok (ha.setOptional _)

/-- A join has the names of the nodes that are joined, and so has the way to a clash. -/
theorem spelled_unify {p : Policy} {a b : Node} (ha : a.Spelled d) (hb : b.Spelled d) :
    (unify p a b).Ends (Node.Spelled d) (Fault.Spelled d) := by
  induction b using Node.induction generalizing a with
  | null => cases a <;> exact .pure ha.relax
  | scalar t y =>
    cases a with
    | null => exact .pure hb.relax
    | scalar s x =>
      unfold unify
      split
      · exact .pure (.scalar ..)
      · exact spelled_settle ha _
    | _ => exact spelled_settle ha _
  | array f y ih =>
    cases a with
    | null => exact .pure hb.relax
    | array e x =>
      unfold unify
      obtain _ | _ | ⟨_, he⟩ := ha
      obtain _ | _ | ⟨_, hf⟩ := hb
      exact (ih he hf).bind fun k hk => .pure (.array _ hk)
    | _ => exact spelled_settle ha _
  | map m w y ih =>
    cases a with
    | null => exact .pure hb.relax
    | map n v x =>
      cases ha with
      | map _ hn hv =>
        cases hb with
        | map _ _ hw =>
          unfold unify
          split
          · exact (ih hv hw).bind fun k hk => .pure (.map _ hn hk)
          · exact .error (Fault.spelled_clash _)
    | object => exact .error (Fault.spelled_clash _)
    | _ => exact spelled_settle ha _
  | object m ns y ih =>
    cases a with
    | null => exact .pure hb.relax
    | object n ms x =>
      have hms := ha.members
      have hns := hb.members
      cases ha with
      | object _ hn =>
        unfold unify
        split
        · have habsorb := ends_absorb (p := p) (fun _ _ ha => ha.relax) (E := Fault.Spelled d)
            (D := Fault.Spelled d) (fun m hm f hf => hf.within (hns m hm).1) hns
            (hms.relaxMissing (fun _ _ ha => ha.relax) ns)
            fun m hm a ha => ih m hm ha (hns m hm).2
          refine Ends.bind (.mapFault habsorb fun _ he => he) fun ks hks => ?_
          exact .pure (.ofMembers _ hn hks)
        · exact .error (Fault.spelled_clash _)
    | map => exact .error (Fault.spelled_clash _)
    | _ => exact spelled_settle ha _

end Schema

/-- Valid names are kept along a run. -/
theorem invariant_spelled (c : Settings) :
    Invariant c (fun n => isValid c.dialect n.text = true) (fun _ => Node.Spelled c.dialect)
      (Fault.Spelled c.dialect) where
  sanitize raw := isValid_sanitize c.dialect raw
  null _ := .null
  scalar _ s := .scalar s false
  array _ _ h := .array false h
  map _ _ hh _ h := .map false hh h
  object _ _ h := .ofMembers false (isValid_sanitize ..) h
  relax _ _ h := h.relax
  unify _ _ _ ha hb := spelled_unify ha hb
  within _ _ hn hf := hf.within hn

/-! ## Slots -/

namespace Schema.Node

variable {c : Settings} {a b : Node} {p path : Path} {h hint : Identifier}

/-- A container bears the name that its slot gives it. -/
def NamedAfter (c : Settings) (hint : Identifier) : Node → Prop
  | .object n _ _ => n = c.objectName hint.text
  | .map n _ _ => n = hint
  | _ => True

theorem Named.namedAfter (ha : a.Named c hint) : a.NamedAfter c hint := by
  cases ha <;> trivial

/-- What stands in a node has the names of its slots as well, and its slot has a valid name. -/
theorem Named.stands (hb : b.Named c hint) (hspelled : b.Spelled c.dialect)
    (hh : isValid c.dialect hint.text = true) (ha : a.Stands p h path hint b) :
    a.Named c h ∧ isValid c.dialect h.text = true := by
  induction ha with
  | here => exact ⟨hb, hh⟩
  | @element _ slot _ _ _ ih =>
    cases hb with
    | array _ he =>
      cases hspelled with
      | array _ hspelled =>
        have hslot : isValid c.dialect (c.elementHint slot).text = true := isValid_sanitize ..
        rw [Settings.elementHint_eq ⟨_, hh⟩] at he hslot
        exact ih he hspelled hslot
  | member _ _ hm _ ih =>
    obtain ⟨hname, hmember⟩ := hspelled.members _ hm
    cases hb with
    | object _ _ hms => exact ih (hms _ hm) hmember hname
  | @value _ slot _ _ _ _ ih =>
    cases hb with
    | map _ _ _ hv =>
      cases hspelled with
      | map _ _ hspelled =>
        have hslot : isValid c.dialect (c.valueHint slot).text = true := isValid_sanitize ..
        rw [Settings.valueHint_eq ⟨_, hh⟩] at hv hslot
        exact ih hv hspelled hslot

end Schema.Node

/-! ## Runs -/

namespace Run

variable {c : Settings} {r : Run}

/-- All names of a run are valid in its dialect: in the root and in every entry, at every depth, and
on the way to the fault that a document ends the run with. Every container in them bears the name
that its slot gives it, from the slot of the root and from those of the members of entries down. -/
theorem Reached.valid_names (hc : c.Built) (h : Reached c r) :
    (r.finish.root.Spelled c.dialect ∧
      ∀ e ∈ r.finish.registry.objects,
        isValid c.dialect e.name.text = true ∧ e.members.Spelled c.dialect) ∧
    ((∀ a p hint, Node.Stands a p hint [] c.rootName r.finish.root →
        isValid c.dialect hint.text = true ∧ a.NamedAfter c hint) ∧
      ∀ e ∈ r.finish.registry.objects, ∀ m ∈ e.members, ∀ a p hint,
        Node.Stands a p hint [] m.1 m.2 →
          isValid c.dialect hint.text = true ∧ a.NamedAfter c hint) ∧
    ∀ f, ((∃ v, (r.observe v).outcome = .error f) ∨
        ∃ text, (r.observeText text).outcome = .error (.unfit f)) → f.Spelled c.dialect := by
  have hroot := hc.isValid_rootName
  have hspelled := (invariant_spelled c).keeps_reached hroot h
  have hnamed := h.named
  -- a run without documents has null for its root
  have hknown : r.finish.root.Named c c.rootName ∧ r.finish.root.Spelled c.dialect := by
    show (r.root.getD .null).Named c c.rootName ∧ (r.root.getD .null).Spelled c.dialect
    cases hr : r.root with
    | none => exact ⟨.null c.rootName, .null⟩
    | some n => exact ⟨hnamed.root n hr, hspelled.root n hr⟩
  refine ⟨⟨hknown.2, hspelled.registry⟩, ⟨fun a p hint ha => ?_, fun e he m hm a p hint ha => ?_⟩,
    fun f hf => ?_⟩
  · obtain ⟨ha, hh⟩ := hknown.1.stands hknown.2 hroot ha
    exact ⟨hh, ha.namedAfter⟩
  · obtain ⟨hname, hmember⟩ := (hspelled.registry e he).2 m hm
    obtain ⟨ha, hh⟩ := (hnamed.registry e he m hm).stands hmember hname ha
    exact ⟨hh, ha.namedAfter⟩
  · rcases hf with ⟨v, hv⟩ | ⟨text, ht⟩
    · exact ((invariant_spelled c).ends_observe hroot hspelled v).of_error hv
    · have hends := (invariant_spelled c).ends_observeText hroot hspelled text
      rcases hends.of_error ht with ⟨_, e, -⟩ | ⟨_, ⟨⟩, hf⟩
      · cases e
      · exact hf

/-- A strict run with a map in an array, where the dialect reserves the names of members. The second
document ends it at a value of the map. -/
theorem Reached.valid_names_strict :
    let c := ((Settings.default.withDialect .rust).withMapPath "_jsontype_element.k-v").withPolicy
      .strict
    c.Built ∧ ∃ r f, Reached c r ∧
      (∃ v, (r.observe v).outcome = .error f) ∧
      f.path.dotted = "root_object._jsontype_element.k0x2dv.k0x2dv_value._jsonself" ∧
      r.finish.root.Spelled c.dialect ∧ f.Spelled c.dialect := by
  intro c
  let document (v : Document.Value) : Document.Value :=
    .object [("type", .array [.object [("k-v", .object [("b", .object [("self", v)])])]])]
  have hc : c.Built := ((Settings.Built.default.withDialect _).withMapPath _).withPolicy _
  have hrun : ((Run.start c).observe (document (.integer "1"))).value?.map (fun r =>
      (r.observe (document (.string "x"))).fault?) =
      some (some ⟨[⟨"root_object"⟩, ⟨"_jsontype_element"⟩, ⟨"k0x2dv"⟩, ⟨"k0x2dv_value"⟩,
        ⟨"_jsonself"⟩], .kinds (.scalar .integer) (.scalar .string)⟩) := by
    decide +kernel
  obtain ⟨r, hr, hfault⟩ := Option.map_eq_some_iff.1 hrun
  have hreached : Reached c r := .observe .start (Traced.value?_eq_some.1 hr)
  have hfails := Traced.fault?_eq_some.1 hfault
  obtain ⟨⟨hroot, -⟩, -, hpath⟩ := hreached.valid_names hc
  exact ⟨hc, r, _, hreached, ⟨_, hfails⟩, by decide +kernel, hroot, hpath _ (.inl ⟨_, hfails⟩)⟩

end Run

end SchemaInference
