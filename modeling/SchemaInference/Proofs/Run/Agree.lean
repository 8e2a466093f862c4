/-
What the order of documents cannot decide. Under the lenient policy the first observation of a slot
settles of which kind it is, and with that all that stands below it. But to go without a value, to
know any value at all and to know a name are facts that a join has just where one of its sides has
them. Nodes and members agree where they have the same of these (`Node.Agree`, `Members.Agree`). So
samples that differ in order only declare objects that agree (`AgreeSamples.congruence`), and the
registries that come of them agree (`Outcome.agree_registry`).
-/
import SchemaInference.Proofs.Run.Lenient
import SchemaInference.Proofs.Run.Order
import SchemaInference.Proofs.Run.Required

namespace SchemaInference

open Schema Document

namespace Schema

/-! ## Nodes and members -/

/-- Both slots may go without a value or neither, and a value is known of both or of neither. -/
structure Node.Agree (a b : Node) : Prop where
  optional : a.isOptional = b.isOptional
  null : a = .null ↔ b = .null

/-- The same names on both sides, with nodes that agree. -/
structure Members.Agree (ms ns : Members) : Prop where
  names : ∀ name, name ∈ ms.names ↔ name ∈ ns.names
  both : ∀ name a b, ms.get? name = some a → ns.get? name = some b → a.Agree b

/-- A value is known under the name. -/
def Members.Knows (ms : Members) (name : Identifier) : Prop :=
  ∃ a, ms.get? name = some a ∧ a ≠ .null

/-- Objects of one name whose members agree. -/
def Object.Agree (o o' : Object) : Prop := o.name = o'.name ∧ o.members.Agree o'.members

theorem Node.Agree.refl (a : Node) : a.Agree a := ⟨rfl, Iff.rfl⟩

namespace Members

variable {p : Policy} {ms ns ks : Members}

/-- To agree is to have the same facts that merging cannot lose. -/
theorem agree_iff : ms.Agree ns ↔ ∀ name, (name ∈ ms.names ↔ name ∈ ns.names) ∧
    (ms.MayLack name ↔ ns.MayLack name) ∧ (ms.Knows name ↔ ns.Knows name) := by
  unfold MayLack Knows
  constructor
  · intro h name
    have hnames := h.names name
    refine ⟨hnames, ?_⟩
    rw [mem_names_iff, mem_names_iff] at hnames
    rcases ha : ms.get? name with _ | a <;> rcases hb : ns.get? name with _ | b
    · simp
    · simp [ha, hb] at hnames
    · simp [ha, hb] at hnames
    · have hab := h.both name a b ha hb
      simp [hab.optional, hab.null]
  · intro h
    refine ⟨fun name => (h name).1, fun name a b ha hb => ?_⟩
    obtain ⟨-, hlack, hknows⟩ := h name
    simp only [ha, hb, Option.some.injEq, forall_eq', exists_eq_left'] at hlack hknows
    exact ⟨Bool.eq_iff_iff.2 hlack, not_iff_not.1 hknows⟩

namespace Agree

theorem refl (ms : Members) : ms.Agree ms := agree_iff.2 fun _ => ⟨Iff.rfl, Iff.rfl, Iff.rfl⟩

theorem symm (h : ms.Agree ns) : ns.Agree ms := agree_iff.2 fun name =>
  have ⟨hnames, hlack, hknows⟩ := agree_iff.1 h name
  ⟨hnames.symm, hlack.symm, hknows.symm⟩

theorem trans (h : ms.Agree ns) (h' : ns.Agree ks) : ms.Agree ks := agree_iff.2 fun name =>
  have ⟨hnames, hlack, hknows⟩ := agree_iff.1 h name
  have ⟨hnames', hlack', hknows'⟩ := agree_iff.1 h' name
  ⟨hnames.trans hnames', hlack.trans hlack', hknows.trans hknows'⟩

end Agree

/-- Matched members that agree are gathered into members that agree. -/
theorem agree_gather {named named' : Members} (hn : ∀ m ∈ named, m.2.WF)
    (hn' : ∀ m ∈ named', m.2.WF) (hg : gather? p [] named = some ms)
    (hg' : gather? p [] named' = some ns)
    (h : Matched (fun m m' => m.1 = m'.1 ∧ m.2.Agree m'.2) named named') : ms.Agree ns := by
  refine ⟨fun name => ?_, fun name a b ha hb => ?_⟩
  · rw [mem_names_gather? hg, mem_names_gather? hg', names_nil, names, names, List.mem_map,
      List.mem_map, h.exists_iff fun m m' hm => by rw [hm.1]]
  · -- one node of the name has it on the one side just where one has it on the other
    have hfact : ∀ {F : Node → Prop}, (∀ a b k, Joins p a b k → (F k ↔ F a ∨ F b)) →
        (∀ a b : Node, a.Agree b → (F a ↔ F b)) → (F a ↔ F b) := fun hF hagree => by
      rw [gather?_exists_iff hF hn hg ha, gather?_exists_iff hF hn' hg' hb]
      exact h.exists_iff fun m m' hm => by rw [hm.1, hagree _ _ hm.2]
    refine ⟨Bool.eq_iff_iff.2 ?_, not_iff_not.1 ?_⟩
    · exact hfact (fun _ _ _ hj => hj.isOptional_iff) fun _ _ hab => by rw [hab.optional]
    · exact hfact (fun _ _ _ hj => hj.ne_null_iff) fun _ _ hab => not_congr hab.null

end Members

end Schema

/-! ## Findings -/

/-- Objects that agree on both sides, and the same features, but for what is told of anything
optional. -/
structure Findings.Agree (w w' : Findings) : Prop where
  objects : Matched Object.Agree w.objects w'.objects
  features : w.features.or { optionals := true } = w'.features.or { optionals := true }

namespace Findings.Agree

variable {w w' v v' : Findings}

theorem covered (h : w.Agree w') : w.Covered Object.Agree { optionals := true } w' := by
  refine ⟨h.objects.1, ?_⟩
  rw [← h.features]
  exact Features.within_or_left ..

theorem of_covered (h : w.Covered Object.Agree { optionals := true } w')
    (h' : w'.Covered Object.Agree { optionals := true } w) : w.Agree w' := by
  refine ⟨⟨h.objects, fun o' ho' => ?_⟩, ?_⟩
  · obtain ⟨o, ho, hn, hms⟩ := h'.objects o' ho'
    exact ⟨o, ho, hn.symm, hms.symm⟩
  · exact (h.features.or (Features.within_or_right ..)).antisymm
      (h'.features.or (Features.within_or_right ..))

theorem refl (w : Findings) : w.Agree w :=
  ⟨matched_of_perm (fun _ => ⟨rfl, .refl _⟩) (List.Perm.refl _), rfl⟩

theorem symm (h : w.Agree w') : w'.Agree w :=
  ⟨h.objects.symm fun _ _ h => ⟨h.1.symm, h.2.symm⟩, h.features.symm⟩

theorem trans (h : w.Agree w') (h' : w'.Agree v) : w.Agree v :=
  ⟨h.objects.trans h'.objects fun _ _ _ h h' => ⟨h.1.trans h'.1, h.2.trans h'.2⟩,
    h.features.trans h'.features⟩

theorem append (h : w.Agree w') (hv : v.Agree v') : (w.append v).Agree (w'.append v') := by
  refine ⟨h.objects.append hv.objects, ?_⟩
  show (w.features.or v.features).or _ = (w'.features.or v'.features).or _
  rw [Features.or_assoc, hv.features, ← Features.or_assoc, Features.or_right_comm, h.features,
    Features.or_right_comm]

theorem ofOptional (x y : Bool) : (Findings.ofOptional x).Agree (.ofOptional y) :=
  ⟨⟨fun _ h => (nomatch h), fun _ h => (nomatch h)⟩, by simp [Findings.ofOptional, Features.or]⟩

end Findings.Agree

namespace Slot

/-- Where the items are matched, what they show is matched. -/
theorem collect?_agree {α β γ δ : Type} {f : α → Option (β × Findings)}
    {g : γ → Option (δ × Findings)} {R : β → δ → Prop} {xs : List α} {zs : List γ} {ys : List β}
    {ds : List δ} {w v : Findings}
    (h : Matched (fun x z => ∀ y w d v, f x = some (y, w) → g z = some (d, v) →
      R y d ∧ w.Agree v) xs zs)
    (hf : collect? f xs = some (ys, w)) (hg : collect? g zs = some (ds, v)) :
    Matched R ys ds ∧ w.Agree v := by
  have hxs : ∀ x ∈ xs, ∃ z ∈ zs, ∀ y w d v, f x = some (y, w) → g z = some (d, v) →
      R y d ∧ w.Covered Object.Agree { optionals := true } v := fun x hx => by
    obtain ⟨z, hz, hs⟩ := h.1 x hx
    exact ⟨z, hz, fun y w d v hy hd => (hs y w d v hy hd).imp_right Findings.Agree.covered⟩
  have hzs : ∀ z ∈ zs, ∃ x ∈ xs, ∀ d v y w, g z = some (d, v) → f x = some (y, w) →
      R y d ∧ v.Covered Object.Agree { optionals := true } w := fun z hz => by
    obtain ⟨x, hx, hs⟩ := h.2 z hz
    exact ⟨x, hx, fun d v y w hd hy => (hs y w d v hy hd).imp_right fun ha => ha.symm.covered⟩
  obtain ⟨hys, hw⟩ := collect?_covered hxs hf hg
  obtain ⟨hds, hv⟩ := collect?_covered hzs hg hf
  exact ⟨⟨hys, hds⟩, .of_covered hw hv⟩

/-! ## Samples -/

/-- What either sample shows in a slot agrees with what the other one shows there. -/
def AgreeSamples (c : Settings) (s s' : Sample) : Prop :=
  ∀ path hint n w n' w', shown? c path hint s = some (n, w) →
    shown? c path hint s' = some (n', w') → n.Agree n' ∧ w.Agree w'

namespace AgreeSamples

variable {c : Settings} {s s' s'' : Sample}

theorem refl (c : Settings) (s : Sample) : AgreeSamples c s s := by
  intro path hint n w n' w' h h'
  rw [h, Option.some.injEq, Prod.mk.injEq] at h'
  obtain ⟨rfl, rfl⟩ := h'
  exact ⟨.refl n, .refl w⟩

theorem trans (hc : c.Lenient) (h : AgreeSamples c s s') (h' : AgreeSamples c s' s'') :
    AgreeSamples c s s'' := by
  intro path hint n w n' w' hn hn'
  obtain ⟨m, v, hm, -⟩ := hc.exists_shown s' path hint
  obtain ⟨hnm, hwv⟩ := h path hint n w m v hn hm
  obtain ⟨hmn, hvw⟩ := h' path hint m v n' w' hm hn'
  exact ⟨⟨hnm.optional.trans hmn.optional, hnm.null.trans hmn.null⟩, hwv.trans hvw⟩

theorem array {items items' : List Sample} (h : Matched (AgreeSamples c) items items') :
    AgreeSamples c (.array items) (.array items') := by
  intro path hint n w n' w' hn hn'
  obtain ⟨ns, w₁, e, w₂, hi, he, rfl, rfl⟩ := shown?_array.1 hn
  obtain ⟨ns', w₁', e', w₂', hi', he', rfl, rfl⟩ := shown?_array.1 hn'
  obtain ⟨-, -, -, rfl⟩ := concluded?_eq_some.1 he
  obtain ⟨-, -, -, rfl⟩ := concluded?_eq_some.1 he'
  obtain ⟨-, hw⟩ := collect?_agree (h.imp fun _ _ _ _ h => h path (c.elementHint hint)) hi hi'
  exact ⟨⟨rfl, by simp⟩, .append (.refl _) (hw.append (.ofOptional ..))⟩

theorem object (hc : c.Lenient) {members members' : List (Identifier × Sample)}
    (h : Matched (fun m m' => m.1 = m'.1 ∧ AgreeSamples c m.2 m'.2) members members') :
    AgreeSamples c (.object members) (.object members') := by
  intro path hint n w n' w' hn hn'
  obtain ⟨named, w₁, ms, hi, hg, rfl, rfl⟩ := (shown?_object (hc.isMapPath _)).1 hn
  obtain ⟨named', w₁', ms', hi', hg', rfl, rfl⟩ := (shown?_object (hc.isMapPath _)).1 hn'
  obtain ⟨hnamed, hw⟩ : Matched (fun m m' => m.1 = m'.1 ∧ m.2.Agree m'.2) named named' ∧
      w₁.Agree w₁' := by
    refine collect?_agree (h.imp ?_) hi hi'
    rintro m - m' - ⟨e, hs⟩ r w r' w' hr hr'
    obtain ⟨hname, hr⟩ := shownMember?_eq_some.1 hr
    obtain ⟨hname', hr'⟩ := shownMember?_eq_some.1 hr'
    rw [← e] at hr'
    obtain ⟨ha, hw⟩ := hs _ _ _ _ _ _ hr hr'
    exact ⟨⟨hname.symm.trans (e.trans hname'), ha⟩, hw⟩
  have hms := Members.agree_gather (shownMembers_wf hi) (shownMembers_wf hi') hg hg' hnamed
  exact ⟨⟨rfl, by simp⟩, hw.append ⟨.singleton ⟨rfl, hms⟩, rfl⟩⟩

theorem congruence (hc : c.Lenient) : Sample.Congruence (AgreeSamples c) where
  refl := refl c
  trans := trans hc
  array := array
  object := object hc

end AgreeSamples

end Slot

/-! ## Registries -/

/-- Entries of the same names, the members of which agree. -/
structure Registry.Agree (r r' : Registry) : Prop where
  names : ∀ name, name ∈ r.names ↔ name ∈ r'.names
  both : ∀ name e e', r.find? name = some e → r'.find? name = some e' → e.members.Agree e'.members

theorem Registry.Agree.symm {r r' : Registry} (h : r.Agree r') : r'.Agree r :=
  ⟨fun name => (h.names name).symm, fun name e e' he he' => (h.both name e' e he' he).symm⟩

/-- What members that agree have alike, an entry has if that of its name on the other side has. -/
theorem Registry.Agree.exists_iff {r r' : Registry} (h : r.Agree r') {F : Members → Prop}
    (hF : ∀ ms ns : Members, ms.Agree ns → (F ms ↔ F ns)) (name : Identifier) :
    (∃ e, r.find? name = some e ∧ F e.members) ↔ ∃ e, r'.find? name = some e ∧ F e.members := by
  have hle : ∀ {r r' : Registry}, r.Agree r' → (∃ e, r.find? name = some e ∧ F e.members) →
      ∃ e, r'.find? name = some e ∧ F e.members := by
    rintro r r' h ⟨e, he, hFe⟩
    obtain ⟨e', he'⟩ := mem_names_iff.1 ((h.names name).1 (mem_names_iff.2 ⟨e, he⟩))
    exact ⟨e', he', (hF _ _ (h.both name e e' he he')).1 hFe⟩
  exact ⟨hle h, hle h.symm⟩

namespace Run

variable {c : Settings} {vs vs' : List Value} {r r' : Run} {ns ns' : List Node} {w w' : Findings}

/-- Entries of one name agree where the objects declared do. -/
theorem Outcome.agree_entry (h : Outcome c vs r ns w) (h' : Outcome c vs' r' ns' w')
    (hw : w.Agree w') {name : Identifier} {e e' : Object}
    (he : r.gathered.registry.find? name = some e)
    (he' : r'.gathered.registry.find? name = some e') : e.members.Agree e'.members := by
  have hfact : ∀ {F : Members → Prop},
      (∀ ms ns ks, Merged (Joins c.policy) ms ns ks → (F ks ↔ F ms ∨ F ns)) →
      (∀ ms ns : Members, ms.Agree ns → (F ms ↔ F ns)) → (F e.members ↔ F e'.members) :=
    fun hF hagree => by
      rw [h.entry_iff hF he, h'.entry_iff hF he']
      exact hw.objects.exists_iff fun o o' ho => by rw [ho.1, hagree _ _ ho.2]
  refine Members.agree_iff.2 fun other => ⟨?_, ?_, ?_⟩
  · exact hfact (fun _ _ _ hm => Joins.mem_names hm.names) fun _ _ ha => ha.names other
  · exact hfact (fun _ _ _ hm => hm.mayLack other) fun _ _ ha =>
      (Members.agree_iff.1 ha other).2.1
  · exact hfact (fun _ _ _ hm => hm.get?_ne_null other) fun _ _ ha =>
      (Members.agree_iff.1 ha other).2.2

/-- Matched documents whose samples agree declare objects that agree. -/
theorem Outcome.agree_findings (h : Outcome c vs r ns w) (h' : Outcome c vs' r' ns' w')
    (hm : Matched (fun v v' => Slot.AgreeSamples c (rooted c (.ofValue c.dialect v))
      (rooted c (.ofValue c.dialect v'))) vs vs') : w.Agree w' :=
  (Slot.collect?_agree (hm.imp fun _ _ _ _ hs => hs [] c.rootName) h.shown h'.shown).2

/-- Where the objects declared agree, the registries do. -/
theorem Outcome.agree_registry (h : Outcome c vs r ns w) (h' : Outcome c vs' r' ns' w')
    (hw : w.Agree w') : r.gathered.registry.Agree r'.gathered.registry := by
  refine ⟨fun name => ?_, fun name e e' he he' => h.agree_entry h' hw he he'⟩
  rw [h.mem_names_iff, h'.mem_names_iff]
  exact hw.objects.exists_iff fun o o' ho => by rw [ho.1]

end Run

end SchemaInference
