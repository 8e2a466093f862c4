/-
Runs without a warning. What a run emits is told along with it (`Run.Emitted`); if none of it is a
warning, the run comes to what the strict run comes to (`Emitted.strict`), and there nothing is
dropped: what stands somewhere in a node stands in every node that absorbs it, only wider
(`Absorbs.within`). So what the findings of documents tell of a node stands in the root itself
(`Outcome.stands`).
-/
import SchemaInference.Proofs.Run.Coverage
import SchemaInference.Proofs.Run.Lockstep

namespace SchemaInference

open Schema Traced

/-! ## Parts of a node -/

namespace Schema

namespace Node.Within

variable {a b : Node}

theorem of_get? {name : Identifier} {ms : Members} (hg : ms.get? name = some b) (h : a.Within b)
    (n : Identifier) (o : Bool) : a.Within (.object n ms o) :=
  .member n o (Members.mem_of_get? hg) h

/-- If the node or one directly below it is optional, an optional one stands in it. -/
theorem of_carriesOptional (h : a.carriesOptional = true) :
    ∃ b : Node, b.Within a ∧ b.isOptional = true := by
  cases a with
  | null => exact ⟨_, .here, rfl⟩
  | scalar s o => exact ⟨_, .here, h⟩
  | array e o =>
    rcases Bool.or_eq_true_iff.1 h with ho | he
    · exact ⟨_, .here, ho⟩
    · exact ⟨e, .element o .here, he⟩
  | map n v o =>
    rcases Bool.or_eq_true_iff.1 h with ho | hv
    · exact ⟨_, .here, ho⟩
    · exact ⟨v, .value n o .here, hv⟩
  | object n ms o =>
    rcases Bool.or_eq_true_iff.1 h with ho | hms
    · exact ⟨_, .here, ho⟩
    · obtain ⟨m, hm, hopt⟩ := List.any_eq_true.1 hms
      exact ⟨m.2, .member n o hm .here, hopt⟩

end Node.Within

/-- What stands in a node that is absorbed stands in the one that absorbs it, only wider. -/
theorem Absorbs.within {a b x : Node} (h : Absorbs .strict a b) (hb : b.WF) (hx : x.Within b) :
    ∃ y, y.Within a ∧ Absorbs .strict y x := by
  induction hx generalizing a with
  | here => exact ⟨a, .here, h⟩
  | element _ _ ih =>
    cases h with
    | array h _ =>
      obtain ⟨y, hy, habs⟩ := ih h hb.element
      exact ⟨y, .element _ hy, habs⟩
    | settled hp => cases hp
  | value _ _ _ ih =>
    cases h with
    | map h _ =>
      obtain ⟨y, hy, habs⟩ := ih h hb.value
      exact ⟨y, .value _ _ hy, habs⟩
    | settled hp => cases hp
  | member _ _ hm _ ih =>
    have hget := Members.get?_of_mem hb.unique hm
    cases h with
    | object present both _ _ =>
      obtain ⟨a, ha⟩ := present _ _ hget
      obtain ⟨y, hy, habs⟩ := ih (both _ _ _ ha hget) (hb.member hget)
      exact ⟨y, .of_get? ha hy _ _, habs⟩
    | settled hp => cases hp

end Schema

/-! ## What findings tell of -/

/-- Findings that `T` picks out tell of a node that has `Q`: what they consist of does, and a node
that absorbs one that has `Q` has it too. -/
structure Findings.Tell (T : Findings → Prop) (Q : Node → Prop) : Prop where
  none : ¬ T {}
  append : ∀ w w', T (w.append w') → T w ∨ T w'
  kind : ∀ k, T (ofKind k) → k = .null ∧ Q .null
  optional : ∀ n : Node, T (ofOptional n.carriesOptional) → ∃ a, a.Within n ∧ Q a
  object : ∀ o : Object, T { objects := [o] } → Q o.node
  absorbs : ∀ a b, Absorbs .strict a b → Q b → Q a

namespace Slot

variable {T : Findings → Prop} {Q : Node → Prop}

/-- What all findings of a list tell of, those of one item do. -/
theorem collect?_tell (hT : Findings.Tell T Q) {α β : Type} {f : α → Option (β × Findings)}
    {xs : List α} {ys : List β} {w : Findings} (h : collect? f xs = some (ys, w)) (hw : T w) :
    ∃ x ∈ xs, ∃ y ∈ ys, ∃ w', f x = some (y, w') ∧ T w' := by
  induction xs generalizing ys w with
  | nil =>
    cases h
    exact absurd hw hT.none
  | cons x xs ih =>
    obtain ⟨y, w₁, ys', w₂, hy, hys, rfl, rfl⟩ := collect?_cons.1 h
    rcases hT.append _ _ hw with hw | hw
    · exact ⟨x, List.mem_cons_self .., y, List.mem_cons_self .., w₁, hy, hw⟩
    · obtain ⟨a, ha, b, hb, w', hf, hw⟩ := ih hys hw
      exact ⟨a, List.mem_cons_of_mem _ ha, b, List.mem_cons_of_mem _ hb, w', hf, hw⟩

/-- What the findings of a container tell of stands in the node that its items come to: what stands in
one of them is absorbed, and what the end of the fold tells of is there. -/
theorem container_tell (hT : Findings.Tell T Q) {k : Kind} (hk : k ≠ .null) {α β : Type}
    {f : α → Option (β × Findings)} {g : β → Node} {xs : List α} {ys : List β} {e : Node}
    {w w' : Findings} (hi : collect? f xs = some (ys, w)) (hwf : ∀ y ∈ ys, (g y).WF)
    (he : concluded? .strict none (ys.map g) = some (e, w'))
    (hf : ∀ x ∈ xs, ∀ y w, f x = some (y, w) → T w → ∃ a, a.Within (g y) ∧ Q a)
    (hw : T ((Findings.ofKind k).append (w.append w'))) : ∃ a, a.Within e ∧ Q a := by
  obtain ⟨m, hm, rfl, rfl⟩ := concluded?_eq_some.1 he
  rcases hT.append _ _ hw with hw | hw
  · exact absurd (hT.kind k hw).1 hk
  · rcases hT.append _ _ hw with hw | hw
    · obtain ⟨x, hx, y, hy, w', hfx, hw⟩ := collect?_tell hT hi hw
      obtain ⟨a, ha, hq⟩ := hf x hx y w' hfx hw
      obtain ⟨e, rfl, habs⟩ :=
        joinAll?_of_mem (List.forall_mem_map.2 hwf) hm (List.mem_map_of_mem hy)
      obtain ⟨b, hb, hba⟩ := habs.within (hwf y hy) ha
      exact ⟨b, hb, hT.absorbs _ _ hba hq⟩
    · exact hT.optional _ hw

/-- What the findings of a sample tell of stands in the node that it shows. -/
theorem shown?_tell (hT : Findings.Tell T Q) {c : Settings} (hc : c.policy = .strict) {s : Sample}
    {path : Path} {hint : Identifier} {n : Node} {w : Findings}
    (h : shown? c path hint s = some (n, w)) (hw : T w) : ∃ a, a.Within n ∧ Q a := by
  induction s using Sample.induction generalizing path hint n w with
  | null =>
    cases h
    exact ⟨_, .here, (hT.kind _ hw).2⟩
  | scalar s =>
    cases h
    cases (hT.kind _ hw).1
  | array items ih =>
    obtain ⟨ns, w₁, e, w₂, hi, he, rfl, rfl⟩ := shown?_array.1 h
    rw [hc, ← List.map_id ns] at he
    obtain ⟨a, ha, hq⟩ := container_tell hT Kind.noConfusion hi (shownItems_wf hi) he
      (fun s hs _ _ h hw => ih s hs h hw) hw
    exact ⟨a, .element _ ha, hq⟩
  | object members ih =>
    by_cases hm : c.isMapPath (path ++ [hint]) = true
    · obtain ⟨ms, w₁, v, w₂, hi, hv, rfl, rfl⟩ := (shown?_map hm).1 h
      rw [hc] at hv
      obtain ⟨a, ha, hq⟩ := container_tell hT Kind.noConfusion hi (shownMembers_wf hi) hv
        (fun m hm _ _ h hw => ih m hm (shownMember?_eq_some.1 h).2 hw) hw
      exact ⟨a, .value _ _ ha, hq⟩
    · rw [Bool.not_eq_true] at hm
      obtain ⟨named, w₁, ms, hi, hg, rfl, rfl⟩ := (shown?_object hm).1 h
      rcases hT.append _ _ hw with hw | hw
      · obtain ⟨s, hs, m, hm, w', hf, hw⟩ := collect?_tell hT hi hw
        obtain ⟨a, ha, hq⟩ := ih s hs (shownMember?_eq_some.1 hf).2 hw
        -- the member of that name absorbs what the sample shows
        obtain ⟨b, hb, habs⟩ := Members.gather?_of_mem (shownMembers_wf hi) hg hm
        obtain ⟨d, hd, hda⟩ := (hc ▸ habs).within (shownMembers_wf hi m hm) ha
        exact ⟨d, .of_get? hb hd _ _, hT.absorbs _ _ hda hq⟩
      · exact ⟨_, .here, hT.object _ hw⟩

end Slot

namespace Run

variable {c : Settings} {vs : List Document.Value} {r : Run}

/-- What the documents tell of stands in the root. -/
theorem Outcome.stands {T : Findings → Prop} {Q : Node → Prop} (hT : Findings.Tell T Q)
    (hc : c.policy = .strict) {ns : List Node} {w : Findings} (h : Outcome c vs r ns w)
    (hw : T w) : ∃ root a, r.root = some root ∧ a.Within root ∧ Q a := by
  obtain ⟨v, -, n, hn, w', hv, hw⟩ := Slot.collect?_tell hT h.shown hw
  obtain ⟨a, ha, hq⟩ := Slot.shown?_tell hT hc hv hw
  obtain ⟨root, hroot, habs⟩ := joinAll?_of_mem h.nodes_wf h.root hn
  obtain ⟨b, hb, hba⟩ := (hc ▸ habs).within (h.nodes_wf n hn) ha
  exact ⟨root, b, hroot, hb, hT.absorbs _ _ hba hq⟩

/-! ## What a run emits -/

/-- The runs that observing just these documents leads to, in their order, and the events that were
emitted on the way. -/
inductive Emitted (c : Settings) : List Document.Value → List Event → Run → Prop
  | start : Emitted c [] [] (Run.start c)
  | observe {vs : List Document.Value} {es : List Event} {r r' : Run} {v : Document.Value}
      (h : Emitted c vs es r) (ho : (r.observe v).outcome = .ok r') :
      Emitted c (vs ++ [v]) (es ++ (r.observe v).events) r'
  | observeText {vs : List Document.Value} {es : List Event} {r r' : Run} {text : String}
      {v : Document.Value} (h : Emitted c vs es r) (hv : Document.parse text = .ok v)
      (ho : (r.observeText text).outcome = .ok r') :
      Emitted c (vs ++ [v]) (es ++ (r.observeText text).events) r'

/-- Without a warning, the strict run comes to the same run but for the policy. -/
theorem under_strict {ε : Type} {told : ε → Option Clash} {x y : Traced ε Run}
    (h : Lockstep told BothPolicies x y) (hy : y.outcome = .ok r) (hq : Quiet y.events) :
    x.outcome = .ok (r.under .strict) := by
  cases h with
  | ended _ h =>
    obtain ⟨s, rfl, rfl⟩ := h
    cases hy
    rfl
  | failed => cases hy
  | parted => exact absurd hq not_quiet_conflict

namespace Emitted

variable {es : List Event}

theorem observed (h : Emitted c vs es r) : Observed c vs r := by
  induction h with
  | start => exact .start
  | observe _ ho ih => exact ih.observe ho
  | observeText _ hv ho ih => exact ih.observeText hv ho

theorem under_policy (h : Emitted c vs es r) : r.under c.policy = r := by
  obtain ⟨ns, w, h⟩ := h.observed.exists_outcome
  unfold under
  rw [h.settings]
  obtain ⟨settings, gathered, root, documents⟩ := r
  obtain rfl : settings = c := h.settings
  rfl

/-- What is observed without a warning is observed by the strict run as well. -/
theorem strict (h : Emitted c vs es r) (hq : c.policy = .strict ∨ Quiet es) :
    Observed (c.withPolicy .strict) vs (r.under .strict) := by
  have hc : c.withPolicy c.policy = c := rfl
  rcases hp : c.policy with _ | _
  · rw [hp] at hc
    have hr := h.under_policy
    rw [hp] at hr
    rw [hc, hr]
    exact h.observed
  · replace hq := hq.resolve_left fun e => nomatch hp.symm.trans e
    induction h with
    | start => exact .start
    | @observe vs es r r' v h ho ih =>
      obtain ⟨hes, hes'⟩ := List.forall_mem_append.1 hq
      have hl := lockstep_observe ⟨r, rfl, rfl⟩ v
      rw [← hp, h.under_policy] at hl
      exact (ih hes).observe (under_strict hl ho hes')
    | @observeText vs es r r' text v h hv ho ih =>
      obtain ⟨hes, hes'⟩ := List.forall_mem_append.1 hq
      have hl := lockstep_observeText ⟨r, rfl, rfl⟩ text
      rw [← hp, h.under_policy] at hl
      exact (ih hes).observeText hv (under_strict hl ho hes')

theorem exists_strict (h : Emitted c vs es r) (hq : c.policy = .strict ∨ Quiet es) :
    ∃ ns w, Outcome (c.withPolicy .strict) vs (r.under .strict) ns w :=
  (h.strict hq).exists_outcome

end Emitted

end Run

end SchemaInference
