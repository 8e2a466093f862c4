/-
Runs under the two policies. A run under the strict policy and the same run under the lenient one go
in lockstep until two kinds clash. There the strict run fails with the two kinds, and the lenient
one emits them as a conflict and goes on alone. So a run that emits no warning comes to what the
strict run comes to (`inferTexts_strict`), and how a strict run ends can be read off the lenient one
up to its first warning (`inferTexts_until_clash`).
-/
import SchemaInference.Proofs.Run.Shown
import SchemaInference.Proofs.Schema.Policies

namespace SchemaInference

open Schema Traced

/-! ## Registering -/

theorem Registry.lockstep_register (r : Registry) (o : Object) :
    Lockstep haltedTold Eq (r.register .strict o) (r.register .preferFirst o) := by
  unfold register
  rcases r.find? o.name with _ | entry
  · refine Lockstep.bind (.emit fun h => nomatch h) ?_
    intro _ _ _
    exact .pure rfl
  · refine Lockstep.bind (.emit fun h => nomatch h) ?_
    intro _ _ _
    refine Lockstep.bind (.mapFault (lockstep_merge entry _) fun _ => rfl) ?_
    rintro merged _ rfl
    exact .pure rfl

/-! ## Slots -/

namespace Slot

variable (c : Settings) (path : Path) (hint : Identifier)

theorem lockstep_join (known : Option Node) (n : Node) :
    Lockstep Fault.told Eq (join (c.withPolicy .strict) path hint known n)
      (join (c.withPolicy .preferFirst) path hint known n) := by
  cases known with
  | none => exact .pure rfl
  | some m => exact (lockstep_unify m n).mapFault fun _ => rfl

theorem lockstep_declare (o : Object) (g : Gathered) :
    Lockstep Fault.told Eq (declare (c.withPolicy .strict) path o g)
      (declare (c.withPolicy .preferFirst) path o g) := by
  unfold declare
  refine Lockstep.bind (.mapFault (Registry.lockstep_register g.registry o) fun _ => rfl) ?_
  rintro registry _ rfl
  exact .pure rfl

variable {c path hint}

theorem lockstep_foldItems {items : List Sample}
    (h : ∀ s ∈ items, ∀ g, Lockstep Fault.told Eq (infer (c.withPolicy .strict) path hint s g)
      (infer (c.withPolicy .preferFirst) path hint s g)) (known : Option Node) (g : Gathered) :
    Lockstep Fault.told Eq (foldItems (c.withPolicy .strict) path hint items known g)
      (foldItems (c.withPolicy .preferFirst) path hint items known g) := by
  induction items generalizing known g with
  | nil => exact .pure rfl
  | cons s items ih =>
    obtain ⟨hs, hitems⟩ := List.forall_mem_cons.1 h
    unfold foldItems
    refine (hs g).bind ?_
    rintro ⟨n, g⟩ _ rfl
    refine (lockstep_join c path hint known n).bind ?_
    rintro joined _ rfl
    exact ih hitems (some joined) g

theorem lockstep_foldEntries {entries : List (Identifier × Sample)}
    (h : ∀ m ∈ entries, ∀ g, Lockstep Fault.told Eq
      (infer (c.withPolicy .strict) path hint m.2 g)
      (infer (c.withPolicy .preferFirst) path hint m.2 g)) (known : Option Node) (g : Gathered) :
    Lockstep Fault.told Eq (foldEntries (c.withPolicy .strict) path hint entries known g)
      (foldEntries (c.withPolicy .preferFirst) path hint entries known g) := by
  rw [foldEntries_eq, foldEntries_eq]
  exact lockstep_foldItems (List.forall_mem_map.2 h) known g

theorem lockstep_inferMembers {members : List (Identifier × Sample)}
    (h : ∀ m ∈ members, ∀ g, Lockstep Fault.told Eq
      (infer (c.withPolicy .strict) path m.1 m.2 g)
      (infer (c.withPolicy .preferFirst) path m.1 m.2 g)) (known : Members) (g : Gathered) :
    Lockstep Fault.told Eq (inferMembers (c.withPolicy .strict) path members known g)
      (inferMembers (c.withPolicy .preferFirst) path members known g) := by
  induction members generalizing known g with
  | nil => exact .pure rfl
  | cons m members ih =>
    obtain ⟨name, s⟩ := m
    obtain ⟨hs, hmembers⟩ := List.forall_mem_cons.1 h
    unfold inferMembers
    refine (hs g).bind ?_
    rintro ⟨n, g⟩ _ rfl
    refine (lockstep_join c path name (known.get? name) n).bind ?_
    rintro joined _ rfl
    exact ih hmembers (known.put name joined) g

theorem lockstep_inferObject {members : List (Identifier × Sample)}
    (h : ∀ m ∈ members, ∀ path hint g, Lockstep Fault.told Eq
      (infer (c.withPolicy .strict) path hint m.2 g)
      (infer (c.withPolicy .preferFirst) path hint m.2 g)) (g : Gathered) :
    Lockstep Fault.told Eq (inferObject (c.withPolicy .strict) path hint members g)
      (inferObject (c.withPolicy .preferFirst) path hint members g) := by
  unfold inferObject container
  by_cases hm : c.isMapPath (path ++ [hint]) = true
  · have hs : ∀ p, (c.withPolicy p).isMapPath (path ++ [hint]) = true := fun _ => hm
    simp only [hs, if_true]
    refine (lockstep_foldEntries (fun m hm g => h m hm _ _ g) none _).bind ?_
    rintro ⟨v, g⟩ _ rfl
    exact .pure rfl
  · have hs : ∀ p, ¬ (c.withPolicy p).isMapPath (path ++ [hint]) = true := fun _ => hm
    simp only [hs]
    refine (lockstep_inferMembers (fun m hm g => h m hm _ _ g) [] g).bind ?_
    rintro ⟨ms, g⟩ _ rfl
    exact lockstep_declare c (path ++ [hint]) _ g

theorem lockstep_infer (s : Sample) (path : Path) (hint : Identifier) (g : Gathered) :
    Lockstep Fault.told Eq (infer (c.withPolicy .strict) path hint s g)
      (infer (c.withPolicy .preferFirst) path hint s g) := by
  induction s using Sample.induction generalizing path hint g with
  | null =>
    refine Lockstep.bind (.emit fun h => nomatch h) ?_
    intro _ _ _
    exact .pure rfl
  | scalar s =>
    refine Lockstep.bind (.emit fun h => nomatch h) ?_
    intro _ _ _
    exact .pure rfl
  | array items ih =>
    refine Lockstep.bind (.emit fun h => nomatch h) ?_
    intro _ _ _
    refine (lockstep_foldItems (fun s hs g => ih s hs _ _ g) none (g.meet .array)).bind ?_
    rintro ⟨e, g⟩ _ rfl
    exact .pure rfl
  | object members ih =>
    rw [infer_object, infer_object]
    refine Lockstep.bind (.emit fun h => nomatch h) ?_
    intro _ _ _
    exact lockstep_inferObject ih g

end Slot

/-! ## Runs -/

def Refusal.told : Refusal → Option Clash
  | .malformed _ => none
  | .unfit f => some f.clash

namespace Run

/-- The run, but with another policy. -/
def under (p : Policy) (r : Run) : Run := { r with settings := r.settings.withPolicy p }

/-- The two runs differ in the policy alone. -/
def BothPolicies (r r' : Run) : Prop := ∃ s : Run, r = s.under .strict ∧ r' = s.under .preferFirst

theorem lockstep_inferRoot (c : Settings) (s : Sample) (g : Gathered) :
    Lockstep Fault.told Eq (inferRoot (c.withPolicy .strict) s g)
      (inferRoot (c.withPolicy .preferFirst) s g) := by
  cases s with
  | object members => exact Slot.lockstep_infer (.object members) [] c.rootName g
  | _ => exact Slot.lockstep_inferObject (fun m _ path hint g => Slot.lockstep_infer m.2 path hint g) g

theorem lockstep_observe {r r' : Run} (h : BothPolicies r r') (v : Document.Value) :
    Lockstep Fault.told BothPolicies (r.observe v) (r'.observe v) := by
  obtain ⟨r, rfl, rfl⟩ := h
  unfold observe
  refine (lockstep_inferRoot r.settings (.ofValue r.settings.dialect v) r.gathered).bind ?_
  rintro ⟨n, g⟩ _ rfl
  refine (Slot.lockstep_join r.settings [] r.settings.rootName r.root n).bind ?_
  rintro root _ rfl
  exact .pure ⟨⟨r.settings, g, some root, r.documents + 1⟩, rfl, rfl⟩

theorem lockstep_observeText {r r' : Run} (h : BothPolicies r r') (text : String) :
    Lockstep Refusal.told BothPolicies (r.observeText text) (r'.observeText text) := by
  unfold observeText
  refine Lockstep.bind (R := Eq) ?_ ?_
  · unfold Traced.ofExcept mapFault
    cases Document.parse text with
    | error f => exact .failed quiet_nil fun _ _ h => nomatch h
    | ok v => exact .ended quiet_nil rfl
  · rintro v _ rfl
    exact (lockstep_observe h v).mapFault fun _ => rfl

end Run

/-- A strict and a lenient run over the same texts. -/
theorem lockstep_inferTexts (c : Settings) (texts : List String) :
    Lockstep Refusal.told Eq (inferTexts (c.withPolicy .strict) texts)
      (inferTexts (c.withPolicy .preferFirst) texts) := by
  unfold inferTexts
  have hstart : Run.BothPolicies (Run.start (c.withPolicy .strict))
      (Run.start (c.withPolicy .preferFirst)) := ⟨Run.start c, rfl, rfl⟩
  refine (Lockstep.foldlM (fun _ _ text h => Run.lockstep_observeText h text) hstart texts).bind ?_
  rintro _ _ ⟨r, rfl, rfl⟩
  exact .pure rfl

/-- A run that emits no warning comes to what the strict run over the same texts comes to. -/
theorem inferTexts_strict {c : Settings} {texts : List String} {r : Inferred}
    (h : (inferTexts c texts).outcome = .ok r)
    (hq : c.policy = .strict ∨ Quiet (inferTexts c texts).events) :
    (inferTexts (c.withPolicy .strict) texts).outcome = .ok r := by
  have hc : c.withPolicy c.policy = c := rfl
  rcases hp : c.policy with _ | _
  · rwa [← hp, hc]
  · have hq := hq.resolve_left fun e => nomatch hp.symm.trans e
    have hl := lockstep_inferTexts c texts
    rw [← hp, hc] at hl
    exact hl.ok_iff.2 ⟨h, hq⟩

/-- The two policies over the same texts. The strict run succeeds just where the lenient one does
without a warning, and both come to the same; the two kinds that a strict run fails on are those
that the first warning of the lenient run tells of; and what else the strict run fails on, the
lenient one fails on too, without a warning. -/
theorem inferTexts_until_clash (c : Settings) (texts : List String) :
    let strict := inferTexts (c.withPolicy .strict) texts
    let lenient := inferTexts (c.withPolicy .preferFirst) texts
    (∀ i, strict.outcome = .ok i ↔ lenient.outcome = .ok i ∧ Quiet lenient.events) ∧
      (∀ path l r, strict.outcome = .error (.unfit ⟨path, .kinds l r⟩) →
        firstWarning? lenient.events = some (.conflict l r)) ∧
      ∀ e, strict.outcome = .error e → (∀ path l r, e ≠ .unfit ⟨path, .kinds l r⟩) →
        lenient.outcome = .error e ∧ Quiet lenient.events := by
  intro strict lenient
  have h : Lockstep Refusal.told Eq strict lenient := lockstep_inferTexts c texts
  refine ⟨fun i => h.ok_iff, fun path l r he => h.warned he rfl, fun e he hk => ?_⟩
  refine h.fault he fun l r hclash => ?_
  cases e with
  | malformed => cases hclash
  | unfit f =>
    obtain ⟨path, clash⟩ := f
    cases hclash
    exact hk path l r rfl

/-- Where an integer meets a string, the strict run fails and the lenient one warns of it; a
document that is cut off ends both runs. -/
theorem inferTexts_until_clash_integer_string :
    (inferTexts (Settings.default.withPolicy .strict)
        ["\x7b\"v\":[1,null]\x7d", "\x7b\"v\":[\"one\"]\x7d"]).outcome =
      .error (.unfit ⟨[⟨"root_object"⟩, ⟨"v"⟩], .kinds (.scalar .integer) (.scalar .string)⟩) ∧
    firstWarning? (inferTexts (Settings.default.withPolicy .preferFirst)
        ["\x7b\"v\":[1,null]\x7d", "\x7b\"v\":[\"one\"]\x7d"]).events =
      some (.conflict (.scalar .integer) (.scalar .string)) ∧
    (inferTexts (Settings.default.withPolicy .preferFirst) ["\x7b\"v\":null\x7d", "["]).outcome =
      .error (.malformed ⟨.unexpectedEnd, 1⟩) := by
  have hclash : (inferTexts (Settings.default.withPolicy .strict)
      ["\x7b\"v\":[1,null]\x7d", "\x7b\"v\":[\"one\"]\x7d"]).fault? =
        some (.unfit ⟨[⟨"root_object"⟩, ⟨"v"⟩], .kinds (.scalar .integer) (.scalar .string)⟩) := by
    decide +kernel
  have hcut : (inferTexts (Settings.default.withPolicy .strict)
      ["\x7b\"v\":null\x7d", "["]).fault? = some (.malformed ⟨.unexpectedEnd, 1⟩) := by
    decide +kernel
  have hclash := fault?_eq_some.1 hclash
  have hcut := fault?_eq_some.1 hcut
  exact ⟨hclash, (inferTexts_until_clash .default _).2.1 _ _ _ hclash,
    ((inferTexts_until_clash .default _).2.2 _ hcut fun _ _ _ h => nomatch h).1⟩

end SchemaInference
