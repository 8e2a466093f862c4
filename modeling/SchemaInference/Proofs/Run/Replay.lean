/-
Observing a document again. Whatever a document shows, the root and the registry of every later run
absorb (`Gathered.Knows`), and what is absorbed changes nothing when it comes once more: not an entry,
not the order of the members, not a feature. So the run stays as it is but for the number of documents
(`Observed.observe_again`), although it has been widened by others meanwhile.
-/
import SchemaInference.Proofs.Run.Alike
import SchemaInference.Proofs.Run.Coverage

namespace SchemaInference

open Schema Traced

/-! ## The registry -/

namespace Registry

variable {p : Policy} {r : Registry} {o e : Object}

/-- To replace an entry by itself changes nothing. -/
theorem replace_self (hr : r.WF) {name : Identifier} (he : r.find? name = some e) :
    r.replace name e = r := by
  have hsame : ∀ a ∈ r.entries, (if a.1 = name then (name, e) else a) = a := fun a ha => by
    split
    · rename_i hname
      have hfind := find?_of_mem hr (mem_objects.2 ⟨a.1, ha⟩)
      rw [hr.keyed a ha, hname, he, Option.some.injEq] at hfind
      rw [hfind, ← hname]
    · rfl
  unfold replace
  rw [List.map_congr_left hsame, List.map_id']

/-- An object that its entry absorbs leaves the registry as it is. -/
theorem register_of_absorbs (hr : r.WF) (ho : o.node.WF) (he : r.find? o.name = some e)
    (h : Absorbs p e.node (.object o.name o.members false)) :
    (r.register p o).value? = some r := by
  have hmem := mem_of_find? he
  have hmerge := merge_of_absorbs (o := { o with optional := false }) (hr.nodes e hmem)
    (ho.setOptional false) (hr.required e hmem) h
  unfold register
  rw [he]
  simp only [value?_bind, value?_emit, Option.bind_some, value?_mapFault,
    value?_eq_some.2 hmerge, pure_eq, value?_ok, replace_self hr he]

end Registry

/-! ## What is gathered -/

namespace Gathered

variable {p : Policy} {g : Gathered}

/-- The entry of its name absorbs the object. -/
def Knows (p : Policy) (g : Gathered) (o : Object) : Prop :=
  o.node.WF ∧ ∃ e, g.registry.find? o.name = some e ∧
    Absorbs p e.node (.object o.name o.members false)

theorem meetOptional_self {met : Bool} (h : met = true → g.features.optionals = true) :
    g.meetOptional met = g := by
  unfold meetOptional Features.meetOptional
  rw [Absorbs.or_eq h]

theorem declare?_of_knows (hg : g.registry.WF)
    (hf : g.registry.hasOptional = true → g.features.optionals = true) {o : Object}
    (h : g.Knows p o) : g.declare? p o = some g := by
  obtain ⟨ho, e, he, h⟩ := h
  unfold declare?
  rw [Registry.register_of_absorbs hg ho he h, Option.map_some, Option.some.injEq]
  refine meetOptional_self fun hmet => hf ?_
  rw [he, Option.any_some] at hmet
  exact (Registry.hasOptional_iff hg).2 ⟨o.name, e, he, hmet⟩

theorem declareAll?_of_knows (hg : g.registry.WF)
    (hf : g.registry.hasOptional = true → g.features.optionals = true) {os : List Object}
    (h : ∀ o ∈ os, g.Knows p o) : declareAll? p g os = some g := by
  induction os with
  | nil => rfl
  | cons o os ih =>
    obtain ⟨ho, hos⟩ := List.forall_mem_cons.1 h
    rw [declareAll?, declare?_of_knows hg hf ho, Option.bind_some, ih hos]

/-- Findings that are known already change nothing. -/
theorem into?_of_knows (hg : g.registry.WF)
    (hf : g.registry.hasOptional = true → g.features.optionals = true) {w : Findings}
    (h : ∀ o ∈ w.objects, g.Knows p o) (hw : w.features.Within g.features) :
    w.into? p g = some g := by
  unfold Findings.into? addFeatures
  rw [declareAll?_of_knows hg hf h, Option.map_some, Features.or_comm, hw]

end Gathered

/-! ## Runs -/

namespace Run

variable {c : Settings} {vs : List Document.Value} {r : Run} {ns : List Node} {w : Findings}

theorem Outcome.knows (h : Outcome c vs r ns w) {o : Object} (ho : o ∈ w.objects) :
    r.gathered.Knows c.policy o :=
  ⟨(h.objects_wf o ho).1, h.absorbs_declared ho⟩

theorem Outcome.optionals (h : Outcome c vs r ns w)
    (ho : r.gathered.registry.hasOptional = true) : r.gathered.features.optionals = true := by
  rw [h.features, ho]
  rfl

/-- What a document shows is known to the run that has observed it. -/
theorem Outcome.known (h : Outcome c vs r ns w) {v : Document.Value} (hv : v ∈ vs) :
    ∃ n w' root, shownDocument? c v = some (n, w') ∧
      w'.into? c.policy r.gathered = some r.gathered ∧ r.root = some root ∧
      joinKnown? c.policy (some root) n = some root := by
  obtain ⟨n, hn, w', hs, hsub⟩ := Slot.collect?_left h.shown hv
  have hwithin : w'.features.Within r.gathered.features := by
    rw [h.features]
    exact (Slot.collect?_within h.shown hv hs).trans (Features.within_or_right ..)
  obtain ⟨root, hroot, habs⟩ := joinAll?_of_mem h.nodes_wf h.root hn
  have hrwf := joinAll?_wf (by simp) h.nodes_wf h.root root hroot
  exact ⟨n, w', root, hs,
    Gathered.into?_of_knows h.registry_wf h.optionals (fun o ho => h.knows (hsub o ho)) hwithin,
    hroot, (joinKnown?_of_some hrwf (h.nodes_wf n hn)).2 habs.joins⟩

/-- Under either policy, a document that the run has observed already changes nothing but the number
of documents, whether it comes as it is or as a text. -/
theorem Observed.observe_again (h : Observed c vs r) {v : Document.Value} (hv : v ∈ vs) :
    (r.observe v).outcome = .ok { r with documents := r.documents + 1 } ∧
      ∀ text, Document.parse text = .ok v →
        (r.observeText text).outcome = .ok { r with documents := r.documents + 1 } := by
  obtain ⟨ns, w, h⟩ := h.exists_outcome
  obtain ⟨n, w', root, hs, hw, hroot, hjoin⟩ := h.known hv
  obtain rfl := h.settings
  have hobserve : (r.observe v).value? = some { r with documents := r.documents + 1 } :=
    value?_observe.2 ⟨n, w', r.gathered, root, hs, hw, hroot ▸ hjoin, by rw [← hroot]⟩
  exact ⟨value?_eq_some.1 hobserve, fun text ht =>
    value?_eq_some.1 (value?_observeText.2 ⟨v, ht, hobserve⟩)⟩

/-- The second document has a string where the first one has an integer, and a member that comes
last in the entry; it can come again all the same. -/
theorem Observed.observe_again_after_clash :
    ∃ r, Observed .default [.object [("a", .integer "1")],
        .object [("b", .array [.null]), ("a", .string "s")]] r ∧
      r.documents = 2 ∧
      (r.observe (.object [("b", .array [.null]), ("a", .string "s")])).outcome =
        .ok { r with documents := 3 } := by
  let first : Document.Value := .object [("a", .integer "1")]
  let second : Document.Value := .object [("b", .array [.null]), ("a", .string "s")]
  have hrun : ((Run.start .default).observe first).value?.isSome = true := by decide +kernel
  obtain ⟨r₁, h₁⟩ := Option.isSome_iff_exists.1 hrun
  have hrun' : (((Run.start .default).observe first).value?.bind fun r =>
      (r.observe second).value?).map (·.documents) = some 2 := by decide +kernel
  rw [h₁, Option.bind_some] at hrun'
  obtain ⟨r, hr, hdocs⟩ := Option.map_eq_some_iff.1 hrun'
  have h : Observed .default [first, second] r :=
    (Observed.start.observe (value?_eq_some.1 h₁)).observe (value?_eq_some.1 hr)
  refine ⟨r, h, hdocs, ?_⟩
  have hagain := (h.observe_again (List.mem_cons_of_mem _ (List.mem_singleton.2 rfl))).1
  rwa [hdocs] at hagain

end Run

end SchemaInference
