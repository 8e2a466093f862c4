/-
Where nothing ends a run. Under the lenient policy kinds that clash are settled, and without map paths
no object meets a map; so nodes of one slot always join, every sample shows something in every slot
(`exists_shown`), and there is a run over every list of documents (`exists_run`).
-/
import SchemaInference.Proofs.Run.Naming

namespace SchemaInference

open Schema Traced

/-- Clashes are settled, and there are no maps. -/
structure Settings.Lenient (c : Settings) : Prop where
  policy : c.policy = .preferFirst
  mapPaths : c.mapPaths = []

/-- Where every item has an outcome with `P`, the list has one, and each part of it has `P`. -/
theorem Slot.collect?_exists {α β : Type} {f : α → Option (β × Findings)} {P : β → Prop}
    {xs : List α} (h : ∀ x ∈ xs, ∃ y w, f x = some (y, w) ∧ P y) :
    ∃ ys w, collect? f xs = some (ys, w) ∧ ∀ y ∈ ys, P y := by
  obtain ⟨⟨ys, w⟩, hi⟩ : ∃ r, collect? f xs = some r := collect?_isSome fun x hx => by
    obtain ⟨y, w, hy, -⟩ := h x hx
    exact ⟨_, hy⟩
  refine ⟨ys, w, hi, fun y hy => ?_⟩
  obtain ⟨x, hx, w', hf, -⟩ := collect?_right hi hy
  obtain ⟨y', w'', hf', hP⟩ := h x hx
  rw [hf, Option.some.injEq, Prod.mk.injEq] at hf'
  exact hf'.1 ▸ hP

namespace Settings.Lenient

variable {c : Settings} (hc : c.Lenient) {hint : Identifier}

include hc

theorem isMapPath (path : Path) : c.isMapPath path = false := by
  simp [Settings.isMapPath, hc.mapPaths]

theorem not_possible (f : Clash) : ¬ f.Possible c := by
  rintro (⟨hp, -, -⟩ | ⟨hm, -, -⟩)
  · cases hc.policy.symm.trans hp
  · exact hm hc.mapPaths

/-! ## Joins -/

theorem exists_unify {a b : Node} (ha : a.Named c hint) (hb : b.Named c hint) :
    ∃ k, (unify c.policy a b).value? = some k ∧ k.Named c hint := by
  have hends := ends_unify ha hb
  obtain ⟨k, hk⟩ := hends.exists_ok fun f => hc.not_possible f.clash
  exact ⟨k, value?_eq_some.2 hk, hends.of_ok hk⟩

/-- All nodes of one slot join to a node of that slot. -/
theorem exists_joinAll {known : Option Node} {ns : List Node}
    (hk : ∀ m ∈ known, m.Named c hint) (hns : ∀ n ∈ ns, n.Named c hint) :
    ∃ k, joinAll? c.policy known ns = some k ∧ ∀ a ∈ k, a.Named c hint := by
  induction ns generalizing known with
  | nil => exact ⟨known, rfl, hk⟩
  | cons n ns ih =>
    obtain ⟨hn, hns⟩ := List.forall_mem_cons.1 hns
    obtain ⟨j, hj, hnamed⟩ : ∃ j, joinKnown? c.policy known n = some j ∧ j.Named c hint := by
      cases known with
      | none => exact ⟨n, rfl, hn⟩
      | some m => exact hc.exists_unify (hk m rfl) hn
    have hknown : ∀ m ∈ some j, m.Named c hint := by
      rintro _ ⟨⟩
      exact hnamed
    obtain ⟨k, h, hk⟩ := ih hknown hns
    exact ⟨k, Option.bind_eq_some_iff.2 ⟨j, hj, h⟩, hk⟩

/-- All members that are named after their slots are gathered. -/
theorem exists_gather {named : Members} (hn : named.Named c) :
    ∃ ms, Members.gather? c.policy [] named = some ms ∧ ms.Named c := by
  have hfold : ∀ name, ∃ k, joinAll? c.policy none (Members.under named name) = some k ∧
      ∀ a ∈ k, a.Named c name := fun name =>
    hc.exists_joinAll (by simp) fun n hm => hn _ (Members.mem_under.1 hm)
  obtain ⟨ms, hg⟩ : ∃ ms, Members.gather? c.policy [] named = some ms :=
    Members.gather?_isSome fun name => by
      obtain ⟨k, hk, -⟩ := hfold name
      rw [Members.get?_nil, hk]
      rfl
  refine ⟨ms, hg, fun m hm => ?_⟩
  obtain ⟨k, hk, hnamed⟩ := hfold m.1
  have hget := Members.gather?_get? hg m.1
  rw [Members.get?_nil, hk, Option.some.injEq] at hget
  rw [hget] at hnamed
  exact hnamed m.2 (Members.get?_of_mem (Members.unique_gather? Members.unique_nil hg) hm)

/-! ## Samples and runs -/

open Slot in
/-- Every sample shows something in every slot. -/
theorem exists_shown (s : Sample) (path : Path) (hint : Identifier) :
    ∃ n w, shown? c path hint s = some (n, w) ∧ n.Named c hint := by
  induction s using Sample.induction generalizing path hint with
  | null => exact ⟨_, _, rfl, .null hint⟩
  | scalar s => exact ⟨_, _, rfl, .scalar hint s false⟩
  | array items ih =>
    obtain ⟨ns, w, hi, hns⟩ := collect?_exists fun s hs => ih s hs path (c.elementHint hint)
    have hnone : ∀ m ∈ (none : Option Node), m.Named c (c.elementHint hint) := by simp
    obtain ⟨k, hk, hnamed⟩ := hc.exists_joinAll hnone hns
    refine ⟨_, _, shown?_array.2 ⟨ns, w, _, _, hi, concluded?_eq_some.2 ⟨k, hk, rfl, rfl⟩, rfl,
      rfl⟩, .array false ?_⟩
    cases k with
    | none => exact .null _
    | some e => exact hnamed e rfl
  | object members ih =>
    obtain ⟨named, w, hi, hnamed⟩ : ∃ named w,
        collect? (shownMember? c (path ++ [hint]) id) members = some (named, w) ∧
          Members.Named c named := collect?_exists fun m hm => by
      obtain ⟨n, w, hs, hn⟩ := ih m hm (path ++ [hint]) m.1
      exact ⟨(m.1, n), w, shownMember?_eq_some.2 ⟨rfl, hs⟩, hn⟩
    obtain ⟨ms, hg, hms⟩ := hc.exists_gather hnamed
    exact ⟨_, _, (shown?_object (hc.isMapPath _)).2 ⟨named, w, ms, hi, hg, rfl, rfl⟩,
      .object hint false hms⟩

theorem exists_run (vs : List Document.Value) :
    ∃ r, (vs.foldlM Run.observe (Run.start c)).outcome = .ok r := by
  have hends : (vs.foldlM Run.observe (Run.start c)).Ends (Run.Named c)
      fun f => f.clash.Possible c :=
    Ends.foldlM (fun v _ r hr => Run.ends_observe hr v) Run.Reached.start.named
  exact hends.exists_ok fun f => hc.not_possible f.clash

end Settings.Lenient

end SchemaInference
