/-
What alike samples show. Under the strict policy, two samples that differ in the order of items and
members only show the same up to the order of members: both fail, or their nodes are alike and they
find the same features and alike objects (`Shows`). Items on either side need only be matched, since
what they come to depends neither on their order nor on how often each occurs.
-/
import SchemaInference.Proofs.Run.Shown

namespace SchemaInference

open Schema

/-! ## Features as an order -/

namespace Features

variable {f g h : Features}

/-- All that `f` has met, `g` has met. -/
def Within (f g : Features) : Prop := f.or g = g

theorem or_self (f : Features) : f.or f = f := by simp [or]

theorem within_or_left (f g : Features) : f.Within (f.or g) := by
  show f.or (f.or g) = f.or g
  rw [← or_assoc, or_self]

theorem within_or_right (f g : Features) : g.Within (f.or g) := by
  rw [or_comm]
  exact within_or_left g f

theorem Within.trans (hfg : f.Within g) (hgh : g.Within h) : f.Within h := by
  show f.or h = h
  rw [← hgh, ← or_assoc, hfg]

theorem Within.or (hf : f.Within h) (hg : g.Within h) : (f.or g).Within h := by
  show (f.or g).or h = h
  rw [or_assoc, hg, hf]

theorem Within.antisymm (hfg : f.Within g) (hgf : g.Within f) : f = g := by
  rw [← hgf, or_comm]
  exact hfg

theorem Within.or_right (h : f.Within g) (u : Features) : (f.or u).Within (g.or u) :=
  (h.trans (within_or_left g u)).or (within_or_right g u)

theorem none_within (f : Features) : ({} : Features).Within f := by
  show ({} : Features).or f = f
  rw [or_comm, or_none]

end Features

/-! ## Outcomes up to order -/

/-- Objects of one name whose nodes are alike. -/
def Schema.Object.Alike (o o' : Object) : Prop := o.name = o'.name ∧ o.node.Alike o'.node

/-- The same features, and alike objects on both sides. -/
structure Findings.Alike (w w' : Findings) : Prop where
  objects : Matched (fun o o' : Object => o.name = o'.name ∧ o.node.Alike o'.node) w.objects w'.objects
  features : w.features = w'.features

/-- What is found on one side is found on the other: objects up to `S`, features apart from `u`. -/
structure Findings.Covered (S : Object → Object → Prop) (u : Features) (w w' : Findings) : Prop where
  objects : ∀ o ∈ w.objects, ∃ o' ∈ w'.objects, S o o'
  features : w.features.Within (w'.features.or u)

/-- Both fail, or both show something: related outcomes and alike findings. -/
inductive Shows {β γ : Type} (R : β → γ → Prop) :
    Option (β × Findings) → Option (γ × Findings) → Prop
  | none : Shows R none none
  | some {b : β} {d : γ} {w w' : Findings} (h : R b d) (hw : w.Alike w') :
      Shows R (some (b, w)) (some (d, w'))

namespace Findings.Alike

variable {w w' v v' : Findings}

theorem refl (w : Findings) : w.Alike w :=
  ⟨matched_of_perm (fun _ => ⟨rfl, .refl _⟩) (List.Perm.refl _), rfl⟩

theorem symm (h : w.Alike w') : w'.Alike w :=
  ⟨h.objects.symm fun _ _ h => ⟨h.1.symm, h.2.symm⟩, h.features.symm⟩

theorem trans (h : w.Alike w') (h' : w'.Alike v) : w.Alike v :=
  ⟨h.objects.trans h'.objects fun _ _ _ h h' => ⟨h.1.trans h'.1, h.2.trans h'.2⟩,
    h.features.trans h'.features⟩

theorem append (h : w.Alike w') (hv : v.Alike v') : (w.append v).Alike (w'.append v') := by
  refine ⟨h.objects.append hv.objects, ?_⟩
  show w.features.or v.features = w'.features.or v'.features
  rw [h.features, hv.features]

theorem covered (h : w.Alike w') : w.Covered Object.Alike {} w' := by
  refine ⟨h.objects.1, ?_⟩
  rw [h.features]
  exact Features.within_or_left ..

theorem of_covered (h : w.Covered Object.Alike {} w') (h' : w'.Covered Object.Alike {} w) :
    w.Alike w' := by
  obtain ⟨ho, hf⟩ := h
  obtain ⟨ho', hf'⟩ := h'
  rw [Features.or_none] at hf hf'
  refine ⟨⟨ho, fun o hm => ?_⟩, hf.antisymm hf'⟩
  obtain ⟨o', hm', hn, ha⟩ := ho' o hm
  exact ⟨o', hm', hn.symm, ha.symm⟩

end Findings.Alike

namespace Shows

variable {β γ : Type} {R : β → γ → Prop} {x : Option (β × Findings)} {y : Option (γ × Findings)}

theorem symm (h : Shows R x y) : Shows (fun d b => R b d) y x := by
  cases h with
  | none => exact .none
  | some h hw => exact .some h hw.symm

theorem of_some {b : β} {w : Findings} (h : Shows R (Option.some (b, w)) y) :
    ∃ d w', y = Option.some (d, w') ∧ R b d ∧ w.Alike w' := by
  cases h with
  | some h hw => exact ⟨_, _, rfl, h, hw⟩

theorem of_both {b : β} {d : γ} {w v : Findings} (h : Shows R x y) (hx : x = Option.some (b, w))
    (hy : y = Option.some (d, v)) : R b d ∧ w.Alike v := by
  subst hx hy
  cases h with
  | some h hw => exact ⟨h, hw⟩

theorem bind {δ ζ : Type} {S : δ → ζ → Prop} {f : β × Findings → Option (δ × Findings)}
    {g : γ × Findings → Option (ζ × Findings)} (h : Shows R x y)
    (hf : ∀ b d w w', x = Option.some (b, w) → y = Option.some (d, w') → R b d → w.Alike w' →
      Shows S (f (b, w)) (g (d, w'))) : Shows S (x.bind f) (y.bind g) := by
  cases h with
  | none => exact .none
  | some h hw => exact hf _ _ _ _ rfl rfl h hw

end Shows

namespace Slot

/-! ## Lists -/

section Collect

variable {α β γ δ : Type} {f : α → Option (β × Findings)} {g : γ → Option (δ × Findings)}
  {xs : List α} {zs : List γ} {ys : List β} {w : Findings}

theorem collect?_within (h : collect? f xs = some (ys, w)) {x : α} (hx : x ∈ xs) {y : β}
    {w' : Findings} (hf : f x = some (y, w')) : w'.features.Within w.features := by
  induction xs generalizing ys w with
  | nil => cases hx
  | cons a xs ih =>
    obtain ⟨y', w₁, ys', w₂, hy, hys, rfl, rfl⟩ := collect?_cons.1 h
    rcases List.mem_cons.1 hx with rfl | hx
    · rw [hf, Option.some.injEq, Prod.mk.injEq] at hy
      exact hy.2 ▸ Features.within_or_left ..
    · exact (ih hys hx).trans (Features.within_or_right ..)

/-- The features of a list are the least that all its items are within. -/
theorem collect?_least (h : collect? f xs = some (ys, w)) {u : Features}
    (hu : ∀ x ∈ xs, ∀ y w', f x = some (y, w') → w'.features.Within u) : w.features.Within u := by
  induction xs generalizing ys w with
  | nil =>
    cases h
    exact Features.none_within u
  | cons a xs ih =>
    obtain ⟨y', w₁, ys', w₂, hy, hys, rfl, rfl⟩ := collect?_cons.1 h
    obtain ⟨ha, hxs⟩ := List.forall_mem_cons.1 hu
    exact (ha y' w₁ hy).or (ih hys hxs)

/-- What a list shows is covered by what another list shows, where each of its items is. -/
theorem collect?_covered {R : β → δ → Prop} {S : Object → Object → Prop} {u : Features}
    {ds : List δ} {v : Findings}
    (h : ∀ x ∈ xs, ∃ z ∈ zs, ∀ y w' d v', f x = some (y, w') → g z = some (d, v') →
      R y d ∧ w'.Covered S u v')
    (hf : collect? f xs = some (ys, w)) (hg : collect? g zs = some (ds, v)) :
    (∀ y ∈ ys, ∃ d ∈ ds, R y d) ∧ w.Covered S u v := by
  -- what one item shows is covered by what its counterpart shows, and so by all of it
  have hitem : ∀ x ∈ xs, ∀ y w', f x = some (y, w') →
      (∃ d ∈ ds, R y d) ∧ w'.Covered S u v := by
    intro x hx y w' hy
    obtain ⟨z, hz, hs⟩ := h x hx
    obtain ⟨d, hd, v', hv, hsub⟩ := collect?_left hg hz
    obtain ⟨hR, hw⟩ := hs y w' d v' hy hv
    refine ⟨⟨d, hd, hR⟩, fun o ho => ?_, hw.features.trans ((collect?_within hg hz hv).or_right u)⟩
    obtain ⟨o', ho', hS⟩ := hw.objects o ho
    exact ⟨o', hsub o' ho', hS⟩
  refine ⟨fun y hy => ?_, fun o ho => ?_, collect?_least hf fun x hx y w' hy => ?_⟩
  · obtain ⟨x, hx, w', hy, -⟩ := collect?_right hf hy
    exact (hitem x hx y w' hy).1
  · obtain ⟨x, hx, y, w', hy, ho, -⟩ := collect?_objects hf ho
    exact (hitem x hx y w' hy).2.objects o ho
  · exact (hitem x hx y w' hy).2.features

theorem collect?_of_matched {R : β → δ → Prop} (h : Matched (fun x z => Shows R (f x) (g z)) xs zs)
    (hf : collect? f xs = some (ys, w)) : ∃ us v, collect? g zs = some (us, v) := by
  obtain ⟨⟨us, v⟩, hg⟩ : ∃ r, collect? g zs = some r := collect?_isSome fun z hz => by
    obtain ⟨x, hx, hs⟩ := h.2 z hz
    obtain ⟨y, -, w', hy, -⟩ := collect?_left hf hx
    rw [hy] at hs
    obtain ⟨u, v', hu, -⟩ := hs.of_some
    exact ⟨_, hu⟩
  exact ⟨us, v, hg⟩

/-- Where the items are matched, what they show is matched. -/
theorem collect?_shows {R : β → δ → Prop} (h : Matched (fun x z => Shows R (f x) (g z)) xs zs) :
    Shows (Matched R) (collect? f xs) (collect? g zs) := by
  have h' : Matched (fun z x => Shows (fun d b => R b d) (g z) (f x)) zs xs :=
    h.symm fun _ _ hs => hs.symm
  rcases hf : collect? f xs with _ | ⟨ys, w⟩
  · rcases hg : collect? g zs with _ | ⟨us, v⟩
    · exact .none
    · obtain ⟨ys, w, hf'⟩ := collect?_of_matched h' hg
      rw [hf] at hf'
      cases hf'
  · obtain ⟨us, v, hg⟩ := collect?_of_matched h hf
    obtain ⟨hys, hw⟩ := collect?_covered (fun x hx => (h.1 x hx).imp fun z hz =>
      ⟨hz.1, fun _ _ _ _ hy hd => (hz.2.of_both hy hd).imp_right Findings.Alike.covered⟩) hf hg
    obtain ⟨hus, hv⟩ := collect?_covered (fun z hz => (h'.1 z hz).imp fun x hx =>
      ⟨hx.1, fun _ _ _ _ hd hy => (hx.2.of_both hd hy).imp_right Findings.Alike.covered⟩) hg hf
    rw [hg]
    refine .some ⟨hys, hus⟩ (.of_covered hw hv)

end Collect

/-! ## Folds -/

theorem concluded?_shows {ns ns' : List Node} (hns : ∀ n ∈ ns, n.WF) (hns' : ∀ n ∈ ns', n.WF)
    (h : Matched Node.Alike ns ns') :
    Shows Node.Alike (concluded? .strict none ns) (concluded? .strict none ns') := by
  have hrel : Option.Rel (Option.Rel Node.Alike) (joinAll? .strict none ns)
      (joinAll? .strict none ns') := by
    refine rel_of_some (fun k hk => joinAll?_alike hns hns' h hk) fun k' hk' => ?_
    obtain ⟨k, hk, -⟩ := joinAll?_alike hns' hns (h.symm fun _ _ h => h.symm) hk'
    exact ⟨k, hk⟩
  have hwf : ∀ k, joinAll? .strict none ns = some k → ∀ a ∈ k, a.WF := fun k hk =>
    joinAll?_wf (by simp) hns hk
  have hwf' : ∀ k, joinAll? .strict none ns' = some k → ∀ a ∈ k, a.WF := fun k hk =>
    joinAll?_wf (by simp) hns' hk
  unfold concluded?
  generalize joinAll? .strict none ns = x at hrel hwf
  generalize joinAll? .strict none ns' = y at hrel hwf'
  cases hrel with
  | none => exact .none
  | some hrel =>
    cases hrel with
    | none => exact .some .null (.refl _)
    | @some a b h =>
      show Shows Node.Alike (some (a, .ofOptional a.carriesOptional))
        (some (b, .ofOptional b.carriesOptional))
      rw [h.carriesOptional (hwf _ rfl _ rfl) (hwf' _ rfl _ rfl)]
      exact .some h (.refl _)

theorem gather?_shows {named named' : Members} (hn : ∀ m ∈ named, m.2.WF)
    (hn' : ∀ m ∈ named', m.2.WF)
    (h : Matched (fun m m' => m.1 = m'.1 ∧ m.2.Alike m'.2) named named') :
    Option.Rel Members.Alike (Members.gather? .strict [] named)
      (Members.gather? .strict [] named') := by
  refine rel_of_some (fun ms hg => Members.gather?_alike hn hn' h hg) fun ms' hg' => ?_
  obtain ⟨ms, hg, -⟩ :=
    Members.gather?_alike hn' hn (h.symm fun _ _ h => ⟨h.1.symm, h.2.symm⟩) hg'
  exact ⟨ms, hg⟩

/-! ## Samples -/

/-- Two samples that show the same in every slot, but for the order of members. -/
def AlikeSamples (c : Settings) (s s' : Sample) : Prop :=
  ∀ path hint, Shows Node.Alike (shown? c path hint s) (shown? c path hint s')

namespace AlikeSamples

variable {c : Settings} {s s' s'' : Sample}

theorem refl (c : Settings) (s : Sample) : AlikeSamples c s s := fun path hint => by
  rcases shown? c path hint s with _ | ⟨n, w⟩
  · exact .none
  · exact .some (.refl n) (.refl w)

theorem trans (h : AlikeSamples c s s') (h' : AlikeSamples c s' s'') : AlikeSamples c s s'' :=
  fun path hint => by
    have h := h path hint
    have h' := h' path hint
    generalize shown? c path hint s = x at h
    generalize shown? c path hint s' = y at h h'
    cases h with
    | none =>
      generalize shown? c path hint s'' = z at h'
      cases h'
      exact .none
    | some hn hw =>
      obtain ⟨n, w, e, hn', hw'⟩ := h'.of_some
      rw [e]
      exact .some (hn.trans hn') (hw.trans hw')

theorem symm (h : AlikeSamples c s s') : AlikeSamples c s' s := fun path hint => by
  have h := (h path hint).symm
  generalize shown? c path hint s = x at h
  generalize shown? c path hint s' = y at h
  cases h with
  | none => exact .none
  | some hn hw => exact .some hn.symm hw

theorem array (hc : c.policy = .strict) {items items' : List Sample}
    (h : Matched (AlikeSamples c) items items') :
    AlikeSamples c (.array items) (.array items') := fun path hint => by
  have hitems : Shows (Matched Node.Alike) (collect? (shown? c path (c.elementHint hint)) items)
      (collect? (shown? c path (c.elementHint hint)) items') :=
    collect?_shows (h.imp fun _ _ _ _ h => h path (c.elementHint hint))
  simp only [shown?, shownItems?_eq, Option.bind_eq_bind, Option.pure_def]
  refine hitems.bind fun ns ns' w w' hx hy hns hw => ?_
  have hfold := concluded?_shows (shownItems_wf hx) (shownItems_wf hy) hns
  rw [← hc] at hfold
  refine hfold.bind fun e e' v v' _ _ he hv => ?_
  exact .some (.array false he) (.append (.refl _) (hw.append hv))

/-- Members of one name whose samples are alike show alike nodes under that name. -/
theorem members {path : Path} {slot : Identifier → Identifier}
    {members members' : List (Identifier × Sample)}
    (h : Matched (fun m m' => m.1 = m'.1 ∧ AlikeSamples c m.2 m'.2) members members') :
    Shows (Matched fun m m' => m.1 = m'.1 ∧ m.2.Alike m'.2)
      (collect? (shownMember? c path slot) members)
      (collect? (shownMember? c path slot) members') := by
  refine collect?_shows (h.imp ?_)
  rintro ⟨name, s⟩ - ⟨_, s'⟩ - ⟨rfl, hs⟩
  have hs := hs path (slot name)
  unfold shownMember?
  dsimp only
  generalize shown? c path (slot name) s = x at hs
  generalize shown? c path (slot name) s' = y at hs
  cases hs with
  | none => exact .none
  | some hn hw => exact .some ⟨rfl, hn⟩ hw

theorem object (hc : c.policy = .strict) {members members' : List (Identifier × Sample)}
    (h : Matched (fun m m' => m.1 = m'.1 ∧ AlikeSamples c m.2 m'.2) members members') :
    AlikeSamples c (.object members) (.object members') := fun path hint => by
  simp only [shown?, shownMembers?_eq, Option.bind_eq_bind, Option.pure_def]
  by_cases hm : c.isMapPath (path ++ [hint]) = true
  · simp only [hm, if_true]
    refine (AlikeSamples.members h).bind fun ms ms' w w' hx hy hms hw => ?_
    have hvalues : Matched Node.Alike (ms.map (·.2)) (ms'.map (·.2)) :=
      .map _ _ (hms.imp fun _ _ _ _ h => h.2)
    have hfold := concluded?_shows (List.forall_mem_map.2 (shownMembers_wf hx))
      (List.forall_mem_map.2 (shownMembers_wf hy)) hvalues
    rw [← hc] at hfold
    refine hfold.bind fun e e' v v' _ _ he hv => ?_
    exact .some (.map hint false he) (.append (.refl _) (hw.append hv))
  · simp only [hm, Bool.false_eq_true, if_false]
    refine (AlikeSamples.members h).bind fun named named' w w' hx hy hnamed hw => ?_
    have hgather := gather?_shows (shownMembers_wf hx) (shownMembers_wf hy) hnamed
    rw [← hc] at hgather
    generalize Members.gather? c.policy [] named = x at hgather
    generalize Members.gather? c.policy [] named' = y at hgather
    cases hgather with
    | none => exact .none
    | some ha =>
      have hnode := Node.Alike.object (c.objectName hint.text) false ha.names ha.both
      exact .some hnode (hw.append ⟨.singleton ⟨rfl, hnode⟩, rfl⟩)

end AlikeSamples

end Slot

end SchemaInference
