/-
The join as a partial operation. Under the strict policy a join is told by the nodes that absorb it,
which are those that absorb both of its sides (`Joins.absorbs_iff`), and there is one as soon as
some node absorbs both. Which nodes absorb three others does not hang on how the three are grouped,
nor which absorb two on the side they come from, so neither does their join, nor whether there is
one (`unify_assoc`, `unify_comm`). The lenient policy keeps what it knew first, so it shares the
second law only where nothing was given up for that; but under either policy a join absorbs its
sides (`unify_absorbs`).
-/
import SchemaInference.Proofs.Schema.Bounds
import SchemaInference.Proofs.Schema.Clashes
import SchemaInference.Proofs.Schema.Policies
import SchemaInference.Proofs.Matched

namespace SchemaInference.Schema

open Traced

variable {a b c k : Node}

/-! ## Bounds -/

/-- What absorbs a join is what absorbs both of its sides. -/
theorem Joins.absorbs_iff (h : Joins .strict a b k) {d : Node} :
    Absorbs .strict d k ↔ Absorbs .strict d a ∧ Absorbs .strict d b := by
  constructor
  · intro hd
    exact ⟨hd.trans (.of_joins_left h), hd.trans (.of_joins_right h)⟩
  · rintro ⟨ha, hb⟩
    exact ha.of_both hb h

/-- Nodes are alike if the same nodes absorb them. -/
theorem Node.Alike.of_bounds (ha : a.WF) (hb : b.WF)
    (h : ∀ d, Absorbs .strict d a ↔ Absorbs .strict d b) : Node.Alike a b :=
  of_absorbs ha hb ((h a).1 (.refl a)) ((h b).2 (.refl b))

/-! ## Three nodes -/

/-- The join of `a` and `b`, joined with `c`. -/
def JoinsLeft (a b c k : Node) : Prop := ∃ ab, Joins .strict a b ab ∧ Joins .strict ab c k

/-- `a` joined with the join of `b` and `c`. -/
def JoinsRight (a b c k : Node) : Prop := ∃ bc, Joins .strict b c bc ∧ Joins .strict a bc k

theorem JoinsLeft.absorbs_iff (h : JoinsLeft a b c k) {d : Node} :
    Absorbs .strict d k ↔ Absorbs .strict d a ∧ Absorbs .strict d b ∧ Absorbs .strict d c := by
  obtain ⟨ab, hab, hk⟩ := h
  rw [hk.absorbs_iff, hab.absorbs_iff, and_assoc]

theorem JoinsRight.absorbs_iff (h : JoinsRight a b c k) {d : Node} :
    Absorbs .strict d k ↔ Absorbs .strict d a ∧ Absorbs .strict d b ∧ Absorbs .strict d c := by
  obtain ⟨bc, hbc, hk⟩ := h
  rw [hk.absorbs_iff, hbc.absorbs_iff]

section Grouping

variable (ha : a.WF) (hb : b.WF) (hc : c.WF)

include ha hb hc

theorem exists_joinsLeft {d : Node} (hda : Absorbs .strict d a) (hdb : Absorbs .strict d b)
    (hdc : Absorbs .strict d c) : ∃ k, JoinsLeft a b c k := by
  obtain ⟨ab, hab⟩ := exists_joins ha hb hda hdb
  obtain ⟨k, hk⟩ := exists_joins (hab.wf ha hb) hc (hab.absorbs_iff.2 ⟨hda, hdb⟩) hdc
  exact ⟨k, ab, hab, hk⟩

theorem exists_joinsRight {d : Node} (hda : Absorbs .strict d a) (hdb : Absorbs .strict d b)
    (hdc : Absorbs .strict d c) : ∃ k, JoinsRight a b c k := by
  obtain ⟨bc, hbc⟩ := exists_joins hb hc hdb hdc
  obtain ⟨k, hk⟩ := exists_joins ha (hbc.wf hb hc) hda (hbc.absorbs_iff.2 ⟨hdb, hdc⟩)
  exact ⟨k, bc, hbc, hk⟩

theorem value?_unify_left :
    (unify .strict a b >>= fun ab => unify .strict ab c).value? = some k ↔ JoinsLeft a b c k := by
  rw [Traced.value?_bind, Option.bind_eq_some_iff]
  constructor
  · rintro ⟨ab, hab, hk⟩
    have hab := (value?_unify ha hb).1 hab
    exact ⟨ab, hab, (value?_unify (hab.wf ha hb) hc).1 hk⟩
  · rintro ⟨ab, hab, hk⟩
    exact ⟨ab, (value?_unify ha hb).2 hab, (value?_unify (hab.wf ha hb) hc).2 hk⟩

theorem value?_unify_right :
    (unify .strict b c >>= fun bc => unify .strict a bc).value? = some k ↔ JoinsRight a b c k := by
  rw [Traced.value?_bind, Option.bind_eq_some_iff]
  constructor
  · rintro ⟨bc, hbc, hk⟩
    have hbc := (value?_unify hb hc).1 hbc
    exact ⟨bc, hbc, (value?_unify ha (hbc.wf hb hc)).1 hk⟩
  · rintro ⟨bc, hbc, hk⟩
    exact ⟨bc, (value?_unify hb hc).2 hbc, (value?_unify ha (hbc.wf hb hc)).2 hk⟩

/-- However three nodes are grouped, joining them one after the other comes to the same under the
strict policy: both ways fail, be it at the first join or at the second, or both end in a node, and
these are the same up to the order of members. -/
theorem unify_assoc :
    Option.Rel Node.Alike (unify .strict a b >>= fun ab => unify .strict ab c).value?
      (unify .strict b c >>= fun bc => unify .strict a bc).value? := by
  apply rel_of_some
  · intro k hk
    have hk := (value?_unify_left ha hb hc).1 hk
    obtain ⟨hka, hkb, hkc⟩ := hk.absorbs_iff.1 (.refl k)
    obtain ⟨k', hk'⟩ := exists_joinsRight ha hb hc hka hkb hkc
    refine ⟨k', (value?_unify_right ha hb hc).2 hk', ?_⟩
    -- both are bounded by what absorbs all three nodes
    refine .of_bounds ?_ ?_ fun d => hk.absorbs_iff.trans hk'.absorbs_iff.symm
    · obtain ⟨ab, hab, hk⟩ := hk
      exact hk.wf (hab.wf ha hb) hc
    · obtain ⟨bc, hbc, hk'⟩ := hk'
      exact hk'.wf ha (hbc.wf hb hc)
  · intro k hk
    have hk := (value?_unify_right ha hb hc).1 hk
    obtain ⟨hka, hkb, hkc⟩ := hk.absorbs_iff.1 (.refl k)
    obtain ⟨k', hk'⟩ := exists_joinsLeft ha hb hc hka hkb hkc
    exact ⟨k', (value?_unify_left ha hb hc).2 hk'⟩

end Grouping

/-- Members that one, two or all three objects have: an integer that becomes a real, null that meets
a value two objects later, and a map that is without values at first. -/
theorem unify_assoc_objects :
    let a : Node := .object ⟨"a_t"⟩
      [(⟨"x"⟩, .scalar .integer false), (⟨"m"⟩, .map ⟨"m"⟩ .null false)] false
    let b : Node := .object ⟨"a_t"⟩ [(⟨"y"⟩, .null), (⟨"x"⟩, .scalar .real false)] true
    let c : Node := .object ⟨"a_t"⟩
      [(⟨"m"⟩, .map ⟨"m"⟩ (.scalar .string false) false), (⟨"y"⟩, .array .null false),
        (⟨"x"⟩, .scalar .integer false)] false
    a.WF ∧ b.WF ∧ c.WF ∧ ∃ k k',
      (unify .strict a b >>= fun ab => unify .strict ab c).value? = some k ∧
      (unify .strict b c >>= fun bc => unify .strict a bc).value? = some k' ∧
      k = .object ⟨"a_t"⟩
        [(⟨"x"⟩, .scalar .real false), (⟨"m"⟩, .map ⟨"m"⟩ (.scalar .string true) true),
          (⟨"y"⟩, .array .null true)] true ∧
      k.Alike k' := by
  intro a b c
  have ha : a.WF := .object _ _ (by unfold Members.Unique; decide)
    (by simpa using ⟨Node.WF.scalar _ _, Node.WF.map _ _ .null⟩)
  have hb : b.WF := .object _ _ (by unfold Members.Unique; decide)
    (by simpa using ⟨Node.WF.null, Node.WF.scalar _ _⟩)
  have hc : c.WF := .object _ _ (by unfold Members.Unique; decide)
    (by simpa using ⟨Node.WF.map _ _ (.scalar _ _), Node.WF.array _ .null, Node.WF.scalar _ _⟩)
  have hleft : (unify .strict a b >>= fun ab => unify .strict ab c).value? =
      some (.object ⟨"a_t"⟩
        [(⟨"x"⟩, .scalar .real false), (⟨"m"⟩, .map ⟨"m"⟩ (.scalar .string true) true),
          (⟨"y"⟩, .array .null true)] true) := by
    decide +kernel
  have hrel := unify_assoc ha hb hc
  rw [hleft] at hrel
  rcases hright : (unify .strict b c >>= fun bc => unify .strict a bc).value? with _ | k'
  · rw [hright] at hrel
    cases hrel
  · rw [hright] at hrel
    cases hrel with
    | some halike => exact ⟨ha, hb, hc, _, k', hleft, rfl, rfl, halike⟩

/-! ## Two nodes -/

/-- The join the other way round is the same up to the order of members. -/
theorem Joins.swap (ha : a.WF) (hb : b.WF) (h : Joins .strict a b k) :
    ∃ k', Joins .strict b a k' ∧ Node.Alike k k' := by
  obtain ⟨k', hk'⟩ := exists_joins hb ha (.of_joins_right h) (.of_joins_left h)
  have hbounds : ∀ d, Absorbs .strict d k ↔ Absorbs .strict d k' := by
    intro d
    rw [h.absorbs_iff, hk'.absorbs_iff, and_comm]
  exact ⟨k', hk', .of_bounds (h.wf ha hb) (hk'.wf hb ha) hbounds⟩

/-- Which of two nodes comes first makes no difference under the strict policy: both ways fail, or
both end in a node, and these are the same up to the order of members. So it is under the lenient
policy, too, where the first way emits no warning. -/
theorem unify_comm (ha : a.WF) (hb : b.WF) :
    Option.Rel Node.Alike (unify .strict a b).value? (unify .strict b a).value? ∧
      (Quiet (unify .preferFirst a b).events →
        Option.Rel Node.Alike (unify .preferFirst a b).value? (unify .preferFirst b a).value?) := by
  have hother : ∀ p k, (unify p b a).value? = some k → ∃ k', (unify p a b).value? = some k' := by
    intro p k hk
    obtain ⟨k', hk'⟩ := (exists_unify_comm hb ha).1 ⟨k, value?_eq_some.1 hk⟩
    exact ⟨k', value?_eq_some.2 hk'⟩
  have hstrict : ∀ k, (unify .strict a b).value? = some k →
      ∃ k', (unify .strict b a).value? = some k' ∧ Node.Alike k k' := by
    intro k hk
    obtain ⟨k', hk', halike⟩ := ((value?_unify ha hb).1 hk).swap ha hb
    exact ⟨k', (value?_unify hb ha).2 hk', halike⟩
  refine ⟨rel_of_some hstrict (hother .strict), fun hquiet => rel_of_some ?_ (hother .preferFirst)⟩
  -- without a warning the strict policy comes to the same, and then there is none the other way round
  intro k hk
  have hk := (lockstep_unify a b).ok_iff.2 ⟨value?_eq_some.1 hk, hquiet⟩
  obtain ⟨k', hk', halike⟩ := hstrict k (value?_eq_some.2 hk)
  have hlenient := (lockstep_unify b a).ok_iff.1 (value?_eq_some.1 hk')
  exact ⟨k', value?_eq_some.2 hlenient.1, halike⟩

/-- Two objects that share one of their members, an integer on one side and a real on the other: the
others stand in another order the other way round. -/
theorem unify_comm_objects :
    let a : Node := .object ⟨"a_t"⟩
      [(⟨"x"⟩, .scalar .integer false), (⟨"m"⟩, .map ⟨"m"⟩ .null false)] false
    let b : Node := .object ⟨"a_t"⟩ [(⟨"y"⟩, .null), (⟨"x"⟩, .scalar .real false)] true
    a.WF ∧ b.WF ∧ Quiet (unify .preferFirst a b).events ∧ ∃ k k',
      (unify .preferFirst a b).value? = some k ∧ (unify .preferFirst b a).value? = some k' ∧
      k = .object ⟨"a_t"⟩
        [(⟨"x"⟩, .scalar .real false), (⟨"m"⟩, .map ⟨"m"⟩ .null true), (⟨"y"⟩, .null)] true ∧
      k' = .object ⟨"a_t"⟩
        [(⟨"y"⟩, .null), (⟨"x"⟩, .scalar .real false), (⟨"m"⟩, .map ⟨"m"⟩ .null true)] true ∧
      k.Alike k' := by
  intro a b
  have ha : a.WF := by decide +kernel
  have hb : b.WF := by decide +kernel
  have hquiet : Quiet (unify .preferFirst a b).events := by
    unfold Quiet
    decide +kernel
  have hab : (unify .preferFirst a b).value? = some (.object ⟨"a_t"⟩
      [(⟨"x"⟩, .scalar .real false), (⟨"m"⟩, .map ⟨"m"⟩ .null true), (⟨"y"⟩, .null)] true) := by
    decide +kernel
  have hba : (unify .preferFirst b a).value? = some (.object ⟨"a_t"⟩
      [(⟨"y"⟩, .null), (⟨"x"⟩, .scalar .real false), (⟨"m"⟩, .map ⟨"m"⟩ .null true)] true) := by
    decide +kernel
  obtain ⟨-, hlenient⟩ := unify_comm ha hb
  have hrel := hlenient hquiet
  rw [hab, hba] at hrel
  cases hrel with
  | some halike => exact ⟨ha, hb, hquiet, _, _, hab, hba, rfl, rfl, halike⟩

/-! ## One node -/

/-- A node joined with itself stays as it is, and nothing is warned of; and a join that is joined
with either of its sides once more stays as it is, under either policy, also where it gave something
up. -/
theorem unify_absorbs (p : Policy) :
    (∀ a : Node, a.WF → (unify p a a).outcome = .ok a ∧ Quiet (unify p a a).events) ∧
      ∀ a b c : Node, a.WF → b.WF → (unify p a b).outcome = .ok c →
        (unify p c a).outcome = .ok c ∧ (unify p c b).outcome = .ok c := by
  constructor
  · intro a ha
    have hself : (unify .strict a a).outcome = .ok a :=
      value?_eq_some.1 ((value?_unify ha ha).2 (Absorbs.refl a).joins)
    cases p with
    | strict => exact ⟨hself, (lockstep_unify a a).quiet⟩
    | preferFirst => exact (lockstep_unify a a).ok_iff.1 hself
  · intro a b c ha hb hc
    have hjoin := (value?_unify ha hb).1 (value?_eq_some.2 hc)
    have hwf := hjoin.wf ha hb
    have hleft := (value?_unify hwf ha).2 (Absorbs.of_joins_left hjoin).joins
    have hright := (value?_unify hwf hb).2 (Absorbs.of_joins_right hjoin).joins
    exact ⟨value?_eq_some.1 hleft, value?_eq_some.1 hright⟩

/-- What the second object has under a name of the first is given up for what was there, but its
flags are kept, and a third join finds them set. -/
theorem unify_absorbs_after_clash :
    let a : Node := .object ⟨"a_t"⟩ [(⟨"rows"⟩, .array (.object ⟨"rows_t"⟩
      [(⟨"x"⟩, .scalar .integer false), (⟨"y"⟩, .null)] false) false)] false
    let b : Node := .object ⟨"a_t"⟩ [(⟨"rows"⟩, .array (.object ⟨"rows_t"⟩
      [(⟨"z"⟩, .scalar .real false), (⟨"x"⟩, .scalar .string true)] false) false)] false
    let c : Node := .object ⟨"a_t"⟩ [(⟨"rows"⟩, .array (.object ⟨"rows_t"⟩
      [(⟨"x"⟩, .scalar .integer true), (⟨"y"⟩, .null), (⟨"z"⟩, .scalar .real true)]
        false) false)] false
    a.WF ∧ b.WF ∧ (unify .preferFirst a a).outcome = .ok a ∧
      ¬ Quiet (unify .preferFirst a b).events ∧ (unify .preferFirst a b).outcome = .ok c ∧
      (unify .preferFirst c a).outcome = .ok c ∧ (unify .preferFirst c b).outcome = .ok c := by
  intro a b c
  have ha : a.WF := by decide +kernel
  have hb : b.WF := by decide +kernel
  have hnoisy : ¬ Quiet (unify .preferFirst a b).events := by
    unfold Quiet
    decide +kernel
  have hc : (unify .preferFirst a b).outcome = .ok c := value?_eq_some.1 (by decide +kernel)
  obtain ⟨hself, habsorbs⟩ := unify_absorbs .preferFirst
  obtain ⟨hca, hcb⟩ := habsorbs a b c ha hb hc
  exact ⟨ha, hb, (hself a ha).1, hnoisy, hc, hca, hcb⟩

end SchemaInference.Schema
