/-
What joins cannot lose. A fact that a join has just where one of its sides has it, the outcome of a
fold has just where one of the joined nodes has it (`joinAll?_exists_iff`). To be optional is such a
fact, and to be anything but null; and where members are merged, to know a name, to know a value under
it, and to do without it (`Merged.get?_ne_null`, `Merged.mayLack`).
-/
import SchemaInference.Proofs.Schema.Fold

namespace SchemaInference.Schema

open Members

variable {p : Policy}

/-! ## Joins -/

namespace Joins

variable {a b k : Node}

theorem isOptional_iff (h : Joins p a b k) :
    k.isOptional = true ↔ a.isOptional = true ∨ b.isOptional = true := by
  rw [h.isOptional, Bool.or_eq_true]

/-- Only where both sides are null, the join is. -/
theorem ne_null_iff (h : Joins p a b k) : k ≠ .null ↔ a ≠ .null ∨ b ≠ .null := by
  have hrelax : ∀ n : Node, n.relax = .null ↔ n = .null := fun n => by
    rw [← Node.kind_eq_null, Node.kind_relax, Node.kind_eq_null]
  cases h with
  | nullRight => simp [hrelax]
  | nullLeft => simp [hrelax]
  | settled hp hk =>
    have ha : a ≠ .null := by
      rintro rfl
      simp [Node.kind, Kind.clashes] at hk
    have hk' : a.setOptional (a.isOptional || b.isOptional) ≠ .null := by
      rwa [ne_eq, ← Node.kind_eq_null, Node.kind_setOptional, Node.kind_eq_null]
    exact iff_of_true hk' (.inl ha)
  | _ => simp

end Joins

/-! ## Merged members -/

namespace Merged

variable {ms ns ks : Members}

/-- A value is known under a name just where one side knows one. -/
theorem get?_ne_null (h : Merged (Joins p) ms ns ks) (name : Identifier) :
    (∃ k, get? ks name = some k ∧ k ≠ .null) ↔
      (∃ a, get? ms name = some a ∧ a ≠ .null) ∨ ∃ b, get? ns name = some b ∧ b ≠ .null := by
  rcases h.get?_cases name with ⟨ha, hb, hk⟩ | ⟨a, ha, hb, hk⟩ | ⟨b, ha, hb, hk⟩ |
    ⟨a, b, k, ha, hb, hk, hj⟩
  · simp [ha, hb, hk]
  · simp [ha, hb, hk, (Joins.nullRight (p := p) a).ne_null_iff]
  · simp [ha, hb, hk, (Joins.nullLeft (p := p) b).ne_null_iff]
  · simp [ha, hb, hk, hj.ne_null_iff]

end Merged

/-- An object may do without the member: it is optional, or there is none. -/
def Members.MayLack (ms : Members) (name : Identifier) : Prop :=
  ∀ a, get? ms name = some a → a.isOptional = true

/-- What one side may do without, the merged members may. -/
theorem Merged.mayLack {ms ns ks : Members} (h : Merged (Joins p) ms ns ks) (name : Identifier) :
    ks.MayLack name ↔ ms.MayLack name ∨ ns.MayLack name := by
  unfold MayLack
  rcases h.get?_cases name with ⟨ha, hb, hk⟩ | ⟨a, ha, hb, hk⟩ | ⟨b, ha, hb, hk⟩ |
    ⟨a, b, k, ha, hb, hk, hj⟩
  · simp [ha, hb, hk]
  · simp [ha, hb, hk]
  · simp [ha, hb, hk]
  · simp [ha, hb, hk, hj.isOptional_iff]

theorem Members.mem_required_iff {ms : Members} (hu : Unique ms) {name : Identifier} :
    name ∈ required ms ↔ ¬ ms.MayLack name := by
  unfold required MayLack
  simp only [List.mem_map, List.mem_filter, Bool.not_eq_true', not_forall, Bool.not_eq_true]
  constructor
  · rintro ⟨m, ⟨hm, ho⟩, rfl⟩
    exact ⟨m.2, get?_of_mem hu hm, ho⟩
  · rintro ⟨a, ha, ho⟩
    exact ⟨(name, a), ⟨mem_of_get? ha, ho⟩, rfl⟩

/-- The node is an object whose members have the fact. -/
def Node.ObjectWith (F : Members → Prop) (a : Node) : Prop :=
  ∃ n ms o, a = .object n ms o ∧ F ms

@[simp] theorem Node.objectWith_object {F : Members → Prop} {n : Identifier} {ms : Members}
    {o : Bool} : (Node.object n ms o).ObjectWith F ↔ F ms := by
  constructor
  · rintro ⟨_, _, _, ⟨⟩, h⟩
    exact h
  · intro h
    exact ⟨n, ms, o, rfl, h⟩

/-! ## Folds -/

section Fold

variable {P F : Node → Prop} {ns : List Node} {a : Node}

/-- From a first node on, the outcome of a fold has `F` where one of the nodes has it. -/
theorem joinAll?_some_iff {m : Node}
    (hF : ∀ a b k, P a → P b → Joins p a b k → P k ∧ (F k ↔ F a ∨ F b)) (hm : m.WF ∧ P m)
    (hns : ∀ n ∈ ns, n.WF ∧ P n) (h : joinAll? p (some m) ns = some (some a)) :
    F a ↔ F m ∨ ∃ n ∈ ns, F n := by
  induction ns generalizing m with
  | nil =>
    cases h
    simp
  | cons n ns ih =>
    obtain ⟨hn, hns⟩ := List.forall_mem_cons.1 hns
    obtain ⟨k, hk, h⟩ := Option.bind_eq_some_iff.1 h
    have hj := (joinKnown?_of_some hm.1 hn.1).1 hk
    obtain ⟨hPk, hFk⟩ := hF m n k hm.2 hn.2 hj
    rw [ih ⟨hj.wf hm.1 hn.1, hPk⟩ hns h, hFk, or_assoc, List.exists_mem_cons_iff]

/-- A fact that a join has just where one of its sides has it, a fold has just where one of the nodes
has it; `P` is what is known of all nodes. -/
theorem joinAll?_exists_iff
    (hF : ∀ a b k, P a → P b → Joins p a b k → P k ∧ (F k ↔ F a ∨ F b))
    (hns : ∀ n ∈ ns, n.WF ∧ P n) (h : joinAll? p none ns = some (some a)) :
    F a ↔ ∃ n ∈ ns, F n := by
  cases ns with
  | nil => cases h
  | cons n ns =>
    obtain ⟨hn, hns⟩ := List.forall_mem_cons.1 hns
    rw [joinAll?_some_iff hF hn hns h, List.exists_mem_cons_iff]

/-- A member that is gathered has such a fact just where one of the nodes under its name has it. -/
theorem Members.gather?_exists_iff (hF : ∀ a b k, Joins p a b k → (F k ↔ F a ∨ F b))
    {named ms : Members} (hn : ∀ m ∈ named, m.2.WF) (hg : gather? p [] named = some ms)
    {name : Identifier} (ha : get? ms name = some a) :
    F a ↔ ∃ m ∈ named, m.1 = name ∧ F m.2 := by
  have hjoin := gather?_get? hg name
  rw [ha] at hjoin
  rw [joinAll?_exists_iff (P := fun _ => True) (fun a b k _ _ h => ⟨trivial, hF a b k h⟩)
    (fun n hm => ⟨hn _ (mem_under.1 hm), trivial⟩) hjoin]
  constructor
  · rintro ⟨n, hn, h⟩
    exact ⟨_, mem_under.1 hn, rfl, h⟩
  · rintro ⟨m, hm, rfl, h⟩
    exact ⟨_, mem_under.2 hm, h⟩

/-- Of objects that are joined, the members of the outcome have a fact just where those of one of the
objects have it. -/
theorem joinAll?_members_iff {F : Members → Prop}
    (hF : ∀ ms ns ks, Merged (Joins p) ms ns ks → (F ks ↔ F ms ∨ F ns))
    (hns : ∀ n ∈ ns, n.WF ∧ n.ObjectWith fun _ => True) {name : Identifier} {ms : Members}
    {o : Bool} (h : joinAll? p none ns = some (some (.object name ms o))) :
    F ms ↔ ∃ n ∈ ns, n.ObjectWith F := by
  refine (Node.objectWith_object (n := name) (o := o)).symm.trans ?_
  refine joinAll?_exists_iff (P := Node.ObjectWith fun _ => True) ?_ hns h
  rintro _ _ k ⟨n, ms, x, rfl, -⟩ ⟨m, ns, y, rfl, -⟩ hj
  obtain ⟨rfl, ks, hmerged, rfl⟩ := joins_object.1 hj
  simp only [Node.objectWith_object, true_and]
  exact hF ms ns ks hmerged

end Fold

end SchemaInference.Schema
