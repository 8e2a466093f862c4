/-
What a sample shows, in parts. A list of samples shows what its samples show one by one
(`collect?`), so a law about `shown?` is an induction on samples whose hypothesis holds of every
item and every member.
-/
import SchemaInference.Proofs.Run.Findings

namespace SchemaInference

open Schema

namespace Slot

/-! ## Lists of samples -/

section Collect

variable {α β : Type} {f : α → Option (β × Findings)} {xs : List α} {ys : List β} {w : Findings}

/-- The outcomes for the items of a list, one by one, and all their findings. -/
def collect? (f : α → Option (β × Findings)) : List α → Option (List β × Findings)
  | [] => some ([], {})
  | x :: xs => do
    let (y, w) ← f x
    let (ys, w') ← collect? f xs
    return (y :: ys, w.append w')

theorem collect?_cons {x : α} :
    collect? f (x :: xs) = some (ys, w) ↔
      ∃ y w₁ ys' w₂, f x = some (y, w₁) ∧ collect? f xs = some (ys', w₂) ∧ y :: ys' = ys ∧
        w₁.append w₂ = w := by
  simp [collect?, Option.bind_eq_some_iff]

theorem collect?_isSome (h : ∀ x ∈ xs, ∃ r, f x = some r) : ∃ r, collect? f xs = some r := by
  induction xs with
  | nil => exact ⟨_, rfl⟩
  | cons x xs ih =>
    obtain ⟨⟨⟨y, w⟩, hx⟩, hxs⟩ := List.forall_mem_cons.1 h
    obtain ⟨⟨ys, w'⟩, hys⟩ := ih hxs
    exact ⟨_, collect?_cons.2 ⟨y, w, ys, w', hx, hys, rfl, rfl⟩⟩

theorem mem_append_objects {w w' : Findings} {o : Object} :
    o ∈ (w.append w').objects ↔ o ∈ w.objects ∨ o ∈ w'.objects := List.mem_append

theorem forall_mem_append_objects {w w' : Findings} {Q : Object → Prop} :
    (∀ o ∈ (w.append w').objects, Q o) ↔ (∀ o ∈ w.objects, Q o) ∧ ∀ o ∈ w'.objects, Q o :=
  List.forall_mem_append

/-- Each item has its outcome in the list, and its findings are among all findings. -/
theorem collect?_left (h : collect? f xs = some (ys, w)) {x : α} (hx : x ∈ xs) :
    ∃ y ∈ ys, ∃ w', f x = some (y, w') ∧ ∀ o ∈ w'.objects, o ∈ w.objects := by
  induction xs generalizing ys w with
  | nil => cases hx
  | cons a xs ih =>
    obtain ⟨y, w₁, ys', w₂, hy, hys, rfl, rfl⟩ := collect?_cons.1 h
    rcases List.mem_cons.1 hx with rfl | hx
    · exact ⟨y, List.mem_cons_self .., w₁, hy, fun o ho => mem_append_objects.2 (.inl ho)⟩
    · obtain ⟨z, hz, w', hf, ho⟩ := ih hys hx
      exact ⟨z, List.mem_cons_of_mem _ hz, w', hf, fun o h => mem_append_objects.2 (.inr (ho o h))⟩

/-- What an item finds, the list finds. -/
theorem collect?_sub {y : β} {w' : Findings} (h : collect? f xs = some (ys, w)) {x : α}
    (hx : x ∈ xs) (hf : f x = some (y, w')) : ∀ o ∈ w'.objects, o ∈ w.objects := by
  obtain ⟨y', -, w'', hf', hsub⟩ := collect?_left h hx
  rw [hf, Option.some.injEq, Prod.mk.injEq] at hf'
  exact hf'.2 ▸ hsub

/-- Each outcome in the list is that of an item. -/
theorem collect?_right (h : collect? f xs = some (ys, w)) {y : β} (hy : y ∈ ys) :
    ∃ x ∈ xs, ∃ w', f x = some (y, w') ∧ ∀ o ∈ w'.objects, o ∈ w.objects := by
  induction xs generalizing ys w with
  | nil =>
    cases h
    cases hy
  | cons x xs ih =>
    obtain ⟨z, w₁, ys', w₂, hz, hys, rfl, rfl⟩ := collect?_cons.1 h
    rcases List.mem_cons.1 hy with rfl | hy
    · exact ⟨x, List.mem_cons_self .., w₁, hz, fun o ho => mem_append_objects.2 (.inl ho)⟩
    · obtain ⟨a, ha, w', hf, ho⟩ := ih hys hy
      exact ⟨a, List.mem_cons_of_mem _ ha, w', hf, fun o h => mem_append_objects.2 (.inr (ho o h))⟩

/-- Each object found is found with an item. -/
theorem collect?_objects (h : collect? f xs = some (ys, w)) {o : Object} (ho : o ∈ w.objects) :
    ∃ x ∈ xs, ∃ y w', f x = some (y, w') ∧ o ∈ w'.objects ∧ ∀ o ∈ w'.objects, o ∈ w.objects := by
  induction xs generalizing ys w with
  | nil =>
    cases h
    cases ho
  | cons x xs ih =>
    obtain ⟨z, w₁, ys', w₂, hz, hys, rfl, rfl⟩ := collect?_cons.1 h
    rcases mem_append_objects.1 ho with ho | ho
    · exact ⟨x, List.mem_cons_self .., z, w₁, hz, ho, fun o ho => mem_append_objects.2 (.inl ho)⟩
    · obtain ⟨a, ha, y, w', hf, ho, hsub⟩ := ih hys ho
      exact ⟨a, List.mem_cons_of_mem _ ha, y, w', hf, ho,
        fun o h => mem_append_objects.2 (.inr (hsub o h))⟩

/-- What holds of every item's outcome and findings holds of all outcomes and findings of a list. `Q`
is what is known of the objects that are found, `R` is what is told of them. -/
theorem collect?_forall {P : β → Prop} {Q R : Object → Prop} (h : collect? f xs = some (ys, w))
    (hq : ∀ o ∈ w.objects, Q o)
    (hf : ∀ x ∈ xs, ∀ {y w'}, f x = some (y, w') → (∀ o ∈ w'.objects, Q o) →
      P y ∧ ∀ o ∈ w'.objects, R o) :
    (∀ y ∈ ys, P y) ∧ ∀ o ∈ w.objects, R o := by
  constructor
  · intro y hy
    obtain ⟨x, hx, w', hfx, hsub⟩ := collect?_right h hy
    exact (hf x hx hfx fun o ho => hq o (hsub o ho)).1
  · intro o ho
    obtain ⟨x, hx, y, w', hfx, ho, hsub⟩ := collect?_objects h ho
    exact (hf x hx hfx fun o ho => hq o (hsub o ho)).2 o ho

end Collect

/-- What a named sample shows, under its name. -/
def shownMember? (c : Settings) (path : Path) (slot : Identifier → Identifier)
    (m : Identifier × Sample) : Option ((Identifier × Node) × Findings) :=
  (shown? c path (slot m.1) m.2).map fun r => ((m.1, r.1), r.2)

theorem shownMember?_eq_some {c : Settings} {path : Path} {slot : Identifier → Identifier}
    {m : Identifier × Sample} {r : Identifier × Node} {w : Findings} :
    shownMember? c path slot m = some (r, w) ↔
      m.1 = r.1 ∧ shown? c path (slot m.1) m.2 = some (r.2, w) := by
  unfold shownMember?
  rw [Option.map_eq_some_iff]
  constructor
  · rintro ⟨⟨n, w⟩, h, ⟨⟩⟩
    exact ⟨rfl, h⟩
  · rintro ⟨e, h⟩
    exact ⟨_, h, by rw [e]⟩

theorem shownItems?_eq (c : Settings) (path : Path) (hint : Identifier) (items : List Sample) :
    shownItems? c path hint items = collect? (shown? c path hint) items := by
  induction items with
  | nil => rfl
  | cons s items ih => rw [shownItems?, collect?, ih]

theorem shownMembers?_eq (c : Settings) (path : Path) (slot : Identifier → Identifier)
    (members : List (Identifier × Sample)) :
    shownMembers? c path slot members = collect? (shownMember? c path slot) members := by
  induction members with
  | nil => rfl
  | cons m members ih =>
    rw [shownMembers?, collect?, ih, shownMember?]
    cases shown? c path (slot m.1) m.2 <;> rfl

/-! ## Samples -/

section Parts

variable {c : Settings} {path : Path} {hint : Identifier} {n : Node} {w : Findings}

theorem concluded?_eq_some {p : Policy} {known : Option Node} {ns : List Node} :
    concluded? p known ns = some (n, w) ↔
      ∃ k, joinAll? p known ns = some k ∧ k.getD .null = n ∧
        Findings.ofOptional n.carriesOptional = w := by
  unfold concluded?
  rw [Option.map_eq_some_iff]
  constructor
  · rintro ⟨k, h, ⟨⟩⟩
    exact ⟨k, h, rfl, rfl⟩
  · rintro ⟨k, h, rfl, rfl⟩
    exact ⟨k, h, rfl⟩

/-- What null has, and every node of a slot, and what joins keep, the nodes come to. -/
theorem concluded?_known {p : Policy} {P : Node → Prop}
    (hP : ∀ a b k, P a → P b → Joins p a b k → P k) (hnull : P .null) {ns : List Node}
    (hns : ∀ n ∈ ns, n.WF ∧ P n) (h : concluded? p none ns = some (n, w)) : n.WF ∧ P n := by
  obtain ⟨k, hk, rfl, -⟩ := concluded?_eq_some.1 h
  cases k with
  | none => exact ⟨.null, hnull⟩
  | some k => exact joinAll?_known hP (known_none P) hns hk k rfl

theorem shown?_array {items : List Sample} :
    shown? c path hint (.array items) = some (n, w) ↔
      ∃ ns w₁ e w₂, collect? (shown? c path (c.elementHint hint)) items = some (ns, w₁) ∧
        concluded? c.policy none ns = some (e, w₂) ∧ .array e false = n ∧
        (Findings.ofKind .array).append (w₁.append w₂) = w := by
  simp only [shown?, shownItems?_eq, Option.bind_eq_bind, Option.bind_eq_some_iff, Prod.exists,
    Option.pure_def, Option.some.injEq, Prod.mk.injEq]
  constructor
  · rintro ⟨ns, w₁, h, e, w₂, h', r⟩
    exact ⟨ns, w₁, e, w₂, h, h', r⟩
  · rintro ⟨ns, w₁, e, w₂, h, h', r⟩
    exact ⟨ns, w₁, h, e, w₂, h', r⟩

theorem shown?_map {members : List (Identifier × Sample)}
    (hm : c.isMapPath (path ++ [hint]) = true) :
    shown? c path hint (.object members) = some (n, w) ↔
      ∃ ms w₁ v w₂,
        collect? (shownMember? c (path ++ [hint]) fun _ => c.valueHint hint) members =
          some (ms, w₁) ∧
        concluded? c.policy none (ms.map (·.2)) = some (v, w₂) ∧ .map hint v false = n ∧
        (Findings.ofKind .map).append (w₁.append w₂) = w := by
  simp only [shown?, hm, if_true, shownMembers?_eq, Option.bind_eq_bind, Option.bind_eq_some_iff,
    Prod.exists, Option.pure_def, Option.some.injEq, Prod.mk.injEq]
  constructor
  · rintro ⟨ms, w₁, h, v, w₂, h', r⟩
    exact ⟨ms, w₁, v, w₂, h, h', r⟩
  · rintro ⟨ms, w₁, v, w₂, h, h', r⟩
    exact ⟨ms, w₁, h, v, w₂, h', r⟩

theorem shown?_object {members : List (Identifier × Sample)}
    (hm : c.isMapPath (path ++ [hint]) = false) :
    shown? c path hint (.object members) = some (n, w) ↔
      ∃ named w₁ ms, collect? (shownMember? c (path ++ [hint]) id) members = some (named, w₁) ∧
        Members.gather? c.policy [] named = some ms ∧
        .object (c.objectName hint.text) ms false = n ∧
        w₁.append { objects := [⟨c.objectName hint.text, ms, false⟩] } = w := by
  simp only [shown?, hm, Bool.false_eq_true, if_false, shownMembers?_eq, Option.bind_eq_bind,
    Option.bind_eq_some_iff, Prod.exists, Option.pure_def, Option.some.injEq, Prod.mk.injEq]
  constructor
  · rintro ⟨named, w₁, h, ms, h', r⟩
    exact ⟨named, w₁, ms, h, h', r⟩
  · rintro ⟨named, w₁, ms, h, h', r⟩
    exact ⟨named, w₁, h, ms, h', r⟩

end Parts

/-! ## What holds of every node shown -/

/-- `P` holds of nodes without parts, of a node made of parts that have it, and of a join of two
nodes that have it. In the case of an object, `Q` is what is known of the declared objects
otherwise. -/
structure Kept (p : Policy) (P : Node → Prop) (Q : Object → Prop) : Prop where
  null : P .null
  scalar : ∀ s, P (.scalar s false)
  array : ∀ e, P e → P (.array e false)
  map : ∀ hint v, P v → P (.map hint v false)
  object : ∀ o : Object, Q o → (∀ name a, o.members.get? name = some a → P a) → P o.node
  joins : ∀ a b k, P a → P b → Joins p a b k → P k

namespace Kept

variable {p : Policy} {P : Node → Prop} {Q : Object → Prop}

/-- A fold of nodes that have it has it, and no object is found on the way. -/
theorem concluded (hP : Kept p P Q) {ns : List Node} {e : Node} {w : Findings}
    (hns : ∀ n ∈ ns, n.WF ∧ P n) (h : concluded? p none ns = some (e, w)) :
    (e.WF ∧ P e) ∧ w.objects = [] := by
  refine ⟨concluded?_known hP.joins hP.null hns h, ?_⟩
  obtain ⟨k, -, -, rfl⟩ := concluded?_eq_some.1 h
  rfl

/-- An object gathered from members that have it has it. -/
theorem gathered (hP : Kept p P Q) {named ms : Members} (hn : ∀ m ∈ named, m.2.WF ∧ P m.2)
    (hg : Members.gather? p [] named = some ms) {n : Identifier} (hq : Q ⟨n, ms, false⟩) :
    (Node.object n ms false).WF ∧ P (.object n ms false) := by
  have hms : ∀ name a, ms.get? name = some a → a.WF ∧ P a := fun name a ha =>
    Members.gather?_known hP.joins hg (fun n hm => hn (name, n) hm) ha
  have hu : Members.Unique ms := Members.unique_gather? Members.unique_nil hg
  constructor
  · exact .object _ _ hu fun m hm => (hms m.1 m.2 (Members.get?_of_mem hu hm)).1
  · exact hP.object _ hq fun name a ha => (hms name a ha).2

end Kept

/-- What is kept holds of the node shown and of every object declared. -/
theorem shown?_known {c : Settings} {P : Node → Prop} {Q : Object → Prop}
    (hP : Kept c.policy P Q) {s : Sample} {path : Path} {hint : Identifier} {n : Node}
    {w : Findings} (h : shown? c path hint s = some (n, w)) (hq : ∀ o ∈ w.objects, Q o) :
    (n.WF ∧ P n) ∧ ∀ o ∈ w.objects, o.node.WF ∧ P o.node ∧ o.optional = false := by
  induction s using Sample.induction generalizing path hint n w with
  | null =>
    cases h
    exact ⟨⟨.null, hP.null⟩, fun o ho => nomatch ho⟩
  | scalar s =>
    cases h
    exact ⟨⟨.scalar .., hP.scalar s⟩, fun o ho => nomatch ho⟩
  | array items ih =>
    obtain ⟨ns, w₁, e, w₂, hi, hc, rfl, rfl⟩ := shown?_array.1 h
    simp only [forall_mem_append_objects] at hq ⊢
    obtain ⟨hns, hw₁⟩ := collect?_forall hi hq.2.1 fun s hs _ _ h hq => ih s hs h hq
    obtain ⟨⟨he, hPe⟩, hw₂⟩ := hP.concluded hns hc
    refine ⟨⟨.array _ he, hP.array e hPe⟩, fun o ho => (nomatch ho), hw₁, ?_⟩
    rw [hw₂]
    exact fun o ho => nomatch ho
  | object members ih =>
    -- in a map and in an object of members alike
    have hmember : ∀ {slot : Identifier → Identifier}, ∀ m ∈ members, ∀ {r w'},
        shownMember? c (path ++ [hint]) slot m = some (r, w') → (∀ o ∈ w'.objects, Q o) →
        (r.2.WF ∧ P r.2) ∧ ∀ o ∈ w'.objects, o.node.WF ∧ P o.node ∧ o.optional = false :=
      fun m hm _ _ h hq => ih m hm (shownMember?_eq_some.1 h).2 hq
    by_cases hm : c.isMapPath (path ++ [hint]) = true
    · obtain ⟨ms, w₁, v, w₂, hi, hc, rfl, rfl⟩ := (shown?_map hm).1 h
      simp only [forall_mem_append_objects] at hq ⊢
      obtain ⟨hms, hw₁⟩ := collect?_forall hi hq.2.1 hmember
      obtain ⟨⟨hv, hPv⟩, hw₂⟩ := hP.concluded (List.forall_mem_map.2 hms) hc
      refine ⟨⟨.map _ _ hv, hP.map hint v hPv⟩, fun o ho => (nomatch ho), hw₁, ?_⟩
      rw [hw₂]
      exact fun o ho => nomatch ho
    · rw [Bool.not_eq_true] at hm
      obtain ⟨named, w₁, ms, hi, hg, rfl, rfl⟩ := (shown?_object hm).1 h
      simp only [forall_mem_append_objects, List.forall_mem_singleton] at hq ⊢
      obtain ⟨hnamed, hw₁⟩ := collect?_forall hi hq.1 hmember
      have hnew := hP.gathered hnamed hg hq.2
      exact ⟨hnew, hw₁, hnew.1, hnew.2, trivial⟩

/-! ### Well-formed nodes -/

section WF

variable {c : Settings} {path : Path} {w : Findings}

theorem shown?_wf {s : Sample} {hint : Identifier} {n : Node}
    (h : shown? c path hint s = some (n, w)) :
    n.WF ∧ ∀ o ∈ w.objects, o.node.WF ∧ o.optional = false := by
  have hP : Kept c.policy (fun _ => True) (fun _ => True) :=
    ⟨trivial, fun _ => trivial, fun _ _ => trivial, fun _ _ _ => trivial, fun _ _ _ => trivial,
      fun _ _ _ _ _ _ => trivial⟩
  obtain ⟨hn, ho⟩ := shown?_known hP h fun _ _ => trivial
  exact ⟨hn.1, fun o hm => ⟨(ho o hm).1, (ho o hm).2.2⟩⟩

theorem shownItems_wf {items : List Sample} {hint : Identifier} {ns : List Node}
    (h : collect? (shown? c path hint) items = some (ns, w)) : ∀ n ∈ ns, n.WF := fun n hn => by
  obtain ⟨s, -, w', hs, -⟩ := collect?_right h hn
  exact (shown?_wf hs).1

theorem shownMembers_wf {slot : Identifier → Identifier} {members : List (Identifier × Sample)}
    {ms : Members} (h : collect? (shownMember? c path slot) members = some (ms, w)) :
    ∀ m ∈ ms, m.2.WF := fun m hm => by
  obtain ⟨s, -, w', hs, -⟩ := collect?_right h hm
  exact (shown?_wf (shownMember?_eq_some.1 hs).2).1

end WF

end Slot

end SchemaInference
