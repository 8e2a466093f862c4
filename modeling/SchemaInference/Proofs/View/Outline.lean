/-
What a view shows, and that it shows all of it. A view writes an embedded object as a reference, so
of such an object it shows the name and the flag but no member; everything else of a node is written
down (`View.node_eq_iff`). So two schemas have one view just when they have the same root name, the
same features and the same `useView`, entries of the same names with the same members in order, and
nodes in them and in the root that differ in nothing but the members of embedded objects
(`View.eq_iff_outline_eq`).
-/
import SchemaInference.View.Render
import SchemaInference.Proofs.Identifier.Sanitize
import SchemaInference.Proofs.Schema.Joins
import Mathlib.Data.List.Forall2

namespace SchemaInference

open Schema

/-! ## Outlines -/

namespace Schema

/-- The node with its embedded objects reduced to their name and flag. -/
def Node.outline : Node → Node
  | .null => .null
  | .scalar s o => .scalar s o
  | .array e o => .array e.outline o
  | .object n _ o => .object n [] o
  | .map n v o => .map n v.outline o

/-- The same members in the same order, their nodes reduced. -/
def Members.outline (ms : Members) : Members := ms.map fun m => (m.1, m.2.outline)

namespace Node

@[simp] theorem isOptional_outline (a : Node) : a.outline.isOptional = a.isOptional := by
  cases a <;> rfl

@[simp] theorem outline_eq_null_iff {a : Node} : a.outline = .null ↔ a = .null := by
  cases a <;> simp [outline]

end Node

/-- Which members are required hangs on the outline alone. -/
theorem Members.required_outline (ms : Members) : ms.outline.required = ms.required := by
  simp only [required, outline, List.filter_map, Function.comp_def, Node.isOptional_outline,
    List.map_map]

end Schema

namespace View

variable {a b : Node}

/-! ## Nodes -/

/-- What is written of the node but for its flag. -/
def body : Node → Tree
  | .null => nullType
  | .scalar s _ => scalarType s
  | .array e _ => .record [("type", .text "array"), ("items", node e)]
  | .object n _ _ => reference n
  | .map n v _ =>
    .record [("type", .text "object"), ("title", .text n.text), ("additionalProperties", node v)]

/-- Whether the node is written as one of two. -/
def flagged : Node → Bool
  | .null => false
  | a => a.isOptional

theorem node_eq (a : Node) : node a = orNull (flagged a) (body a) := by cases a <;> rfl

theorem orNull_eq_iff {o o' : Bool} {t t' : Tree} (ht : ∀ u, t ≠ .record [("oneOf", u)])
    (ht' : ∀ u, t' ≠ .record [("oneOf", u)]) : orNull o t = orNull o' t' ↔ o = o' ∧ t = t' := by
  unfold orNull
  cases o with
  | false =>
    cases o' with
    | false => simp
    | true => exact iff_of_false (ht _) (fun h => nomatch h.1)
  | true =>
    cases o' with
    | false => exact iff_of_false (fun h => ht' _ h.symm) (fun h => nomatch h.1)
    | true => simp

/-- What is written of a node is never itself one of two. -/
theorem body_ne_oneOf (a : Node) (t : Tree) : body a ≠ .record [("oneOf", t)] := by
  cases a with
  | null => simp [body, nullType, typed]
  | scalar s _ => cases s <;> simp [body, scalarType, typed]
  | array => simp [body]
  | object => simp [body, reference]
  | map => simp [body]

/-- So the flag of a node and the rest of it can be told apart. -/
theorem flagged_and_body_of_node_eq (h : node a = node b) :
    flagged a = flagged b ∧ body a = body b := by
  rw [node_eq, node_eq] at h
  exact (orNull_eq_iff (body_ne_oneOf a) (body_ne_oneOf b)).1 h

theorem kind_eq_of_body_eq (h : body a = body b) : a.kind = b.kind := by
  rcases a with _ | ⟨⟨⟩, _⟩ | _ | _ | _ <;> rcases b with _ | ⟨⟨⟩, _⟩ | _ | _ | _ <;>
    first | rfl | simp [body, nullType, scalarType, reference, typed] at h

theorem reference_injective : Function.Injective reference := by
  intro n m h
  simp only [reference, Tree.record.injEq, List.cons.injEq, Prod.mk.injEq, Tree.text.injEq,
    String.append_right_inj, true_and, and_true] at h
  exact Identifier.text_injective h

/-- The members of embedded objects are not written. -/
theorem node_outline (a : Node) : node a.outline = node a := by
  induction a using Node.induction with
  | null => rfl
  | scalar s o => rfl
  | array e o ih => simp only [Node.outline, node, ih]
  | object n ms o => rfl
  | map n v o ih => simp only [Node.outline, node, ih]

theorem outline_eq_of_node_eq (h : node a = node b) : a.outline = b.outline := by
  induction a using Node.induction generalizing b with
  | null =>
    obtain ⟨-, hbody⟩ := flagged_and_body_of_node_eq h
    cases b <;> cases kind_eq_of_body_eq hbody
    rfl
  | scalar s o =>
    obtain ⟨ho, hbody⟩ := flagged_and_body_of_node_eq h
    cases b <;> cases kind_eq_of_body_eq hbody
    obtain rfl : o = _ := ho
    rfl
  | array e o ih =>
    obtain ⟨ho, hbody⟩ := flagged_and_body_of_node_eq h
    cases b <;> cases kind_eq_of_body_eq hbody
    obtain rfl : o = _ := ho
    simp only [body, Tree.record.injEq, List.cons.injEq, Prod.mk.injEq, true_and, and_true] at hbody
    simp only [Node.outline, ih hbody]
  | object n ms o =>
    obtain ⟨ho, hbody⟩ := flagged_and_body_of_node_eq h
    cases b <;> cases kind_eq_of_body_eq hbody
    obtain rfl : o = _ := ho
    simp only [Node.outline, reference_injective hbody]
  | map n v o ih =>
    obtain ⟨ho, hbody⟩ := flagged_and_body_of_node_eq h
    cases b <;> cases kind_eq_of_body_eq hbody
    obtain rfl : o = _ := ho
    simp only [body, Tree.record.injEq, List.cons.injEq, Prod.mk.injEq, true_and, and_true,
      Tree.text.injEq] at hbody
    simp only [Node.outline, Identifier.text_injective hbody.1, ih hbody.2]

/-- The view of a node shows its outline, and nothing more. -/
theorem node_eq_iff : node a = node b ↔ a.outline = b.outline := by
  constructor
  · exact outline_eq_of_node_eq
  · intro h
    rw [← node_outline a, h, node_outline]

theorem features_injective : Function.Injective features := by
  rintro ⟨⟩ ⟨⟩ h
  simpa [features, and_assoc] using h

/-! ## Definitions -/

section Lists

variable {α β γ : Type} {f : α → β} {g : α → γ} {xs ys : List α}

theorem map_eq_iff_map_eq (h : ∀ x y, f x = f y ↔ g x = g y) :
    xs.map f = ys.map f ↔ xs.map g = ys.map g := by
  rw [← List.forall₂_eq_eq_eq, ← List.forall₂_eq_eq_eq]
  simp only [List.forall₂_map_left_iff, List.forall₂_map_right_iff, h]

theorem map_pair_eq_iff : xs.map (fun x => (f x, g x)) = ys.map (fun x => (f x, g x)) ↔
    xs.map f = ys.map f ∧ xs.map g = ys.map g := by
  constructor
  · intro h
    have hfst := congrArg (List.map Prod.fst) h
    have hsnd := congrArg (List.map Prod.snd) h
    rw [List.map_map, List.map_map] at hfst hsnd
    exact ⟨hfst, hsnd⟩
  · rintro ⟨hf, hg⟩
    rw [← List.zip_map', ← List.zip_map', hf, hg]

end Lists

/-- A definition shows the outline of the members; which of them are required follows from it. -/
theorem definition_eq_iff {o o' : Object} :
    definition false o = definition false o' ↔ o.members.outline = o'.members.outline := by
  have hshown : ∀ ms : Members, shown false ms = ms := fun ms =>
    List.filter_eq_self.2 fun _ _ => rfl
  have hproperty : ∀ m n : Identifier × Node, (m.1.text, node m.2) = (n.1.text, node n.2) ↔
      (m.1, m.2.outline) = (n.1, n.2.outline) := fun m n => by
    rw [Prod.mk.injEq, Prod.mk.injEq, Identifier.text_injective.eq_iff, node_eq_iff]
  simp only [definition, hshown, Tree.record.injEq, List.cons.injEq, Prod.mk.injEq, true_and,
    and_true, Tree.list.injEq]
  rw [map_eq_iff_map_eq hproperty]
  refine and_iff_left_of_imp fun (h : o.members.outline = o'.members.outline) => ?_
  rw [← Members.required_outline, h, Members.required_outline]

/-- A list of definitions shows the names of the entries and the outlines of their members. -/
theorem definitions_eq_iff {es es' : List Object} :
    (es.map fun o => (o.name.text, definition false o)) =
        (es'.map fun o => (o.name.text, definition false o)) ↔
      es.map (·.name) = es'.map (·.name) ∧
        es.map (·.members.outline) = es'.map (·.members.outline) := by
  have hentry : ∀ o o' : Object,
      (o.name.text, definition false o) = (o'.name.text, definition false o') ↔
        (o.name, o.members.outline) = (o'.name, o'.members.outline) := fun o o' => by
    rw [Prod.mk.injEq, Prod.mk.injEq, Identifier.text_injective.eq_iff, definition_eq_iff]
  rw [map_eq_iff_map_eq hentry, map_pair_eq_iff]

/-- Nothing is lost in the full view but the members of embedded objects: two schemas have one view
just when they agree in all the rest, and so do two nodes. -/
theorem eq_iff_outline_eq :
    (∀ i i' : Inferred, render false i = render false i' ↔
      i.rootName = i'.rootName ∧ i.useView = i'.useView ∧ i.features = i'.features ∧
        i.registry.objects.map (·.name) = i'.registry.objects.map (·.name) ∧
        i.registry.objects.map (·.members.outline) = i'.registry.objects.map (·.members.outline) ∧
        i.root.outline = i'.root.outline) ∧
      ∀ a b : Node, node a = node b ↔ a.outline = b.outline := by
  refine ⟨fun i i' => ?_, fun a b => node_eq_iff⟩
  simp only [render, Tree.record.injEq, List.cons.injEq, Prod.mk.injEq, true_and, and_true,
    Tree.text.injEq, Tree.boolean.injEq, Identifier.text_injective.eq_iff,
    features_injective.eq_iff, definitions_eq_iff, node_eq_iff]
  -- the same conditions, in the order in which the view has them
  constructor
  · rintro ⟨hname, hroot, ⟨hnames, hmembers⟩, hfeatures, hview⟩
    exact ⟨hname, hview, hfeatures, hnames, hmembers, hroot⟩
  · rintro ⟨hname, hview, hfeatures, hnames, hmembers, hroot⟩
    exact ⟨hname, hroot, ⟨hnames, hmembers⟩, hfeatures, hview⟩

end View

end SchemaInference
