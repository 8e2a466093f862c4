/-
The view without the members where only null was met. It is the full view with a filter over it: in
each definition the properties that are just null are taken out (`View.hideNulls`), and nothing else
changes (`View.hidesNulls_hideNullProperties`). Such a property is what is written of null and of no
other node, and null is optional, so no property that is required goes: in both views the required
names are among the properties, in their order (`View.render_hideNullOnly`).
-/
import SchemaInference.Proofs.View.Agree
import SchemaInference.Proofs.View.Outline

namespace SchemaInference

open Schema

/-! ## Trees -/

namespace Tree

/-- What each field holds changed by `f`. -/
def mapFields (f : String → Tree → Tree) : Tree → Tree
  | .record fields => .record (fields.map fun x => (x.1, f x.1 x.2))
  | t => t

/-- What the field of that name holds changed by `f`, all else as it is. -/
def changeField (name : String) (f : Tree → Tree) : Tree → Tree :=
  mapFields fun other t => if other = name then f t else t

/-- The fields that pass the test, in their order. -/
def filterFields (keep : String × Tree → Bool) : Tree → Tree
  | .record fields => .record (fields.filter keep)
  | t => t

/-- The tree is `{"type": "null"}`. -/
def isNullType : Tree → Bool
  | .record [("type", .text "null")] => true
  | _ => false

/-- The definition lists as required some of its properties, in their order. -/
def RequiresProperties (d : Tree) : Prop :=
  ∃ (props : Tree) (names : List String), d.field? "properties" = some props ∧
    d.field? "required" = some (.list (names.map .text)) ∧ names.Sublist props.keys

/-- The definition `d` is `full` without the properties that are just null. -/
structure HidesNulls (d full : Tree) : Prop where
  keys : d.keys = full.keys
  properties : d.field? "properties" =
    (full.field? "properties").map (filterFields fun p => !p.2.isNullType)
  others : ∀ name, name ≠ "properties" → d.field? name = full.field? name

section Fields

variable {name other : String} {f : Tree → Tree}

@[simp] theorem keys_mapFields (f : String → Tree → Tree) (t : Tree) :
    (t.mapFields f).keys = t.keys := by
  cases t <;> simp [mapFields, keys]

theorem field?_mapFields (f : String → Tree → Tree) (t : Tree) :
    (t.mapFields f).field? name = (t.field? name).map (f name) := by
  cases t with
  | record fields =>
    simp only [mapFields, field?, List.find?_map, Option.map_map, Function.comp_def]
    refine Option.map_congr fun x hx => ?_
    have hname : x.1 = name := by simpa using List.find?_some hx
    rw [hname]
  | _ => rfl

theorem field?_changeField (t : Tree) :
    (t.changeField name f).field? name = (t.field? name).map f := by
  rw [changeField, field?_mapFields]
  simp

theorem field?_changeField_of_ne (h : other ≠ name) (t : Tree) :
    (t.changeField name f).field? other = t.field? other := by
  rw [changeField, field?_mapFields]
  simp [h]

end Fields

theorem isNullType_iff {t : Tree} : t.isNullType = true ↔ t = View.nullType := by
  constructor
  · intro h
    unfold isNullType at h
    split at h
    · rfl
    · cases h
  · rintro rfl
    rfl

end Tree

namespace View

/-! ## Properties that are just null -/

/-- The definition without the properties that are just null. -/
def hideNullProperties : Tree → Tree :=
  .changeField "properties" (.filterFields fun p => !p.2.isNullType)

/-- The view without the properties that are just null, in each definition. -/
def hideNulls : Tree → Tree := .changeField "definitions" (.mapFields fun _ => hideNullProperties)

theorem hidesNulls_hideNullProperties (d : Tree) : (hideNullProperties d).HidesNulls d where
  keys := by rw [hideNullProperties, Tree.changeField, Tree.keys_mapFields]
  properties := Tree.field?_changeField ..
  others _ h := Tree.field?_changeField_of_ne h ..

/-- What is written of null is written of no other node. -/
theorem isNullType_node (a : Node) : (node a).isNullType = a.isNull := by
  have hnull : a.isNull = true ↔ a = .null := by cases a <;> simp [Node.isNull]
  rw [Bool.eq_iff_iff, Tree.isNullType_iff, hnull, ← Node.outline_eq_null_iff]
  exact node_eq_iff (b := .null)

theorem properties_shown (ms : Members) :
    Tree.record ((shown true ms).map fun m => (m.1.text, node m.2)) =
      (Tree.record ((shown false ms).map fun m => (m.1.text, node m.2))).filterFields
        fun p => !p.2.isNullType := by
  simp only [shown, Tree.filterFields, List.filter_map, List.filter_filter, Function.comp_def,
    isNullType_node, Bool.true_and, Bool.false_and, Bool.not_false, Bool.and_true]

/-! ## Definitions -/

theorem definition_hideNullOnly (o : Object) :
    definition true o = hideNullProperties (definition false o) := by
  unfold definition
  simp only [required_shown, properties_shown]
  rfl

/-- What is left out is optional, so what is required stays. -/
theorem requiresProperties_definition (hideNullOnly : Bool) (o : Object) :
    (definition hideNullOnly o).RequiresProperties := by
  let ms := shown hideNullOnly o.members
  refine ⟨.record (ms.map fun m => (m.1.text, node m.2)), ms.required.map (·.text), rfl, ?_, ?_⟩
  · rw [List.map_map]
    rfl
  · rw [keys_properties]
    exact (List.filter_sublist.map _).map _

/-- The view with members hidden is the full view without the properties that are just null. All
else is the same: what stands beside the definitions, their names and their order, what each of them
requires, and the order of the properties that stay. In both views a definition requires only
properties that it has. -/
theorem render_hideNullOnly (i : Inferred) :
    render true i = hideNulls (render false i) ∧
      (∀ name, name ≠ "definitions" →
        (render true i).field? name = (render false i).field? name) ∧
      ∃ hidden full, (render true i).field? "definitions" = some (.record hidden) ∧
        (render false i).field? "definitions" = some (.record full) ∧
        List.Forall₂ (fun d d' => d.1 = d'.1 ∧ d.2.HidesNulls d'.2) hidden full ∧
        (∀ d ∈ hidden, d.2.RequiresProperties) ∧ ∀ d ∈ full, d.2.RequiresProperties := by
  have heq : render true i = hideNulls (render false i) := by
    unfold render
    simp only [definition_hideNullOnly]
    simp [hideNulls, Tree.changeField, Tree.mapFields]
  have hrequires : ∀ hideNullOnly, ∀ d ∈ i.registry.objects.map fun o =>
      (o.name.text, definition hideNullOnly o), d.2.RequiresProperties := by
    intro hideNullOnly d hd
    obtain ⟨o, -, rfl⟩ := List.mem_map.1 hd
    exact requiresProperties_definition hideNullOnly o
  refine ⟨heq, fun name hname => ?_, _, _, rfl, rfl, ?_, hrequires true, hrequires false⟩
  · rw [heq]
    exact Tree.field?_changeField_of_ne hname _
  · rw [List.forall₂_map_left_iff, List.forall₂_map_right_iff, List.forall₂_same]
    intro o _
    refine ⟨rfl, ?_⟩
    rw [definition_hideNullOnly]
    exact hidesNulls_hideNullProperties (definition false o)

/-- Of these members only the first is hidden: a node with null inside it is not just null. -/
theorem render_hideNullOnly_null_inside :
    let o : Object := ⟨⟨"doc_t"⟩, [(⟨"a"⟩, .null), (⟨"b"⟩, .array .null false),
      (⟨"c"⟩, .scalar .integer true), (⟨"d"⟩, .map ⟨"d"⟩ .null false)], false⟩
    let i : Inferred := ⟨⟨"doc"⟩, o.node, ⟨[(o.name, o)]⟩, { arrays := true }, false, 1⟩
    "root" ≠ "definitions" ∧ (render true i).field? "root" = (render false i).field? "root" ∧
      (definition true o).HidesNulls (definition false o) ∧ (definition true o).RequiresProperties ∧
      ((definition false o).field? "properties").map Tree.keys = some ["a", "b", "c", "d"] ∧
      ((definition true o).field? "properties").map Tree.keys = some ["b", "c", "d"] := by
  intro o i
  obtain ⟨-, hothers, hidden, full, hhidden, hfull, hall, hrequires, -⟩ := render_hideNullOnly i
  cases hhidden
  cases hfull
  obtain _ | ⟨⟨-, hhides⟩, -⟩ := hall
  have hne : "root" ≠ "definitions" := by decide
  exact ⟨hne, hothers "root" hne, hhides, hrequires _ (List.mem_singleton_self _), rfl, rfl⟩

end View

end SchemaInference
