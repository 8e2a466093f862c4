/-
What documents contain, and the features that tell of it. A feature that is about one kind of value
(`Features.Flag`) is set where a value of that kind is met in a document, and only there: what is met
in a value is told by recursion on it, slot by slot (`Slot.Spots`), and the findings follow that
recursion (`Slot.flag_iff`). Scalars and arrays are met wherever they stand (`spots_within`), maps are
the objects at the map paths (`spots_maps`).
-/
import SchemaInference.Proofs.Run.Objects

namespace SchemaInference

open Schema Document

namespace Document.Value

/-- The value `a` stands somewhere in another value, at any depth. -/
inductive Within (a : Value) : Value → Prop
  | here : Within a a
  | item {items : List Value} {v : Value} (hv : v ∈ items) (h : Within a v) :
      Within a (.array items)
  | member {members : List (String × Value)} {m : String × Value} (hm : m ∈ members)
      (h : Within a m.2) : Within a (.object members)

def kind : Value → Kind
  | .null => .null
  | .boolean _ => .scalar .boolean
  | .integer _ => .scalar .integer
  | .real _ => .scalar .real
  | .string _ => .scalar .string
  | .array _ => .array
  | .object _ => .object

/-- A value of the kind `k` stands somewhere in the value. -/
def Contains (k : Kind) (v : Value) : Prop := ∃ a : Value, a.Within v ∧ a.kind = k

/-- An object in the document is at a map path, or the one is that stands for a document that is no
object. -/
def HasMap (c : Settings) (v : Value) : Prop :=
  (∃ p h ms, v.Holds c p h ms (v.above c) c.rootName ∧ c.isMapPath (p ++ [h]) = true) ∨
    (∀ ms, v ≠ .object ms) ∧ c.isMapPath [c.rootName] = true

variable {k : Kind}

theorem contains_array_iff {items : List Value} :
    (Value.array items).Contains k ↔ .array = k ∨ ∃ v ∈ items, v.Contains k := by
  constructor
  · rintro ⟨a, ha, rfl⟩
    cases ha with
    | here => exact .inl rfl
    | item hv h => exact .inr ⟨_, hv, a, h, rfl⟩
  · rintro (rfl | ⟨v, hv, a, ha, rfl⟩)
    · exact ⟨_, .here, rfl⟩
    · exact ⟨a, .item hv ha, rfl⟩

theorem contains_object_iff {members : List (String × Value)} :
    (Value.object members).Contains k ↔ .object = k ∨ ∃ m ∈ members, m.2.Contains k := by
  constructor
  · rintro ⟨a, ha, rfl⟩
    cases ha with
    | here => exact .inl rfl
    | member hm h => exact .inr ⟨_, hm, a, h, rfl⟩
  · rintro (rfl | ⟨m, hm, a, ha, rfl⟩)
    · exact ⟨_, .here, rfl⟩
    · exact ⟨a, .member hm ha, rfl⟩

/-- A value without parts contains itself alone. -/
theorem contains_leaf_iff {v : Value} (ha : v.kind ≠ .array) (ho : v.kind ≠ .object) :
    v.Contains k ↔ v.kind = k := by
  constructor
  · rintro ⟨a, h, rfl⟩
    cases h with
    | here => rfl
    | item => exact absurd rfl ha
    | member => exact absurd rfl ho
  · intro h
    exact ⟨v, .here, h⟩

end Document.Value

/-! ## Features of one kind -/

/-- The feature is about values of the kind `k` alone. -/
structure Features.Flag (F : Features → Bool) (k : Kind) : Prop where
  none : F {} = false
  or : ∀ f g : Features, F (f.or g) = (F f || F g)
  meet : ∀ k', F (({} : Features).meet k') = true ↔ k' = k
  optional : ∀ met, F { optionals := met } = false

namespace Features

theorem Flag.ofKind {F : Features → Bool} {k : Kind} (hF : Flag F k) (k' : Kind) :
    F (Findings.ofKind k').features = true ↔ k' = k := hF.meet k'

theorem flag_arrays : Flag arrays .array where
  none := rfl
  or _ _ := rfl
  meet := by rintro (_ | ⟨_ | _ | _ | _⟩ | _ | _ | _) <;> decide
  optional _ := rfl

theorem flag_integrals : Flag integrals (.scalar .integer) where
  none := rfl
  or _ _ := rfl
  meet := by rintro (_ | ⟨_ | _ | _ | _⟩ | _ | _ | _) <;> decide
  optional _ := rfl

theorem flag_strings : Flag strings (.scalar .string) where
  none := rfl
  or _ _ := rfl
  meet := by rintro (_ | ⟨_ | _ | _ | _⟩ | _ | _ | _) <;> decide
  optional _ := rfl

theorem flag_maps : Flag maps .map where
  none := rfl
  or _ _ := rfl
  meet := by rintro (_ | ⟨_ | _ | _ | _⟩ | _ | _ | _) <;> decide
  optional _ := rfl

end Features

/-! ## What is met in a value -/

namespace Slot

/-- `P` says of a value in a slot that a value of the kind `k` is met in it: the value itself, or one
met in its parts. An object at a map path is a map. -/
structure Spots (c : Settings) (k : Kind) (P : Path → Identifier → Value → Prop) : Prop where
  leaf : ∀ path hint v, v.kind ≠ .array → v.kind ≠ .object → (P path hint v ↔ v.kind = k)
  array : ∀ path hint items, P path hint (.array items) ↔
    .array = k ∨ ∃ v ∈ items, P path (c.elementHint hint) v
  map : ∀ path hint members, c.isMapPath (path ++ [hint]) = true → (P path hint (.object members) ↔
    .map = k ∨ ∃ m ∈ members, P (path ++ [hint]) (c.valueHint hint) m.2)
  object : ∀ path hint members, c.isMapPath (path ++ [hint]) = false →
    (P path hint (.object members) ↔ ∃ m ∈ members, P (path ++ [hint]) (c.sanitize m.1) m.2)

section Spots

variable {c : Settings} {k : Kind}

/-- Scalars and arrays are met wherever they stand. -/
theorem spots_within (hm : k ≠ .map) (ho : k ≠ .object) :
    Spots c k fun _ _ v => v.Contains k where
  leaf _ _ _ := Value.contains_leaf_iff
  array _ _ _ := Value.contains_array_iff
  map _ _ _ _ := by
    rw [Value.contains_object_iff, or_iff_right (Ne.symm ho), or_iff_right (Ne.symm hm)]
  object _ _ _ _ := by rw [Value.contains_object_iff, or_iff_right (Ne.symm ho)]

/-- An object stands at a map path somewhere in the value in the slot. -/
def HoldsMap (c : Settings) (path : Path) (hint : Identifier) (v : Value) : Prop :=
  ∃ p h ms, v.Holds c p h ms path hint ∧ c.isMapPath (p ++ [h]) = true

/-- Maps are the objects at the map paths. -/
theorem spots_maps : Spots c .map (HoldsMap c) where
  leaf path hint v ha ho := by
    constructor
    · rintro ⟨p, h, ms, hin, -⟩
      cases hin with
      | here => exact absurd rfl ho
      | item => exact absurd rfl ha
      | value => exact absurd rfl ho
      | member => exact absurd rfl ho
    · intro h
      cases v <;> cases h
  array path hint items := by
    rw [or_iff_right (by simp)]
    constructor
    · rintro ⟨p, h, ms, hin, hmap⟩
      cases hin with
      | item hv hin => exact ⟨_, hv, p, h, ms, hin, hmap⟩
    · rintro ⟨v, hv, p, h, ms, hin, hmap⟩
      exact ⟨p, h, ms, .item hv hin, hmap⟩
  map path hint members hp := iff_of_true ⟨path, hint, members, .here, hp⟩ (.inl rfl)
  object path hint members hp := by
    constructor
    · rintro ⟨p, h, ms, hin, hmap⟩
      cases hin with
      | here => rw [hp] at hmap; cases hmap
      | value _ hp' _ => rw [hp] at hp'; cases hp'
      | member hm _ hin => exact ⟨_, hm, p, h, ms, hin, hmap⟩
    · rintro ⟨m, hm, p, h, ms, hin, hmap⟩
      exact ⟨p, h, ms, .member hm hp hin, hmap⟩

end Spots

section Flag

variable {F : Features → Bool} {k : Kind}

/-- A feature of a list is one of an item. -/
theorem collect?_flag_iff (hF : Features.Flag F k) {α β γ : Type}
    {f : β → Option (γ × Findings)} {g : α → β} {P : α → Prop} {xs : List α} {ys : List γ}
    {w : Findings} (h : collect? f (xs.map g) = some (ys, w))
    (hf : ∀ x ∈ xs, ∀ y w', f (g x) = some (y, w') → (F w'.features = true ↔ P x)) :
    F w.features = true ↔ ∃ x ∈ xs, P x := by
  induction xs generalizing ys w with
  | nil =>
    cases h
    simp [hF.none]
  | cons x xs ih =>
    obtain ⟨y, w₁, ys', w₂, hy, hys, rfl, rfl⟩ := collect?_cons.1 h
    obtain ⟨hx, hxs⟩ := List.forall_mem_cons.1 hf
    show F (w₁.features.or w₂.features) = true ↔ _
    rw [hF.or, Bool.or_eq_true, hx y w₁ hy, ih hys hxs, List.exists_mem_cons_iff]

/-- A container has the features of its parts, and that of its own kind. -/
theorem container_flag_iff (hF : Features.Flag F k) {p : Policy} {ns : List Node} {e : Node}
    {k' : Kind} {w w' : Findings} (h : concluded? p none ns = some (e, w')) :
    F ((Findings.ofKind k').append (w.append w')).features = true ↔
      k' = k ∨ F w.features = true := by
  obtain ⟨_, -, -, rfl⟩ := concluded?_eq_some.1 h
  show F ((({} : Features).meet k').or (w.features.or { optionals := _ })) = true ↔ _
  rw [hF.or, hF.or, hF.optional, Bool.or_false, Bool.or_eq_true, hF.meet]

/-- An object has the features of its members, and is at a map path or not. -/
theorem object_flag_iff (hF : Features.Flag F k) {c : Settings} {α : Type}
    {f : α → Identifier × Sample} {xs : List α} {Q : Identifier → α → Prop} {path : Path}
    {hint : Identifier} {n : Node} {w : Findings}
    (hs : shown? c path hint (.object (xs.map f)) = some (n, w))
    (hf : ∀ x ∈ xs, ∀ slot n w', shown? c (path ++ [hint]) slot (f x).2 = some (n, w') →
      (F w'.features = true ↔ Q slot x)) :
    F w.features = true ↔
      if c.isMapPath (path ++ [hint]) then .map = k ∨ ∃ x ∈ xs, Q (c.valueHint hint) x
      else ∃ x ∈ xs, Q (f x).1 x := by
  have hmember : ∀ {slot : Identifier → Identifier} {named w₁},
      collect? (shownMember? c (path ++ [hint]) slot) (xs.map f) = some (named, w₁) →
      (F w₁.features = true ↔ ∃ x ∈ xs, Q (slot (f x).1) x) := fun hi =>
    collect?_flag_iff hF hi fun x hx _ _ h => hf x hx _ _ _ (shownMember?_eq_some.1 h).2
  by_cases hp : c.isMapPath (path ++ [hint]) = true
  · obtain ⟨ms, w₁, v, w₂, hi, hc, rfl, rfl⟩ := (shown?_map hp).1 hs
    rw [if_pos hp, container_flag_iff hF hc, hmember hi]
  · rw [if_neg hp]
    rw [Bool.not_eq_true] at hp
    obtain ⟨named, w₁, ms, hi, hg, rfl, rfl⟩ := (shown?_object hp).1 hs
    show F (w₁.features.or {}) = true ↔ _
    rw [Features.or_none, hmember hi]
    rfl

/-- A feature of a kind is found just where a value of that kind is met. -/
theorem flag_iff (hF : Features.Flag F k) {c : Settings} {P : Path → Identifier → Value → Prop}
    (hP : Spots c k P) {v : Value} {path : Path} {hint : Identifier} {n : Node} {w : Findings}
    (hs : shown? c path hint (.ofValue c.dialect v) = some (n, w)) :
    F w.features = true ↔ P path hint v := by
  induction v using Value.induction generalizing path hint n w with
  | array items ih =>
    obtain ⟨ns, w₁, e, w₂, hi, hc, rfl, rfl⟩ := shown?_array.1 hs
    rw [Sample.ofItems_eq] at hi
    rw [container_flag_iff hF hc, hP.array, collect?_flag_iff hF hi fun v hv _ _ h => ih v hv h]
  | object members ih =>
    rw [Sample.ofValue, Sample.ofMembers_eq] at hs
    rw [object_flag_iff hF hs fun m hm _ _ _ h => ih m hm h]
    split
    next hp => rw [hP.map _ _ _ hp]
    next hp => exact (hP.object _ _ _ (Bool.not_eq_true _ ▸ hp)).symm
  | _ =>
    cases hs
    rw [hP.leaf _ _ _ (by simp [Value.kind]) (by simp [Value.kind])]
    exact hF.ofKind _

end Flag

/-! ## Documents -/

/-- What is met in a document. One that is no object is a member of an object that stands for it; both
have the name of the root, unless that object is at a map path. -/
def InDocument (c : Settings) (k : Kind) (P : Path → Identifier → Value → Prop) : Value → Prop
  | .object members => P [] c.rootName (.object members)
  | v =>
    if c.isMapPath [c.rootName] then .map = k ∨ P [c.rootName] (c.valueHint c.rootName) v
    else P [c.rootName] c.rootName v

section InDocument

variable {c : Settings} {k : Kind} {P : Path → Identifier → Value → Prop} {v : Value}

theorem inDocument_of_ne (hv : ∀ ms, v ≠ .object ms) : InDocument c k P v ↔
    if c.isMapPath [c.rootName] then .map = k ∨ P [c.rootName] (c.valueHint c.rootName) v
    else P [c.rootName] c.rootName v := by
  cases v with
  | object ms => exact absurd rfl (hv ms)
  | _ => exact Iff.rfl

theorem inDocument_contains (hm : k ≠ .map) :
    InDocument c k (fun _ _ v => v.Contains k) v ↔ v.Contains k := by
  by_cases hv : ∃ ms, v = .object ms
  · obtain ⟨ms, rfl⟩ := hv
    exact Iff.rfl
  · rw [inDocument_of_ne fun ms h => hv ⟨ms, h⟩, or_iff_right (Ne.symm hm), ite_self]

theorem inDocument_holdsMap : InDocument c .map (HoldsMap c) v ↔ v.HasMap c := by
  by_cases hv : ∃ ms, v = .object ms
  · obtain ⟨ms, rfl⟩ := hv
    exact ⟨.inl, fun h => h.resolve_right fun h => h.1 ms rfl⟩
  · have hv : ∀ ms, v ≠ .object ms := fun ms h => hv ⟨ms, h⟩
    rw [inDocument_of_ne hv, Value.HasMap, Value.above_of_ne hv]
    by_cases hp : c.isMapPath [c.rootName] = true
    · exact iff_of_true (by simp [hp]) (.inr ⟨hv, hp⟩)
    · rw [if_neg hp, or_iff_left fun h => hp h.2]
      exact Iff.rfl

/-- What is shown for a document that is no object has the features of the document. -/
theorem wrapped_flag_iff {F : Features → Bool} (hF : Features.Flag F k) (hP : Spots c k P) {n : Node}
    {w : Findings}
    (hs : shown? c [] c.rootName (.object [(c.rootName, .ofValue c.dialect v)]) = some (n, w)) :
    F w.features = true ↔
      if c.isMapPath [c.rootName] then .map = k ∨ P [c.rootName] (c.valueHint c.rootName) v
      else P [c.rootName] c.rootName v := by
  let f (v : Value) : Identifier × Sample := (c.rootName, .ofValue c.dialect v)
  have hs : shown? c [] c.rootName (.object ([v].map f)) = some (n, w) := hs
  have hmember := object_flag_iff hF (Q := fun slot v => P [c.rootName] slot v) hs
    fun _ _ _ _ _ h => flag_iff hF hP h
  simpa [f] using hmember

end InDocument

end Slot

/-! ## Runs -/

namespace Run

variable {c : Settings} {vs : List Value} {r : Run} {ns : List Node} {w : Findings}

/-- A run has a feature of a kind just where a value of that kind is met in a document. -/
theorem Outcome.flag_iff (h : Outcome c vs r ns w) {F : Features → Bool} {k : Kind}
    (hF : Features.Flag F k) {P : Path → Identifier → Value → Prop} (hP : Slot.Spots c k P) :
    F r.finish.features = true ↔ ∃ v ∈ vs, Slot.InDocument c k P v := by
  have hshown : Slot.collect? (shownDocument? c) (vs.map id) = some (ns, w) := by
    rw [List.map_id]
    exact h.shown
  show F r.gathered.features = true ↔ _
  rw [h.features, hF.or, hF.optional, Bool.false_or]
  refine Slot.collect?_flag_iff hF hshown fun v _ n w' hs => ?_
  cases v with
  | object => exact Slot.flag_iff hF hP hs
  | _ => exact Slot.wrapped_flag_iff hF hP hs

end Run

end SchemaInference
