/-
What a sample shows by itself. Inferring a slot reads the registry only to write to it, so it comes
to two things that can be told apart: the node and the findings of the sample, which hang on the
sample alone (`shown?`), and taking the findings into what the run has gathered (`Findings.into?`).
`value?_infer` says that the two together are the inference: it succeeds just where both do, and
with their outcome. What holds of a node is then an induction on samples, without any registry, and
what holds of a registry is a fold over declared objects, without any sample.
-/
import SchemaInference.Run.Basic
import SchemaInference.Proofs.Schema.Fold

namespace SchemaInference

open Schema Traced

/-- Induction on samples: the items of an array and the members of an object are all below it. -/
@[elab_as_elim]
theorem Sample.induction {P : Sample → Prop} (null : P .null) (scalar : ∀ s, P (.scalar s))
    (array : ∀ items, (∀ s ∈ items, P s) → P (.array items))
    (object : ∀ members, (∀ m ∈ members, P m.2) → P (.object members)) (s : Sample) : P s :=
  Sample.rec (motive_1 := P) (motive_2 := fun items => ∀ s ∈ items, P s)
    (motive_3 := fun members => ∀ m ∈ members, P m.2) (motive_4 := fun m => P m.2) null scalar array
    object (fun _ h => nomatch h) (fun _ _ hs hi => List.forall_mem_cons.2 ⟨hs, hi⟩)
    (fun _ h => nomatch h) (fun _ _ hm hms => List.forall_mem_cons.2 ⟨hm, hms⟩) (fun _ _ h => h) s

/-! ## Features -/

namespace Features

/-- What either has met. -/
def or (f g : Features) : Features where
  arrays := f.arrays || g.arrays
  integrals := f.integrals || g.integrals
  optionals := f.optionals || g.optionals
  strings := f.strings || g.strings
  maps := f.maps || g.maps

theorem or_assoc (f g h : Features) : (f.or g).or h = f.or (g.or h) := by
  simp [or, Bool.or_assoc]

theorem or_comm (f g : Features) : f.or g = g.or f := by
  simp [or, Bool.or_comm]

theorem or_right_comm (f g h : Features) : (f.or g).or h = (f.or h).or g := by
  rw [or_assoc, or_comm g, ← or_assoc]

@[simp] theorem or_none (f : Features) : f.or {} = f := by simp [or]

theorem meet_eq (f : Features) (k : Kind) : f.meet k = f.or (({} : Features).meet k) := by
  rcases k with _ | s | _ | _ | _ <;> try rcases s
  all_goals simp [meet, or]

theorem meetOptional_eq (f : Features) (met : Bool) :
    f.meetOptional met = f.or { optionals := met } := by
  simp [meetOptional, or]

end Features

/-! ## Findings -/

/-- What samples add to what a run has gathered: the objects they declare, in the order in which
these are complete, and the features they show. -/
structure Findings where
  objects : List Object := []
  features : Features := {}

namespace Findings

def append (w w' : Findings) : Findings := ⟨w.objects ++ w'.objects, w.features.or w'.features⟩

def ofKind (k : Kind) : Findings := { features := ({} : Features).meet k }

def ofOptional (met : Bool) : Findings := { features := { optionals := met } }

theorem append_assoc (w₁ w₂ w₃ : Findings) :
    (w₁.append w₂).append w₃ = w₁.append (w₂.append w₃) := by
  simp [append, Features.or_assoc]

end Findings

namespace Gathered

def addFeatures (g : Gathered) (f : Features) : Gathered := { g with features := g.features.or f }

/-- The gathered after an object is declared. -/
def declare? (p : Policy) (g : Gathered) (o : Object) : Option Gathered :=
  (g.registry.register p o).value?.map fun r =>
    { g with registry := r }.meetOptional
      ((r.find? o.name).any fun entry : Object => entry.members.any (·.2.isOptional))

def declareAll? (p : Policy) : Gathered → List Object → Option Gathered
  | g, [] => some g
  | g, o :: os => (g.declare? p o).bind fun g => declareAll? p g os

theorem declareAll?_append (p : Policy) (g : Gathered) (os os' : List Object) :
    declareAll? p g (os ++ os') = (declareAll? p g os).bind fun g => declareAll? p g os' := by
  induction os generalizing g with
  | nil => rfl
  | cons o os ih =>
    rw [List.cons_append, declareAll?, declareAll?, Option.bind_assoc]
    exact congrArg _ (funext fun g => ih g)

theorem declare?_addFeatures (p : Policy) (g : Gathered) (f : Features) (o : Object) :
    (g.addFeatures f).declare? p o = (g.declare? p o).map (·.addFeatures f) := by
  unfold declare? addFeatures
  rw [Option.map_map]
  refine congrArg (Option.map · _) (funext fun r => ?_)
  simp only [Function.comp, meetOptional, Features.meetOptional_eq, Features.or_right_comm]

theorem declareAll?_addFeatures (p : Policy) (g : Gathered) (f : Features) (os : List Object) :
    declareAll? p (g.addFeatures f) os = (declareAll? p g os).map (·.addFeatures f) := by
  induction os generalizing g with
  | nil => rfl
  | cons o os ih =>
    rw [declareAll?, declareAll?, declare?_addFeatures]
    cases g.declare? p o with
    | none => rfl
    | some g => exact ih g

end Gathered

namespace Findings

/-- What is gathered after the findings are taken in. -/
def into? (p : Policy) (w : Findings) (g : Gathered) : Option Gathered :=
  (Gathered.declareAll? p g w.objects).map (·.addFeatures w.features)

theorem into?_append (p : Policy) (w w' : Findings) (g : Gathered) :
    (w.append w').into? p g = (w.into? p g).bind (w'.into? p) := by
  unfold into? append
  rw [Gathered.declareAll?_append]
  cases Gathered.declareAll? p g w.objects with
  | none => rfl
  | some g =>
    simp only [Option.bind_some, Option.map_some, Gathered.declareAll?_addFeatures,
      Option.map_map]
    refine congrArg (Option.map · _) (funext fun h => ?_)
    simp only [Function.comp, Gathered.addFeatures, Features.or_assoc]

@[simp] theorem into?_ofKind (p : Policy) (k : Kind) (g : Gathered) :
    (ofKind k).into? p g = some (g.meet k) := by
  unfold into? ofKind Gathered.meet Gathered.addFeatures
  rw [Features.meet_eq g.features]
  rfl

@[simp] theorem into?_ofOptional (p : Policy) (met : Bool) (g : Gathered) :
    (ofOptional met).into? p g = some (g.meetOptional met) := by
  unfold into? ofOptional Gathered.meetOptional Gathered.addFeatures
  rw [Features.meetOptional_eq g.features]
  rfl

@[simp] theorem into?_none (p : Policy) (g : Gathered) : ({} : Findings).into? p g = some g := by
  show some (g.addFeatures {}) = some g
  unfold Gathered.addFeatures
  rw [Features.or_none]

/-- A declared object is all that is found. -/
theorem into?_objects (p : Policy) (o : Object) (g : Gathered) :
    ({ objects := [o] } : Findings).into? p g = g.declare? p o := by
  unfold into? Gathered.addFeatures
  simp only [Gathered.declareAll?, Features.or_none, Option.map_id']
  cases g.declare? p o <;> rfl

end Findings

/-! ## What a sample shows -/

namespace Slot

/-- What the nodes observed in one slot come to, from what was known on; nothing at all is null. -/
def concluded? (p : Policy) (known : Option Node) (ns : List Node) : Option (Node × Findings) :=
  (joinAll? p known ns).map fun k =>
    (k.getD .null, .ofOptional (k.getD .null).carriesOptional)

mutual

/-- The node of the slot `hint` below `path` that the sample alone shows, and its findings. -/
def shown? (c : Settings) (path : Path) (hint : Identifier) : Sample → Option (Node × Findings)
  | .null => some (.null, .ofKind .null)
  | .scalar s => some (.scalar s false, .ofKind (.scalar s))
  | .array items => do
    let (ns, w) ← shownItems? c path (c.elementHint hint) items
    let (e, w') ← concluded? c.policy none ns
    return (.array e false, (Findings.ofKind .array).append (w.append w'))
  | .object members => do
    let inner := path ++ [hint]
    if c.isMapPath inner then
      let (ms, w) ← shownMembers? c inner (fun _ => c.valueHint hint) members
      let (v, w') ← concluded? c.policy none (ms.map (·.2))
      return (.map hint v false, (Findings.ofKind .map).append (w.append w'))
    else
      let (named, w) ← shownMembers? c inner id members
      let ms ← Members.gather? c.policy [] named
      let o : Object := ⟨c.objectName hint.text, ms, false⟩
      return (o.node, w.append { objects := [o] })

/-- The nodes that the samples of one slot show, one by one. -/
def shownItems? (c : Settings) (path : Path) (hint : Identifier) :
    List Sample → Option (List Node × Findings)
  | [] => some ([], {})
  | s :: items => do
    let (n, w) ← shown? c path hint s
    let (ns, w') ← shownItems? c path hint items
    return (n :: ns, w.append w')

/-- The nodes that named samples show, each in the slot that `slot` gives for its name. -/
def shownMembers? (c : Settings) (path : Path) (slot : Identifier → Identifier) :
    List (Identifier × Sample) → Option (Members × Findings)
  | [] => some ([], {})
  | (name, s) :: members => do
    let (n, w) ← shown? c path (slot name) s
    let (ms, w') ← shownMembers? c path slot members
    return ((name, n) :: ms, w.append w')

end

/-! ## Inference by findings -/

theorem value?_join (c : Settings) (path : Path) (hint : Identifier) (known : Option Node)
    (n : Node) : (join c path hint known n).value? = joinKnown? c.policy known n := by
  cases known with
  | none => rfl
  | some m => exact value?_mapFault ..

theorem value?_declare (c : Settings) (path : Path) (o : Object) (g : Gathered) :
    (declare c path o g).value? = (g.declare? c.policy o).map fun g' => (o.node, g') := by
  unfold declare Gathered.declare?
  simp only [value?_bind, value?_mapFault, pure_eq, value?_ok]
  cases (Registry.register c.policy g.registry o).value? <;> rfl

theorem value?_conclude (known : Option Node) (g : Gathered) :
    (conclude known g).value? =
      some (known.getD .null, g.meetOptional (known.getD .null).carriesOptional) := rfl

theorem concluded?_nil (p : Policy) (known : Option Node) :
    concluded? p known [] =
      some (known.getD .null, .ofOptional (known.getD .null).carriesOptional) := rfl

theorem concluded?_cons {p : Policy} {known : Option Node} {n : Node} {ns : List Node}
    {r : Node × Findings} :
    concluded? p known (n :: ns) = some r ↔
      ∃ k, joinKnown? p known n = some k ∧ concluded? p (some k) ns = some r := by
  unfold concluded?
  rw [joinAll?, ← Option.bind_eq_some_iff]
  cases joinKnown? p known n <;> rfl

theorem shownItems?_cons {c : Settings} {path : Path} {hint : Identifier} {s : Sample}
    {items : List Sample} {ns : List Node} {w : Findings} :
    shownItems? c path hint (s :: items) = some (ns, w) ↔
      ∃ n w₁ ns' w₂, shown? c path hint s = some (n, w₁) ∧
        shownItems? c path hint items = some (ns', w₂) ∧ n :: ns' = ns ∧ w₁.append w₂ = w := by
  simp [shownItems?, Option.bind_eq_some_iff]

theorem shownMembers?_cons {c : Settings} {path : Path} {slot : Identifier → Identifier}
    {name : Identifier} {s : Sample} {members : List (Identifier × Sample)} {ms : Members}
    {w : Findings} :
    shownMembers? c path slot ((name, s) :: members) = some (ms, w) ↔
      ∃ n w₁ ms' w₂, shown? c path (slot name) s = some (n, w₁) ∧
        shownMembers? c path slot members = some (ms', w₂) ∧ (name, n) :: ms' = ms ∧
        w₁.append w₂ = w := by
  simp [shownMembers?, Option.bind_eq_some_iff]

/-! ### Folds -/

/-- The values of entries are folded as items are, whatever their names. -/
theorem foldEntries_eq (c : Settings) (path : Path) (hint : Identifier)
    (entries : List (Identifier × Sample)) (known : Option Node) (g : Gathered) :
    foldEntries c path hint entries known g =
      foldItems c path hint (entries.map (·.2)) known g := by
  induction entries generalizing known g with
  | nil => rfl
  | cons m entries ih =>
    rw [foldEntries, List.map_cons, foldItems]
    simp only [ih]

theorem shownItems?_values (c : Settings) (path : Path) (hint : Identifier)
    (entries : List (Identifier × Sample)) :
    shownItems? c path hint (entries.map (·.2)) =
      (shownMembers? c path (fun _ => hint) entries).map fun (ms, w) => (ms.map (·.2), w) := by
  induction entries with
  | nil => rfl
  | cons m entries ih =>
    rw [List.map_cons, shownItems?, ih, shownMembers?]
    rcases shown? c path hint m.2 with _ | ⟨n, w⟩
    · rfl
    · cases shownMembers? c path (fun _ => hint) entries <;> rfl

/-- Inferring the sample is finding what it shows and taking that in, whatever its slot. -/
def Found (c : Settings) (s : Sample) : Prop :=
  ∀ path hint g n g', (infer c path hint s g).value? = some (n, g') ↔
    ∃ w, shown? c path hint s = some (n, w) ∧ w.into? c.policy g = some g'

theorem value?_foldItems {c : Settings} {items : List Sample} (h : ∀ s ∈ items, Found c s)
    (path : Path) (hint : Identifier) (known : Option Node) (g : Gathered) (n : Node)
    (g' : Gathered) :
    (foldItems c path hint items known g).value? = some (n, g') ↔
      ∃ ns w w', shownItems? c path hint items = some (ns, w) ∧
        concluded? c.policy known ns = some (n, w') ∧
        (w.append w').into? c.policy g = some g' := by
  induction items generalizing known g with
  | nil =>
    simp only [foldItems, value?_conclude, shownItems?, Option.some.injEq, Prod.mk.injEq]
    constructor
    · rintro ⟨rfl, rfl⟩
      refine ⟨[], {}, _, ⟨rfl, rfl⟩, concluded?_nil .., ?_⟩
      rw [Findings.into?_append, Findings.into?_none, Option.bind_some, Findings.into?_ofOptional]
    · rintro ⟨_, _, w', ⟨rfl, rfl⟩, hc, hw⟩
      rw [concluded?_nil, Option.some.injEq, Prod.mk.injEq] at hc
      obtain ⟨rfl, rfl⟩ := hc
      rw [Findings.into?_append, Findings.into?_none, Option.bind_some,
        Findings.into?_ofOptional] at hw
      exact ⟨rfl, Option.some.inj hw⟩
  | cons s items ih =>
    obtain ⟨hs, hitems⟩ := List.forall_mem_cons.1 h
    -- the findings of the first sample are taken in before those of the others
    simp only [foldItems, value?_bind, Option.bind_eq_some_iff, Prod.exists, hs path hint,
      ih hitems, value?_join]
    constructor
    · rintro ⟨m, g₁, ⟨w₁, hs, hw₁⟩, k, hk, ns, w, w', hi, hc, hw⟩
      refine ⟨m :: ns, w₁.append w, w', shownItems?_cons.2 ⟨m, w₁, ns, w, hs, hi, rfl, rfl⟩,
        concluded?_cons.2 ⟨k, hk, hc⟩, ?_⟩
      rw [Findings.append_assoc, Findings.into?_append, hw₁]
      exact hw
    · rintro ⟨_, _, w', hsi, hc, hw⟩
      obtain ⟨m, w₁, ns, w, hs, hi, rfl, rfl⟩ := shownItems?_cons.1 hsi
      obtain ⟨k, hk, hc⟩ := concluded?_cons.1 hc
      rw [Findings.append_assoc, Findings.into?_append] at hw
      obtain ⟨g₁, hw₁, hw⟩ := Option.bind_eq_some_iff.1 hw
      exact ⟨m, g₁, ⟨w₁, hs, hw₁⟩, k, hk, ns, w, w', hi, hc, hw⟩

theorem value?_foldEntries {c : Settings} {entries : List (Identifier × Sample)}
    (h : ∀ m ∈ entries, Found c m.2) (path : Path) (hint : Identifier) (known : Option Node)
    (g : Gathered) (n : Node) (g' : Gathered) :
    (foldEntries c path hint entries known g).value? = some (n, g') ↔
      ∃ ms w w', shownMembers? c path (fun _ => hint) entries = some (ms, w) ∧
        concluded? c.policy known (ms.map (·.2)) = some (n, w') ∧
        (w.append w').into? c.policy g = some g' := by
  rw [foldEntries_eq, value?_foldItems (List.forall_mem_map.2 h), shownItems?_values]
  simp only [Option.map_eq_some_iff, Prod.exists, Prod.mk.injEq]
  constructor
  · rintro ⟨_, _, w', ⟨ms, w, hs, rfl, rfl⟩, hc, hw⟩
    exact ⟨ms, w, w', hs, hc, hw⟩
  · rintro ⟨ms, w, w', hs, hc, hw⟩
    exact ⟨_, w, w', ⟨ms, w, hs, rfl, rfl⟩, hc, hw⟩

theorem value?_inferMembers {c : Settings} {members : List (Identifier × Sample)}
    (h : ∀ m ∈ members, Found c m.2) (path : Path) (known : Members) (g : Gathered) (ms : Members)
    (g' : Gathered) :
    (inferMembers c path members known g).value? = some (ms, g') ↔
      ∃ named w, shownMembers? c path id members = some (named, w) ∧
        Members.gather? c.policy known named = some ms ∧ w.into? c.policy g = some g' := by
  induction members generalizing known g with
  | nil =>
    simp only [inferMembers, pure_eq, value?_ok, shownMembers?, Option.some.injEq, Prod.mk.injEq]
    constructor
    · rintro ⟨rfl, rfl⟩
      exact ⟨[], {}, ⟨rfl, rfl⟩, rfl, Findings.into?_none ..⟩
    · rintro ⟨_, _, ⟨rfl, rfl⟩, hg, hw⟩
      rw [Findings.into?_none] at hw
      exact ⟨Option.some.inj hg, Option.some.inj hw⟩
  | cons member members ih =>
    obtain ⟨name, s⟩ := member
    obtain ⟨hs, hmembers⟩ := List.forall_mem_cons.1 h
    simp only [inferMembers, value?_bind, Option.bind_eq_some_iff, Prod.exists, hs path name,
      ih hmembers, value?_join]
    constructor
    · rintro ⟨m, g₁, ⟨w₁, hs, hw₁⟩, k, hk, named, w, hi, hg, hw⟩
      refine ⟨_, w₁.append w, shownMembers?_cons.2 ⟨m, w₁, named, w, hs, hi, rfl, rfl⟩,
        Option.bind_eq_some_iff.2 ⟨k, hk, hg⟩, ?_⟩
      rw [Findings.into?_append, hw₁]
      exact hw
    · rintro ⟨_, _, hsm, hg, hw⟩
      obtain ⟨m, w₁, named, w, hs, hi, rfl, rfl⟩ := shownMembers?_cons.1 hsm
      obtain ⟨k, hk, hg⟩ := Option.bind_eq_some_iff.1 hg
      rw [Findings.into?_append] at hw
      obtain ⟨g₁, hw₁, hw⟩ := Option.bind_eq_some_iff.1 hw
      exact ⟨m, g₁, ⟨w₁, hs, hw₁⟩, k, hk, named, w, hi, hg, hw⟩

/-! ### Slots -/

/-- A sample without parts shows its kind and nothing else. -/
theorem found_leaf {c : Settings} {s : Sample} {n : Node} (k : Kind)
    (hi : ∀ path hint g, infer c path hint s g =
      emit (.visiting path hint k) >>= fun _ => pure (n, g.meet k))
    (hs : ∀ path hint, shown? c path hint s = some (n, .ofKind k)) : Found c s := by
  intro path hint g m g'
  simp only [hi, hs, value?_bind, value?_emit, pure_eq, value?_ok, Option.bind_some,
    Option.some.injEq, Prod.mk.injEq]
  constructor
  · rintro ⟨rfl, rfl⟩
    exact ⟨_, ⟨rfl, rfl⟩, Findings.into?_ofKind ..⟩
  · rintro ⟨w, ⟨rfl, rfl⟩, h⟩
    rw [Findings.into?_ofKind] at h
    exact ⟨rfl, Option.some.inj h⟩

theorem found_array {c : Settings} {items : List Sample} (h : ∀ s ∈ items, Found c s) :
    Found c (.array items) := by
  intro path hint g n g'
  have hi := value?_foldItems h path (c.elementHint hint) none (g.meet .array)
  simp only [infer, shown?, value?_bind, value?_emit, pure_eq, value?_ok, Option.bind_some,
    Option.bind_eq_some_iff, Prod.exists, hi, Option.bind_eq_bind, Option.pure_def,
    Option.some.injEq, Prod.mk.injEq]
  constructor
  · rintro ⟨e, g₁, ⟨ns, w, w', hs, hc, hw⟩, rfl, rfl⟩
    refine ⟨_, ⟨ns, w, hs, e, w', hc, rfl, rfl⟩, ?_⟩
    rw [Findings.into?_append, Findings.into?_ofKind]
    exact hw
  · rintro ⟨_, ⟨ns, w, hs, e, w', hc, rfl, rfl⟩, hw⟩
    rw [Findings.into?_append, Findings.into?_ofKind] at hw
    exact ⟨e, g', ⟨ns, w, w', hs, hc, hw⟩, rfl, rfl⟩

/-- An object is found as a map or as an object of its members, as its path says. -/
theorem value?_inferObject {c : Settings} {members : List (Identifier × Sample)}
    (h : ∀ m ∈ members, Found c m.2) (path : Path) (hint : Identifier) (g : Gathered) (n : Node)
    (g' : Gathered) :
    (inferObject c path hint members g).value? = some (n, g') ↔
      ∃ w, shown? c path hint (.object members) = some (n, w) ∧
        w.into? c.policy g = some g' := by
  have hv := value?_foldEntries h (path ++ [hint]) (c.valueHint hint) none (g.meet .map)
  have hm := value?_inferMembers h (path ++ [hint]) [] g
  unfold inferObject container
  by_cases hp : c.isMapPath (path ++ [hint]) = true
  · -- a map: its kind is met before its values
    simp only [shown?, hp, if_true, value?_bind, pure_eq, value?_ok, Option.bind_eq_some_iff,
      Prod.exists, hv, Option.bind_eq_bind, Option.pure_def, Option.some.injEq, Prod.mk.injEq]
    constructor
    · rintro ⟨v, g₁, ⟨ms, w, w', hs, hc, hw⟩, rfl, rfl⟩
      refine ⟨_, ⟨ms, w, hs, v, w', hc, rfl, rfl⟩, ?_⟩
      rw [Findings.into?_append, Findings.into?_ofKind]
      exact hw
    · rintro ⟨_, ⟨ms, w, hs, v, w', hc, rfl, rfl⟩, hw⟩
      rw [Findings.into?_append, Findings.into?_ofKind] at hw
      exact ⟨v, g', ⟨ms, w, w', hs, hc, hw⟩, rfl, rfl⟩
  · -- an object of members: it is declared after all that its members declare
    simp only [shown?, hp, if_false, value?_bind, Option.bind_eq_some_iff, Prod.exists, hm,
      value?_declare, Option.map_eq_some_iff, Option.bind_eq_bind, Option.pure_def,
      Option.some.injEq, Prod.mk.injEq, Bool.false_eq_true]
    constructor
    · rintro ⟨ms, g₁, ⟨named, w, hs, hg, hw⟩, g₂, hd, rfl, rfl⟩
      refine ⟨_, ⟨named, w, hs, ms, hg, rfl, rfl⟩, ?_⟩
      rw [Findings.into?_append, hw, Option.bind_some, Findings.into?_objects]
      exact hd
    · rintro ⟨_, ⟨named, w, hs, ms, hg, rfl, rfl⟩, hw⟩
      rw [Findings.into?_append] at hw
      obtain ⟨g₁, hw, hd⟩ := Option.bind_eq_some_iff.1 hw
      rw [Findings.into?_objects] at hd
      exact ⟨ms, g₁, ⟨named, w, hs, hg, hw⟩, g', hd, rfl, rfl⟩

/-- Inferring a slot is finding what the sample shows and taking it in. -/
theorem value?_infer (c : Settings) (path : Path) (hint : Identifier) (s : Sample) (g : Gathered)
    (n : Node) (g' : Gathered) :
    (infer c path hint s g).value? = some (n, g') ↔
      ∃ w, shown? c path hint s = some (n, w) ∧ w.into? c.policy g = some g' := by
  suffices h : Found c s from h path hint g n g'
  induction s using Sample.induction with
  | null => exact found_leaf .null (fun _ _ _ => rfl) fun _ _ => rfl
  | scalar s => exact found_leaf (.scalar s) (fun _ _ _ => rfl) fun _ _ => rfl
  | array items ih => exact found_array ih
  | object members ih =>
    intro path hint g n g'
    rw [infer_object, value?_bind, value?_emit, Option.bind_some]
    exact value?_inferObject ih path hint g n g'

end Slot

end SchemaInference
