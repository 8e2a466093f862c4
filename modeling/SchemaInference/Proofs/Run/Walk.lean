/-
What the builder leaves of the path that it works on. Each step on the path comes to what the step
that is told the path comes to, and leaves the path as it was (`Walk.Restores`); that passes to
sequences, and to what is done one name further down. So inferring a slot on a path is inferring it
with the path told (`Slot.walk_restores`), and what comes of it does not hang on what the run has
gathered, once it does not fail (`Run.inferValue_restores`).
-/
import SchemaInference.Proofs.Run.Findings

namespace SchemaInference

open Schema Traced

namespace Walk

variable {α β : Type} {x : Walk α} {f : Path → Gathering α}

theorem run_bind_of_error {k : α → Walk β} {path left : Path} {g : Gathered} {es : List Event}
    {e : Fault} (h : x.run path g = (⟨es, .error e⟩, left)) :
    (x >>= k).run path g = (⟨es, .error e⟩, left) := by
  show Walk.bind x k path g = _
  unfold Walk.bind
  rw [h]

theorem run_bind_of_ok {k : α → Walk β} {path left : Path} {g g' : Gathered} {es : List Event}
    {a : α} (h : x.run path g = (⟨es, .ok (a, g')⟩, left)) :
    (x >>= k).run path g =
      (⟨es ++ ((k a).run left g').1.events, ((k a).run left g').1.outcome⟩,
        ((k a).run left g').2) := by
  show Walk.bind x k path g = _
  unfold Walk.bind
  rw [h]

/-- On every path, `x` comes to what `f` comes to when it is told the path, and leaves the path. -/
def Restores (x : Walk α) (f : Path → Gathering α) : Prop := ∀ path g, x.run path g = (f path g, path)

namespace Restores

theorem told (f : Path → Gathering α) : Restores (told f) f := fun _ _ => rfl

theorem pure (a : α) : Restores (pure a) fun _ g => Pure.pure (a, g) := fun _ _ => rfl

/-- A second step finds the path as it was before the first. -/
theorem bind {k : α → Walk β} {h : α → Path → Gathering β} (hx : Restores x f)
    (hk : ∀ a, Restores (k a) (h a)) :
    Restores (x >>= k) fun path g => f path g >>= fun r => h r.1 path r.2 := by
  intro path g
  have hrun := hx path g
  show (x >>= k).run path g = (f path g >>= fun r => h r.1 path r.2, path)
  generalize f path g = t at hrun ⊢
  obtain ⟨es, o⟩ := t
  cases o with
  | error e => exact run_bind_of_error hrun
  | ok r =>
    rw [run_bind_of_ok hrun, hk r.1 path r.2]
    rfl

/-- The name that was put at the end is the one that is taken off. -/
theorem below (hx : Restores x f) (name : Identifier) :
    Restores (below name x) fun path => f (path ++ [name]) := by
  intro path g
  rw [run_below, hx, List.dropLast_concat]

theorem ite {b : Bool} {y : Walk α} {h : Path → Gathering α} (hx : Restores x f)
    (hy : Restores y h) :
    Restores (if b then x else y) fun path g => if b then f path g else h path g := by
  cases b with
  | true => exact hx
  | false => exact hy

theorem congr {h : Path → Gathering α} (hx : Restores x f) (he : ∀ path g, f path g = h path g) :
    Restores x h := fun path g => by rw [hx, he]

end Restores

end Walk

namespace Slot

open Walk

variable {c : Settings}

/-- Inferring the sample on a path is inferring it with the path told, whatever its slot. -/
def Walked (c : Settings) (s : Sample) : Prop :=
  ∀ hint, Restores (walk c hint s) fun path => infer c path hint s

theorem restores_joinHere (hint : Identifier) (known : Option Node) (n : Node) :
    Restores (joinHere c hint known n) fun path g => do return (← join c path hint known n, g) :=
  .told _

theorem restores_walkItems {items : List Sample} (h : ∀ s ∈ items, Walked c s) (hint : Identifier)
    (known : Option Node) :
    Restores (walkItems c hint items known) fun path => foldItems c path hint items known := by
  induction items generalizing known with
  | nil => exact .told _
  | cons s items ih =>
    obtain ⟨hs, hitems⟩ := List.forall_mem_cons.1 h
    refine ((hs hint).bind fun n => (restores_joinHere hint known n).bind fun joined =>
      ih hitems (some joined)).congr fun path g => ?_
    rw [foldItems]
    simp only [bind_assoc, pure_bind]

theorem walkEntries_eq (hint : Identifier) (entries : List (Identifier × Sample))
    (known : Option Node) :
    walkEntries c hint entries known = walkItems c hint (entries.map (·.2)) known := by
  induction entries generalizing known with
  | nil => rfl
  | cons m entries ih =>
    rw [walkEntries, List.map_cons, walkItems]
    simp only [ih]

theorem restores_walkMembers {members : List (Identifier × Sample)}
    (h : ∀ m ∈ members, Walked c m.2) (known : Members) :
    Restores (walkMembers c members known) fun path => inferMembers c path members known := by
  induction members generalizing known with
  | nil => exact .pure _
  | cons m members ih =>
    obtain ⟨name, s⟩ := m
    obtain ⟨hs, hmembers⟩ := List.forall_mem_cons.1 h
    refine ((hs name).bind fun n => (restores_joinHere name (known.get? name) n).bind fun joined =>
      ih hmembers (known.put name joined)).congr fun path g => ?_
    rw [inferMembers]
    simp only [bind_assoc, pure_bind]

theorem restores_visit (hint : Identifier) (k : Kind) {α : Type} {x : Walk α}
    {f : Path → Gathering α} (hx : Restores x f) :
    Restores (visit hint k >>= fun _ => x) fun path g =>
      emit (.visiting path hint k) >>= fun _ => f path g :=
  ((Restores.told _).bind fun _ => hx).congr fun path g => by
    simp only [bind_assoc, pure_bind]

theorem restores_meet (k : Kind) {α : Type} {x : Walk α} {f : Path → Gathering α}
    (hx : Restores x f) :
    Restores (meet k >>= fun _ => x) fun path g => f path (g.meet k) :=
  ((Restores.told _).bind fun _ => hx).congr fun path g => by
    simp only [pure_bind]

theorem restores_walkContainer (hint : Identifier) {value : Walk Node} {members : Walk Members}
    {f : Path → Gathering Node} {h : Path → Gathering Members} (hv : Restores value f)
    (hm : Restores members h) :
    Restores (walkContainer c hint value members) fun path => container c path hint f h := by
  have hmap := restores_meet .map (hv.bind fun v => .pure (Node.map hint v false))
  have hobject := hm.bind fun ms =>
    .told fun path => declare c path ⟨c.objectName hint.text, ms, false⟩
  have hinner := (Restores.told fun path g => pure (c.isMapPath path, g)).bind fun b =>
    hmap.ite (b := b) hobject
  refine (hinner.below hint).congr fun path g => ?_
  rw [pure_bind]
  rfl

/-- Inferring a slot on a path is inferring it with the path told; the path is left as it was. -/
theorem walk_restores (c : Settings) (s : Sample) : Walked c s := by
  induction s using Sample.induction with
  | null => exact fun hint => restores_visit hint .null (restores_meet .null (.pure _))
  | scalar s =>
    exact fun hint => restores_visit hint (.scalar s) (restores_meet (.scalar s) (.pure _))
  | array items ih =>
    intro hint
    exact restores_visit hint .array (restores_meet .array
      ((restores_walkItems ih (c.elementHint hint) none).bind fun e => .pure _))
  | object members ih =>
    intro hint
    have hvalues := restores_walkItems (List.forall_mem_map.2 ih) (c.valueHint hint) none
    rw [← walkEntries_eq] at hvalues
    exact restores_visit hint .object (restores_walkContainer hint
      (hvalues.congr fun path g => (foldEntries_eq c path _ members none g).symm)
      (restores_walkMembers ih []))

end Slot

namespace Run

/-- The result is that of the inference that is told the path, and the path is left as it was. -/
theorem inferValue_eq (r : Run) (v : Document.Value) (path : Path) (hint : Identifier) :
    r.inferValue v path hint =
      (do
        let (n, gathered) ←
          Slot.infer r.settings path hint (Sample.ofValue r.settings.dialect v) r.gathered
        return (n, { r with gathered }), path) := by
  unfold inferValue
  dsimp only
  rw [Slot.walk_restores r.settings (Sample.ofValue r.settings.dialect v) hint path r.gathered]

/-- The schema that comes out is the one that the value shows by itself. -/
theorem shown?_of_inferValue {r s : Run} {v : Document.Value} {path : Path} {hint : Identifier}
    {n : Node} (h : (r.inferValue v path hint).1.outcome = .ok (n, s)) :
    ∃ w, Slot.shown? r.settings path hint (Sample.ofValue r.settings.dialect v) = some (n, w) := by
  rw [inferValue_eq] at h
  have hvalue := value?_eq_some.2 h
  rw [value?_bind] at hvalue
  obtain ⟨⟨m, g⟩, hm, hn⟩ := Option.bind_eq_some_iff.1 hvalue
  obtain ⟨w, hshown, -⟩ := (Slot.value?_infer ..).1 hm
  simp only [pure_eq, value?_ok, Option.some.injEq, Prod.mk.injEq] at hn
  exact ⟨w, hn.1 ▸ hshown⟩

/-- The path is left as it was, whatever comes of the value, and two runs under the same settings
that do not fail on it find the same schema, whatever each has gathered. -/
theorem inferValue_restores {r r' : Run} (hc : r'.settings = r.settings) (v : Document.Value)
    (path : Path) (hint : Identifier) :
    (r.inferValue v path hint).2 = path ∧
      ∀ n n' s s', (r.inferValue v path hint).1.outcome = .ok (n, s) →
        (r'.inferValue v path hint).1.outcome = .ok (n', s') → n' = n := by
  constructor
  · rw [inferValue_eq]
  · intro n n' s s' h h'
    obtain ⟨w, hw⟩ := shown?_of_inferValue h
    obtain ⟨w', hw'⟩ := shown?_of_inferValue h'
    rw [hc, hw] at hw'
    injection hw' with hw'
    injection hw' with hn _
    exact hn.symm

/-- A run that has another object of the name gathered, which goes together with this one, finds the
same schema; a run whose object of the name does not go together with it fails, some containers
further down, and leaves the path as it was too. -/
theorem inferValue_restores_declared :
    let c := Settings.default.withPolicy .strict
    let known (n : Node) : Run :=
      { Run.start c with
        gathered.registry := ⟨[(⟨"in_t"⟩, ⟨⟨"in_t"⟩, [(⟨"x"⟩, n)], false⟩)]⟩ }
    let v : Document.Value :=
      .object [("list", .array [.object [("in", .object [("x", .integer "1")])], .object []])]
    let path : Path := [⟨"root"⟩, ⟨"outer"⟩]
    let hint : Identifier := ⟨"item"⟩
    (∃ n s s', ((Run.start c).inferValue v path hint).1.outcome = .ok (n, s) ∧
      ((known .null).inferValue v path hint).1.outcome = .ok (n, s')) ∧
      ((known (.scalar .string false)).inferValue v path hint).1.value? = none ∧
      ((known (.scalar .string false)).inferValue v path hint).2 = path := by
  intro c known v path hint
  have hstart : ((Run.start c).inferValue v path hint).1.value?.isSome = true := by decide +kernel
  have hknown : ((known .null).inferValue v path hint).1.value?.isSome = true := by decide +kernel
  have hfail : ((known (.scalar .string false)).inferValue v path hint).1.value?.isNone = true := by
    decide +kernel
  obtain ⟨⟨n, s⟩, h⟩ := Option.isSome_iff_exists.1 hstart
  obtain ⟨⟨n', s'⟩, h'⟩ := Option.isSome_iff_exists.1 hknown
  have hsettings (m : Node) : (known m).settings = (Run.start c).settings := rfl
  have hn : n' = n := (inferValue_restores (hsettings .null) v path hint).2 n n' s s'
    (value?_eq_some.1 h) (value?_eq_some.1 h')
  have hpath := (inferValue_restores (hsettings (.scalar .string false)).symm v path hint).1
  subst hn
  exact ⟨⟨n', s, s', value?_eq_some.1 h, value?_eq_some.1 h'⟩, Option.isNone_iff_eq_none.1 hfail,
    hpath⟩

end Run

end SchemaInference
