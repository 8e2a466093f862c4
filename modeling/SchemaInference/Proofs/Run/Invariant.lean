/-
What holds along a run. An invariant says something of the names of slots, of the nodes in a slot and
of the faults that end a run (`Invariant`): its laws are one for each way a node comes about, one for
joining two nodes of a slot and one for a fault on its way out. Where they hold, the root and the
registry of every run have the invariant (`keeps_reached`), and the fault that a document ends a run
with is one of those the invariant speaks of (`ends_observe`).
-/
import SchemaInference.Proofs.Run.Documents

namespace SchemaInference

open Schema Traced

variable {c : Settings} {S : Identifier → Prop} {N : Identifier → Node → Prop}
  {E : Schema.Fault → Prop}

/-! ## Members and faults -/

/-- Each member is named as a slot may be, and its node is one of that slot. -/
def Schema.Members.Keep (S : Identifier → Prop) (N : Identifier → Node → Prop) (ms : Members) :
    Prop :=
  ∀ m ∈ ms, S m.1 ∧ N m.1 m.2

/-- `S` holds of the names of slots, `N` of the nodes in them, and `E` of the faults. -/
structure Invariant (c : Settings) (S : Identifier → Prop) (N : Identifier → Node → Prop)
    (E : Schema.Fault → Prop) : Prop where
  sanitize : ∀ raw, S (c.sanitize raw)
  null : ∀ hint, N hint .null
  scalar : ∀ hint s, N hint (.scalar s false)
  array : ∀ hint e, N (c.elementHint hint) e → N hint (.array e false)
  map : ∀ hint v, S hint → c.mapPaths ≠ [] → N (c.valueHint hint) v → N hint (.map hint v false)
  object : ∀ hint ms, Members.Keep S N ms → N hint (.object (c.objectName hint.text) ms false)
  relax : ∀ hint a, N hint a → N hint a.relax
  unify : ∀ hint a b, N hint a → N hint b → (unify c.policy a b).Ends (N hint) E
  within : ∀ name f, S name → E f → E (f.within name)

namespace Schema

namespace Members.Keep

variable {ms : Members}

theorem nil : Members.Keep S N [] := fun _ h => nomatch h

theorem get? (h : Members.Keep S N ms) {name : Identifier} {a : Node}
    (ha : Members.get? ms name = some a) : N name a :=
  (h _ (mem_of_get? ha)).2

theorem put (h : Members.Keep S N ms) {name : Identifier} {a : Node} (hn : S name)
    (ha : N name a) : Members.Keep S N (Members.put ms name a) := fun m hm => by
  rcases mem_put hm with rfl | hm
  · exact ⟨hn, ha⟩
  · exact h m hm

theorem relaxMissing (hrelax : ∀ hint a, N hint a → N hint a.relax) (h : Members.Keep S N ms)
    (others : Members) : Members.Keep S N (Members.relaxMissing ms others) := by
  refine List.forall_mem_map.2 fun m hm => ?_
  split
  · exact h m hm
  · exact ⟨(h m hm).1, hrelax _ _ (h m hm).2⟩

end Members.Keep

/-- Members are taken in one by one, each of them joined to a node of its slot. A fault of `E` in a
member is one of `D` outside. -/
theorem ends_absorb {p : Policy} {D : Schema.Fault → Prop}
    (hrelax : ∀ hint a, N hint a → N hint a.relax) {ns : Members}
    (hwithin : ∀ m ∈ ns, ∀ f, E f → D (f.within m.1))
    (hns : Members.Keep S N ns) {ms : Members} (hms : Members.Keep S N ms)
    (h : ∀ m ∈ ns, ∀ a, N m.1 a → (unify p a m.2).Ends (N m.1) E) :
    (absorb p ms ns).Ends (Members.Keep S N) fun e => D e.fault := by
  induction ns generalizing ms with
  | nil =>
    unfold absorb
    exact .pure hms
  | cons m ns ih =>
    obtain ⟨name, b⟩ := m
    obtain ⟨⟨hname, hb⟩, hns⟩ := List.forall_mem_cons.1 hns
    obtain ⟨hD, hwithin⟩ := List.forall_mem_cons.1 hwithin
    obtain ⟨hu, h⟩ := List.forall_mem_cons.1 h
    unfold absorb
    rcases ha : ms.get? name with _ | a
    · exact ih hwithin hns (hms.put hname (hrelax _ _ hb)) h
    · refine Ends.bind (.mapFault (hu a (hms.get? ha)) fun f hf => hD f hf) fun k hk => ?_
      exact ih hwithin hns (hms.put hname hk) h

/-- Merging an object takes in its members. -/
theorem ends_merge_of_absorb {p : Policy} {o incoming : Object} {P : Members → Prop}
    (h : (absorb p (o.members.relaxMissing incoming.members) incoming.members).Ends P
      fun e => E e.fault) :
    (o.merge p incoming).Ends (fun o' => o'.name = o.name ∧ P o'.members) fun e => E e.fault := by
  unfold Object.merge Members.merge
  generalize absorb p (o.members.relaxMissing incoming.members) incoming.members = x at h
  cases h with
  | ok h => exact .ok ⟨rfl, h⟩
  | error h => exact .error h

end Schema

/-- Every entry is named as a slot may be, and its members keep the invariant. -/
def Registry.Keep (S : Identifier → Prop) (N : Identifier → Node → Prop) (r : Registry) : Prop :=
  ∀ e ∈ r.objects, S e.name ∧ e.members.Keep S N

/-- A node of the slot and a registry that keep the invariant, or a fault that does. -/
def Slot.Keeps (S : Identifier → Prop) (N : Identifier → Node → Prop) (E : Schema.Fault → Prop)
    (hint : Identifier) (x : Traced Schema.Fault (Node × Gathered)) : Prop :=
  x.Ends (fun r => N hint r.1 ∧ r.2.registry.Keep S N) E

/-- The root and the registry of a run keep the invariant. -/
structure Run.Keeps (c : Settings) (S : Identifier → Prop) (N : Identifier → Node → Prop)
    (r : Run) : Prop where
  settings : r.settings = c
  root : ∀ n ∈ r.root, N c.rootName n
  registry : r.gathered.registry.Keep S N

namespace Invariant

variable (inv : Invariant c S N E)

include inv

theorem withinPath {path : Path} (hpath : ∀ n ∈ path, S n) {f : Schema.Fault} (hf : E f) :
    E (f.withinPath path) := by
  induction path with
  | nil => exact hf
  | cons n path ih =>
    obtain ⟨hn, hpath⟩ := List.forall_mem_cons.1 hpath
    exact inv.within _ _ hn (ih hpath)

/-! ## The registry -/

theorem ends_merge {o incoming : Object} (ho : o.members.Keep S N)
    (hi : incoming.members.Keep S N) :
    (o.merge c.policy incoming).Ends (fun o' => o'.name = o.name ∧ o'.members.Keep S N)
      fun e => E e.fault :=
  ends_merge_of_absorb (ends_absorb inv.relax (fun m hm f hf => inv.within m.1 f (hi m hm).1 hf) hi
    (ho.relaxMissing inv.relax _) fun m hm _ ha => inv.unify _ _ _ ha (hi m hm).2)

theorem ends_register {r : Registry} (hr : r.Keep S N) {o : Object} (hn : S o.name)
    (ho : o.members.Keep S N) :
    (r.register c.policy o).Ends (Registry.Keep S N) fun e => E e.fault := by
  unfold Registry.register
  rcases he : r.find? o.name with _ | e
  · exact .emit_bind (.pure (Registry.forall_objects_append hr ⟨hn, ho⟩))
  · obtain ⟨hname, hmembers⟩ := hr e (Registry.mem_of_find? he)
    have hmerge : (e.merge c.policy { o with optional := false }).Ends
        (fun o' => o'.name = e.name ∧ o'.members.Keep S N) fun e => E e.fault :=
      inv.ends_merge hmembers ho
    exact .emit_bind (Ends.bind (.mapFault hmerge fun _ h => h) fun merged hm =>
      .pure (Registry.forall_objects_replace hr ⟨hm.1 ▸ hname, hm.2⟩))

/-! ## Slots -/

section Slots

open Slot

variable {path : Path} (hpath : ∀ n ∈ path, S n)

include hpath

theorem ends_join {hint : Identifier} (hh : S hint) {known : Option Node} {n : Node}
    (hk : ∀ m ∈ known, N hint m) (hn : N hint n) :
    (join c path hint known n).Ends (N hint) E := by
  cases known with
  | none => exact .pure hn
  | some m =>
    exact (inv.unify _ _ _ (hk m rfl) hn).mapFault fun _ hf => inv.withinPath hpath (inv.within _ _ hh hf)

theorem keeps_declare {ms : Members} (hms : ms.Keep S N) (hint : Identifier) {g : Gathered}
    (hg : g.registry.Keep S N) :
    Keeps S N E hint (declare c path ⟨c.objectName hint.text, ms, false⟩ g) := by
  unfold declare
  have hreg : (g.registry.register c.policy ⟨c.objectName hint.text, ms, false⟩).Ends
      (Registry.Keep S N) fun e => E e.fault :=
    inv.ends_register hg (inv.sanitize _) hms
  refine Ends.bind (.mapFault hreg fun _ h => inv.withinPath hpath h) fun r hr => .pure ⟨?_, hr⟩
  exact inv.object _ _ hms

theorem keeps_foldItems {hint : Identifier} (hh : S hint) {items : List Sample}
    (h : ∀ s ∈ items, ∀ g : Gathered, g.registry.Keep S N →
      Keeps S N E hint (infer c path hint s g))
    {known : Option Node} (hk : ∀ m ∈ known, N hint m) {g : Gathered}
    (hg : g.registry.Keep S N) : Keeps S N E hint (foldItems c path hint items known g) := by
  induction items generalizing known g with
  | nil =>
    refine .pure ⟨?_, hg⟩
    cases known with
    | none => exact inv.null hint
    | some m => exact hk m rfl
  | cons s items ih =>
    obtain ⟨hs, hitems⟩ := List.forall_mem_cons.1 h
    unfold foldItems
    refine (hs g hg).bind ?_
    rintro ⟨n, g⟩ ⟨hn, hg⟩
    refine (inv.ends_join hpath hh hk hn).bind fun k hk => ?_
    refine ih hitems ?_ hg
    rintro _ ⟨⟩
    exact hk

theorem ends_inferMembers {members : List (Identifier × Sample)}
    (h : ∀ m ∈ members, S m.1 ∧ ∀ g : Gathered, g.registry.Keep S N →
      Keeps S N E m.1 (infer c path m.1 m.2 g))
    {known : Members} (hk : known.Keep S N) {g : Gathered} (hg : g.registry.Keep S N) :
    (inferMembers c path members known g).Ends
      (fun r => r.1.Keep S N ∧ r.2.registry.Keep S N) E := by
  induction members generalizing known g with
  | nil => exact .pure ⟨hk, hg⟩
  | cons m members ih =>
    obtain ⟨name, s⟩ := m
    obtain ⟨⟨hname, hs⟩, hmembers⟩ := List.forall_mem_cons.1 h
    unfold inferMembers
    refine (hs g hg).bind ?_
    rintro ⟨n, g⟩ ⟨hn, hg⟩
    refine (inv.ends_join hpath hname (fun m hm => hk.get? hm) hn).bind fun k hj => ?_
    exact ih hmembers (hk.put hname hj) hg

theorem keeps_inferObject {members : List (Identifier × Sample)}
    (h : ∀ m ∈ members, S m.1 ∧ ∀ path, (∀ n ∈ path, S n) → ∀ hint, S hint → ∀ g : Gathered,
      g.registry.Keep S N → Keeps S N E hint (infer c path hint m.2 g))
    {hint : Identifier} (hh : S hint) {g : Gathered} (hg : g.registry.Keep S N) :
    Keeps S N E hint (inferObject c path hint members g) := by
  have hinner : ∀ n ∈ path ++ [hint], S n :=
    List.forall_mem_append.2 ⟨hpath, List.forall_mem_singleton.2 hh⟩
  unfold inferObject container
  by_cases hm : c.isMapPath (path ++ [hint]) = true
  · have hc : c.mapPaths ≠ [] := List.ne_nil_of_mem (of_decide_eq_true hm)
    have hvalue : S (c.valueHint hint) := inv.sanitize _
    simp only [hm, if_true]
    rw [foldEntries_eq]
    have hfold : Keeps S N E (c.valueHint hint) (foldItems c (path ++ [hint]) (c.valueHint hint)
        (members.map (·.2)) none (g.meet .map)) :=
      inv.keeps_foldItems hinner hvalue
        (List.forall_mem_map.2 fun m hm g hg => (h m hm).2 _ hinner _ hvalue g hg) (by simp) hg
    refine hfold.bind ?_
    rintro ⟨v, g⟩ ⟨hv, hg⟩
    exact .pure ⟨inv.map _ _ hh hc hv, hg⟩
  · simp only [hm]
    have hmembers := inv.ends_inferMembers hinner
      (fun m hm => ⟨(h m hm).1, fun g hg => (h m hm).2 _ hinner m.1 (h m hm).1 g hg⟩)
      Members.Keep.nil hg
    refine hmembers.bind ?_
    rintro ⟨ms, g⟩ ⟨hms, hg⟩
    exact inv.keeps_declare hinner hms hint hg

end Slots

/-- Inferring a slot from a value keeps the invariant. -/
theorem keeps_infer (v : Document.Value) {path : Path} (hpath : ∀ n ∈ path, S n)
    {hint : Identifier} (hh : S hint) {g : Gathered} (hg : g.registry.Keep S N) :
    Slot.Keeps S N E hint (Slot.infer c path hint (Sample.ofValue c.dialect v) g) := by
  induction v using Document.Value.induction generalizing path hint g with
  | null => exact .emit_bind (.pure ⟨inv.null hint, hg⟩)
  | boolean | integer | real | string => exact .emit_bind (.pure ⟨inv.scalar hint _, hg⟩)
  | array items ih =>
    have helement : S (c.elementHint hint) := inv.sanitize _
    rw [Sample.ofValue, Sample.ofItems_eq]
    have hfold : Slot.Keeps S N E (c.elementHint hint) (Slot.foldItems c path (c.elementHint hint)
        (items.map (Sample.ofValue c.dialect)) none (g.meet .array)) :=
      inv.keeps_foldItems hpath helement
        (List.forall_mem_map.2 fun v hv g hg => ih v hv hpath helement hg) (by simp) hg
    refine .emit_bind (hfold.bind ?_)
    rintro ⟨e, g⟩ ⟨he, hg⟩
    exact .pure ⟨inv.array _ _ he, hg⟩
  | object members ih =>
    rw [Sample.ofValue, Sample.ofMembers_eq, Slot.infer_object]
    refine .emit_bind (inv.keeps_inferObject hpath (List.forall_mem_map.2 fun m hm => ?_) hh hg)
    exact ⟨inv.sanitize _, fun path hpath hint hh g hg => ih m hm hpath hh hg⟩

/-! ## Runs -/

open Run

variable (hroot : S c.rootName)

include hroot

theorem keeps_inferRoot (v : Document.Value) {g : Gathered} (hg : g.registry.Keep S N) :
    Slot.Keeps S N E c.rootName (inferRoot c (Sample.ofValue c.dialect v) g) := by
  have hnil : ∀ n ∈ ([] : Path), S n := List.forall_mem_nil S
  have hwrapped : Slot.Keeps S N E c.rootName (Slot.inferObject c [] c.rootName
      [(c.rootName, Sample.ofValue c.dialect v)] g) := by
    refine inv.keeps_inferObject hnil (List.forall_mem_singleton.2 ⟨hroot, ?_⟩) hroot hg
    exact fun path hpath hint hh g hg => inv.keeps_infer v hpath hh hg
  cases v with
  | object members => exact inv.keeps_infer (.object members) hnil hroot hg
  | _ => exact hwrapped

/-- A document keeps the invariant of a run, or the run ends in a fault that does. -/
theorem ends_observe {r : Run} (h : Run.Keeps c S N r) (v : Document.Value) :
    (r.observe v).Ends (Run.Keeps c S N) E := by
  obtain ⟨rfl, hknown, hg⟩ := h
  unfold Run.observe
  refine (inv.keeps_inferRoot hroot v hg).bind ?_
  rintro ⟨n, g⟩ ⟨hn, hg⟩
  refine (inv.ends_join (List.forall_mem_nil S) hroot hknown hn).bind fun root hr => ?_
  refine .pure ⟨rfl, ?_, hg⟩
  rintro _ ⟨⟩
  exact hr

/-- Whether handed over as a text or not, unless the text is none of a document. -/
theorem ends_observeText {r : Run} (h : Run.Keeps c S N r) (text : String) :
    (r.observeText text).Ends (Run.Keeps c S N) fun e =>
      (∃ f, e = .malformed f ∧ Document.parse text = .error f) ∨ ∃ f, e = .unfit f ∧ E f := by
  unfold observeText
  rcases hv : Document.parse text with f | v
  · exact .error (.inl ⟨f, rfl, rfl⟩)
  · exact Ends.bind (P := fun _ => True) (.ok trivial) fun v _ =>
      (inv.ends_observe hroot h v).mapFault fun f hf => .inr ⟨f, rfl, hf⟩

theorem keeps_reached {r : Run} (h : Reached c r) : Run.Keeps c S N r := by
  induction h with
  | start => exact ⟨rfl, fun _ h => (nomatch h), fun _ h => (nomatch h)⟩
  | observe _ ho ih => exact (inv.ends_observe hroot ih _).of_ok ho
  | observeText _ ho ih => exact (inv.ends_observeText hroot ih _).of_ok ho

end Invariant

end SchemaInference
