/-
The calls that inferring a slot leads to. `Slot.Calls` has one rule for each call that a function of
the builder makes, with what it was handed until then. Faults are passed on unchanged, so whatever
fault a call ends in was raised where two nodes of a slot were joined or an object was declared
(`Slot.exists_raised`). All along the calls the registry is closed and covers what is known of the
slots (`Slot.Calls.sound`).
-/
import Mathlib.Logic.Relation
import SchemaInference.Proofs.Run.Closed

namespace SchemaInference

open Schema Traced

namespace Slot

/-! ## Calls -/

/-- A call, with what it is handed. -/
inductive Call where
  | infer (path : Path) (hint : Identifier) (s : Sample) (g : Gathered)
  | foldItems (path : Path) (hint : Identifier) (items : List Sample) (known : Option Node)
      (g : Gathered)
  | inferMembers (path : Path) (members : List (Identifier × Sample)) (known : Members)
      (g : Gathered)
  | join (path : Path) (hint : Identifier) (known : Option Node) (n : Node)
  | declare (path : Path) (o : Object) (g : Gathered)

/-- The fault that the call ends in. -/
def Call.fault? (c : Settings) : Call → Option Fault
  | infer path hint s g => (Slot.infer c path hint s g).fault?
  | foldItems path hint items known g => (Slot.foldItems c path hint items known g).fault?
  | inferMembers path members known g => (Slot.inferMembers c path members known g).fault?
  | join path hint known n => (Slot.join c path hint known n).fault?
  | declare path o g => (Slot.declare c path o g).fault?

/-- The first call makes the second. The values of a map are items in the slot of its values. -/
inductive Calls (c : Settings) : Call → Call → Prop
  | array (path : Path) (hint : Identifier) (items : List Sample) (g : Gathered) :
      Calls c (.infer path hint (.array items) g)
        (.foldItems path (c.elementHint hint) items none (g.meet .array))
  | map {path : Path} {hint : Identifier} (members : List (Identifier × Sample)) (g : Gathered)
      (hp : c.isMapPath (path ++ [hint]) = true) :
      Calls c (.infer path hint (.object members) g)
        (.foldItems (path ++ [hint]) (c.valueHint hint) (members.map (·.2)) none (g.meet .map))
  | members {path : Path} {hint : Identifier} (members : List (Identifier × Sample)) (g : Gathered)
      (hp : c.isMapPath (path ++ [hint]) = false) :
      Calls c (.infer path hint (.object members) g)
        (.inferMembers (path ++ [hint]) members [] g)
  | declare {path : Path} {hint : Identifier} {members : List (Identifier × Sample)}
      {g g' : Gathered} {ms : Members} (hp : c.isMapPath (path ++ [hint]) = false)
      (h : (inferMembers c (path ++ [hint]) members [] g).value? = some (ms, g')) :
      Calls c (.infer path hint (.object members) g)
        (.declare (path ++ [hint]) ⟨c.objectName hint.text, ms, false⟩ g')
  | item (path : Path) (hint : Identifier) (s : Sample) (items : List Sample) (known : Option Node)
      (g : Gathered) : Calls c (.foldItems path hint (s :: items) known g) (.infer path hint s g)
  | joinItem {path : Path} {hint : Identifier} {s : Sample} {g g' : Gathered} {n : Node}
      (items : List Sample) (known : Option Node)
      (h : (infer c path hint s g).value? = some (n, g')) :
      Calls c (.foldItems path hint (s :: items) known g) (.join path hint known n)
  | items {path : Path} {hint : Identifier} {s : Sample} {g g' : Gathered} {n k : Node}
      {known : Option Node} (items : List Sample)
      (h : (infer c path hint s g).value? = some (n, g'))
      (hj : (join c path hint known n).value? = some k) :
      Calls c (.foldItems path hint (s :: items) known g) (.foldItems path hint items (some k) g')
  | member (path : Path) (name : Identifier) (s : Sample) (members : List (Identifier × Sample))
      (known : Members) (g : Gathered) :
      Calls c (.inferMembers path ((name, s) :: members) known g) (.infer path name s g)
  | joinMember {path : Path} {name : Identifier} {s : Sample} {g g' : Gathered} {n : Node}
      (members : List (Identifier × Sample)) (known : Members)
      (h : (infer c path name s g).value? = some (n, g')) :
      Calls c (.inferMembers path ((name, s) :: members) known g)
        (.join path name (known.get? name) n)
  | moreMembers {path : Path} {name : Identifier} {s : Sample} {g g' : Gathered} {n k : Node}
      {known : Members} (members : List (Identifier × Sample))
      (h : (infer c path name s g).value? = some (n, g'))
      (hj : (join c path name (known.get? name) n).value? = some k) :
      Calls c (.inferMembers path ((name, s) :: members) known g)
        (.inferMembers path members (known.put name k) g')

/-- The first call leads to the second. -/
abbrev Leads (c : Settings) : Call → Call → Prop := Relation.ReflTransGen (Calls c)

/-- The call raises the fault: where it is raised, two nodes are joined or an object is declared. -/
inductive Raises (c : Settings) (f : Fault) : Call → Prop
  | join {path : Path} {hint : Identifier} {known : Option Node} {n : Node}
      (h : (join c path hint known n).fault? = some f) : Raises c f (.join path hint known n)
  | declare {path : Path} {o : Object} {g : Gathered} (h : (declare c path o g).fault? = some f) :
      Raises c f (.declare path o g)

variable {c : Settings} {f : Fault}

/-- A fault is raised by the call itself, or it is that of a call which the call makes. -/
theorem Call.fault?_cases {a : Call} (h : a.fault? c = some f) :
    Raises c f a ∨ ∃ b, Calls c a b ∧ b.fault? c = some f := by
  cases a with
  | join => exact .inl (.join h)
  | declare => exact .inl (.declare h)
  | infer path hint s g =>
    refine .inr ?_
    cases s with
    | null => cases h
    | scalar => cases h
    | array items =>
      rcases fault?_bind.1 h with h | ⟨⟨⟩, -, h⟩
      · cases h
      rcases fault?_bind.1 h with h | ⟨⟨e, g'⟩, -, h⟩
      · exact ⟨_, .array path hint items g, h⟩
      · cases h
    | object members =>
      rw [Call.fault?, infer_object] at h
      rcases fault?_bind.1 h with h | ⟨⟨⟩, -, h⟩
      · cases h
      unfold inferObject container at h
      by_cases hp : c.isMapPath (path ++ [hint]) = true
      · simp only [hp, if_true] at h
        rcases fault?_bind.1 h with h | ⟨⟨v, g'⟩, -, h⟩
        · rw [foldEntries_eq] at h
          exact ⟨_, .map members g hp, h⟩
        · cases h
      · rw [Bool.not_eq_true] at hp
        simp only [hp, Bool.false_eq_true, if_false] at h
        rcases fault?_bind.1 h with h | ⟨⟨ms, g'⟩, hms, h⟩
        · exact ⟨_, .members members g hp, h⟩
        · exact ⟨_, .declare hp hms, h⟩
  | foldItems path hint items known g =>
    refine .inr ?_
    cases items with
    | nil => cases h
    | cons s items =>
      rw [Call.fault?, Slot.foldItems] at h
      rcases fault?_bind.1 h with h | ⟨⟨n, g'⟩, hn, h⟩
      · exact ⟨_, .item path hint s items known g, h⟩
      rcases fault?_bind.1 h with h | ⟨k, hk, h⟩
      · exact ⟨_, .joinItem items known hn, h⟩
      · exact ⟨_, .items items hn hk, h⟩
  | inferMembers path members known g =>
    refine .inr ?_
    cases members with
    | nil => cases h
    | cons m members =>
      obtain ⟨name, s⟩ := m
      rw [Call.fault?, Slot.inferMembers] at h
      rcases fault?_bind.1 h with h | ⟨⟨n, g'⟩, hn, h⟩
      · exact ⟨_, .member path name s members known g, h⟩
      rcases fault?_bind.1 h with h | ⟨k, hk, h⟩
      · exact ⟨_, .joinMember members known hn, h⟩
      · exact ⟨_, .moreMembers members hn hk, h⟩

/-- The fault is raised by the call or by one that it leads to. -/
def Raised (c : Settings) (f : Fault) (a : Call) : Prop := ∃ b, Leads c a b ∧ Raises c f b

/-- A call raises its fault itself, or one that it makes does so or passes it on. -/
theorem Call.raised {a : Call} (hf : a.fault? c = some f)
    (h : ∀ b, Calls c a b → b.fault? c = some f → Raised c f b) : Raised c f a := by
  rcases fault?_cases hf with hr | ⟨b, hb, hf⟩
  · exact ⟨a, .refl, hr⟩
  · obtain ⟨d, hd, hr⟩ := h b hb hf
    exact ⟨d, .head hb hd, hr⟩

theorem raised_foldItems {path : Path} {hint : Identifier} {items : List Sample}
    (h : ∀ s ∈ items, ∀ {g}, (Call.infer path hint s g).fault? c = some f →
      Raised c f (.infer path hint s g))
    {known : Option Node} {g : Gathered}
    (hf : (Call.foldItems path hint items known g).fault? c = some f) :
    Raised c f (.foldItems path hint items known g) := by
  induction items generalizing known g with
  | nil => cases hf
  | cons s items ih =>
    obtain ⟨hs, hitems⟩ := List.forall_mem_cons.1 h
    refine Call.raised hf fun b hb hf => ?_
    cases hb with
    | item => exact hs hf
    | joinItem => exact ⟨_, .refl, .join hf⟩
    | items => exact ih hitems hf

theorem raised_inferMembers {path : Path} {members : List (Identifier × Sample)}
    (h : ∀ m ∈ members, ∀ {g}, (Call.infer path m.1 m.2 g).fault? c = some f →
      Raised c f (.infer path m.1 m.2 g))
    {known : Members} {g : Gathered}
    (hf : (Call.inferMembers path members known g).fault? c = some f) :
    Raised c f (.inferMembers path members known g) := by
  induction members generalizing known g with
  | nil => cases hf
  | cons m members ih =>
    obtain ⟨hm, hmembers⟩ := List.forall_mem_cons.1 h
    refine Call.raised hf fun b hb hf => ?_
    cases hb with
    | member => exact hm hf
    | joinMember => exact ⟨_, .refl, .join hf⟩
    | moreMembers => exact ih hmembers hf

/-- The fault that inferring a slot ends in is raised by a call that it leads to. -/
theorem exists_raised {path : Path} {hint : Identifier} {s : Sample} {g : Gathered}
    (hf : (Call.infer path hint s g).fault? c = some f) : Raised c f (.infer path hint s g) := by
  induction s using Sample.induction generalizing path hint g with
  | null => cases hf
  | scalar => cases hf
  | array items ih =>
    refine Call.raised hf fun b hb hf => ?_
    cases hb with
    | array => exact raised_foldItems (fun s hs _ h => ih s hs h) hf
  | object members ih =>
    refine Call.raised hf fun b hb hf => ?_
    cases hb with
    | map => exact raised_foldItems (List.forall_mem_map.2 fun m hm _ h => ih m hm h) hf
    | members => exact raised_inferMembers (fun m hm _ h => ih m hm h) hf
    | declare => exact ⟨_, .refl, .declare hf⟩

/-! ## What is known along the calls -/

/-- The registry is closed, and what was known of the slots before is well formed and covered. -/
def Call.Sound (p : Policy) : Call → Prop
  | infer _ _ _ g => g.registry.Closed p
  | foldItems _ _ _ known g => g.registry.Closed p ∧ Known (Node.Covered p g.registry) known
  | inferMembers _ _ known g =>
    g.registry.Closed p ∧ known.Keep (fun _ => True) fun _ a => a.WF ∧ a.Covered p g.registry
  | join _ _ known n => ∃ r, Known (Node.Covered p r) known ∧ n.WF ∧ n.Covered p r
  | declare _ o g =>
    g.registry.Closed p ∧ o.members.Keep (fun _ => True) fun _ a => a.WF ∧ a.Covered p g.registry

theorem covered_join {path : Path} {hint : Identifier} {r : Registry} {known : Option Node}
    {n k : Node} (hk : Known (Node.Covered c.policy r) known) (hn : n.WF ∧ n.Covered c.policy r)
    (h : (join c path hint known n).value? = some k) : k.WF ∧ k.Covered c.policy r := by
  rw [value?_join] at h
  cases known with
  | none =>
    cases h
    exact hn
  | some m =>
    obtain ⟨hm, hcov⟩ := hk m rfl
    have hj := (joinKnown?_of_some hm hn.1).1 h
    exact ⟨hj.wf hm hn.1, hcov.joins hn.2 hj⟩

/-- What is known before a slot is inferred is covered afterwards. -/
theorem known_infer {path : Path} {hint : Identifier} {s : Sample} {g g' : Gathered} {n : Node}
    (hg : g.registry.Closed c.policy) (h : (infer c path hint s g).value? = some (n, g')) {a : Node}
    (ha : a.WF ∧ a.Covered c.policy g.registry) : a.WF ∧ a.Covered c.policy g'.registry :=
  ⟨ha.1, ha.2.mono (closed_infer hg h).1.2⟩

/-- All calls that a sound call makes are sound. -/
theorem Calls.sound {a b : Call} (h : Calls c a b) (ha : a.Sound c.policy) : b.Sound c.policy := by
  cases h with
  | array => exact ⟨ha, known_none _⟩
  | map => exact ⟨ha, known_none _⟩
  | members => exact ⟨ha, Members.Keep.nil⟩
  | declare _ h =>
    obtain ⟨hg, hms⟩ := closed_inferMembers ha h
    exact ⟨hg, fun m hm => ⟨trivial, (hms m hm).2⟩⟩
  | item => exact ha.1
  | joinItem _ _ h =>
    exact ⟨_, fun m hm => known_infer ha.1 h (ha.2 m hm), (closed_infer ha.1 h).2⟩
  | items _ h hj =>
    obtain ⟨⟨hg, -⟩, hn⟩ := closed_infer ha.1 h
    refine ⟨hg, ?_⟩
    rintro _ ⟨⟩
    exact covered_join (fun m hm => known_infer ha.1 h (ha.2 m hm)) hn hj
  | member => exact ha.1
  | joinMember _ _ h =>
    exact ⟨_, fun m hm => known_infer ha.1 h (ha.2.get? hm), (closed_infer ha.1 h).2⟩
  | moreMembers _ h hj =>
    obtain ⟨⟨hg, -⟩, hn⟩ := closed_infer ha.1 h
    have hk := covered_join (fun m hm => known_infer ha.1 h (ha.2.get? hm)) hn hj
    refine ⟨hg, Members.Keep.put (fun m hm => ⟨trivial, ?_⟩) trivial hk⟩
    exact known_infer ha.1 h (ha.2 m hm).2

end Slot

end SchemaInference
