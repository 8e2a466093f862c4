/-
Members and requiredness, exactly. What an entry of the registry says of a member is what the objects
of its name in the documents have there: the name is known where one of them has it, it is required
where all of them have it and never as null, and the node is null where none has a value. Each holds of
what is declared for one object (`Slot.Declares`) and passes to the entry, since joins lose none of it
(`Observed.entry_members`).
-/
import SchemaInference.Proofs.Run.Objects
import SchemaInference.Proofs.Schema.Presence

namespace SchemaInference

open Schema Document

namespace Slot

variable {c : Settings} {path : Path} {hint : Identifier}

/-! ## One object -/

/-- Alone, null shows null, and nothing else shows an optional node. -/
theorem shown?_isOptional_iff {v : Value} {n : Node} {w : Findings}
    (h : shown? c path hint (.ofValue c.dialect v) = some (n, w)) :
    (n.isOptional = true ↔ v = .null) ∧ (n ≠ .null ↔ v ≠ .null) := by
  cases v with
  | array items =>
    obtain ⟨ns, w₁, e, w₂, -, -, rfl, -⟩ := shown?_array.1 h
    simp [Node.isOptional]
  | object members =>
    by_cases hp : c.isMapPath (path ++ [hint]) = true
    · obtain ⟨ms, w₁, v, w₂, -, -, rfl, -⟩ := (shown?_map hp).1 h
      simp [Node.isOptional]
    · rw [Bool.not_eq_true] at hp
      obtain ⟨named, w₁, ms, -, -, rfl, -⟩ := (shown?_object hp).1 h
      simp [Node.isOptional]
  | _ =>
    cases h
    simp [Node.isOptional]

/-- The nodes shown under a name are those of the members of that name. -/
theorem exists_shownMember_iff {ms : List (String × Value)} {named : Members} {w : Findings}
    (h : collect? (shownMember? c path id) (Sample.ofMembers c.dialect ms) = some (named, w))
    {F : Node → Prop} {G : Value → Prop}
    (hFG : ∀ {hint v n w}, shown? c path hint (.ofValue c.dialect v) = some (n, w) → (F n ↔ G v))
    (name : Identifier) :
    (∃ m ∈ named, m.1 = name ∧ F m.2) ↔ ∃ m ∈ ms, c.sanitize m.1 = name ∧ G m.2 := by
  constructor
  · rintro ⟨k, hk, rfl, hF⟩
    obtain ⟨s, hs, w', hshown, -⟩ := collect?_right h hk
    obtain ⟨m, hm, rfl⟩ := mem_ofMembers.1 hs
    obtain ⟨hname, hshown⟩ := shownMember?_eq_some.1 hshown
    exact ⟨m, hm, hname, (hFG hshown).1 hF⟩
  · rintro ⟨m, hm, rfl, hG⟩
    obtain ⟨k, hk, w', hshown, -⟩ := collect?_left h (mem_ofMembers.2 ⟨m, hm, rfl⟩)
    obtain ⟨hname, hshown⟩ := shownMember?_eq_some.1 hshown
    exact ⟨k, hk, hname.symm, (hFG hshown).2 hG⟩

namespace Declares

variable {p : Path} {h : Identifier} {ms : List (String × Value)} {o : Object} {name : Identifier}

theorem mem_names_iff (hd : Declares c p h ms o) :
    name ∈ o.members.names ↔ ∃ m ∈ ms, c.sanitize m.1 = name := by
  obtain ⟨-, named, w, hi, hg⟩ := hd
  have hnamed := exists_shownMember_iff (F := fun _ => True) (G := fun _ => True) hi
    (fun _ => Iff.rfl) name
  simp only [and_true] at hnamed
  rw [← hnamed, Members.mem_names_gather? hg]
  simp [Members.names]

/-- A fact about the node of a member that joins cannot lose, told by the values that stand there. -/
theorem exists_iff (hd : Declares c p h ms o) {F : Node → Prop} {G : Value → Prop}
    (hF : ∀ a b k, Joins c.policy a b k → (F k ↔ F a ∨ F b))
    (hFG : ∀ {path hint v n w}, shown? c path hint (.ofValue c.dialect v) = some (n, w) →
      (F n ↔ G v)) {a : Node} (ha : o.members.get? name = some a) :
    F a ↔ ∃ m ∈ ms, c.sanitize m.1 = name ∧ G m.2 := by
  obtain ⟨-, named, w, hi, hg⟩ := hd
  rw [Members.gather?_exists_iff hF (shownMembers_wf hi) hg ha, exists_shownMember_iff hi hFG]

/-- The object may lack the member where it has none of the name, or has one that is null. -/
theorem mayLack_iff (hd : Declares c p h ms o) : o.members.MayLack name ↔
    ¬ ((∃ m ∈ ms, c.sanitize m.1 = name) ∧ ∀ m ∈ ms, c.sanitize m.1 = name → m.2 ≠ .null) := by
  have hnull : ∀ {a}, o.members.get? name = some a →
      (a.isOptional = true ↔ ∃ m ∈ ms, c.sanitize m.1 = name ∧ m.2 = .null) := fun ha =>
    hd.exists_iff (fun _ _ _ hj => hj.isOptional_iff) (fun hs => (shown?_isOptional_iff hs).1) ha
  rw [← hd.mem_names_iff, Members.mem_names_iff]
  unfold Members.MayLack
  rcases ha : o.members.get? name with _ | a
  · simp
  · simp [hnull ha]

theorem get?_ne_null_iff (hd : Declares c p h ms o) :
    (∃ a, o.members.get? name = some a ∧ a ≠ .null) ↔
      ∃ m ∈ ms, c.sanitize m.1 = name ∧ m.2 ≠ .null := by
  have hvalue : ∀ {a}, o.members.get? name = some a →
      (a ≠ .null ↔ ∃ m ∈ ms, c.sanitize m.1 = name ∧ m.2 ≠ .null) := fun ha =>
    hd.exists_iff (fun _ _ _ hj => hj.ne_null_iff) (fun hs => (shown?_isOptional_iff hs).2) ha
  constructor
  · rintro ⟨a, ha, hne⟩
    exact (hvalue ha).1 hne
  · rintro ⟨m, hm, rfl, hne⟩
    obtain ⟨a, ha⟩ := Members.mem_names_iff.1 (hd.mem_names_iff.2 ⟨m, hm, rfl⟩)
    exact ⟨a, ha, (hvalue ha).2 ⟨m, hm, rfl, hne⟩⟩

end Declares

end Slot

/-! ## The entry -/

namespace Run

variable {c : Settings} {vs : List Value} {r : Run} {ns : List Node} {w : Findings}

/-- A fact about members that merging cannot lose holds of an entry just where it holds of an object
declared under its name. -/
theorem Outcome.entry_iff (h : Outcome c vs r ns w) {F : Members → Prop}
    (hF : ∀ ms ns ks, Merged (Joins c.policy) ms ns ks → (F ks ↔ F ms ∨ F ns)) {n : Identifier}
    {e : Object} (he : r.gathered.registry.find? n = some e) :
    F e.members ↔ ∃ o ∈ w.objects, o.name = n ∧ F o.members := by
  have hfold := Members.gather?_get? h.registry n
  rw [Registry.get?_slots, he] at hfold
  have hunder : ∀ a, a ∈ Members.under (w.objects.map Object.entry) n ↔
      ∃ o ∈ w.objects, o.name = n ∧ .object o.name o.members false = a := fun a => by
    rw [Members.mem_under, List.mem_map]
    simp [Object.entry]
  rw [joinAll?_members_iff hF _ hfold]
  · constructor
    · rintro ⟨a, ha, hFa⟩
      obtain ⟨o, ho, hname, rfl⟩ := (hunder a).1 ha
      exact ⟨o, ho, hname, Node.objectWith_object.1 hFa⟩
    · rintro ⟨o, ho, hname, hFo⟩
      exact ⟨_, (hunder _).2 ⟨o, ho, hname, rfl⟩, Node.objectWith_object.2 hFo⟩
  · intro a ha
    obtain ⟨o, ho, -, rfl⟩ := (hunder a).1 ha
    exact ⟨(h.objects_wf o ho).1.setOptional false, Node.objectWith_object.2 trivial⟩

/-- Of the settings built in any way, and under either policy: the members of an entry are the names
that the objects of its name have. One is required where all these objects have it and none of them
has it as null; its node is null where all of them that have it have it as null. -/
theorem Observed.entry_members (hc : c.Built) (h : Observed c vs r) {n : Identifier} {e : Object}
    (he : r.finish.registry.find? n = some e) (name : Identifier) :
    (name ∈ e.members.names ↔
      ∃ ms, ObjectNamed c vs n ms ∧ ∃ m ∈ ms, c.sanitize m.1 = name) ∧
    (name ∈ e.members.required ↔ ∀ ms, ObjectNamed c vs n ms →
      (∃ m ∈ ms, c.sanitize m.1 = name) ∧ ∀ m ∈ ms, c.sanitize m.1 = name → m.2 ≠ .null) ∧
    ∀ a, e.members.get? name = some a → (a = .null ↔ ∀ ms, ObjectNamed c vs n ms →
      ∀ m ∈ ms, c.sanitize m.1 = name → m.2 = .null) := by
  obtain ⟨ns, w, h⟩ := h.exists_outcome
  -- from the entry to the objects declared, and from these to the objects in the documents
  have hentry : ∀ {F : Members → Prop} {G : List (String × Value) → Prop},
      (∀ ms ns ks, Merged (Joins c.policy) ms ns ks → (F ks ↔ F ms ∨ F ns)) →
      (∀ p h ms o, Slot.Declares c p h ms o → (F o.members ↔ G ms)) →
      (F e.members ↔ ∃ ms, ObjectNamed c vs n ms ∧ G ms) := fun hF hFG => by
    rw [h.entry_iff hF he, h.exists_declared_iff hc.sanitize_rootName hFG]
  have hu : Members.Unique e.members :=
    (h.registry_wf.nodes e (Registry.mem_of_find? he)).unique
  refine ⟨?_, ?_, fun a ha => ?_⟩
  · exact hentry (fun _ _ _ hm => Joins.mem_names hm.names) fun _ _ _ _ hd => hd.mem_names_iff
  · rw [Members.mem_required_iff hu,
      hentry (fun _ _ _ hm => hm.mayLack name) fun _ _ _ _ hd => hd.mayLack_iff]
    simp only [not_exists, not_and_not_right]
  · have hvalue := hentry (fun _ _ _ hm => hm.get?_ne_null name) fun _ _ _ _ hd =>
      hd.get?_ne_null_iff
    simp only [ha, Option.some.injEq, exists_eq_left'] at hvalue
    rw [← not_iff_not, ← ne_eq, hvalue]
    simp

/-- Three objects share a name, two of them in one document. All have `a`, as an integer, a string and
a boolean, and `b` is null or missing. -/
theorem Observed.entry_members_after_clash :
    let vs : List Value := [.object [("a", .integer "1"), ("b", .null)],
      .object [("a", .string "s"), ("root_object", .object [("b", .null), ("a", .boolean true)])]]
    ∃ r e, Observed .default vs r ∧ r.finish.registry.find? ⟨"root_object_t"⟩ = some e ∧
      e.members.required = [⟨"a"⟩] ∧ e.members.get? ⟨"b"⟩ = some .null ∧
      ∀ ms, ObjectNamed .default vs ⟨"root_object_t"⟩ ms →
        (∃ m ∈ ms, Settings.default.sanitize m.1 = ⟨"a"⟩) ∧
        ∀ m ∈ ms, Settings.default.sanitize m.1 = ⟨"b"⟩ → m.2 = .null := by
  intro vs
  let first : Value := .object [("a", .integer "1"), ("b", .null)]
  let second : Value := .object [("a", .string "s"),
    ("root_object", .object [("b", .null), ("a", .boolean true)])]
  let run := ((Run.start .default).observe first).value?
  have hrun : run.isSome = true := by decide +kernel
  obtain ⟨r₁, h₁⟩ := Option.isSome_iff_exists.1 hrun
  have hentry : ((run.bind fun r => (r.observe second).value?).bind fun r =>
      r.finish.registry.find? ⟨"root_object_t"⟩).map
        (fun e => (e.members.required, e.members.get? ⟨"b"⟩)) =
      some ([⟨"a"⟩], some .null) := by decide +kernel
  rw [h₁, Option.bind_some] at hentry
  obtain ⟨e, he, hmembers⟩ := Option.map_eq_some_iff.1 hentry
  obtain ⟨r, hr, he⟩ := Option.bind_eq_some_iff.1 he
  obtain ⟨hrequired, hnull⟩ := Prod.mk.injEq .. ▸ hmembers
  have h : Observed .default vs r :=
    (Observed.start.observe (Traced.value?_eq_some.1 h₁)).observe (Traced.value?_eq_some.1 hr)
  refine ⟨r, e, h, he, hrequired, hnull, fun ms hms => ⟨?_, ?_⟩⟩
  · have ha : (⟨"a"⟩ : Identifier) ∈ e.members.required := hrequired ▸ List.mem_singleton.2 rfl
    exact (((h.entry_members .default he ⟨"a"⟩).2.1.1 ha) ms hms).1
  · exact ((h.entry_members .default he ⟨"b"⟩).2.2 .null hnull).1 rfl ms hms

end Run

end SchemaInference
