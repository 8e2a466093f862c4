/-
The objects that documents hold. `Value.Holds` finds the objects in a value, each with the slot that
it stands in, and `Slot.Declares` says what is declared for one of them. What a value declares is just
what is declared for the objects it holds, apart from maps (`declared_of_holds`, `holds_of_declared`).
-/
import SchemaInference.Proofs.Run.Conformance

namespace SchemaInference

open Schema Document

/-- In a value in some slot, an object with the members `ms` stands in the slot `h` below `p`. The
object may be a map; the slots in it are those of its values then. -/
inductive Document.Value.Holds (c : Settings) (p : Path) (h : Identifier)
    (ms : List (String × Value)) : Path → Identifier → Value → Prop
  | here : Holds c p h ms p h (.object ms)
  | item {path : Path} {hint : Identifier} {items : List Value} {v : Value} (hv : v ∈ items)
      (hin : Holds c p h ms path (c.elementHint hint) v) : Holds c p h ms path hint (.array items)
  | value {path : Path} {hint : Identifier} {members : List (String × Value)} {m : String × Value}
      (hm : m ∈ members) (hp : c.isMapPath (path ++ [hint]) = true)
      (hin : Holds c p h ms (path ++ [hint]) (c.valueHint hint) m.2) :
      Holds c p h ms path hint (.object members)
  | member {path : Path} {hint : Identifier} {members : List (String × Value)} {m : String × Value}
      (hm : m ∈ members) (hp : c.isMapPath (path ++ [hint]) = false)
      (hin : Holds c p h ms (path ++ [hint]) (c.sanitize m.1) m.2) :
      Holds c p h ms path hint (.object members)

/-- The path that the document stands below: one that is no object is in an object named after the
root, which stands for it. -/
def Document.Value.above (c : Settings) : Value → Path
  | .object _ => []
  | _ => [c.rootName]

theorem Document.Value.above_of_ne {c : Settings} {v : Value} (hv : ∀ ms, v ≠ .object ms) :
    v.above c = [c.rootName] := by
  cases v with
  | object ms => exact absurd rfl (hv ms)
  | _ => rfl

namespace Slot

/-- For an object with the members `ms` in the slot `h` below `p`, the object `o` is declared. -/
def Declares (c : Settings) (p : Path) (h : Identifier) (ms : List (String × Value))
    (o : Object) : Prop :=
  o.name = c.objectName h.text ∧
    ∃ named w, collect? (shownMember? c (p ++ [h]) id) (Sample.ofMembers c.dialect ms) =
      some (named, w) ∧ Members.gather? c.policy [] named = some o.members

variable {c : Settings} {path : Path} {hint : Identifier} {n : Node} {w : Findings} {v : Value}

/-- The samples of members, each under its sanitized name. -/
theorem mem_ofMembers {members : List (String × Value)} {s : Identifier × Sample} :
    s ∈ Sample.ofMembers c.dialect members ↔
      ∃ m ∈ members, (c.sanitize m.1, Sample.ofValue c.dialect m.2) = s := by
  rw [Sample.ofMembers_eq]
  exact List.mem_map

/-- A container declares nothing beside what its items declare. -/
theorem mem_container_objects {ns : List Node} {e : Node} {k : Kind} {w w' : Findings} {o : Object}
    (h : concluded? c.policy none ns = some (e, w')) :
    o ∈ ((Findings.ofKind k).append (w.append w')).objects ↔ o ∈ w.objects := by
  obtain ⟨_, -, -, rfl⟩ := concluded?_eq_some.1 h
  simp [mem_append_objects, Findings.ofKind, Findings.ofOptional]

/-- What is declared is declared for an object that the value holds. -/
theorem holds_of_declared (hs : shown? c path hint (.ofValue c.dialect v) = some (n, w))
    {o : Object} (ho : o ∈ w.objects) :
    ∃ p h ms, v.Holds c p h ms path hint ∧ c.isMapPath (p ++ [h]) = false ∧
      Declares c p h ms o := by
  induction v using Value.induction generalizing path hint n w with
  | array items ih =>
    obtain ⟨ns, w₁, e, w₂, hi, hc, rfl, rfl⟩ := shown?_array.1 hs
    obtain ⟨s, hs, n, w', hsn, ho, -⟩ := collect?_objects hi ((mem_container_objects hc).1 ho)
    rw [Sample.ofItems_eq] at hs
    obtain ⟨v, hv, rfl⟩ := List.mem_map.1 hs
    obtain ⟨p, h, ms, hin, hd⟩ := ih v hv hsn ho
    exact ⟨p, h, ms, .item hv hin, hd⟩
  | object members ih =>
    -- an object found with one of the members, whatever their slots are
    have hmember : ∀ {slot : Identifier → Identifier} {named w₁},
        collect? (shownMember? c (path ++ [hint]) slot) (Sample.ofMembers c.dialect members) =
          some (named, w₁) → o ∈ w₁.objects →
        ∃ m ∈ members, ∃ p h ms, m.2.Holds c p h ms (path ++ [hint]) (slot (c.sanitize m.1)) ∧
          c.isMapPath (p ++ [h]) = false ∧ Declares c p h ms o := by
      intro slot named w₁ hi ho
      obtain ⟨s, hs, k, w', hsk, ho, -⟩ := collect?_objects hi ho
      obtain ⟨m, hm, rfl⟩ := mem_ofMembers.1 hs
      exact ⟨m, hm, ih m hm (shownMember?_eq_some.1 hsk).2 ho⟩
    by_cases hp : c.isMapPath (path ++ [hint]) = true
    · obtain ⟨ms, w₁, v, w₂, hi, hc, rfl, rfl⟩ := (shown?_map hp).1 hs
      obtain ⟨m, hm, p, h, ms, hin, hd⟩ := hmember hi ((mem_container_objects hc).1 ho)
      exact ⟨p, h, ms, .value hm hp hin, hd⟩
    · rw [Bool.not_eq_true] at hp
      obtain ⟨named, w₁, ms, hi, hg, rfl, rfl⟩ := (shown?_object hp).1 hs
      rcases mem_append_objects.1 ho with ho | ho
      · obtain ⟨m, hm, p, h, ms, hin, hd⟩ := hmember hi ho
        exact ⟨p, h, ms, .member hm hp hin, hd⟩
      · obtain rfl := List.mem_singleton.1 ho
        exact ⟨path, hint, members, .here, hp, rfl, named, w₁, hi, hg⟩
  | _ =>
    cases hs
    cases ho

/-- For every object that the value holds, other than a map, an object is declared. -/
theorem declared_of_holds {p : Path} {h : Identifier} {ms : List (String × Value)}
    (hin : v.Holds c p h ms path hint) (hmap : c.isMapPath (p ++ [h]) = false)
    (hs : shown? c path hint (.ofValue c.dialect v) = some (n, w)) :
    ∃ o ∈ w.objects, Declares c p h ms o := by
  induction hin generalizing n w with
  | here =>
    obtain ⟨named, w₁, ms', hi, hg, rfl, rfl⟩ := (shown?_object hmap).1 hs
    exact ⟨_, mem_append_objects.2 (.inr (List.mem_singleton.2 rfl)), rfl, named, w₁, hi, hg⟩
  | item hv _ ih =>
    obtain ⟨ns, w₁, e, w₂, hi, hc, -, rfl⟩ := shown?_array.1 hs
    obtain ⟨n, -, w', hn, hsub⟩ := collect?_left hi
      (Sample.ofItems_eq .. ▸ List.mem_map_of_mem (f := Sample.ofValue c.dialect) hv)
    obtain ⟨o, ho, hd⟩ := ih hn
    exact ⟨o, (mem_container_objects hc).2 (hsub o ho), hd⟩
  | @value path hint members m hm hp _ ih =>
    obtain ⟨ks, w₁, e, w₂, hi, hc, -, rfl⟩ := (shown?_map hp).1 hs
    obtain ⟨k, -, w', hk, hsub⟩ := collect?_left hi (mem_ofMembers.2 ⟨m, hm, rfl⟩)
    obtain ⟨o, ho, hd⟩ := ih (shownMember?_eq_some.1 hk).2
    exact ⟨o, (mem_container_objects hc).2 (hsub o ho), hd⟩
  | @member path hint members m hm hp _ ih =>
    obtain ⟨ks, w₁, ms', hi, -, -, rfl⟩ := (shown?_object hp).1 hs
    obtain ⟨k, -, w', hk, hsub⟩ := collect?_left hi (mem_ofMembers.2 ⟨m, hm, rfl⟩)
    obtain ⟨o, ho, hd⟩ := ih (shownMember?_eq_some.1 hk).2
    exact ⟨o, mem_append_objects.2 (.inl (hsub o ho)), hd⟩

end Slot

/-! ## Runs -/

namespace Run

/-- An object with these members stands somewhere in the documents, other than on a map path, and its
slot gives it the name. A document that is no object stands for one. -/
def ObjectNamed (c : Settings) (vs : List Value) (name : Identifier)
    (ms : List (String × Value)) : Prop :=
  ∃ v ∈ vs, ∃ p h, (rootedValue c v).Holds c p h ms [] c.rootName ∧
    c.isMapPath (p ++ [h]) = false ∧ c.objectName h.text = name

/-- What the documents declare under a name is what is declared for their objects of that name: where
`F` says of a declared object what `G` says of the object in the document, it is found on both
sides. -/
theorem Outcome.exists_declared_iff {c : Settings} {vs : List Value} {r : Run} {ns : List Node}
    {w : Findings} (h : Outcome c vs r ns w) (hc : c.sanitize c.rootName.text = c.rootName)
    {F : Members → Prop} {G : List (String × Value) → Prop}
    (hFG : ∀ p h ms o, Slot.Declares c p h ms o → (F o.members ↔ G ms)) (name : Identifier) :
    (∃ o ∈ w.objects, o.name = name ∧ F o.members) ↔ ∃ ms, ObjectNamed c vs name ms ∧ G ms := by
  have hshown : ∀ v, shownDocument? c v =
      Slot.shown? c [] c.rootName (.ofValue c.dialect (rootedValue c v)) := fun v => by
    rw [← rooted_ofValue hc]
    rfl
  constructor
  · rintro ⟨o, ho, rfl, hF⟩
    obtain ⟨v, hv, n, w', hs, ho, -⟩ := Slot.collect?_objects h.shown ho
    rw [hshown] at hs
    obtain ⟨p, h, ms, hin, hmap, hd⟩ := Slot.holds_of_declared hs ho
    exact ⟨ms, ⟨v, hv, p, h, hin, hmap, hd.1.symm⟩, (hFG p h ms o hd).1 hF⟩
  · rintro ⟨ms, ⟨v, hv, p, hint, hin, hmap, rfl⟩, hG⟩
    obtain ⟨n, -, w', hs, hsub⟩ := Slot.collect?_left h.shown hv
    rw [hshown] at hs
    obtain ⟨o, ho, hd⟩ := Slot.declared_of_holds hin hmap hs
    exact ⟨o, hsub o ho, hd.1, (hFG p hint ms o hd).2 hG⟩

end Run

end SchemaInference
