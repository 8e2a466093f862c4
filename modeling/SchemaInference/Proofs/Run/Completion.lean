/-
The order of the registry. An object is registered when all that it holds is inferred, so after the
objects in it, and a name stays where it was registered first. The names of the registry can
therefore be read off the documents: they are those of the objects, each object after the ones in it
(`Value.objectNames`), and of each name the first occurrence is kept (`Observed.names_registry`).
-/
import SchemaInference.Proofs.Run.Documents
import SchemaInference.Proofs.Schema.Merging

namespace SchemaInference

open Schema Document

/-! ## Documents -/

namespace Document.Value

mutual

/-- The names of the objects in a value in the slot `hint` below `path`, each object after those in
it. A map has no name of its own, but there may be objects among its values. -/
def objectNames (c : Settings) (path : Path) (hint : Identifier) : Value → List Identifier
  | .array items => itemNames c path (c.elementHint hint) items
  | .object members =>
    let inner := path ++ [hint]
    if c.isMapPath inner then memberNames c inner (fun _ => c.valueHint hint) members
    else memberNames c inner c.sanitize members ++ [c.objectName hint.text]
  | _ => []

def itemNames (c : Settings) (path : Path) (hint : Identifier) : List Value → List Identifier
  | [] => []
  | v :: items => objectNames c path hint v ++ itemNames c path hint items

/-- Each member stands in the slot that `slot` gives for its name. -/
def memberNames (c : Settings) (path : Path) (slot : String → Identifier) :
    List (String × Value) → List Identifier
  | [] => []
  | (name, v) :: members => objectNames c path (slot name) v ++ memberNames c path slot members

end

theorem itemNames_eq (c : Settings) (path : Path) (hint : Identifier) (items : List Value) :
    itemNames c path hint items = items.flatMap (objectNames c path hint) := by
  induction items with
  | nil => rfl
  | cons v items ih => rw [itemNames, ih, List.flatMap_cons]

theorem memberNames_eq (c : Settings) (path : Path) (slot : String → Identifier)
    (members : List (String × Value)) :
    memberNames c path slot members =
      members.flatMap fun m => objectNames c path (slot m.1) m.2 := by
  induction members with
  | nil => rfl
  | cons m members ih => rw [memberNames, ih, List.flatMap_cons]

/-- The names of the objects in a document. One that is no object stands in an object, under the name
of the root. -/
def documentNames (c : Settings) : Value → List Identifier
  | .object members => objectNames c [] c.rootName (.object members)
  | v =>
    if c.isMapPath [c.rootName] then objectNames c [c.rootName] (c.valueHint c.rootName) v
    else objectNames c [c.rootName] c.rootName v ++ [c.objectName c.rootName.text]

end Document.Value

/-! ## Gathering -/

/-- New names come last, and each of them where it is met first. -/
theorem Schema.Members.names_gather? {p : Policy} {known ms ks : Members} (hu : Unique known)
    (h : gather? p known ms = some ks) : names ks = (names known ++ names ms).eraseDups := by
  induction ms generalizing known with
  | nil =>
    cases h
    rw [names_nil, List.append_nil, eraseDups_of_nodup ((unique_iff _).1 hu)]
  | cons m ms ih =>
    obtain ⟨k, -, h⟩ := Option.bind_eq_some_iff.1 h
    rw [ih (unique_put hu m.1 k) h, names_put, names_cons]
    by_cases hm : m.1 ∈ names known
    · have hdrop : (m.1 :: names ms).removeAll (names known) =
          (names ms).removeAll (names known) :=
        List.filter_cons_of_neg (by simpa using hm)
      rw [if_pos hm, List.eraseDups_append, List.eraseDups_append, hdrop]
    · rw [if_neg hm, ← List.append_cons]

/-! ## What is declared -/

/-- The names of the objects found, in the order in which these are complete. -/
def Findings.names (w : Findings) : List Identifier := w.objects.map (·.name)

theorem Findings.names_append (w w' : Findings) : (w.append w').names = w.names ++ w'.names :=
  List.map_append

namespace Slot

variable {c : Settings} {path : Path} {hint : Identifier} {n : Node} {w : Findings} {v : Value}

/-- The names found with a list are those found with its items, one after the other. -/
theorem names_collect {α β γ : Type} {f : α → Option (β × Findings)} {k : γ → α}
    {g : γ → List Identifier} {xs : List γ} {ys : List β}
    (h : collect? f (xs.map k) = some (ys, w))
    (hf : ∀ x ∈ xs, ∀ {y w'}, f (k x) = some (y, w') → w'.names = g x) :
    w.names = xs.flatMap g := by
  induction xs generalizing ys w with
  | nil =>
    cases h
    rfl
  | cons x xs ih =>
    obtain ⟨hx, hxs⟩ := List.forall_mem_cons.1 hf
    obtain ⟨y, w₁, ys', w₂, hy, hys, rfl, rfl⟩ := collect?_cons.1 h
    rw [Findings.names_append, hx hy, ih hys hxs, List.flatMap_cons]

/-- A container has no names beside those of its items. -/
theorem names_container {p : Policy} {ns : List Node} {e : Node} {k : Kind} {w w' : Findings}
    (h : concluded? p none ns = some (e, w')) :
    ((Findings.ofKind k).append (w.append w')).names = w.names := by
  obtain ⟨_, -, -, rfl⟩ := concluded?_eq_some.1 h
  rw [Findings.names_append, Findings.names_append]
  exact List.append_nil _

/-- A map has the names of its members; what is no map has its own name after those. -/
theorem names_members {members : List (Identifier × Sample)}
    (names : (Identifier → Identifier) → List Identifier)
    (hmembers : ∀ {slot named w'},
      collect? (shownMember? c (path ++ [hint]) slot) members = some (named, w') →
        w'.names = names slot)
    (h : shown? c path hint (.object members) = some (n, w)) :
    w.names =
      if c.isMapPath (path ++ [hint]) then names fun _ => c.valueHint hint
      else names id ++ [c.objectName hint.text] := by
  by_cases hm : c.isMapPath (path ++ [hint]) = true
  · obtain ⟨ms, w₁, e, w₂, hi, hc, -, rfl⟩ := (shown?_map hm).1 h
    rw [if_pos hm, names_container hc, hmembers hi]
  · rw [if_neg hm]
    rw [Bool.not_eq_true] at hm
    obtain ⟨named, w₁, ms, hi, -, -, rfl⟩ := (shown?_object hm).1 h
    rw [Findings.names_append, hmembers hi]
    rfl

/-- The objects that a value declares are those in it, in the order in which they are complete. -/
theorem names_shown (h : shown? c path hint (.ofValue c.dialect v) = some (n, w)) :
    w.names = v.objectNames c path hint := by
  induction v using Value.induction generalizing path hint n w with
  | array items ih =>
    obtain ⟨ns, w₁, e, w₂, hi, hc, -, rfl⟩ := shown?_array.1 h
    rw [Sample.ofItems_eq] at hi
    rw [names_container hc, Value.objectNames, Value.itemNames_eq]
    exact names_collect hi fun v hv _ _ hs => ih v hv hs
  | object members ih =>
    refine names_members (fun slot =>
      Value.memberNames c (path ++ [hint]) (fun name => slot (c.sanitize name)) members) ?_ h
    intro slot named w₁ hi
    rw [Sample.ofMembers_eq] at hi
    rw [Value.memberNames_eq]
    exact names_collect hi fun m hm _ _ hs => ih m hm (shownMember?_eq_some.1 hs).2
  | _ =>
    cases h
    rfl

/-- What stands for a value that is no object is complete after all objects in the value. -/
theorem names_wrapped
    (h : shown? c [] c.rootName (.object [(c.rootName, .ofValue c.dialect v)]) = some (n, w)) :
    w.names =
      if c.isMapPath [c.rootName] then v.objectNames c [c.rootName] (c.valueHint c.rootName)
      else v.objectNames c [c.rootName] c.rootName ++ [c.objectName c.rootName.text] := by
  refine names_members (fun slot => v.objectNames c [c.rootName] (slot c.rootName)) ?_ h
  intro slot named w₁ hi
  obtain ⟨_, _, _, _, hv, hnil, -, rfl⟩ := collect?_cons.1 hi
  cases hnil
  rw [Findings.names_append, names_shown (shownMember?_eq_some.1 hv).2]
  exact List.append_nil _

end Slot

/-! ## Runs -/

namespace Run

variable {c : Settings} {vs : List Value} {r : Run} {ns : List Node} {n : Node} {w : Findings}

theorem names_shownDocument {v : Value} (h : shownDocument? c v = some (n, w)) :
    w.names = v.documentNames c := by
  cases v with
  | object members => exact Slot.names_shown h
  | _ => exact Slot.names_wrapped h

/-- What the documents declare comes in the order of the documents. -/
theorem Outcome.names (h : Outcome c vs r ns w) : w.names = vs.flatMap (Value.documentNames c) := by
  have hshown := h.shown
  rw [← List.map_id vs] at hshown
  exact Slot.names_collect hshown fun v _ _ _ hv => names_shownDocument hv

/-- Under any settings: the names in the registry of a run are those of all objects in its documents,
document by document and each object after those in it, every name where it occurs first. -/
theorem Observed.names_registry (h : Observed c vs r) :
    r.finish.registry.names = (vs.flatMap (Value.documentNames c)).eraseDups := by
  obtain ⟨ns, w, h⟩ := h.exists_outcome
  have hnames := Members.names_gather? Members.unique_nil h.registry
  have hentries : Members.names (w.objects.map Object.entry) = w.names := List.map_map
  rw [Registry.names_slots, hentries, h.names] at hnames
  exact hnames

/-- Objects in a map and in nested arrays, next to values that clash with them and are dropped; some
names occur again, also in the second document, which is an array. -/
theorem Observed.names_registry_nested :
    let c := Settings.default.withMapPath "rows"
    let vs : List Value := [
      .object [
        ("rows", .object [
          ("k", .object [("x", .integer "1"), ("in", .object [])]),
          ("l", .object [("x", .string "s")])]),
        ("list", .array [.object [("in", .object [])], .array [.object []], .boolean true]),
        ("rows", .null)],
      .array [.object [("in", .object [("new", .object [])])], .null]]
    ∃ r, Observed c vs r ∧
      r.finish.registry.names = [⟨"in_t"⟩, ⟨"rows_value_t"⟩, ⟨"list_element_t"⟩,
        ⟨"list_element_element_t"⟩, ⟨"root_object_t"⟩, ⟨"_jsonnew_t"⟩,
        ⟨"root_object_element_t"⟩] := by
  intro c vs
  let first : Value := .object [
    ("rows", .object [
      ("k", .object [("x", .integer "1"), ("in", .object [])]),
      ("l", .object [("x", .string "s")])]),
    ("list", .array [.object [("in", .object [])], .array [.object []], .boolean true]),
    ("rows", .null)]
  let second : Value := .array [.object [("in", .object [("new", .object [])])], .null]
  let run := ((Run.start c).observe first).value?.bind fun r => (r.observe second).value?
  have hrun : run.isSome = true := by decide +kernel
  obtain ⟨r, hr⟩ := Option.isSome_iff_exists.1 hrun
  obtain ⟨r₁, h₁, hr⟩ := Option.bind_eq_some_iff.1 hr
  have h : Observed c vs r :=
    (Observed.start.observe (Traced.value?_eq_some.1 h₁)).observe (Traced.value?_eq_some.1 hr)
  have hnames := h.names_registry
  have hread : (vs.flatMap (Value.documentNames c)).eraseDups = [⟨"in_t"⟩, ⟨"rows_value_t"⟩,
      ⟨"list_element_t"⟩, ⟨"list_element_element_t"⟩, ⟨"root_object_t"⟩, ⟨"_jsonnew_t"⟩,
      ⟨"root_object_element_t"⟩] := by decide +kernel
  exact ⟨r, h, hnames.trans hread⟩

end Run

end SchemaInference
