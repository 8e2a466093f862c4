/-
Maps stand just at the map paths. A node in the root is told by its place, the path of the container
around it and the name of its slot (`Node.Stands`). What a sample shows in a slot has maps at the map
paths and objects elsewhere, at every depth (`Node.Fits`); nodes of one slot that have it join to one
that has it, so the root has it (`Reached.map_iff`).
-/
import SchemaInference.Proofs.Run.Conformance
import SchemaInference.Proofs.Settings.Built

namespace SchemaInference

open Schema

/-! ## Hints -/

/-- No reserved word ends as the slots of elements and of values do. -/
theorem Dialect.reservedWords_plain (d : Dialect) : ∀ w ∈ d.reservedWords,
    ¬ "_element".toList <:+ w.toList ∧ ¬ "_value".toList <:+ w.toList := by
  cases d <;> decide +kernel

namespace Settings

variable {c : Settings} {hint : Identifier}

theorem elementHint_eq (h : hint.IsName) : c.elementHint hint = ⟨hint.text ++ "_element"⟩ := by
  apply Identifier.sanitize_append h (by decide)
  exact fun w hw => (c.dialect.reservedWords_plain w hw).1

theorem valueHint_eq (h : hint.IsName) : c.valueHint hint = ⟨hint.text ++ "_value"⟩ := by
  apply Identifier.sanitize_append h (by decide)
  exact fun w hw => (c.dialect.reservedWords_plain w hw).2

end Settings

/-- All names in the sample are identifiers. -/
inductive Sample.Spelled : Sample → Prop
  | null : Spelled .null
  | scalar (s : Scalar) : Spelled (.scalar s)
  | array {items : List Sample} (h : ∀ s ∈ items, Spelled s) : Spelled (.array items)
  | object {members : List (Identifier × Sample)} (hn : ∀ m ∈ members, m.1.IsName)
      (h : ∀ m ∈ members, Spelled m.2) : Spelled (.object members)

theorem Sample.spelled_ofValue (d : Dialect) (v : Document.Value) : (ofValue d v).Spelled := by
  induction v using Document.Value.induction with
  | null => exact .null
  | boolean => exact .scalar _
  | integer => exact .scalar _
  | real => exact .scalar _
  | string => exact .scalar _
  | array items ih =>
    refine .array fun s hs => ?_
    rw [ofItems_eq] at hs
    obtain ⟨v, hv, rfl⟩ := List.mem_map.1 hs
    exact ih v hv
  | object members ih =>
    have hmem : ∀ m ∈ ofMembers d members, m.1.IsName ∧ m.2.Spelled := fun m hm => by
      rw [ofMembers_eq] at hm
      obtain ⟨⟨name, v⟩, hv, rfl⟩ := List.mem_map.1 hm
      exact ⟨Identifier.isName_sanitize .., ih (name, v) hv⟩
    exact .object (fun m hm => (hmem m hm).1) fun m hm => (hmem m hm).2

namespace Schema.Node

/-! ## Places -/

/-- In the node in the slot `hint` below `path`, the node `a` stands in the slot `h` below `p`. An
array adds no name to the path. -/
inductive Stands (a : Node) (p : Path) (h : Identifier) : Path → Identifier → Node → Prop
  | here : Stands a p h p h a
  | element {path : Path} {hint : Identifier} {e : Node} (o : Bool)
      (hin : Stands a p h path ⟨hint.text ++ "_element"⟩ e) :
      Stands a p h path hint (.array e o)
  | member {path : Path} {hint : Identifier} (n : Identifier) {ms : Members} (o : Bool)
      {m : Identifier × Node} (hm : m ∈ ms) (hin : Stands a p h (path ++ [hint]) m.1 m.2) :
      Stands a p h path hint (.object n ms o)
  | value {path : Path} {hint : Identifier} (n : Identifier) {v : Node} (o : Bool)
      (hin : Stands a p h (path ++ [hint]) ⟨n.text ++ "_value"⟩ v) :
      Stands a p h path hint (.map n v o)

/-- Of the node in the slot `hint` below `path`, the containers at map paths are maps, named after
their slots, and all others are objects. -/
inductive Fits (c : Settings) : Path → Identifier → Node → Prop
  | null (path : Path) (hint : Identifier) : Fits c path hint .null
  | scalar (path : Path) (hint : Identifier) (s : Scalar) (o : Bool) : Fits c path hint (.scalar s o)
  | array {path : Path} {hint : Identifier} {e : Node} (o : Bool)
      (h : Fits c path (c.elementHint hint) e) : Fits c path hint (.array e o)
  | object {path : Path} {hint : Identifier} (n : Identifier) {ms : Members} (o : Bool)
      (hp : c.isMapPath (path ++ [hint]) = false)
      (hn : ∀ name a, ms.get? name = some a → name.IsName)
      (h : ∀ name a, ms.get? name = some a → Fits c (path ++ [hint]) name a) :
      Fits c path hint (.object n ms o)
  | map {path : Path} {hint : Identifier} {v : Node} (o : Bool)
      (hp : c.isMapPath (path ++ [hint]) = true)
      (h : Fits c (path ++ [hint]) (c.valueHint hint) v) : Fits c path hint (.map hint v o)

namespace Fits

variable {c : Settings} {path : Path} {hint : Identifier} {a b k : Node}

theorem setOptional (h : a.Fits c path hint) (o : Bool) : (a.setOptional o).Fits c path hint := by
  cases h with
  | null => exact .null path hint
  | scalar => exact .scalar path hint _ o
  | array _ h => exact .array o h
  | object n _ hp hn h => exact .object n o hp hn h
  | map _ hp h => exact .map o hp h

/-- Nodes of one slot join to a node of that slot. -/
theorem joins {p : Policy} (ha : a.Fits c path hint) (hb : b.Fits c path hint)
    (h : Joins p a b k) : k.Fits c path hint := by
  induction h generalizing path hint with
  | nullRight => exact ha.setOptional true
  | nullLeft => exact hb.setOptional true
  | settled => exact ha.setOptional _
  | scalar => exact .scalar ..
  | array _ _ _ ih =>
    cases ha with
    | array _ ha =>
      cases hb with
      | array _ hb => exact .array _ (ih ha hb)
  | map _ _ _ _ ih =>
    cases ha with
    | map _ hp ha =>
      cases hb with
      | map _ _ hb => exact .map _ hp (ih ha hb)
  | object n _ _ hn both left right ih =>
    cases ha with
    | object _ _ hp hnms hms =>
      cases hb with
      | object _ _ _ hnns hns =>
        refine .object n _ hp (fun name k hk => ?_) fun name k hk => ?_
        · rcases Joins.member_cases hn left right hk with
            ⟨a, b, ha, -⟩ | ⟨a, ha, -⟩ | ⟨b, -, hb, -⟩
          · exact hnms name a ha
          · exact hnms name a ha
          · exact hnns name b hb
        · rcases Joins.member_cases hn left right hk with
            ⟨a, b, ha, hb⟩ | ⟨a, ha, -, rfl⟩ | ⟨b, -, hb, rfl⟩
          · exact ih name a b k ha hb hk (hms name a ha) (hns name b hb)
          · exact (hms name a ha).setOptional true
          · exact (hns name b hb).setOptional true

/-- A node that stands in one that fits its slot fits its own. -/
theorem stands {p : Path} {h : Identifier} (hb : b.Fits c path hint) (hwf : b.WF)
    (hn : hint.IsName) (hs : a.Stands p h path hint b) : a.Fits c p h := by
  induction hs with
  | here => exact hb
  | @element _ slot _ _ _ ih =>
    cases hb with
    | array _ h =>
      have hname : (c.elementHint slot).IsName := Identifier.isName_sanitize ..
      rw [Settings.elementHint_eq hn] at h hname
      exact ih h hwf.element hname
  | member _ _ hm _ ih =>
    cases hb with
    | object _ _ _ hn h =>
      have hget := Members.get?_of_mem hwf.unique hm
      exact ih (h _ _ hget) (hwf.member hget) (hn _ _ hget)
  | @value _ slot _ _ _ _ ih =>
    cases hb with
    | map _ _ h =>
      have hname : (c.valueHint slot).IsName := Identifier.isName_sanitize ..
      rw [Settings.valueHint_eq hn] at h hname
      exact ih h hwf.value hname

end Fits

end Schema.Node

/-! ## What a sample shows -/

namespace Slot

variable {c : Settings} {path : Path} {hint : Identifier}

/-- The nodes shown in one slot are folded into one that fits it. -/
theorem concluded?_fits {p : Policy} {ns : List Node} {e : Node} {w : Findings}
    (hns : ∀ n ∈ ns, n.WF ∧ n.Fits c path hint) (h : concluded? p none ns = some (e, w)) :
    e.Fits c path hint :=
  (concluded?_known (fun _ _ _ => .joins) (.null path hint) hns h).2

/-- What a sample shows fits its slot. -/
theorem shown?_fits {s : Sample} (hs : s.Spelled) {n : Node} {w : Findings}
    (h : shown? c path hint s = some (n, w)) : n.Fits c path hint := by
  induction s using Sample.induction generalizing path hint n w with
  | null =>
    cases h
    exact .null path hint
  | scalar s =>
    cases h
    exact .scalar path hint s false
  | array items ih =>
    obtain ⟨ns, w₁, e, w₂, hi, hc, rfl, -⟩ := shown?_array.1 h
    refine .array false (concluded?_fits (fun n hn => ?_) hc)
    obtain ⟨s, hmem, w', hshown, -⟩ := collect?_right hi hn
    cases hs with
    | array hs => exact ⟨(shown?_wf hshown).1, ih s hmem (hs s hmem) hshown⟩
  | object members ih =>
    cases hs with
    | object hnames hs =>
      by_cases hm : c.isMapPath (path ++ [hint]) = true
      · obtain ⟨ms, w₁, v, w₂, hi, hc, rfl, -⟩ := (shown?_map hm).1 h
        refine .map false hm (concluded?_fits (List.forall_mem_map.2 fun m hm => ?_) hc)
        obtain ⟨s, hmem, w', hshown, -⟩ := collect?_right hi hm
        have hshown := (shownMember?_eq_some.1 hshown).2
        exact ⟨(shown?_wf hshown).1, ih s hmem (hs s hmem) hshown⟩
      · rw [Bool.not_eq_true] at hm
        obtain ⟨named, w₁, ms, hi, hg, rfl, -⟩ := (shown?_object hm).1 h
        -- each member comes from samples of its name
        have hnamed : ∀ m ∈ named, m.1.IsName ∧ m.2.WF ∧ m.2.Fits c (path ++ [hint]) m.1 :=
          fun m hm => by
            obtain ⟨s, hmem, w', hshown, -⟩ := collect?_right hi hm
            obtain ⟨hname, hshown⟩ := shownMember?_eq_some.1 hshown
            rw [← hname]
            exact ⟨hnames s hmem, (shown?_wf hshown).1, ih s hmem (hs s hmem) hshown⟩
        refine .object _ false hm (fun name a ha => ?_) fun name a ha => ?_
        · have hin := (Members.mem_names_gather? hg).1 (Members.mem_names_of_get? ha)
          obtain ⟨m, hm, rfl⟩ := List.mem_map.1 (hin.resolve_left fun h => nomatch h)
          exact (hnamed m hm).1
        · exact (Members.gather?_known (fun _ _ _ => Node.Fits.joins) hg
            (fun n hm => (hnamed (name, n) hm).2) ha).2

end Slot

/-! ## Runs -/

namespace Run

variable {c : Settings} {r : Run}

theorem spelled_rooted (hc : c.rootName.IsName) {s : Sample} (hs : s.Spelled) :
    (rooted c s).Spelled := by
  have h : (Sample.object [(c.rootName, s)]).Spelled :=
    .object (List.forall_mem_singleton.2 hc) (List.forall_mem_singleton.2 hs)
  cases s with
  | object => exact hs
  | _ => exact h

theorem Reached.fits_root (hc : c.rootName.IsName) (h : Reached c r) :
    r.finish.root.WF ∧ r.finish.root.Fits c [] c.rootName := by
  obtain ⟨vs, hvs⟩ := h.observed
  obtain ⟨ns, w, h⟩ := outcome_iff.1 hvs
  have hns : ∀ n ∈ ns, n.WF ∧ n.Fits c [] c.rootName := fun n hn => by
    obtain ⟨v, -, w', hv, -⟩ := Slot.collect?_right h.shown hn
    exact ⟨h.nodes_wf n hn,
      Slot.shown?_fits (spelled_rooted hc (Sample.spelled_ofValue c.dialect v)) hv⟩
  have hknown := joinAll?_known (fun _ _ _ => Node.Fits.joins) (known_none _) hns h.root
  show (r.root.getD .null).WF ∧ (r.root.getD .null).Fits c [] c.rootName
  rcases hroot : r.root with _ | root
  · exact ⟨.null, .null [] c.rootName⟩
  · exact hknown root hroot

/-- The root has the path of its name alone, and every container in it the path of the container
around it and its own slot. Those at the map paths are maps, and all others are objects. -/
theorem Reached.map_iff (hc : c.rootName.IsName) (h : Reached c r) {a : Node} {p : Path}
    {hint : Identifier} (ha : a.Stands p hint [] c.rootName r.finish.root)
    (hk : a.kind = .map ∨ a.kind = .object) :
    (a.kind = .map ↔ p ++ [hint] ∈ c.mapPaths) ∧ (a.kind = .object ↔ p ++ [hint] ∉ c.mapPaths) := by
  obtain ⟨hwf, hfits⟩ := h.fits_root hc
  have hfits := hfits.stands hwf hc ha
  cases hfits with
  | map _ hp => simp [Node.kind, show p ++ [hint] ∈ c.mapPaths from of_decide_eq_true hp]
  | object _ _ hp => simp [Node.kind, show p ++ [hint] ∉ c.mapPaths from of_decide_eq_false hp]
  | _ => simp [Node.kind] at hk

/-- A map in an object in an array. -/
theorem Reached.map_iff_rows :
    let cells : Node := .map ⟨"cells"⟩ (.scalar .integer false) false
    ∃ c : Settings, c.Built ∧ c.mapPaths = [[⟨"root_object"⟩, ⟨"rows_element"⟩, ⟨"cells"⟩]] ∧
      ∃ r, Reached c r ∧
        cells.Stands [⟨"root_object"⟩, ⟨"rows_element"⟩] ⟨"cells"⟩ [] c.rootName r.finish.root ∧
        (cells.kind = .map ↔ [⟨"root_object"⟩, ⟨"rows_element"⟩] ++ [⟨"cells"⟩] ∈ c.mapPaths) := by
  intro cells
  let c := Settings.default.withMapPath "rows_element.cells"
  let v : Document.Value := .object [("rows", .array [.object [("cells",
    .object [("A1", .integer "1")])]])]
  have hc : c.Built := .withMapPath .default _
  have hrun : ((Run.start c).observe v).value?.map (·.finish.root) =
      some (.object ⟨"root_object_t"⟩
        [(⟨"rows"⟩, .array (.object ⟨"rows_element_t"⟩ [(⟨"cells"⟩, cells)] false) false)] false) := by
    decide +kernel
  obtain ⟨r, hr, hroot⟩ := Option.map_eq_some_iff.1 hrun
  have hreached : Reached c r := .observe .start (Traced.value?_eq_some.1 hr)
  have hname : c.rootName = ⟨"root_object"⟩ := by decide +kernel
  have hcells : cells.Stands [⟨"root_object"⟩, ⟨"rows_element"⟩] ⟨"cells"⟩ [] c.rootName
      r.finish.root := by
    rw [hroot, hname]
    exact .member _ _ (List.mem_singleton_self _)
      (.element _ (.member _ _ (List.mem_singleton_self _) .here))
  exact ⟨c, hc, by decide +kernel, r, hreached, hcells, (hreached.map_iff hc.isName_rootName hcells (.inl rfl)).1⟩

end Run

end SchemaInference
