/-
Where a strict run says that a document does not fit. The registry covers the nodes that are joined
along the calls, so of two objects of one name each fits the entry of that name, and they go together: a
clash is never found inside of an object (`Schema.ends_unify_covered`). It is found in the slot at hand,
or in a member of the object that is being registered. The path of a fault is therefore the one of a
container of the document and a slot in that container (`Reached.blames_innermost`).
-/
import SchemaInference.Proofs.Run.Calls
import SchemaInference.Proofs.Run.Objects
import SchemaInference.Proofs.Run.Roots

namespace SchemaInference

open Schema Traced Document

/-- The slot of the member `name` of the container in the slot `hint` below `path`: all members of a
map share one. -/
def Settings.memberSlot (c : Settings) (path : Path) (hint name : Identifier) : Identifier :=
  if c.isMapPath (path ++ [hint]) then c.valueHint hint else name

namespace Document.Value

/-! ## Slots of containers -/

/-- The value `x` is in the slot `s`, in a value in the slot `hint`: it is that value, or an element of
an array there, through arrays only. -/
inductive Lies (c : Settings) (s : Identifier) (x : Value) : Identifier → Value → Prop
  | here : Lies c s x s x
  | item {hint : Identifier} {items : List Value} {v : Value} (hv : v ∈ items)
      (h : Lies c s x (c.elementHint hint) v) : Lies c s x hint (.array items)

/-- The value `x` is in the slot `s` of a container of the document `v`, and the container has the path
`q`: it is one that the document holds, or the object around it. -/
inductive InSlot (c : Settings) (v : Value) (s : Identifier) (x : Value) : Path → Prop
  | held {p : Path} {h : Identifier} {ms : List (String × Value)} {m : String × Value}
      (hin : v.Holds c p h ms (v.above c) c.rootName) (hm : m ∈ ms)
      (hx : x.Lies c s (c.memberSlot p h (c.sanitize m.1)) m.2) : InSlot c v s x (p ++ [h])
  | around (hv : ∀ ms, v ≠ .object ms) (hx : x.Lies c s c.rootName v) : InSlot c v s x [c.rootName]

variable {c : Settings} {p : Path} {h s hint : Identifier} {ms : List (String × Value)} {path : Path}
  {v x : Value}

theorem Lies.holds (hx : x.Lies c s hint v) (hin : x.Holds c p h ms path s) :
    v.Holds c p h ms path hint := by
  induction hx with
  | here => exact hin
  | item hv _ ih => exact .item hv ih

theorem Lies.array {items : List Value} (hx : (Value.array items).Lies c s hint v) {y : Value}
    (hy : y ∈ items) : y.Lies c (c.elementHint s) hint v := by
  induction hx with
  | here => exact .item hy .here
  | item hv _ ih => exact .item hv ih

theorem Holds.trans (hin : v.Holds c p h ms path hint) {p' : Path} {h' : Identifier}
    {ms' : List (String × Value)} (hin' : (Value.object ms).Holds c p' h' ms' p h) :
    v.Holds c p' h' ms' path hint := by
  induction hin with
  | here => exact hin'
  | item hv _ ih => exact .item hv ih
  | value hm hp _ ih => exact .value hm hp ih
  | member hm hp _ ih => exact .member hm hp ih

/-- Containers stand below the value that holds them. -/
theorem Holds.path_prefix (hin : v.Holds c p h ms path hint) : path <+: p := by
  induction hin with
  | here => exact List.prefix_refl _
  | item _ _ ih => exact ih
  | value _ _ _ ih => exact (List.prefix_append _ _).trans ih
  | member _ _ _ ih => exact (List.prefix_append _ _).trans ih

theorem InSlot.array {items : List Value} (hx : v.InSlot c s (.array items) path) {y : Value}
    (hy : y ∈ items) : v.InSlot c (c.elementHint s) y path := by
  cases hx with
  | held hin hm hx => exact .held hin hm (hx.array hy)
  | around hv hx => exact .around hv (hx.array hy)

/-- A container in a slot is one that the document holds. -/
theorem InSlot.holds (hx : v.InSlot c s (.object ms) path) :
    v.Holds c path s ms (v.above c) c.rootName := by
  cases hx with
  | @held p h _ m hin hm hx =>
    have hx : m.2.Holds c (p ++ [h]) s ms (p ++ [h]) (c.memberSlot p h (c.sanitize m.1)) :=
      hx.holds .here
    refine hin.trans ?_
    unfold Settings.memberSlot at hx
    by_cases hp : c.isMapPath (p ++ [h]) = true
    · rw [if_pos hp] at hx
      exact .value hm hp hx
    · rw [if_neg hp] at hx
      exact .member hm (Bool.not_eq_true _ ▸ hp) hx
  | around hv hx =>
    rw [above_of_ne hv]
    exact hx.holds .here

/-- The path of a container of a document starts with the name of the root. -/
theorem InSlot.head? (hx : v.InSlot c s x path) : path.head? = some c.rootName := by
  cases hx with
  | around => rfl
  | held hin =>
    cases v with
    | object =>
      cases hin with
      | here => rfl
      | value _ _ hin | member _ _ hin =>
        obtain ⟨tail, rfl⟩ := hin.path_prefix
        rfl
    | _ =>
      obtain ⟨tail, rfl⟩ := hin.path_prefix
      rfl

end Document.Value

namespace Slot

variable {c : Settings} {v : Value}

/-! ## Places of calls -/

/-- What the call is about is in the document: it is what stands for the document, or in a slot of one
of its containers. -/
def Call.Placed (c : Settings) (v : Value) : Call → Prop
  | infer path hint s _ => (∃ x, s = .ofValue c.dialect x ∧ v.InSlot c hint x path) ∨
      path = [] ∧ hint = c.rootName ∧ s = Run.rooted c (.ofValue c.dialect v)
  | foldItems path hint items _ _ =>
      ∀ s ∈ items, ∃ x, s = .ofValue c.dialect x ∧ v.InSlot c hint x path
  | inferMembers path members _ _ =>
      ∀ m ∈ members, ∃ x, m.2 = .ofValue c.dialect x ∧ v.InSlot c m.1 x path
  | join path hint _ _ => ∃ x, v.InSlot c hint x path
  | declare path o _ => ∀ m ∈ o.members, ∃ x, v.InSlot c m.1 x path

/-- The members of what stands for an object in its place are in the slots of that container. -/
theorem Call.Placed.members (hc : c.isMapPath [c.rootName] = false) {path : Path} {hint : Identifier}
    {members : List (Identifier × Sample)} {g : Gathered}
    (h : (Call.infer path hint (.object members) g).Placed c v) {k : Identifier × Sample}
    (hk : k ∈ members) : ∃ x, k.2 = .ofValue c.dialect x ∧
      v.InSlot c (c.memberSlot path hint k.1) x (path ++ [hint]) := by
  rcases h with ⟨x, hx, hin⟩ | ⟨rfl, rfl, hs⟩
  · cases x with
    | object ms =>
      cases hx
      obtain ⟨m, hm, rfl⟩ := mem_ofMembers.1 hk
      exact ⟨m.2, rfl, .held hin.holds hm .here⟩
    | _ => cases hx
  · cases v with
    | object ms =>
      cases hs
      obtain ⟨m, hm, rfl⟩ := mem_ofMembers.1 hk
      exact ⟨m.2, rfl, .held .here hm .here⟩
    | _ =>
      -- the object around the document is no map
      cases hs
      obtain rfl := List.mem_singleton.1 hk
      refine ⟨_, rfl, ?_⟩
      rw [Settings.memberSlot, List.nil_append, hc]
      exact .around nofun .here

/-- All calls that a call makes are in their places. -/
theorem Calls.placed (hc : c.isMapPath [c.rootName] = false) {a b : Call} (h : Calls c a b)
    (hs : a.Sound c.policy) (ha : a.Placed c v) : b.Placed c v := by
  cases h with
  | array path hint items g =>
    rcases ha with ⟨x, hx, hin⟩ | ⟨-, -, hroot⟩
    · cases x with
      | array vs =>
        cases hx
        intro s hs
        rw [Sample.ofItems_eq] at hs
        obtain ⟨y, hy, rfl⟩ := List.mem_map.1 hs
        exact ⟨y, rfl, hin.array hy⟩
      | _ => cases hx
    · cases v <;> cases hroot
  | map members g hp =>
    intro s hs
    obtain ⟨k, hk, rfl⟩ := List.mem_map.1 hs
    obtain ⟨x, hx, hin⟩ := ha.members hc hk
    rw [Settings.memberSlot, if_pos hp] at hin
    exact ⟨x, hx, hin⟩
  | members members g hp =>
    intro k hk
    obtain ⟨x, hx, hin⟩ := ha.members hc hk
    rw [Settings.memberSlot, hp] at hin
    exact ⟨x, hx, hin⟩
  | declare hp h =>
    intro m hm
    obtain ⟨k, hk, hname⟩ := ((closed_inferMembers hs h).2 m hm).1
    obtain ⟨x, -, hin⟩ := ha.members hc hk
    rw [Settings.memberSlot, hp, hname] at hin
    exact ⟨x, hin⟩
  | item =>
    obtain ⟨x, hx, hin⟩ := (List.forall_mem_cons.1 ha).1
    exact .inl ⟨x, hx, hin⟩
  | joinItem =>
    obtain ⟨x, -, hin⟩ := (List.forall_mem_cons.1 ha).1
    exact ⟨x, hin⟩
  | items => exact (List.forall_mem_cons.1 ha).2
  | member =>
    obtain ⟨x, hx, hin⟩ := (List.forall_mem_cons.1 ha).1
    exact .inl ⟨x, hx, hin⟩
  | joinMember =>
    obtain ⟨x, -, hin⟩ := (List.forall_mem_cons.1 ha).1
    exact ⟨x, hin⟩
  | moreMembers => exact (List.forall_mem_cons.1 ha).2

end Slot

/-! ## Faults of strict joins -/

namespace Schema

variable {r : Registry}

theorem Node.Covered.members {p : Policy} {n : Identifier} {ms : Members} {o : Bool}
    (h : (Node.object n ms o).Covered p r) (hwf : (Node.object n ms o).WF) :
    ms.Keep (fun _ => True) fun _ a => a.WF ∧ a.Covered p r := fun m hm => by
  have hget := Members.get?_of_mem hwf.unique hm
  cases h with
  | object _ _ _ hms => exact ⟨trivial, hwf.member hget, hms _ _ hget⟩

/-- Nodes that are covered go together wherever they are objects of one name. What clashes is the nodes
themselves, or the elements and values in them: nothing is added to the path. -/
theorem ends_unify_covered {a b : Node} (ha : a.WF ∧ a.Covered .strict r)
    (hb : b.WF ∧ b.Covered .strict r) :
    (unify .strict a b).Ends (fun k => k.WF ∧ k.Covered .strict r) fun f => f.path = [] := by
  have hrelax : ∀ {a : Node}, a.WF ∧ a.Covered .strict r → a.relax.WF ∧ a.relax.Covered .strict r :=
    fun h => ⟨h.1.relax, h.2.setOptional true⟩
  induction b using Node.induction generalizing a with
  | null => cases a <;> exact .pure (hrelax ha)
  | scalar t y =>
    cases a with
    | null => exact .pure (hrelax hb)
    | scalar s x =>
      unfold unify
      split
      · exact .pure ⟨.scalar .., .scalar ..⟩
      · exact .error rfl
    | _ => exact .error rfl
  | array f y ih =>
    cases a with
    | null => exact .pure (hrelax hb)
    | array e x =>
      unfold unify
      obtain ⟨hwe, _ | _ | ⟨_, he⟩⟩ := ha
      obtain ⟨hwf, _ | _ | ⟨_, hf⟩⟩ := hb
      exact (ih ⟨hwe.element, he⟩ ⟨hwf.element, hf⟩).bind fun k hk =>
        .pure ⟨.array _ hk.1, .array _ hk.2⟩
    | _ => exact .error rfl
  | map m w y ih =>
    cases a with
    | null => exact .pure (hrelax hb)
    | map n v x =>
      unfold unify
      split
      · obtain ⟨hwv, hv⟩ := ha
        obtain ⟨hww, hw⟩ := hb
        cases hv with
        | map _ _ hv =>
          cases hw with
          | map _ _ hw =>
            exact (ih ⟨hwv.value, hv⟩ ⟨hww.value, hw⟩).bind fun k hk =>
              .pure ⟨.map _ _ hk.1, .map _ _ hk.2⟩
      · exact .error rfl
    | _ => exact .error rfl
  | object m ns y =>
    cases a with
    | null => exact .pure (hrelax hb)
    | object n ms x =>
      by_cases hn : n = m
      · subst hn
        -- the entry of their name bounds them both
        obtain ⟨k, hk⟩ := ha.2.exists_joins hb.2 ha.1 hb.1
        exact .of_value? ((value?_unify ha.1 hb.1).2 hk) ⟨hk.wf ha.1 hb.1, ha.2.joins hb.2 hk⟩
      · unfold unify
        rw [if_neg hn]
        exact .error rfl
    | _ => exact .error rfl

end Schema

/-- What does not go together when an object is registered is one of its members. -/
theorem Registry.ends_register_covered {r : Registry} (hr : r.Closed .strict) {o : Object}
    (ho : o.members.Keep (fun _ => True) fun _ a => a.WF ∧ a.Covered .strict r) :
    (r.register .strict o).Ends (fun _ => True) fun e => ∃ m ∈ o.members, e.fault.path = [m.1] := by
  unfold register
  rcases he : r.find? o.name with _ | e
  · exact .emit_bind (.pure trivial)
  have hmem := mem_of_find? he
  have hentry := (hr.entries e hmem).members (hr.wf.nodes e hmem)
  have hrelax : ∀ (_ : Identifier) (a : Node), a.WF ∧ a.Covered .strict r →
      a.relax.WF ∧ a.relax.Covered .strict r := fun _ _ ha => ⟨ha.1.relax, ha.2.setOptional true⟩
  have habsorb : (absorb .strict (e.members.relaxMissing o.members) o.members).Ends
      (Members.Keep (fun _ => True) fun _ a => a.WF ∧ a.Covered .strict r)
      fun e => ∃ m ∈ o.members, e.fault.path = [m.1] := by
    refine ends_absorb (E := fun f => f.path = []) (D := fun f => ∃ m ∈ o.members, f.path = [m.1])
      hrelax (fun m hm f hf => ⟨m, hm, by rw [Fault.within, hf]⟩) ho (hentry.relaxMissing hrelax _) ?_
    exact fun m hm a ha => ends_unify_covered ha (ho m hm).2
  have hmerge : (e.merge .strict { o with optional := false }).Ends (fun _ => True)
      fun e => ∃ m ∈ o.members, e.fault.path = [m.1] :=
    (ends_merge_of_absorb (E := fun f => ∃ m ∈ o.members, f.path = [m.1]) habsorb).imp
      (fun _ _ => trivial) fun _ h => h
  exact .emit_bind (Ends.bind (.mapFault hmerge fun _ h => h) fun _ _ => .pure trivial)

/-! ## What is contributed to the path -/

namespace Slot

/-- Below the path `q`, the slot `s` is all that joining or registering contributes: along the calls that
the first one leads to, two nodes of the slot are joined and clash themselves, or the object at `q` is
registered and clashes in its member `s`. -/
inductive Contributes (c : Settings) (start : Call) (q : Path) (s : Identifier) (clash : Clash) : Prop
  | joined {k n : Node} (hl : Leads c start (.join q s (some k) n))
      (hu : (unify c.policy k n).fault? = some ⟨[], clash⟩)
  | registered {o : Object} {g : Gathered} {left : Registry} (hl : Leads c start (.declare q o g))
      (hr : (g.registry.register c.policy o).fault? = some ⟨left, ⟨[s], clash⟩⟩)

variable {c : Settings} {v : Value} {f : Schema.Fault} {g : Gathered}

/-- A fault of a strict inference has the path of a container of the document and a slot in it. -/
theorem blames_infer (hp : c.policy = .strict) (hc : c.isMapPath [c.rootName] = false)
    (hg : g.registry.Closed c.policy)
    (hf : (infer c [] c.rootName (Run.rooted c (.ofValue c.dialect v)) g).fault? = some f) :
    ∃ q s x, v.InSlot c s x q ∧ f.path = q ++ [s] ∧
      Contributes c (.infer [] c.rootName (Run.rooted c (.ofValue c.dialect v)) g) q s f.clash := by
  obtain ⟨b, hl, hr⟩ := exists_raised hf
  obtain ⟨hsound, hplaced⟩ : b.Sound c.policy ∧ b.Placed c v := by
    clear hr
    induction hl with
    | refl => exact ⟨hg, .inr ⟨rfl, rfl, rfl⟩⟩
    | tail _ hb ih => exact ⟨hb.sound ih.1, hb.placed hc ih.1 ih.2⟩
  cases hr with
  | @join path hint known n h =>
    cases known with
    | none => cases h
    | some k =>
      obtain ⟨x, hx⟩ := hplaced
      obtain ⟨r, hk, hn⟩ := hsound
      unfold join at h
      rw [fault?_mapFault] at h
      obtain ⟨⟨path', clash⟩, hu, rfl⟩ := Option.map_eq_some_iff.1 h
      obtain rfl : path' = [] := by
        rw [hp] at hk hn hu
        exact (ends_unify_covered (hk k rfl) hn).of_error (fault?_eq_some.1 hu)
      exact ⟨path, hint, x, hx, rfl, .joined hl hu⟩
  | @declare path o g' h =>
    unfold declare at h
    rcases fault?_bind.1 h with h | ⟨r', -, h⟩
    · rw [fault?_mapFault] at h
      obtain ⟨⟨left, ⟨path', clash⟩⟩, hu, rfl⟩ := Option.map_eq_some_iff.1 h
      obtain ⟨hclosed, hmembers⟩ := hsound
      obtain ⟨m, hm, e⟩ : ∃ m ∈ o.members, path' = [m.1] := by
        rw [hp] at hclosed hmembers hu
        exact (Registry.ends_register_covered hclosed hmembers).of_error (fault?_eq_some.1 hu)
      subst e
      obtain ⟨x, hx⟩ := hplaced m hm
      exact ⟨path, m.1, x, hx, rfl, .registered hl hu⟩
    · cases h

end Slot

/-! ## Runs -/

namespace Run

variable {c : Settings} {r : Run} {v : Value} {f : Schema.Fault}

theorem fault?_inferRoot (c : Settings) (s : Sample) (g : Gathered) :
    (inferRoot c s g).fault? = (Slot.infer c [] c.rootName (rooted c s) g).fault? := by
  cases s <;> rfl

/-- A document that cannot be observed cannot be inferred. -/
theorem Reached.fault?_observe (h : Reached c r) (hc : c.isMapPath [c.rootName] = false)
    (hf : (r.observe v).fault? = some f) :
    (inferRoot c (Sample.ofValue c.dialect v) r.gathered).fault? = some f := by
  unfold Run.observe at hf
  rw [h.named.settings] at hf
  rcases fault?_bind.1 hf with hf | ⟨⟨n, g⟩, hn, hf⟩
  · exact hf
  rcases fault?_bind.1 hf with hf | ⟨_, _, hf⟩
  · obtain ⟨root, hroot⟩ := h.exists_root hc hn
    rw [fault?_eq_some] at hf
    rw [value?_eq_some, hf] at hroot
    cases hroot
  · cases hf

/-- Strict errors blame the innermost object. Where the root is no map, a document that does not fit is
told by the path of one of its containers, maps and the root included, and of one slot in that
container: the name of a member or the slot of the values, or the slot of elements in arrays there. That
last name is all that joining two nodes or registering the object contributes. -/
theorem Reached.blames_innermost (hp : c.policy = .strict) (hroot : [c.rootName] ∉ c.mapPaths)
    (h : Reached c r)
    (hf : (r.observe v).outcome = .error f ∨
      ∃ text, parse text = .ok v ∧ (r.observeText text).outcome = .error (.unfit f)) :
    f.path.head? = some c.rootName ∧
      ∃ q s x, v.InSlot c s x q ∧ f.path = q ++ [s] ∧
        Slot.Contributes c (.infer [] c.rootName (rooted c (.ofValue c.dialect v)) r.gathered) q s
          f.clash := by
  have hf : (r.observe v).fault? = some f := by
    rcases hf with hf | ⟨text, hv, hf⟩
    · exact fault?_eq_some.2 hf
    unfold Run.observeText at hf
    rw [hv, ← fault?_eq_some] at hf
    rcases fault?_bind.1 hf with hf | ⟨_, ⟨⟩, hf⟩
    · cases hf
    · rw [fault?_mapFault] at hf
      obtain ⟨_, hf, ⟨⟩⟩ := Option.map_eq_some_iff.1 hf
      exact hf
  have hc : c.isMapPath [c.rootName] = false := decide_eq_false hroot
  have hf := h.fault?_observe hc hf
  rw [fault?_inferRoot] at hf
  obtain ⟨vs, hvs⟩ := h.observed
  obtain ⟨ns, w, ho⟩ := outcome_iff.1 hvs
  obtain ⟨q, s, x, hx, hpath, hcontributes⟩ := Slot.blames_infer hp hc ho.closed hf
  refine ⟨?_, q, s, x, hx, hpath, hcontributes⟩
  have hhead := hx.head?
  rw [hpath]
  obtain ⟨_, q, rfl⟩ := List.exists_cons_of_ne_nil (show q ≠ [] by rintro rfl; cases hhead)
  exact hhead

/-- The member `x` of an object in an array clashes with the entry `a_t` of another object. -/
theorem Reached.blames_innermost_rows :
    ∃ c r f, c = Settings.default.withPolicy .strict ∧ Reached c r ∧
      (r.observe (.object [("b", .array [.object [("a", .object [("x", .string "s")])]])])).outcome =
        .error f ∧
      f.path = [⟨"root_object"⟩, ⟨"b_element"⟩, ⟨"a"⟩, ⟨"x"⟩] ∧
      ∃ q s x, Value.InSlot c (.object [("b", .array [.object [("a", .object [("x", .string "s")])]])])
        s x q ∧ f.path = q ++ [s] := by
  let c := Settings.default.withPolicy .strict
  let v : Value := .object [("b", .array [.object [("a", .object [("x", .string "s")])]])]
  let run := ((Run.start c).observe (.object [("a", .object [("x", .integer "1")])])).value?
  have hfault : (run.bind fun r => (r.observe v).fault?).map (·.path) =
      some [⟨"root_object"⟩, ⟨"b_element"⟩, ⟨"a"⟩, ⟨"x"⟩] := by
    decide +kernel
  obtain ⟨f, hf, hpath⟩ := Option.map_eq_some_iff.1 hfault
  obtain ⟨r, hr, hf⟩ := Option.bind_eq_some_iff.1 hf
  have hreached : Reached c r := .observe .start (value?_eq_some.1 hr)
  have hf := fault?_eq_some.1 hf
  obtain ⟨-, q, s, x, hx, hqs, -⟩ :=
    hreached.blames_innermost rfl (by decide) (.inl hf)
  exact ⟨c, r, f, rfl, hreached, hf, hpath, q, s, x, hx, hqs⟩

end Run

end SchemaInference
