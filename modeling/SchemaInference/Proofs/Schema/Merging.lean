/-
Objects merged into a first one, one after the other. What comes of it can be told without going
through the merges: the members stand in the order in which their names are first met; a member is
optional as soon as one of the objects may do without it; and its kind is that of the first of its
occurrences that is not null, but for an integer, which a real among them makes a real
(`Kind.ofAll`). Each merge adds one object to what is told (`Members.Sums.merge`), and so do any
number of them (`Object.foldlM_merge_members`).
-/
import SchemaInference.Proofs.Schema.Presence

namespace SchemaInference.Schema

open Members

/-! ## Kinds -/

/-- The kind of a slot where nodes of these kinds were met, in this order. -/
def Kind.ofAll (ks : List Kind) : Kind :=
  match ks.find? (· ≠ .null) with
  | none => .null
  | some k => if k = .scalar .integer ∧ .scalar .real ∈ ks then .scalar .real else k

namespace Kind

variable {k : Kind} {ks : List Kind}

theorem ofAll_null_cons : ofAll (.null :: ks) = ofAll ks := by
  simp [ofAll]

theorem ofAll_cons (h : k ≠ .null) :
    ofAll (k :: ks) = if k = .scalar .integer ∧ .scalar .real ∈ ks then .scalar .real else k := by
  have hmem : k = .scalar .integer ∧ .scalar .real ∈ k :: ks ↔
      k = .scalar .integer ∧ .scalar .real ∈ ks := by
    refine and_congr_right fun hk => ?_
    rw [hk, List.mem_cons]
    simp
  unfold ofAll
  rw [List.find?_cons_of_pos (by simpa using h)]
  simp only [hmem]

theorem ofAll_singleton : ofAll [k] = k := by
  by_cases hk : k = .null
  · rw [hk]
    rfl
  · rw [ofAll_cons hk, if_neg (by simp)]

/-- One kind more is met with what the kinds before it come to. -/
theorem ofAll_concat (ks : List Kind) (l : Kind) : ofAll (ks ++ [l]) = ofAll [ofAll ks, l] := by
  induction ks with
  | nil => exact ofAll_null_cons.symm
  | cons k ks ih =>
    rw [List.cons_append]
    by_cases hk : k = .null
    · rw [hk, ofAll_null_cons, ofAll_null_cons, ih]
    rw [ofAll_cons hk, ofAll_cons hk]
    by_cases hint : k = .scalar .integer
    · subst hint
      -- a real stays one, and an integer becomes one if a real is met
      by_cases hreal : .scalar .real ∈ ks
      · simp [hreal, ofAll_cons]
      · simp [hreal, ofAll_cons]
    · rw [if_neg fun h => hint h.1, if_neg fun h => hint h.1, ofAll_cons hk,
        if_neg fun h => hint h.1]

theorem ofAll_of_join? {s t u : Scalar} (h : s.join? t = some u) :
    ofAll [.scalar s, .scalar t] = .scalar u := by
  cases s <;> cases t <;> cases h <;> rfl

/-- Where kinds clash, the first is kept. -/
theorem ofAll_of_clashes {l : Kind} (h : k.clashes l = true) : ofAll [k, l] = k := by
  have hk : k ≠ .null := by
    rintro rfl
    simp [clashes] at h
  rw [ofAll_cons hk, if_neg]
  rintro ⟨rfl, hl⟩
  rw [List.mem_singleton] at hl
  subst hl
  simp [clashes, Scalar.join?] at h

end Kind

variable {p : Policy}

/-- A join is of the kind that its sides come to. -/
theorem Joins.kind {a b k : Node} (h : Joins p a b k) : k.kind = Kind.ofAll [a.kind, b.kind] := by
  cases h with
  | nullRight =>
    rw [Node.kind_relax]
    by_cases ha : a.kind = .null
    · rw [ha]
      rfl
    · rw [Kind.ofAll_cons ha, if_neg (by simp [Node.kind])]
  | nullLeft =>
    rw [Node.kind_relax]
    exact (Kind.ofAll_null_cons.trans Kind.ofAll_singleton).symm
  | scalar _ _ hu => exact (Kind.ofAll_of_join? hu).symm
  | settled _ hk => rw [Node.kind_setOptional, Kind.ofAll_of_clashes hk]
  | _ => rfl

/-! ## Members -/

theorem eraseDups_of_nodup {α : Type} [BEq α] [LawfulBEq α] {xs : List α} (h : xs.Nodup) :
    xs.eraseDups = xs := by
  induction xs with
  | nil => rfl
  | cons x xs ih =>
    obtain ⟨hx, h⟩ := List.nodup_cons.1 h
    have hkeep : xs.filter (fun y => !y == x) = xs := by
      rw [List.filter_eq_self]
      intro y hy
      have hne : y ≠ x := fun e => hx (e ▸ hy)
      simpa using hne
    rw [List.eraseDups_cons, hkeep, ih h]

/-- What is told of members by those of the objects that were merged, in their order. -/
structure Members.Sums (seen : List Members) (ms : Members) : Prop where
  names : names ms = (seen.flatMap names).eraseDups
  lack : ∀ name, ms.MayLack name ↔ ∃ ns ∈ seen, ns.MayLack name
  kind : ∀ name a, get? ms name = some a →
    a.kind = Kind.ofAll (seen.filterMap fun ns => (get? ns name).map Node.kind)

namespace Members.Sums

variable {seen : List Members} {ms ns ks : Members}

theorem one (hms : Unique ms) : Sums [ms] ms where
  names := by rw [List.flatMap_singleton, eraseDups_of_nodup ((unique_iff ms).1 hms)]
  lack name := by simp
  kind name a ha := by
    rw [List.filterMap_cons_some (by rw [ha]; rfl), List.filterMap_nil, Kind.ofAll_singleton]

theorem mem_names (h : Sums seen ms) {name : Identifier} :
    name ∈ Members.names ms ↔ name ∈ seen.flatMap Members.names := by
  rw [h.names, List.mem_eraseDups]

/-- What the members do not have, none of the objects had. -/
theorem get?_eq_none (h : Sums seen ms) {name : Identifier} (hname : get? ms name = none) :
    ∀ ns ∈ seen, get? ns name = none := by
  intro ns hns
  rw [get?_eq_none_iff, h.mem_names, List.mem_flatMap] at hname
  rw [get?_eq_none_iff]
  intro hmem
  exact hname ⟨ns, hns, hmem⟩

/-- A merge adds an object to what is told. -/
theorem merge (h : Sums seen ms) (hns : Unique ns) (hm : Merged (Joins p) ms ns ks) :
    Sums (seen ++ [ns]) ks where
  names := by
    have hnew : (Members.names ns).removeAll (seen.flatMap Members.names) =
        (Members.names ns).filter (· ∉ Members.names ms) := by
      unfold List.removeAll
      refine List.filter_congr fun name _ => ?_
      rw [List.elem_eq_mem, decide_not]
      simp only [h.mem_names]
    have hnodup : ((Members.names ns).filter (· ∉ Members.names ms)).Nodup :=
      ((unique_iff ns).1 hns).filter _
    rw [hm.names, List.flatMap_append, List.flatMap_singleton, List.eraseDups_append, hnew,
      eraseDups_of_nodup hnodup, ← h.names]
  lack name := by
    rw [hm.mayLack, h.lack]
    simp [or_and_right, exists_or]
  kind name k hk := by
    rw [List.filterMap_append]
    rcases hm.get?_cases name with ⟨ha, hb, hk'⟩ | ⟨a, ha, hb, hk'⟩ | ⟨b, ha, hb, hk'⟩ |
      ⟨a, b, k', ha, hb, hk', hj⟩
    · rw [hk] at hk'
      cases hk'
    · obtain rfl : k = a.relax := Option.some.inj (hk.symm.trans hk')
      rw [Node.kind_relax, h.kind name a ha]
      simp [hb]
    · obtain rfl : k = b.relax := Option.some.inj (hk.symm.trans hk')
      have hseen : seen.filterMap (fun ms => (get? ms name).map Node.kind) = [] := by
        rw [List.filterMap_eq_nil_iff]
        intro ns hns
        rw [h.get?_eq_none ha ns hns]
        rfl
      rw [Node.kind_relax, hseen]
      simp [hb, Kind.ofAll_singleton]
    · obtain rfl : k = k' := Option.some.inj (hk.symm.trans hk')
      have hone : [ns].filterMap (fun ms => (get? ms name).map Node.kind) = [b.kind] := by
        simp [hb]
      rw [hj.kind, h.kind name a ha, hone, Kind.ofAll_concat]

end Members.Sums

/-! ## Objects -/

variable {o x r : Object} {os : List Object}

/-- A merge joins the members and leaves the name and the flag as they are. -/
theorem Object.exists_merged (ho : o.node.WF) (hx : x.node.WF) (h : (o.merge p x).value? = some r) :
    ∃ ms, Merged (Joins p) o.members x.members ms ∧ r = { o with members := ms } ∧ r.node.WF := by
  rw [Object.value?_merge, Option.map_eq_some_iff] at h
  obtain ⟨ms, hms, rfl⟩ := h
  have hmerged : Merged (Joins p) o.members x.members ms := by
    refine (Schema.value?_merge ho.unique hx.unique fun name a b k ha hb => ?_).1 hms
    exact value?_unify (ho.member ha) (hx.member hb)
  -- as a node, the object is joined with the other one under its own name
  have hjoin : Joins p o.node (.object o.name x.members x.optional)
      (.object o.name ms (o.optional || x.optional)) :=
    joins_object.2 ⟨rfl, ms, hmerged, rfl⟩
  have hwf := hjoin.wf ho (Node.wf_object.2 (Node.wf_object.1 hx))
  exact ⟨ms, hmerged, rfl, Node.wf_object.2 (Node.wf_object.1 hwf)⟩

theorem Object.sums_foldlM {seen : List Members} (ho : o.node.WF) (hos : ∀ x ∈ os, x.node.WF)
    (hseen : Sums seen o.members) (h : (os.foldlM (Object.merge p) o).value? = some r) :
    Sums (seen ++ os.map Object.members) r.members ∧ r.name = o.name ∧ r.optional = o.optional := by
  induction os generalizing o seen with
  | nil =>
    cases h
    rw [List.map_nil, List.append_nil]
    exact ⟨hseen, rfl, rfl⟩
  | cons x os ih =>
    obtain ⟨hx, hos⟩ := List.forall_mem_cons.1 hos
    rw [List.foldlM_cons, Traced.value?_bind, Option.bind_eq_some_iff] at h
    obtain ⟨o', ho', h⟩ := h
    obtain ⟨ms, hms, rfl, hwf⟩ := exists_merged ho hx ho'
    have hrest := ih hwf hos (hseen.merge hx.unique hms) h
    rwa [List.append_assoc] at hrest

/-- Objects that are merged into a first one, all without a fault: its name and its own flag stay;
it has the members that one of the objects has, in the order in which their names are first met; a
member is optional if one of the objects lacks it or has it optional; and its kind is null if that
is all there is under its name, and otherwise that of the first node that is not null, but real
where that is an integer and there is a real. -/
theorem Object.foldlM_merge_members (hwf : ∀ x ∈ o :: os, x.node.WF)
    (h : (os.foldlM (Object.merge p) o).outcome = .ok r) :
    r.name = o.name ∧ r.optional = o.optional ∧
      names r.members = ((o :: os).flatMap fun x => names x.members).eraseDups ∧
      ∀ name a, get? r.members name = some a →
        (a.isOptional = true ↔ ∃ x ∈ o :: os, x.members.MayLack name) ∧
        a.kind = Kind.ofAll ((o :: os).filterMap fun x => (get? x.members name).map Node.kind) := by
  obtain ⟨ho, hos⟩ := List.forall_mem_cons.1 hwf
  obtain ⟨hsums, hname, hflag⟩ := sums_foldlM ho hos (.one ho.unique) (Traced.value?_eq_some.2 h)
  have hseen : [o.members] ++ os.map Object.members = (o :: os).map Object.members := rfl
  rw [hseen] at hsums
  refine ⟨hname, hflag, ?_, fun name a ha => ⟨?_, ?_⟩⟩
  · rw [hsums.names, List.flatMap_map]
  · have hlack : a.isOptional = true ↔ r.members.MayLack name := by simp [MayLack, ha]
    rw [hlack, hsums.lack]
    simp
  · rw [hsums.kind name a ha, List.filterMap_map]
    rfl

/-- Four objects under the lenient policy. Under `x` there is null, then an integer, then a string
that is given up, then a real; `y` is new with the second object and a string at first; the last one
lacks `z`, which is required otherwise. -/
theorem Object.foldlM_merge_members_after_clash :
    let o : Object := ⟨⟨"a_t"⟩, [(⟨"z"⟩, .array .null false), (⟨"x"⟩, .null)], true⟩
    let os : List Object :=
      [⟨⟨"a_t"⟩, [(⟨"y"⟩, .scalar .string false), (⟨"x"⟩, .scalar .integer false),
          (⟨"z"⟩, .array (.scalar .integer false) false)], false⟩,
        ⟨⟨"b_t"⟩, [(⟨"x"⟩, .scalar .string false), (⟨"z"⟩, .array .null false),
          (⟨"y"⟩, .scalar .integer false)], false⟩,
        ⟨⟨"a_t"⟩, [(⟨"w"⟩, .null), (⟨"y"⟩, .scalar .real false), (⟨"x"⟩, .scalar .real false)],
          false⟩]
    let r : Object := ⟨⟨"a_t"⟩, [(⟨"z"⟩, .array (.scalar .integer true) true),
      (⟨"x"⟩, .scalar .real true), (⟨"y"⟩, .scalar .string true), (⟨"w"⟩, .null)], true⟩
    (∀ x ∈ o :: os, x.node.WF) ∧ (os.foldlM (Object.merge .preferFirst) o).outcome = .ok r ∧
      ((o :: os).flatMap fun x => names x.members).eraseDups = [⟨"z"⟩, ⟨"x"⟩, ⟨"y"⟩, ⟨"w"⟩] ∧
      (∃ x ∈ o :: os, x.members.MayLack ⟨"z"⟩) ∧
      Kind.ofAll [.null, .scalar .integer, .scalar .string, .scalar .real] = .scalar .real := by
  intro o os r
  have hwf : ∀ x ∈ o :: os, x.node.WF := by decide +kernel
  have hr : (os.foldlM (Object.merge .preferFirst) o).outcome = .ok r :=
    Traced.value?_eq_some.1 (by decide +kernel)
  obtain ⟨-, -, hnames, hmembers⟩ := Object.foldlM_merge_members hwf hr
  obtain ⟨hz, -⟩ := hmembers ⟨"z"⟩ _ rfl
  obtain ⟨-, hx⟩ := hmembers ⟨"x"⟩ _ rfl
  exact ⟨hwf, hr, hnames.symm, hz.1 rfl, hx.symm⟩

end SchemaInference.Schema
