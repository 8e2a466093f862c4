/-
Where a merge comes to a halt, and what it leaves. Incoming members are taken in one by one, so the
first one that cannot be joined with the member of its name ends the merge: what came before it has
been taken in, null stands in its own place, and what comes after it has not been looked at
(`Members.LeftAt`). The members that the incoming ones lack are optional by then, since that is seen
to before the first is taken in. A merge fails just where two members of one name cannot be joined,
and at the first of these (`Object.merge_halts`).
-/
import SchemaInference.Proofs.Schema.Joins

namespace SchemaInference.Schema

open Members Traced

variable {p : Policy} {ms ns : Members}

/-! ## Taking members in -/

/-- The members before the one that halts are taken in, and that one cannot be. -/
theorem fault?_absorb {e : Halted Members Fault} (h : (absorb p ms ns).fault? = some e) :
    ∃ before k b after taken a f, ns = before ++ (k, b) :: after ∧
      (absorb p ms before).value? = some taken ∧ get? taken k = some a ∧
      (unify p a b).fault? = some f ∧ e = ⟨put taken k .null, f.within k⟩ := by
  induction ns generalizing ms with
  | nil =>
    unfold absorb at h
    cases h
  | cons m ns ih =>
    obtain ⟨name, b⟩ := m
    unfold absorb at h
    rcases hm : get? ms name with _ | a
    · rw [hm] at h
      obtain ⟨before, k, c, after, taken, a, f, rfl, htaken, ha, hf, he⟩ := ih h
      refine ⟨(name, b) :: before, k, c, after, taken, a, f, rfl, ?_, ha, hf, he⟩
      unfold absorb
      rw [hm]
      exact htaken
    · rw [hm] at h
      rcases fault?_bind.1 h with h | ⟨j, hj, h⟩
      · rw [fault?_mapFault] at h
        obtain ⟨f, hf, rfl⟩ := Option.map_eq_some_iff.1 h
        refine ⟨[], name, b, ns, ms, a, f, rfl, ?_, hm, hf, rfl⟩
        unfold absorb
        rfl
      · obtain ⟨before, k, c, after, taken, a', f, rfl, htaken, ha, hf, he⟩ := ih h
        refine ⟨(name, b) :: before, k, c, after, taken, a', f, rfl, ?_, ha, hf, he⟩
        unfold absorb
        rw [hm, value?_bind, hj]
        exact htaken

/-! ## What is left -/

/-- What is left of `ms` when the members in `before` have been taken in, the one named `k` could not
be, and those in `after` were still to come. -/
structure Members.LeftAt (p : Policy) (ms before : Members) (k : Identifier) (b : Node)
    (after left : Members) : Prop where
  names : names left = names ms ++ (names before).filter (· ∉ names ms)
  halted : get? left k = some .null
  lacked : ∀ name a, get? ms name = some a → get? (before ++ (k, b) :: after) name = none →
    get? left name = some a.relax
  joined : ∀ name a c, get? ms name = some a → get? before name = some c →
    ∃ j, (unify p a c).outcome = .ok j ∧ get? left name = some j
  fresh : ∀ name c, get? ms name = none → get? before name = some c →
    get? left name = some c.relax
  untouched : ∀ name a c, get? ms name = some a → get? after name = some c →
    get? left name = some a

namespace Members

/-- Where names are unique, a member of one part of the list is none of the other parts. -/
theorem unique_middle {before after : Members} {k : Identifier} {b : Node}
    (hu : Unique (before ++ (k, b) :: after)) :
    Unique before ∧ (∀ name c, get? before name = some c → name ≠ k) ∧
      ∀ name c, get? after name = some c → name ≠ k ∧ get? before name = none := by
  rw [unique_iff, names_append, names_cons, List.nodup_append, List.nodup_cons] at hu
  obtain ⟨hbefore, ⟨hk, -⟩, hapart⟩ := hu
  refine ⟨hbefore, fun name c hc => ?_, fun name c hc => ⟨?_, ?_⟩⟩
  · exact hapart name (mem_names_of_get? hc) k (List.mem_cons_self ..)
  · rintro rfl
    exact hk (mem_names_of_get? hc)
  · refine get?_eq_none_iff.2 fun hname => ?_
    exact hapart name hname name (List.mem_cons_of_mem _ (mem_names_of_get? hc)) rfl

end Members

/-- With null in its place, the member that halts is the only one of those taken in that changes. -/
theorem leftAt_of_taken {before after taken : Members} {k : Identifier} {a b : Node}
    (hns : Unique (before ++ (k, b) :: after))
    (h : Taken (fun a b j => (unify p a b).value? = some j)
      (relaxMissing ms (before ++ (k, b) :: after)) before taken)
    (ha : get? taken k = some a) :
    get? ms k = some a ∧ LeftAt p ms before k b after (put taken k .null) := by
  obtain ⟨-, hbefore, hafter⟩ := unique_middle hns
  have hslot : ∀ name, Takes _ (get? (relaxMissing ms _) name) _ _ := h.slots
  have hother : ∀ name, name ≠ k → get? (put taken k .null) name = get? taken name :=
    fun name hne => by rw [get?_put, if_neg hne.symm]
  -- what the incoming members have is not made optional beforehand
  have hkeep : ∀ name, name ∈ names (before ++ (k, b) :: after) →
      get? (relaxMissing ms (before ++ (k, b) :: after)) name = get? ms name := fun name hname => by
    obtain ⟨c, hc⟩ := mem_names_iff.1 hname
    exact get?_relaxMissing_of_get? ms hc
  constructor
  · have hnone : get? before k = none := get?_eq_none_iff.2 fun hk => by
      obtain ⟨c, hc⟩ := mem_names_iff.1 hk
      exact hbefore k c hc rfl
    have hk := hslot k
    rw [hnone, takes_none, ha, hkeep k (by simp)] at hk
    exact hk.symm
  · refine ⟨?_, ?_, fun name a hms hnone => ?_, fun name a c hms hc => ?_, fun name c hms hc => ?_,
      fun name a c hms hc => ?_⟩
    · rw [names_put_of_mem (mem_names_of_get? ha), h.names, names_relaxMissing]
    · rw [get?_put, if_pos rfl]
    · have hname := get?_eq_none_iff.1 hnone
      rw [names_append, names_cons, List.mem_append, List.mem_cons] at hname
      have hbnone : get? before name = none :=
        get?_eq_none_iff.2 fun h => hname (.inl h)
      have hs := hslot name
      rw [get?_relaxMissing, hms, hnone, hbnone, takes_none] at hs
      rw [hother name fun e => hname (.inr (.inl e)), hs]
      rfl
    · have hs := hslot name
      have hin : name ∈ names (before ++ (k, b) :: after) := by
        rw [names_append]
        exact List.mem_append_left _ (mem_names_of_get? hc)
      rw [hkeep name hin, hms, hc] at hs
      rw [hother name (hbefore name c hc)]
      generalize get? taken name = x at hs
      cases hs with
      | joined hj => exact ⟨_, value?_eq_some.1 hj, rfl⟩
    · have hs := hslot name
      rw [get?_relaxMissing, hms, hc] at hs
      rw [hother name (hbefore name c hc)]
      generalize get? taken name = x at hs
      cases hs with
      | fresh => rfl
    · obtain ⟨hne, hbnone⟩ := hafter name c hc
      have hs := hslot name
      have hin : name ∈ names (before ++ (k, b) :: after) := by
        rw [names_append, names_cons]
        exact List.mem_append_right _ (List.mem_cons_of_mem _ (mem_names_of_get? hc))
      rw [hkeep name hin, hms, hbnone, takes_none] at hs
      rw [hother name hne, hs]

/-! ## Merging -/

theorem Object.fault?_merge {o x : Object} {e : Halted Object Fault} :
    (o.merge p x).fault? = some e ↔
      ∃ left, (Members.merge p o.members x.members).fault? = some ⟨left, e.fault⟩ ∧
        e.left = { o with members := left } := by
  unfold Object.merge
  generalize Members.merge p o.members x.members = merged
  obtain ⟨es, out⟩ := merged
  obtain ⟨left, f⟩ := e
  cases out with
  | ok ks => simp [fault?]
  | error h =>
    obtain ⟨left', f'⟩ := h
    simp only [fault?, Option.some.injEq, Halted.mk.injEq]
    constructor
    · rintro ⟨rfl, rfl⟩
      exact ⟨left', ⟨rfl, rfl⟩, rfl⟩
    · rintro ⟨_, ⟨rfl, rfl⟩, rfl⟩
      exact ⟨rfl, rfl⟩

/-- Members that are merged have a join under every name that they have in common. -/
theorem exists_unify_of_merge {ks : Members} (hms : Unique ms) (hns : Unique ns)
    (h : (Members.merge p ms ns).value? = some ks) {name : Identifier} {a b : Node}
    (ha : get? ms name = some a) (hb : get? ns name = some b) :
    ∃ j, (unify p a b).value? = some j := by
  have hm := (value?_merge (J := fun a b j => (unify p a b).value? = some j) hms hns
    fun _ _ _ _ _ _ => Iff.rfl).1 h
  obtain ⟨j, hj⟩ := Joins.exists_get? hm.names (.inl (mem_names_of_get? ha))
  exact ⟨j, hm.both name a b j ha hb hj⟩

/-- A merge halts at the first of its incoming members that cannot be joined with the known one. -/
theorem Members.fault?_merge (hms : Unique ms) (hns : Unique ns) {e : Halted Members Fault}
    (h : (Members.merge p ms ns).fault? = some e) :
    ∃ before k b after a f, ns = before ++ (k, b) :: after ∧ get? ms k = some a ∧
      (unify p a b).fault? = some f ∧ e.fault = f.within k ∧
      LeftAt p ms before k b after e.left := by
  obtain ⟨before, k, b, after, taken, a, f, rfl, htaken, ha, hf, rfl⟩ := fault?_absorb h
  obtain ⟨hbefore, -⟩ := unique_middle hns
  have htaken := (value?_absorb (J := fun a b j => (unify p a b).value? = some j)
    (unique_relaxMissing hms _) hbefore fun _ _ _ _ _ _ => Iff.rfl).1 htaken
  obtain ⟨hk, hleft⟩ := leftAt_of_taken hns htaken ha
  exact ⟨before, k, b, after, a, f, rfl, hk, hf, rfl, hleft⟩

/-- A merge of two objects fails just where members of one name cannot be joined. It halts at the
first of these as they come in. Its fault is that of the two, told from inside the member. What it
leaves is the object under its name and with its own flag. The old members are all there in their
order: those that the incoming object lacks are optional; those that came in before are joined; the
one that halts is null; and those that come after it stay as they were. Behind them stand the new
members that came in before, in their order, each of them optional. -/
theorem Object.merge_halts {o x : Object} (ho : Unique o.members) (hx : Unique x.members) :
    ((∃ e, (o.merge p x).outcome = .error e) ↔
      ∃ name a b f, get? o.members name = some a ∧ get? x.members name = some b ∧
        (unify p a b).outcome = .error f) ∧
    ∀ e, (o.merge p x).outcome = .error e → ∃ before k b after a f,
      x.members = before ++ (k, b) :: after ∧ get? o.members k = some a ∧
      (unify p a b).outcome = .error f ∧ e.fault = f.within k ∧
      e.left.name = o.name ∧ e.left.optional = o.optional ∧
      LeftAt p o.members before k b after e.left.members := by
  have hhalts : ∀ e, (o.merge p x).outcome = .error e → ∃ before k b after a f,
      x.members = before ++ (k, b) :: after ∧ get? o.members k = some a ∧
      (unify p a b).outcome = .error f ∧ e.fault = f.within k ∧
      e.left.name = o.name ∧ e.left.optional = o.optional ∧
      LeftAt p o.members before k b after e.left.members := by
    intro e he
    obtain ⟨left, hmerge, hleft⟩ := Object.fault?_merge.1 (fault?_eq_some.2 he)
    obtain ⟨before, k, b, after, a, f, hsplit, hk, hf, hfault, hat⟩ :=
      Members.fault?_merge ho hx hmerge
    rw [hleft]
    exact ⟨before, k, b, after, a, f, hsplit, hk, fault?_eq_some.1 hf, hfault, rfl, rfl, hat⟩
  refine ⟨⟨?_, ?_⟩, hhalts⟩
  · rintro ⟨e, he⟩
    obtain ⟨before, k, b, after, a, f, hsplit, hk, hf, -⟩ := hhalts e he
    refine ⟨k, a, b, f, hk, get?_of_mem hx ?_, hf⟩
    rw [hsplit]
    simp
  · rintro ⟨name, a, b, f, ha, hb, hf⟩
    cases hout : (o.merge p x).outcome with
    | error e => exact ⟨e, rfl⟩
    | ok r =>
      -- where the merge ends in members, the two have been joined
      have hr := value?_eq_some.2 hout
      rw [Object.value?_merge, Option.map_eq_some_iff] at hr
      obtain ⟨ks, hks, -⟩ := hr
      obtain ⟨j, hj⟩ := exists_unify_of_merge ho hx hks ha hb
      rw [value?_eq_some, hf] at hj
      cases hj

/-- The lenient policy does not settle a map that meets an object. By then `z`, which does not come
in, and the new `n` are optional and `w` has become real; `x` is null; `y` is not made optional any
more and `q` not added. -/
theorem Object.merge_halts_object_map :
    let o : Object := ⟨⟨"a_t"⟩, [(⟨"x"⟩, .object ⟨"x_t"⟩ [(⟨"m"⟩, .map ⟨"m"⟩ .null false)] false),
      (⟨"y"⟩, .scalar .string false), (⟨"z"⟩, .scalar .boolean false),
      (⟨"w"⟩, .scalar .integer false)], true⟩
    let x : Object := ⟨⟨"a_t"⟩, [(⟨"n"⟩, .scalar .string false), (⟨"w"⟩, .scalar .real false),
      (⟨"x"⟩, .object ⟨"x_t"⟩ [(⟨"m"⟩, .object ⟨"m_t"⟩ [] false)] false), (⟨"y"⟩, .null),
      (⟨"q"⟩, .null)], false⟩
    let left : Object := ⟨⟨"a_t"⟩, [(⟨"x"⟩, .null), (⟨"y"⟩, .scalar .string false),
      (⟨"z"⟩, .scalar .boolean true), (⟨"w"⟩, .scalar .real false),
      (⟨"n"⟩, .scalar .string true)], true⟩
    Unique o.members ∧ Unique x.members ∧
      (o.merge .preferFirst x).outcome =
        .error ⟨left, ⟨[⟨"x"⟩, ⟨"m"⟩], .objectAndMap ⟨"m_t"⟩ ⟨"m"⟩⟩⟩ ∧
      ∃ before k b after, x.members = before ++ (k, b) :: after ∧
        LeftAt .preferFirst o.members before k b after left.members := by
  intro o x left
  have ho : (o.members.map (·.1)).Nodup := by decide +kernel
  have hx : (x.members.map (·.1)).Nodup := by decide +kernel
  have he : (o.merge .preferFirst x).outcome =
      .error ⟨left, ⟨[⟨"x"⟩, ⟨"m"⟩], .objectAndMap ⟨"m_t"⟩ ⟨"m"⟩⟩⟩ := by rfl
  obtain ⟨-, hhalts⟩ := Object.merge_halts ho hx
  obtain ⟨before, k, b, after, a, f, hsplit, -, -, -, -, -, hat⟩ := hhalts _ he
  exact ⟨ho, hx, he, before, k, b, after, hsplit, hat⟩

end SchemaInference.Schema
