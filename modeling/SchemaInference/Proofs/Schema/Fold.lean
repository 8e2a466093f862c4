/-
Folds of joins. A slot is observed several times, and what is known of it is joined with each
observation in turn (`joinAll?`); named observations are gathered into members, those of one name
joined (`gather?`). A gathering does to each name what the fold of the observations under that name
does (`gather?_get?`). The outcome of a fold absorbs every observation, and whatever absorbs all
observations absorbs the outcome.
-/
import SchemaInference.Proofs.Matched
import SchemaInference.Proofs.Schema.Bounds

namespace SchemaInference.Schema

open Members

/-- What is known of a slot after `n` is observed there as well. -/
def joinKnown? (p : Policy) (known : Option Node) (n : Node) : Option Node :=
  match known with
  | none => some n
  | some m => (unify p m n).value?

/-- What is known of a slot after the nodes are observed there, one after the other. -/
def joinAll? (p : Policy) : Option Node → List Node → Option (Option Node)
  | known, [] => some known
  | known, n :: ns => (joinKnown? p known n).bind fun k => joinAll? p (some k) ns

namespace Members

/-- The members after named nodes are observed, one after the other. -/
def gather? (p : Policy) : Members → Members → Option Members
  | known, [] => some known
  | known, m :: ms =>
    (joinKnown? p (get? known m.1) m.2).bind fun k => gather? p (put known m.1 k) ms

/-- The nodes that stand under `name`, in order. -/
def under (ms : Members) (name : Identifier) : List Node :=
  (ms.filter fun m => m.1 = name).map (·.2)

theorem under_cons (m : Identifier × Node) (ms : Members) (name : Identifier) :
    under (m :: ms) name = if m.1 = name then m.2 :: under ms name else under ms name := by
  unfold under
  by_cases h : m.1 = name <;> simp [h]

theorem mem_under {ms : Members} {name : Identifier} {n : Node} :
    n ∈ under ms name ↔ (name, n) ∈ ms := by
  unfold under
  simp only [List.mem_map, List.mem_filter, decide_eq_true_eq]
  constructor
  · rintro ⟨m, ⟨hm, rfl⟩, rfl⟩
    exact hm
  · intro h
    exact ⟨_, ⟨h, rfl⟩, rfl⟩

/-! ## Gathering, name by name -/

variable {p : Policy}

theorem gather?_get? {known ms ks : Members} (h : gather? p known ms = some ks)
    (name : Identifier) : joinAll? p (get? known name) (under ms name) = some (get? ks name) := by
  induction ms generalizing known with
  | nil =>
    cases h
    rfl
  | cons m ms ih =>
    obtain ⟨k, hk, h⟩ := Option.bind_eq_some_iff.1 h
    have := ih h
    rw [get?_put] at this
    rw [under_cons]
    split
    · rename_i e
      subst e
      rw [if_pos rfl] at this
      exact Option.bind_eq_some_iff.2 ⟨k, hk, this⟩
    · rename_i e
      rwa [if_neg e] at this

theorem gather?_isSome {known ms : Members}
    (h : ∀ name, (joinAll? p (get? known name) (under ms name)).isSome = true) :
    ∃ ks, gather? p known ms = some ks := by
  induction ms generalizing known with
  | nil => exact ⟨known, rfl⟩
  | cons m ms ih =>
    have hm := h m.1
    rw [under_cons, if_pos rfl] at hm
    obtain ⟨o, hm⟩ := Option.isSome_iff_exists.1 hm
    obtain ⟨k, hk, hm⟩ := Option.bind_eq_some_iff.1 hm
    have hput : ∀ name,
        (joinAll? p (get? (put known m.1 k) name) (under ms name)).isSome = true := fun name => by
      have := h name
      rw [under_cons] at this
      rw [get?_put]
      split
      · rename_i e
        subst e
        rw [hm]; rfl
      · rename_i e
        rwa [if_neg e] at this
    obtain ⟨ks, hks⟩ := ih hput
    exact ⟨ks, Option.bind_eq_some_iff.2 ⟨k, hk, hks⟩⟩

theorem unique_gather? {known ms ks : Members} (hu : Unique known)
    (h : gather? p known ms = some ks) : Unique ks := by
  induction ms generalizing known with
  | nil =>
    cases h
    exact hu
  | cons m ms ih =>
    obtain ⟨k, -, h⟩ := Option.bind_eq_some_iff.1 h
    exact ih (unique_put hu m.1 k) h

theorem mem_names_gather? {known ms ks : Members} (h : gather? p known ms = some ks)
    {name : Identifier} : name ∈ names ks ↔ name ∈ names known ∨ name ∈ names ms := by
  induction ms generalizing known with
  | nil =>
    cases h
    simp
  | cons m ms ih =>
    obtain ⟨k, -, h⟩ := Option.bind_eq_some_iff.1 h
    rw [ih h, mem_names_put, names_cons, List.mem_cons]
    tauto

end Members

/-! ## Folds of one slot -/

section Fold

variable {p : Policy} {known k : Option Node} {ns : List Node}

/-- All that is known is well formed and has the property. -/
def Known (P : Node → Prop) (known : Option Node) : Prop := ∀ m ∈ known, m.WF ∧ P m

theorem joinKnown?_of_some {m n j : Node} (hm : m.WF) (hn : n.WF) :
    joinKnown? p (some m) n = some j ↔ Joins p m n j := value?_unify hm hn

theorem known_none (P : Node → Prop) : Known P none := by simp [Known]

/-- What every node has and joins keep, the outcome of a fold has. -/
theorem joinAll?_known {P : Node → Prop} (hP : ∀ a b k, P a → P b → Joins p a b k → P k)
    (hk : Known P known) (hns : ∀ n ∈ ns, n.WF ∧ P n) (h : joinAll? p known ns = some k) :
    Known P k := by
  induction ns generalizing known with
  | nil =>
    cases h
    exact hk
  | cons n ns ih =>
    obtain ⟨j, hj, h⟩ := Option.bind_eq_some_iff.1 h
    obtain ⟨⟨hn, hPn⟩, hns⟩ := List.forall_mem_cons.1 hns
    refine ih ?_ hns h
    rintro _ ⟨⟩
    cases known with
    | none =>
      cases hj
      exact ⟨hn, hPn⟩
    | some m =>
      obtain ⟨hm, hPm⟩ := hk m rfl
      have hj := (joinKnown?_of_some hm hn).1 hj
      exact ⟨hj.wf hm hn, hP m n j hPm hPn hj⟩

theorem joinAll?_wf (hk : ∀ m ∈ known, m.WF) (hns : ∀ n ∈ ns, n.WF)
    (h : joinAll? p known ns = some k) : ∀ m ∈ k, m.WF := fun m hm =>
  (joinAll?_known (P := fun _ => True) (fun _ _ _ _ _ _ => trivial) (fun m hm => ⟨hk m hm, trivial⟩)
    (fun n hn => ⟨hns n hn, trivial⟩) h m hm).1

/-- The outcome absorbs what was known and all that was observed. -/
theorem joinAll?_absorbs (hk : ∀ m ∈ known, m.WF) (hns : ∀ n ∈ ns, n.WF)
    (h : joinAll? p known ns = some k) {n : Node} :
    ((∃ m, known = some m ∧ Absorbs p m n) ∨ n ∈ ns) → ∃ a, k = some a ∧ Absorbs p a n := by
  induction ns generalizing known with
  | nil =>
    cases h
    rintro (hn | hn)
    · exact hn
    · cases hn
  | cons n' ns ih =>
    obtain ⟨j, hj, h⟩ := Option.bind_eq_some_iff.1 h
    obtain ⟨hn', hns⟩ := List.forall_mem_cons.1 hns
    have hj' : j.WF ∧ (∀ m, known = some m → Joins p m n' j) ∧ (known = none → j = n') := by
      cases known with
      | none =>
        cases hj
        exact ⟨hn', by simp, fun _ => rfl⟩
      | some m =>
        have hj := (joinKnown?_of_some (hk m rfl) hn').1 hj
        refine ⟨hj.wf (hk m rfl) hn', ?_, by simp⟩
        rintro _ ⟨⟩
        exact hj
    obtain ⟨hw, hsome, hnone⟩ := hj'
    have hwf : ∀ m ∈ some j, m.WF := by rintro _ ⟨⟩; exact hw
    have ih := ih hwf hns h
    rintro (⟨m, hm, hn⟩ | hn)
    · exact ih (.inl ⟨j, rfl, hn.grow (hsome m hm)⟩)
    · rcases List.mem_cons.1 hn with rfl | hn
      · refine ih (.inl ⟨j, rfl, ?_⟩)
        rcases hm : known with _ | m
        · exact hnone hm ▸ .refl j
        · exact .of_joins_right (hsome m hm)
      · exact ih (.inr hn)

theorem joinAll?_of_mem (hns : ∀ n ∈ ns, n.WF) (h : joinAll? p none ns = some k) {n : Node}
    (hn : n ∈ ns) : ∃ a, k = some a ∧ Absorbs p a n :=
  joinAll?_absorbs (by simp) hns h (.inr hn)

/-- What every node of a name has and joins keep, the member of that name has. -/
theorem Members.gather?_known {P : Node → Prop} (hP : ∀ a b k, P a → P b → Joins p a b k → P k)
    {named ms : Members} (hg : gather? p [] named = some ms) {name : Identifier} {a : Node}
    (hn : ∀ n, (name, n) ∈ named → n.WF ∧ P n) (ha : get? ms name = some a) : a.WF ∧ P a := by
  have hjoin := gather?_get? hg name
  rw [ha] at hjoin
  exact joinAll?_known hP (known_none P) (fun n h => hn n (mem_under.1 h)) hjoin a rfl

/-- The member of its name absorbs what is gathered. -/
theorem Members.gather?_of_mem {named ms : Members} (hn : ∀ m ∈ named, m.2.WF)
    (hg : gather? p [] named = some ms) {m : Identifier × Node} (hm : m ∈ named) :
    ∃ a, get? ms m.1 = some a ∧ Absorbs p a m.2 :=
  joinAll?_of_mem (fun _ h => hn _ (mem_under.1 h)) (gather?_get? hg m.1) (mem_under.2 hm)

theorem joinAll?_eq_none (h : joinAll? p none ns = some none) : ns = [] := by
  have hsome : ∀ (ns : List Node) (m : Node), joinAll? p (some m) ns ≠ some none := fun ns => by
    induction ns with
    | nil => exact fun m e => nomatch e
    | cons n ns ih =>
      intro m e
      obtain ⟨j, -, e⟩ := Option.bind_eq_some_iff.1 e
      exact ih j e
  cases ns with
  | nil => rfl
  | cons n ns => exact absurd h (hsome ns n)

/-! ### Under the strict policy -/

/-- Observations that one node absorbs are joined without a fault. -/
theorem joinAll?_isSome {d : Node} (hk : Known (Absorbs .strict d) known)
    (hns : ∀ n ∈ ns, n.WF ∧ Absorbs .strict d n) : ∃ k, joinAll? .strict known ns = some k := by
  induction ns generalizing known with
  | nil => exact ⟨known, rfl⟩
  | cons n ns ih =>
    obtain ⟨⟨hn, hd⟩, hns⟩ := List.forall_mem_cons.1 hns
    obtain ⟨j, hj, hj'⟩ : ∃ j, joinKnown? .strict known n = some j ∧ j.WF ∧ Absorbs .strict d j := by
      cases known with
      | none => exact ⟨n, rfl, hn, hd⟩
      | some m =>
        obtain ⟨hm, hdm⟩ := hk m rfl
        obtain ⟨j, hj⟩ := exists_joins hm hn hdm hd
        exact ⟨j, (joinKnown?_of_some hm hn).2 hj, hj.wf hm hn, hdm.of_both hd hj⟩
    have hknown : Known (Absorbs .strict d) (some j) := by rintro _ ⟨⟩; exact hj'
    obtain ⟨k, h⟩ := ih hknown hns
    exact ⟨k, Option.bind_eq_some_iff.2 ⟨j, hj, h⟩⟩

/-- What alike observations come to is alike, whatever their order and however often each occurs. -/
theorem joinAll?_alike {ns' : List Node} (hns : ∀ n ∈ ns, n.WF) (hns' : ∀ n ∈ ns', n.WF)
    (ha : Matched Node.Alike ns ns') (h : joinAll? .strict none ns = some k) :
    ∃ k', joinAll? .strict none ns' = some k' ∧ Option.Rel Node.Alike k k' := by
  cases k with
  | none =>
    obtain rfl := joinAll?_eq_none h
    obtain rfl := ha.eq_nil
    exact ⟨none, rfl, .none⟩
  | some a =>
    have hbound : ∀ n ∈ ns, Absorbs .strict a n := fun n hn => by
      obtain ⟨_, ⟨⟩, h⟩ := joinAll?_of_mem hns h hn
      exact h
    have hbound' : ∀ n' ∈ ns', n'.WF ∧ Absorbs .strict a n' := fun n' hn' => by
      obtain ⟨n, hn, hl⟩ := ha.2 n' hn'
      exact ⟨hns' n' hn', (hbound n hn).trans hl.absorbs⟩
    obtain ⟨k', h'⟩ := joinAll?_isSome (known_none _) hbound'
    cases k' with
    | none =>
      obtain rfl := joinAll?_eq_none h'
      obtain rfl := (ha.symm (S := fun b a => a.Alike b) fun _ _ h => h).eq_nil
      cases h
    | some a' =>
      refine ⟨_, h', .some ?_⟩
      -- each outcome absorbs the nodes of the other side, so the two absorb each other
      have hboth : ∀ {b c k d : Node}, Absorbs .strict d b → Absorbs .strict d c →
          Joins .strict b c k → Absorbs .strict d k := .of_both
      have hle := joinAll?_known (P := Absorbs .strict a) (fun _ _ _ => hboth) (known_none _)
        hbound' h' a' rfl
      have hbound₂ : ∀ n ∈ ns, n.WF ∧ Absorbs .strict a' n := fun n hn => by
        obtain ⟨n', hn', hl⟩ := ha.1 n hn
        obtain ⟨_, ⟨⟩, h⟩ := joinAll?_of_mem hns' h' hn'
        exact ⟨hns n hn, h.trans hl.symm.absorbs⟩
      have hge := joinAll?_known (P := Absorbs .strict a') (fun _ _ _ => hboth) (known_none _)
        hbound₂ h a rfl
      exact .of_absorbs hge.1 hle.1 hle.2 hge.2

end Fold

/-- The same members in another order, their nodes alike. -/
structure Members.Alike (ms ns : Members) : Prop where
  names : (names ms).Perm (names ns)
  both : ∀ name a b, get? ms name = some a → get? ns name = some b → Node.Alike a b

theorem Members.any_isOptional_iff {ms : Members} (hu : Unique ms) :
    ms.any (·.2.isOptional) = true ↔ ∃ name a, get? ms name = some a ∧ a.isOptional = true := by
  rw [List.any_eq_true]
  constructor
  · rintro ⟨m, hm, ho⟩
    exact ⟨m.1, m.2, get?_of_mem hu hm, ho⟩
  · rintro ⟨name, a, ha, ho⟩
    exact ⟨_, mem_of_get? ha, ho⟩

/-- Members that absorb others are optional where these are. -/
theorem Members.any_isOptional_of_absorbs {p : Policy} {n m : Identifier} {ms ns : Members}
    {x y : Bool} (h : Absorbs p (.object n ms x) (.object m ns y)) (hms : Unique ms)
    (hns : Unique ns) (ho : ns.any (·.2.isOptional) = true) : ms.any (·.2.isOptional) = true := by
  obtain ⟨-, present, both, -⟩ := h.of_object
  obtain ⟨name, b, hb, ho⟩ := (any_isOptional_iff hns).1 ho
  obtain ⟨a, ha⟩ := present name b hb
  exact (any_isOptional_iff hms).2 ⟨name, a, ha, (both name a b ha hb).isOptional ho⟩

namespace Members.Alike

variable {ms ns : Members}

theorem symm (h : Members.Alike ms ns) : Members.Alike ns ms :=
  ⟨h.names.symm, fun name a b ha hb => (h.both name b a hb ha).symm⟩

theorem any_isOptional (h : Members.Alike ms ns) (hms : Unique ms) (hns : Unique ns) :
    ms.any (·.2.isOptional) = ns.any (·.2.isOptional) := by
  have hle : ∀ {ms ns : Members}, Members.Alike ms ns → Unique ms → Unique ns →
      ms.any (·.2.isOptional) = true → ns.any (·.2.isOptional) = true := by
    intro ms ns h hms hns ho
    obtain ⟨name, a, ha, ho⟩ := (any_isOptional_iff hms).1 ho
    obtain ⟨b, hb⟩ := mem_names_iff.1 (h.names.mem_iff.1 (mem_names_of_get? ha))
    exact (any_isOptional_iff hns).2 ⟨name, b, hb, (h.both name a b ha hb).isOptional ▸ ho⟩
  exact Bool.eq_iff_iff.2 ⟨hle h hms hns, hle h.symm hns hms⟩

end Members.Alike

theorem Node.Alike.carriesOptional {a b : Node} (h : a.Alike b) (ha : a.WF) (hb : b.WF) :
    a.carriesOptional = b.carriesOptional := by
  cases h with
  | null => rfl
  | scalar => rfl
  | array o h => exact congrArg (o || ·) h.isOptional
  | map n o h => exact congrArg (o || ·) h.isOptional
  | object n o hn both =>
    have h : Members.Alike _ _ := ⟨hn, both⟩
    exact congrArg (o || ·) (h.any_isOptional ha.unique hb.unique)

/-- What alike named observations are gathered into is alike. -/
theorem Members.gather?_alike {named named' ms : Members} (hn : ∀ m ∈ named, m.2.WF)
    (hn' : ∀ m ∈ named', m.2.WF)
    (h : Matched (fun m m' => m.1 = m'.1 ∧ m.2.Alike m'.2) named named')
    (hg : gather? .strict [] named = some ms) :
    ∃ ms', gather? .strict [] named' = some ms' ∧ Members.Alike ms ms' := by
  have hunder : ∀ name, Matched Node.Alike (under named name) (under named' name) := fun name => by
    refine ⟨fun a ha => ?_, fun b hb => ?_⟩
    · obtain ⟨⟨name', b⟩, hb, rfl, hab⟩ := h.1 _ (mem_under.1 ha)
      exact ⟨b, mem_under.2 hb, hab⟩
    · obtain ⟨⟨name', a⟩, ha, rfl, hab⟩ := h.2 _ (mem_under.1 hb)
      exact ⟨a, mem_under.2 ha, hab⟩
  have hname : ∀ name, ∃ k, joinAll? .strict none (under named' name) = some k ∧
      Option.Rel Node.Alike (get? ms name) k := fun name =>
    joinAll?_alike (fun n hm => hn _ (mem_under.1 hm)) (fun n hm => hn' _ (mem_under.1 hm))
      (hunder name) (gather?_get? hg name)
  obtain ⟨ms', hg'⟩ : ∃ ms', gather? .strict [] named' = some ms' := gather?_isSome fun name => by
    obtain ⟨k, hk, -⟩ := hname name
    exact Option.isSome_iff_exists.2 ⟨k, hk⟩
  have hget : ∀ name, Option.Rel Node.Alike (get? ms name) (get? ms' name) := fun name => by
    obtain ⟨k, hk, hrel⟩ := hname name
    have hk' := gather?_get? hg' name
    rw [get?_nil, hk, Option.some.injEq] at hk'
    exact hk' ▸ hrel
  refine ⟨ms', hg', ?_, fun name a b ha hb => ?_⟩
  · refine (List.perm_ext_iff_of_nodup (unique_gather? unique_nil hg)
      (unique_gather? unique_nil hg')).2 fun name => ?_
    show name ∈ names ms ↔ name ∈ names ms'
    rw [mem_names_iff, mem_names_iff, ← Option.isSome_iff_exists, ← Option.isSome_iff_exists]
    have hrel := hget name
    generalize get? ms name = x at hrel
    generalize get? ms' name = y at hrel
    cases hrel <;> simp
  · have hrel := hget name
    rw [ha, hb] at hrel
    cases hrel with
    | some h => exact h

end SchemaInference.Schema
