/-
The rules of joining, apart from the order in which they are carried out: `Joins p a b k` says that
`k` is the join of `a` and `b` under policy `p`. On nodes whose member names are unique at every
level, `unify` succeeds just where the rules give a join, and with that join (`value?_unify`).
-/
import SchemaInference.Schema.Unify
import SchemaInference.Proofs.Outcome
import SchemaInference.Proofs.Schema.Members

namespace SchemaInference.Schema

open Members

/-! ## Nodes -/

/-- At every level of the node, no two members of an object share a name. -/
inductive Node.WF : Node → Prop
  | null : WF .null
  | scalar (s : Scalar) (o : Bool) : WF (.scalar s o)
  | array {e : Node} (o : Bool) : WF e → WF (.array e o)
  | object (n : Identifier) {ms : Members} (o : Bool) :
      Unique ms → (∀ m ∈ ms, WF m.2) → WF (.object n ms o)
  | map (n : Identifier) {v : Node} (o : Bool) : WF v → WF (.map n v o)

namespace Node

theorem WF.element {e : Node} {o : Bool} (h : (Node.array e o).WF) : e.WF := by cases h; assumption

theorem WF.value {n : Identifier} {v : Node} {o : Bool} (h : (Node.map n v o).WF) : v.WF := by
  cases h; assumption

theorem wf_object {n : Identifier} {ms : Members} {o : Bool} :
    (Node.object n ms o).WF ↔ Unique ms ∧ ∀ m ∈ ms, m.2.WF := by
  constructor
  · rintro ⟨⟩
    constructor <;> assumption
  · rintro ⟨hu, hm⟩
    exact .object n o hu hm

theorem WF.unique {n : Identifier} {ms : Members} {o : Bool} (h : (Node.object n ms o).WF) :
    Unique ms := by
  cases h; assumption

theorem WF.member {n : Identifier} {ms : Members} {o : Bool} (h : (Node.object n ms o).WF)
    {name : Identifier} {a : Node} (ha : get? ms name = some a) : a.WF := by
  cases h with
  | object _ _ _ hm => exact hm _ (mem_of_get? ha)

theorem WF.setOptional {a : Node} (h : a.WF) (o : Bool) : (a.setOptional o).WF := by
  cases h with
  | null => exact .null
  | scalar => exact .scalar ..
  | array _ he => exact .array _ he
  | object _ _ hu hm => exact .object _ _ hu hm
  | map _ _ hv => exact .map _ _ hv

theorem WF.relax {a : Node} (h : a.WF) : a.relax.WF := h.setOptional true

/-- Induction on nodes: the members of an object are all below it. -/
@[elab_as_elim]
theorem induction {P : Node → Prop} (null : P .null) (scalar : ∀ s o, P (.scalar s o))
    (array : ∀ e o, P e → P (.array e o))
    (object : ∀ n ms o, (∀ m ∈ ms, P m.2) → P (.object n ms o))
    (map : ∀ n v o, P v → P (.map n v o)) (a : Node) : P a :=
  Node.rec (motive_1 := P) (motive_2 := fun ms => ∀ m ∈ ms, P m.2) (motive_3 := fun m => P m.2)
    null scalar array object map (fun _ h => nomatch h)
    (fun _ _ hm hms => List.forall_mem_cons.2 ⟨hm, hms⟩) (fun _ _ h => h) a

/-! ### Deciding well-formedness -/

mutual

def isWF : Node → Bool
  | .null => true
  | .scalar .. => true
  | .array e _ => isWF e
  | .object _ ms _ => decide (ms.map (·.1)).Nodup && areWF ms
  | .map _ v _ => isWF v

def areWF : List (Identifier × Node) → Bool
  | [] => true
  | (_, a) :: ms => isWF a && areWF ms

end

mutual

theorem isWF_iff (a : Node) : isWF a = true ↔ a.WF := by
  match a with
  | .null => exact iff_of_true rfl .null
  | .scalar s o => exact iff_of_true rfl (.scalar s o)
  | .array e o =>
    rw [isWF, isWF_iff e]
    exact ⟨.array o, WF.element⟩
  | .object n ms o =>
    rw [isWF, Bool.and_eq_true, decide_eq_true_iff, areWF_iff ms, wf_object]
    rfl
  | .map n v o =>
    rw [isWF, isWF_iff v]
    exact ⟨.map n o, WF.value⟩

theorem areWF_iff (ms : List (Identifier × Node)) : areWF ms = true ↔ ∀ m ∈ ms, m.2.WF := by
  match ms with
  | [] => simp [areWF]
  | (_, a) :: ms => rw [areWF, Bool.and_eq_true, isWF_iff a, areWF_iff ms, List.forall_mem_cons]

end

instance : DecidablePred WF := fun a => decidable_of_iff (isWF a = true) (isWF_iff a)

/-! ### Flags -/

@[simp] theorem kind_setOptional (a : Node) (o : Bool) : (a.setOptional o).kind = a.kind := by
  cases a <;> rfl

@[simp] theorem kind_relax (a : Node) : a.relax.kind = a.kind := kind_setOptional a true

@[simp] theorem isOptional_relax (a : Node) : a.relax.isOptional = true := by cases a <;> rfl

theorem isOptional_setOptional {a : Node} {o : Bool} (h : a.kind ≠ .null) :
    (a.setOptional o).isOptional = o := by
  cases a with
  | null => exact absurd rfl h
  | _ => rfl

theorem relax_eq_self {a : Node} (h : a.isOptional = true) : a.relax = a := by
  cases a <;> simp_all [relax, Node.setOptional, isOptional]

theorem setOptional_isOptional (a : Node) : a.setOptional a.isOptional = a := by cases a <;> rfl

theorem kind_eq_null {a : Node} : a.kind = .null ↔ a = .null := by cases a <;> simp [kind]

end Node

/-! ## Clashes of kinds -/

/-- Two kinds that do not go together for another reason than a name. -/
def Kind.clashes : Kind → Kind → Bool
  | .null, _ => false
  | _, .null => false
  | .scalar s, .scalar t => (s.join? t).isNone
  | .array, .array => false
  | .object, .object => false
  | .map, .map => false
  | .object, .map => false
  | .map, .object => false
  | _, _ => true

/-! ## The rules -/

/-- The rules by which two observations of one slot are joined. -/
inductive Joins (p : Policy) : Node → Node → Node → Prop
  | nullRight (a : Node) : Joins p a .null a.relax
  | nullLeft (b : Node) : Joins p .null b b.relax
  | scalar {s t u : Scalar} (x y : Bool) (hu : s.join? t = some u) :
      Joins p (.scalar s x) (.scalar t y) (.scalar u (x || y))
  | array {e f k : Node} (x y : Bool) (h : Joins p e f k) :
      Joins p (.array e x) (.array f y) (.array k (x || y))
  | object (n : Identifier) {ms ns ks : Members} (x y : Bool)
      (names : names ks = names ms ++ (names ns).filter (· ∉ names ms))
      (both : ∀ name a b k, get? ms name = some a → get? ns name = some b → get? ks name = some k →
        Joins p a b k)
      (left : ∀ name a, get? ms name = some a → get? ns name = none → get? ks name = some a.relax)
      (right : ∀ name b, get? ms name = none → get? ns name = some b → get? ks name = some b.relax) :
      Joins p (.object n ms x) (.object n ns y) (.object n ks (x || y))
  | map (n : Identifier) {v w k : Node} (x y : Bool) (h : Joins p v w k) :
      Joins p (.map n v x) (.map n w y) (.map n k (x || y))
  | settled {a b : Node} (hp : p = .preferFirst) (hk : a.kind.clashes b.kind = true) :
      Joins p a b (a.setOptional (a.isOptional || b.isOptional))

namespace Joins

variable {p : Policy} {a b k : Node}

theorem mem_names {ms ns ks : Members} (h : Members.names ks = names ms ++ (names ns).filter (· ∉ names ms))
    {name : Identifier} : name ∈ names ks ↔ name ∈ names ms ∨ name ∈ names ns := by
  rw [h, List.mem_append, List.mem_filter]
  by_cases hm : name ∈ names ms <;> simp [hm]

/-- A member of the join was there on both sides, or it is that of the one side that has it, made
optional. -/
theorem member_cases {ms ns ks : Members}
    (h : Members.names ks = names ms ++ (names ns).filter (· ∉ names ms))
    (left : ∀ name a, get? ms name = some a → get? ns name = none → get? ks name = some a.relax)
    (right : ∀ name b, get? ms name = none → get? ns name = some b → get? ks name = some b.relax)
    {name : Identifier} {k : Node} (hk : get? ks name = some k) :
    (∃ a b, get? ms name = some a ∧ get? ns name = some b) ∨
      (∃ a, get? ms name = some a ∧ get? ns name = none ∧ a.relax = k) ∨
      ∃ b, get? ms name = none ∧ get? ns name = some b ∧ b.relax = k := by
  have hin := (mem_names h).1 (mem_names_of_get? hk)
  rw [mem_names_iff, mem_names_iff] at hin
  rcases ha : get? ms name with _ | a <;> rcases hb : get? ns name with _ | b
  · simp [ha, hb] at hin
  · have hkb := right name b ha hb
    rw [hk, Option.some.injEq] at hkb
    exact .inr (.inr ⟨b, rfl, rfl, hkb.symm⟩)
  · have hka := left name a ha hb
    rw [hk, Option.some.injEq] at hka
    exact .inr (.inl ⟨a, rfl, rfl, hka.symm⟩)
  · exact .inl ⟨a, b, rfl, rfl⟩

/-- A member of either side is in the join. -/
theorem exists_get? {ms ns ks : Members}
    (h : Members.names ks = names ms ++ (names ns).filter (· ∉ names ms)) {name : Identifier}
    (hm : name ∈ names ms ∨ name ∈ names ns) : ∃ k, get? ks name = some k :=
  mem_names_iff.1 ((mem_names h).2 hm)

theorem isOptional (h : Joins p a b k) : k.isOptional = (a.isOptional || b.isOptional) := by
  cases h with
  | nullRight => rw [Node.isOptional_relax, show Node.null.isOptional = true from rfl, Bool.or_true]
  | nullLeft => rw [Node.isOptional_relax, show Node.null.isOptional = true from rfl, Bool.true_or]
  | settled hp hk =>
    refine Node.isOptional_setOptional fun e => ?_
    rw [e] at hk
    simp [Kind.clashes] at hk
  | _ => rfl

theorem isOptional_left (h : Joins p a b k) (ha : a.isOptional = true) : k.isOptional = true := by
  rw [h.isOptional, ha, Bool.true_or]

theorem isOptional_right (h : Joins p a b k) (hb : b.isOptional = true) : k.isOptional = true := by
  rw [h.isOptional, hb, Bool.or_true]

theorem unique {ms ns ks : Members} (hms : Unique ms) (hns : Unique ns)
    (h : Members.names ks = names ms ++ (names ns).filter (· ∉ names ms)) : Unique ks := by
  rw [unique_iff, h]
  refine List.nodup_append.2 ⟨hms, hns.filter _, ?_⟩
  rintro x hx y hy rfl
  simpa [hx] using (List.mem_filter.1 hy).2

theorem wf (h : Joins p a b k) (ha : a.WF) (hb : b.WF) : k.WF := by
  induction h with
  | nullRight a => exact ha.relax
  | nullLeft b => exact hb.relax
  | scalar => exact .scalar ..
  | array _ _ _ ih => exact .array _ (ih ha.element hb.element)
  | map n _ _ _ ih => exact .map n _ (ih ha.value hb.value)
  | settled => exact ha.setOptional _
  | @object n ms ns ks x y hn both left right ih =>
    have hu := unique ha.unique hb.unique hn
    refine .object n _ hu fun m hm => ?_
    have hk := get?_of_mem hu hm
    rcases member_cases hn left right hk with ⟨a, b, ha', hb'⟩ | ⟨a, ha', -, e⟩ | ⟨b, -, hb', e⟩
    · exact ih _ _ _ _ ha' hb' hk (ha.member ha') (hb.member hb')
    · exact e ▸ (ha.member ha').relax
    · exact e ▸ (hb.member hb').relax

end Joins

/-! ## Carrying the rules out -/

/-- What becomes of a member when members are taken in, told by what is known of it, what comes in
and what is known afterwards; `J` tells what joining two nodes does. -/
inductive Takes (J : Node → Node → Node → Prop) : Option Node → Option Node → Option Node → Prop
  | kept (a : Option Node) : Takes J a none a
  | fresh (b : Node) : Takes J none (some b) (some b.relax)
  | joined {a b k : Node} (h : J a b k) : Takes J (some a) (some b) (some k)

theorem takes_none {J : Node → Node → Node → Prop} {a k : Option Node} :
    Takes J a none k ↔ k = a :=
  ⟨fun h => by cases h; rfl, fun h => h ▸ .kept k⟩

/-- What taking `ns` into `ms` one by one leads to. -/
structure Taken (J : Node → Node → Node → Prop) (ms ns ks : Members) : Prop where
  names : names ks = names ms ++ (names ns).filter (· ∉ names ms)
  slots : ∀ name, Takes J (get? ms name) (get? ns name) (get? ks name)

variable {J : Node → Node → Node → Prop} {ms ns ks : Members}

theorem taken_nil (hms : Unique ms) : Taken J ms [] ks ↔ ms = ks := by
  constructor
  · intro h
    refine Members.ext hms (by simpa using h.names.symm) fun name => ?_
    exact (takes_none.1 (h.slots name)).symm
  · rintro rfl
    exact ⟨by simp, fun name => .kept _⟩

theorem names_put_append {name : Identifier} (k b : Node) (hn : name ∉ names ns) :
    names (put ms name k) ++ (names ns).filter (· ∉ names (put ms name k)) =
      names ms ++ (names ((name, b) :: ns)).filter (· ∉ names ms) := by
  by_cases hm : name ∈ names ms
  · rw [names_put_of_mem hm, names_cons, List.filter_cons]
    simp [hm]
  · have hf : (names ns).filter (· ∉ names (put ms name k)) =
        (names ns).filter (· ∉ names ms) := by
      refine List.filter_congr fun x hx => ?_
      have : x ≠ name := fun e => hn (e ▸ hx)
      simp [mem_names_put, this]
    rw [hf, put_of_not_mem hm, names_append, names_cons, names_cons, names_nil, List.filter_cons]
    simp [hm]

/-- A slot where something comes in after `name` was taken in is another one, and was there
before. -/
theorem get?_of_put {name other : Identifier} {k a c : Node} (b : Node) (hn : name ∉ names ns)
    (ha : get? (put ms name k) other = some a) (hc : get? ns other = some c) :
    get? ms other = some a ∧ get? ((name, b) :: ns) other = some c := by
  have hne : name ≠ other := by
    rintro rfl
    exact hn (mem_names_of_get? hc)
  rw [get?_put, if_neg hne] at ha
  rw [get?_cons, if_neg hne]
  exact ⟨ha, hc⟩

/-- Members are taken in one after the other. -/
theorem taken_cons {name : Identifier} {b : Node} (hn : name ∉ names ns) :
    Taken J ms ((name, b) :: ns) ks ↔
      ∃ k, Takes J (get? ms name) (some b) (some k) ∧ Taken J (put ms name k) ns ks := by
  have hnone : get? ns name = none := get?_eq_none_iff.2 hn
  have hget : ∀ k other, other ≠ name → get? (put ms name k) other = get? ms other ∧
      get? ((name, b) :: ns) other = get? ns other := fun k other h =>
    ⟨by rw [get?_put, if_neg (Ne.symm h)], by rw [get?_cons, if_neg (Ne.symm h)]⟩
  have hput : ∀ k, get? (put ms name k) name = some k := fun k => by rw [get?_put, if_pos rfl]
  have hcons : get? ((name, b) :: ns) name = some b := by rw [get?_cons, if_pos rfl]
  constructor
  · intro h
    have hs := h.slots name
    have : ∃ k, get? ks name = some k := mem_names_iff.1 <| by
      rw [Joins.mem_names h.names]
      exact .inr (List.mem_cons_self ..)
    obtain ⟨k, hk⟩ := this
    rw [hcons, hk] at hs
    refine ⟨k, hs, h.names.trans (names_put_append k b hn).symm, fun other => ?_⟩
    -- `name` is taken in first, and nothing that comes later has that name
    by_cases e : other = name
    · subst e
      rw [hput, hnone, hk]
      exact .kept _
    · rw [(hget k other e).1, ← (hget k other e).2]
      exact h.slots other
  · rintro ⟨k, hk, h⟩
    refine ⟨h.names.trans (names_put_append k b hn), fun other => ?_⟩
    have hs := h.slots other
    by_cases e : other = name
    · subst e
      rw [hput, hnone, takes_none] at hs
      rw [hcons, hs]
      exact hk
    · rwa [(hget k other e).1, ← (hget k other e).2] at hs

/-- Taking members in follows `J` where joining a known member with an incoming one does. -/
theorem value?_absorb {p : Policy} (hms : Unique ms) (hns : Unique ns)
    (hJ : ∀ name a b k, get? ms name = some a → get? ns name = some b →
      ((unify p a b).value? = some k ↔ J a b k)) :
    (absorb p ms ns).value? = some ks ↔ Taken J ms ns ks := by
  induction ns generalizing ms with
  | nil =>
    rw [taken_nil hms]
    simp [absorb]
  | cons m ns ih =>
    obtain ⟨name, b⟩ := m
    obtain ⟨hn, hns⟩ := unique_cons.1 hns
    have hcons : get? ((name, b) :: ns) name = some b := by rw [get?_cons, if_pos rfl]
    have hrest : ∀ k, (absorb p (put ms name k) ns).value? = some ks ↔
        Taken J (put ms name k) ns ks := fun k => by
      refine ih (unique_put hms name k) hns fun other a c l ha hc => ?_
      obtain ⟨ha, hc⟩ := get?_of_put b hn ha hc
      exact hJ other a c l ha hc
    rw [taken_cons hn]
    unfold absorb
    rcases hm : get? ms name with _ | a
    · dsimp only
      rw [hrest]
      constructor
      · intro h
        exact ⟨_, .fresh b, h⟩
      · rintro ⟨k, hk, h⟩
        cases hk
        exact h
    · simp only [Traced.value?_bind, Traced.value?_mapFault, Option.bind_eq_some_iff]
      constructor
      · rintro ⟨k, hk, h⟩
        exact ⟨k, .joined ((hJ name a b k hm hcons).1 hk), (hrest k).1 h⟩
      · rintro ⟨k, hk, h⟩
        cases hk with
        | joined hk => exact ⟨k, (hJ name a b k hm hcons).2 hk, (hrest k).2 h⟩

/-! ## Merging -/

/-- What merging `ns` into `ms` leads to: a member that one side lacks becomes optional. -/
structure Merged (J : Node → Node → Node → Prop) (ms ns ks : Members) : Prop where
  names : names ks = names ms ++ (names ns).filter (· ∉ names ms)
  both : ∀ name a b k, get? ms name = some a → get? ns name = some b → get? ks name = some k →
    J a b k
  left : ∀ name a, get? ms name = some a → get? ns name = none → get? ks name = some a.relax
  right : ∀ name b, get? ms name = none → get? ns name = some b → get? ks name = some b.relax

/-- A name that the merged members know, with a join or with the node of one side made optional; or
none of them knows it. -/
theorem Merged.get?_cases (h : Merged J ms ns ks) (name : Identifier) :
    (get? ms name = none ∧ get? ns name = none ∧ get? ks name = none) ∨
      (∃ a, get? ms name = some a ∧ get? ns name = none ∧ get? ks name = some a.relax) ∨
      (∃ b, get? ms name = none ∧ get? ns name = some b ∧ get? ks name = some b.relax) ∨
      ∃ a b k, get? ms name = some a ∧ get? ns name = some b ∧ get? ks name = some k ∧ J a b k := by
  rcases ha : get? ms name with _ | a <;> rcases hb : get? ns name with _ | b
  · refine .inl ⟨rfl, rfl, get?_eq_none_iff.2 fun hk => ?_⟩
    exact (Joins.mem_names h.names).1 hk |>.elim (get?_eq_none_iff.1 ha) (get?_eq_none_iff.1 hb)
  · exact .inr (.inr (.inl ⟨b, rfl, rfl, h.right name b ha hb⟩))
  · exact .inr (.inl ⟨a, rfl, rfl, h.left name a ha hb⟩)
  · obtain ⟨k, hk⟩ := Joins.exists_get? h.names (.inl (mem_names_of_get? ha))
    exact .inr (.inr (.inr ⟨a, b, k, rfl, rfl, hk, h.both name a b k ha hb hk⟩))

theorem taken_relaxMissing : Taken J (relaxMissing ms ns) ns ks ↔ Merged J ms ns ks := by
  constructor
  · intro h
    refine ⟨by simpa using h.names, fun name a b k ha hb hk => ?_, fun name a ha hb => ?_,
      fun name b ha hb => ?_⟩
    · have := h.slots name
      rw [get?_relaxMissing, ha, hb, hk] at this
      cases this
      assumption
    · have := h.slots name
      rw [get?_relaxMissing, ha, hb] at this
      exact takes_none.1 this
    · have := h.slots name
      rw [get?_relaxMissing, ha, hb] at this
      generalize get? ks name = k at this
      cases this; rfl
  · intro h
    refine ⟨by simpa using h.names, fun name => ?_⟩
    rw [get?_relaxMissing]
    rcases h.get?_cases name with ⟨ha, hb, hk⟩ | ⟨a, ha, hb, hk⟩ | ⟨b, ha, hb, hk⟩ |
      ⟨a, b, k, ha, hb, hk, hj⟩
    · rw [ha, hb, hk]
      exact .kept none
    · rw [ha, hb, hk]
      exact .kept _
    · rw [ha, hb, hk]
      exact .fresh b
    · rw [ha, hb, hk]
      exact .joined hj

theorem value?_merge {p : Policy} (hms : Unique ms) (hns : Unique ns)
    (hJ : ∀ name a b k, get? ms name = some a → get? ns name = some b →
      ((unify p a b).value? = some k ↔ J a b k)) :
    (Members.merge p ms ns).value? = some ks ↔ Merged J ms ns ks := by
  unfold Members.merge
  rw [← taken_relaxMissing]
  refine value?_absorb (unique_relaxMissing hms ns) hns fun name a b k ha hb => ?_
  rw [get?_relaxMissing_of_get? ms hb] at ha
  exact hJ name a b k ha hb

/-! ## The rules, by what is joined -/

section Inversion

variable {p : Policy} {a b k : Node}

theorem joins_null_right : Joins p a .null k ↔ a.relax = k := by
  constructor
  · intro h
    cases h with
    | nullRight => rfl
    | nullLeft => rfl
    | settled _ hk => cases a <;> simp [Node.kind, Kind.clashes] at hk
  · rintro rfl
    exact .nullRight a

theorem joins_null_left : Joins p .null b k ↔ b.relax = k := by
  constructor
  · intro h
    cases h with
    | nullRight => rfl
    | nullLeft => rfl
    | settled _ hk => simp [Node.kind, Kind.clashes] at hk
  · rintro rfl
    exact .nullLeft b

theorem joins_scalar {s t : Scalar} {x y : Bool} (h : (s.join? t).isSome = true) :
    Joins p (.scalar s x) (.scalar t y) k ↔ ∃ u, s.join? t = some u ∧ .scalar u (x || y) = k := by
  constructor
  · intro hj
    cases hj with
    | scalar _ _ hu => exact ⟨_, hu, rfl⟩
    | settled _ hk =>
      simp only [Node.kind, Kind.clashes, Option.isNone_iff_eq_none] at hk
      rw [hk] at h
      cases h
  · rintro ⟨u, hu, rfl⟩
    exact .scalar x y hu

theorem joins_array {e f : Node} {x y : Bool} :
    Joins p (.array e x) (.array f y) k ↔ ∃ d, Joins p e f d ∧ .array d (x || y) = k := by
  constructor
  · intro hj
    cases hj with
    | array _ _ h => exact ⟨_, h, rfl⟩
    | settled _ hk => simp [Node.kind, Kind.clashes] at hk
  · rintro ⟨d, h, rfl⟩
    exact .array x y h

theorem joins_map {n m : Identifier} {v w : Node} {x y : Bool} :
    Joins p (.map n v x) (.map m w y) k ↔ n = m ∧ ∃ d, Joins p v w d ∧ .map n d (x || y) = k := by
  constructor
  · intro hj
    cases hj with
    | map _ _ _ h => exact ⟨rfl, _, h, rfl⟩
    | settled _ hk => simp [Node.kind, Kind.clashes] at hk
  · rintro ⟨rfl, d, h, rfl⟩
    exact .map n x y h

theorem joins_object {n m : Identifier} {ms ns : Members} {x y : Bool} :
    Joins p (.object n ms x) (.object m ns y) k ↔
      n = m ∧ ∃ ks, Merged (Joins p) ms ns ks ∧ .object n ks (x || y) = k := by
  constructor
  · intro hj
    cases hj with
    | object _ _ _ hn both left right => exact ⟨rfl, _, ⟨hn, both, left, right⟩, rfl⟩
    | settled _ hk => simp [Node.kind, Kind.clashes] at hk
  · rintro ⟨rfl, ks, h, rfl⟩
    exact .object n x y h.names h.both h.left h.right

theorem joins_of_clashes (hk : a.kind.clashes b.kind = true) :
    Joins p a b k ↔ p = .preferFirst ∧ a.setOptional (a.isOptional || b.isOptional) = k := by
  constructor
  · intro hj
    cases hj with
    | settled hp _ => exact ⟨hp, rfl⟩
    | scalar _ _ hu => simp [Node.kind, Kind.clashes, hu] at hk
    | nullRight => cases a <;> simp [Node.kind, Kind.clashes] at hk
    | _ => simp [Node.kind, Kind.clashes] at hk
  · rintro ⟨rfl, rfl⟩
    exact .settled rfl hk

theorem not_joins_object_map {n m : Identifier} {ms : Members} {v : Node} {x y : Bool} :
    ¬ Joins p (.object n ms x) (.map m v y) k := by
  intro hj
  cases hj with
  | settled _ hk => simp [Node.kind, Kind.clashes] at hk

theorem not_joins_map_object {n m : Identifier} {ms : Members} {v : Node} {x y : Bool} :
    ¬ Joins p (.map m v y) (.object n ms x) k := by
  intro hj
  cases hj with
  | settled _ hk => simp [Node.kind, Kind.clashes] at hk

end Inversion

/-! ## Unification -/

theorem value?_settle (p : Policy) {a b k : Node} (hk : a.kind.clashes b.kind = true) :
    (settle p a b).value? = some k ↔ Joins p a b k := by
  rw [joins_of_clashes hk]
  cases p with
  | strict => simp [settle, clash]
  | preferFirst => simp [settle]

/-- `unify` carries the rules out. -/
theorem value?_unify {p : Policy} {a b k : Node} (ha : a.WF) (hb : b.WF) :
    (unify p a b).value? = some k ↔ Joins p a b k := by
  induction b using Node.induction generalizing a k with
  | null =>
    rw [joins_null_right]
    simp [unify]
  | scalar t y =>
    cases a with
    | null => rw [joins_null_left]; simp [unify]
    | scalar s x =>
      unfold unify
      split
      · rename_i u hu
        rw [joins_scalar (by rw [hu]; rfl), hu]
        simp [eq_comm]
      · rename_i hu
        exact value?_settle p (by simp [Node.kind, Kind.clashes, hu])
    | _ => exact value?_settle p rfl
  | array f y ih =>
    cases a with
    | null => rw [joins_null_left]; simp [unify]
    | array e x =>
      rw [joins_array]
      simp [unify, ih ha.element hb.element, Option.bind_eq_some_iff]
    | _ => exact value?_settle p rfl
  | map m w y ih =>
    cases a with
    | null => rw [joins_null_left]; simp [unify]
    | map n v x =>
      rw [joins_map]
      unfold unify
      split
      · rename_i e
        simp [ih ha.value hb.value, Option.bind_eq_some_iff, e]
      · rename_i e
        simp [clash, e]
    | object =>
      refine iff_of_false ?_ not_joins_object_map
      simp [unify, clash]
    | _ => exact value?_settle p rfl
  | object m ns y ih =>
    cases a with
    | null => rw [joins_null_left]; simp [unify]
    | object n ms x =>
      rw [joins_object]
      have hmerge : ∀ ks, (Members.merge p ms ns).value? = some ks ↔ Merged (Joins p) ms ns ks :=
        fun ks => value?_merge ha.unique hb.unique fun name a b k ha' hb' =>
          ih _ (mem_of_get? hb') (ha.member ha') (hb.member hb')
      unfold unify
      split
      · rename_i e
        unfold Members.merge at hmerge
        simp [hmerge, Option.bind_eq_some_iff, e]
      · rename_i e
        simp [clash, e]
    | map =>
      refine iff_of_false ?_ not_joins_map_object
      simp [unify, clash]
    | _ => exact value?_settle p rfl

theorem Object.value?_merge {p : Policy} (o x : Object) :
    (o.merge p x).value? =
      (Members.merge p o.members x.members).value?.map fun ms => { o with members := ms } := by
  unfold Object.merge
  generalize Members.merge p o.members x.members = merged
  obtain ⟨es, out⟩ := merged
  cases out <;> rfl

end SchemaInference.Schema
