/-
The two policies side by side. A computation under the strict policy and the same one under the
lenient policy go in lockstep (`Traced.Lockstep`): they emit the same events and come to the same
values until two kinds clash. There the strict one fails with the two kinds, and the lenient one
emits them as a conflict and goes on alone. So it is with the joins of nodes and the merges of
objects (`lockstep_unify`, `lockstep_merge`).
-/
import SchemaInference.Proofs.Schema.Joins

namespace SchemaInference

open Schema Traced

/-! ## Lockstep -/

/-- None of the events is a warning. -/
def Quiet (es : List Event) : Prop := ∀ e ∈ es, e.level ≠ .warn

theorem Quiet.append {es es' : List Event} (h : Quiet es) (h' : Quiet es') : Quiet (es ++ es') :=
  List.forall_mem_append.2 ⟨h, h'⟩

theorem quiet_nil : Quiet [] := fun _ h => nomatch h

theorem not_quiet_conflict {es later : List Event} {l r : Kind} :
    ¬ Quiet (es ++ .conflict l r :: later) := fun h =>
  h (.conflict l r) (List.mem_append_right _ (List.mem_cons_self ..)) rfl

/-- The first warning among the events. -/
def firstWarning? (es : List Event) : Option Event := es.find? (·.level = .warn)

theorem firstWarning?_conflict {es later : List Event} {l r : Kind} (h : Quiet es) :
    firstWarning? (es ++ .conflict l r :: later) = some (.conflict l r) := by
  have hes : es.find? (·.level = .warn) = none :=
    List.find?_eq_none.2 fun e he => by simpa using h e he
  unfold firstWarning?
  rw [List.find?_append, hes, Option.none_or, List.find?_cons_of_pos rfl]

namespace Traced

variable {ε δ α β γ ζ : Type} {told : ε → Option Clash} {R : α → β → Prop} {S : γ → ζ → Prop}

/-- Both computations emit the same events and then end in related values, or fail alike for another
reason than two kinds; or they part where two kinds clash. `told` is the clash that a fault tells
of. -/
inductive Lockstep (told : ε → Option Clash) (R : α → β → Prop) :
    Traced ε α → Traced ε β → Prop
  | ended {es : List Event} {a : α} {b : β} (quiet : Quiet es) (h : R a b) :
      Lockstep told R ⟨es, .ok a⟩ ⟨es, .ok b⟩
  | failed {es : List Event} {e : ε} (quiet : Quiet es) (h : ∀ l r, told e ≠ some (.kinds l r)) :
      Lockstep told R ⟨es, .error e⟩ ⟨es, .error e⟩
  | parted {es later : List Event} {e : ε} {l r : Kind} {o : Except ε β} (quiet : Quiet es)
      (h : told e = some (.kinds l r)) :
      Lockstep told R ⟨es, .error e⟩ ⟨es ++ .conflict l r :: later, o⟩

namespace Lockstep

theorem pure {a : α} {b : β} (h : R a b) : Lockstep told R (pure a) (pure b) := .ended quiet_nil h

theorem emit {e : Event} (h : e.level ≠ .warn) :
    Lockstep told Eq (Traced.emit e) (Traced.emit e) :=
  .ended (fun _ he => List.mem_singleton.1 he ▸ h) rfl

theorem fail {e : ε} (h : ∀ l r, told e ≠ some (.kinds l r)) :
    Lockstep told R (Traced.fail e) (Traced.fail e) := .failed quiet_nil h

theorem bind {x : Traced ε α} {y : Traced ε β} {f : α → Traced ε γ} {g : β → Traced ε ζ}
    (h : Lockstep told R x y) (hf : ∀ a b, R a b → Lockstep told S (f a) (g b)) :
    Lockstep told S (x >>= f) (y >>= g) := by
  cases h with
  | @ended es a b quiet h =>
    have h := hf a b h
    rw [ok_bind, ok_bind]
    generalize f a = x at h
    generalize g b = y at h
    cases h with
    | ended quiet' h => exact .ended (quiet.append quiet') h
    | failed quiet' h => exact .failed (quiet.append quiet') h
    | parted quiet' h =>
      rw [← List.append_assoc]
      exact .parted (quiet.append quiet') h
  | failed quiet h => exact .failed quiet h
  | @parted es later e l r o quiet h =>
    -- the strict run has failed; whatever the lenient one does from here on is left open
    cases o with
    | error e' => exact .parted quiet h
    | ok b =>
      rw [error_bind, ok_bind, List.append_assoc, List.cons_append]
      exact .parted quiet h

/-- A fault told in other terms still tells of the same clash. -/
theorem mapFault {told' : δ → Option Clash} {x : Traced ε α} {y : Traced ε β} {f : ε → δ}
    (h : Lockstep told R x y) (hf : ∀ e, told' (f e) = told e) :
    Lockstep told' R (x.mapFault f) (y.mapFault f) := by
  cases h with
  | ended quiet h => exact .ended quiet h
  | @failed es e quiet h => exact .failed quiet fun l r => hf e ▸ h l r
  | @parted es later e l r o quiet h => exact .parted quiet ((hf e).trans h)

/-- Steps in lockstep, one after the other. -/
theorem foldlM {κ : Type} {f : α → κ → Traced ε α} {g : β → κ → Traced ε β}
    (h : ∀ a b x, R a b → Lockstep told R (f a x) (g b x)) {a : α} {b : β} (hab : R a b)
    (xs : List κ) : Lockstep told R (xs.foldlM f a) (xs.foldlM g b) := by
  induction xs generalizing a b with
  | nil => exact .pure hab
  | cons x xs ih =>
    rw [List.foldlM_cons, List.foldlM_cons]
    exact (h a b x hab).bind fun _ _ h => ih h

/-! ### Until they part -/

section Until

variable {x y : Traced ε α}

/-- The strict computation ends in a value just where the lenient one does without a warning. -/
theorem ok_iff (h : Lockstep told Eq x y) {a : α} :
    x.outcome = .ok a ↔ y.outcome = .ok a ∧ Quiet y.events := by
  cases h with
  | ended quiet h =>
    subst h
    exact (and_iff_left quiet).symm
  | failed => exact ⟨fun h => (nomatch h), fun h => (nomatch h.1)⟩
  | parted => exact ⟨fun h => (nomatch h), fun h => absurd h.2 not_quiet_conflict⟩

/-- The strict computation does not warn, however it ends. -/
theorem quiet (h : Lockstep told Eq x y) : Quiet x.events := by
  cases h <;> assumption

/-- The two kinds that the strict computation fails on are those of the first warning. -/
theorem warned (h : Lockstep told Eq x y) {e : ε} {l r : Kind} (he : x.outcome = .error e)
    (hk : told e = some (.kinds l r)) : firstWarning? y.events = some (.conflict l r) := by
  cases h with
  | ended => cases he
  | failed _ h =>
    cases he
    exact absurd hk (h l r)
  | parted quiet h =>
    cases he
    rw [h, Option.some.injEq, Clash.kinds.injEq] at hk
    obtain ⟨rfl, rfl⟩ := hk
    exact firstWarning?_conflict quiet

/-- A fault for another reason is one of both computations, and no warning comes before it. -/
theorem fault (h : Lockstep told Eq x y) {e : ε} (he : x.outcome = .error e)
    (hk : ∀ l r, told e ≠ some (.kinds l r)) : y.outcome = .error e ∧ Quiet y.events := by
  cases h with
  | ended => cases he
  | failed quiet => exact ⟨he, quiet⟩
  | parted _ h =>
    cases he
    exact absurd h (hk _ _)

end Until

end Lockstep

end Traced

/-! ## Joins -/

namespace Schema

def Fault.told (f : Fault) : Option Clash := some f.clash

def haltedTold {σ : Type} (h : Halted σ Fault) : Option Clash := some h.fault.clash

theorem lockstep_settle (a b : Node) :
    Lockstep Fault.told Eq (settle .strict a b) (settle .preferFirst a b) := by
  show Lockstep Fault.told Eq ⟨[], .error ⟨[], .kinds a.kind b.kind⟩⟩
    ⟨[] ++ [.conflict a.kind b.kind], .ok (a.setOptional (a.isOptional || b.isOptional))⟩
  exact .parted quiet_nil rfl

theorem lockstep_absorb {ns : Members} (ms : Members)
    (h : ∀ m ∈ ns, ∀ a, Lockstep Fault.told Eq (unify .strict a m.2) (unify .preferFirst a m.2)) :
    Lockstep haltedTold Eq (absorb .strict ms ns) (absorb .preferFirst ms ns) := by
  induction ns generalizing ms with
  | nil =>
    unfold absorb
    exact .pure rfl
  | cons m ns ih =>
    obtain ⟨name, b⟩ := m
    obtain ⟨hb, hns⟩ := List.forall_mem_cons.1 h
    unfold absorb
    rcases ms.get? name with _ | a
    · exact ih _ hns
    · dsimp only
      refine Lockstep.bind (.mapFault (hb a) fun _ => rfl) ?_
      rintro k _ rfl
      exact ih _ hns

theorem lockstep_unify (a b : Node) :
    Lockstep Fault.told Eq (unify .strict a b) (unify .preferFirst a b) := by
  induction b using Node.induction generalizing a with
  | null =>
    cases a <;> exact .pure rfl
  | scalar t y =>
    cases a with
    | null => exact .pure rfl
    | scalar s x =>
      unfold unify
      split
      · exact .pure rfl
      · exact lockstep_settle _ _
    | _ => exact lockstep_settle _ _
  | array f y ih =>
    cases a with
    | null => exact .pure rfl
    | array e x =>
      unfold unify
      refine (ih e).bind ?_
      rintro k _ rfl
      exact .pure rfl
    | _ => exact lockstep_settle _ _
  | map m w y ih =>
    cases a with
    | null => exact .pure rfl
    | map n v x =>
      unfold unify
      split
      · refine (ih v).bind ?_
        rintro k _ rfl
        exact .pure rfl
      · exact .fail fun _ _ h => nomatch h
    | object => exact .fail fun _ _ h => nomatch h
    | _ => exact lockstep_settle _ _
  | object m ns y ih =>
    cases a with
    | null => exact .pure rfl
    | object n ms x =>
      unfold unify
      split
      · refine Lockstep.bind (.mapFault (lockstep_absorb _ ih) fun _ => rfl) ?_
        rintro ks _ rfl
        exact .pure rfl
      · exact .fail fun _ _ h => nomatch h
    | map => exact .fail fun _ _ h => nomatch h
    | _ => exact lockstep_settle _ _

theorem lockstep_merge (o incoming : Object) :
    Lockstep haltedTold Eq (o.merge .strict incoming) (o.merge .preferFirst incoming) := by
  have h : Lockstep haltedTold Eq (Members.merge .strict o.members incoming.members)
      (Members.merge .preferFirst o.members incoming.members) :=
    lockstep_absorb _ fun m _ a => lockstep_unify a m.2
  unfold Object.merge
  generalize Members.merge .strict o.members incoming.members = x at h
  generalize Members.merge .preferFirst o.members incoming.members = y at h
  cases h with
  | ended quiet h =>
    subst h
    exact .ended quiet rfl
  | failed quiet h => exact .failed quiet h
  | parted quiet h => exact .parted quiet h

end Schema

end SchemaInference
