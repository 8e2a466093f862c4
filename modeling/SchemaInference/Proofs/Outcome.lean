/-
What a traced computation comes to when its events are left aside: the value it ends in, or nothing
where it fails. A sequence of computations comes to the sequence of what they come to. Where both
ends matter, `Ends P E` says what holds of the value or else of the fault; it is passed on from step
to step, since a sequence fails with the fault of its first step that does.
-/
import SchemaInference.Trace

namespace SchemaInference.Traced

variable {ε δ α β : Type}

/-- The value that the computation ends in. -/
def value? (x : Traced ε α) : Option α := x.outcome.toOption

theorem value?_eq_some {x : Traced ε α} {a : α} : x.value? = some a ↔ x.outcome = .ok a := by
  unfold value?
  cases x.outcome <;> simp [Except.toOption]

@[simp] theorem value?_ok (es : List Event) (a : α) :
    (⟨es, .ok a⟩ : Traced ε α).value? = some a := rfl

@[simp] theorem value?_fail (e : ε) : (fail e : Traced ε α).value? = none := rfl

@[simp] theorem value?_emit (e : Event) : (emit e : Traced ε Unit).value? = some () := rfl

@[simp] theorem value?_bind (x : Traced ε α) (f : α → Traced ε β) :
    (x >>= f).value? = x.value?.bind fun a => (f a).value? := by
  obtain ⟨es, o⟩ := x
  cases o <;> rfl

@[simp] theorem value?_mapFault (f : ε → δ) (x : Traced ε α) :
    (x.mapFault f).value? = x.value? := by
  obtain ⟨es, o⟩ := x
  cases o <;> rfl

theorem outcome_bind (x : Traced ε α) (f : α → Traced ε β) :
    (x >>= f).outcome = x.outcome.bind fun a => (f a).outcome := by
  obtain ⟨es, o⟩ := x
  cases o <;> rfl

/-- The fault that the computation ends in. -/
def fault? (x : Traced ε α) : Option ε :=
  match x.outcome with
  | .ok _ => none
  | .error e => some e

theorem fault?_eq_some {x : Traced ε α} {e : ε} : x.fault? = some e ↔ x.outcome = .error e := by
  unfold fault?
  cases x.outcome <;> simp

@[simp] theorem fault?_mapFault (f : ε → δ) (x : Traced ε α) :
    (x.mapFault f).fault? = x.fault?.map f := by
  obtain ⟨es, o⟩ := x
  cases o <;> rfl

/-- A sequence ends in the fault of the first step, or in that of the second. -/
theorem fault?_bind {x : Traced ε α} {f : α → Traced ε β} {e : ε} :
    (x >>= f).fault? = some e ↔
      x.fault? = some e ∨ ∃ a, x.value? = some a ∧ (f a).fault? = some e := by
  obtain ⟨es, o⟩ := x
  cases o with
  | ok a => simp [bind_eq, Traced.bind, fault?, value?, Except.toOption]
  | error e' => simp [bind_eq, Traced.bind, fault?, value?, Except.toOption]

/-! ## Both ends -/

/-- Whichever way the computation ends: `P` holds of its value, or `E` of its fault. -/
inductive Ends (P : α → Prop) (E : ε → Prop) : Traced ε α → Prop
  | ok {es : List Event} {a : α} (h : P a) : Ends P E ⟨es, .ok a⟩
  | error {es : List Event} {e : ε} (h : E e) : Ends P E ⟨es, .error e⟩

namespace Ends

variable {P : α → Prop} {Q : β → Prop} {E : ε → Prop} {x : Traced ε α}

theorem of_ok (h : Ends P E x) {a : α} (ha : x.outcome = .ok a) : P a := by
  cases h with
  | ok h =>
    cases ha
    exact h
  | error => cases ha

theorem of_error (h : Ends P E x) {e : ε} (he : x.outcome = .error e) : E e := by
  cases h with
  | ok => cases he
  | error h =>
    cases he
    exact h

theorem of_value? {a : α} (h : x.value? = some a) (ha : P a) : Ends P E x := by
  obtain ⟨es, o⟩ := x
  cases value?_eq_some.1 h
  exact .ok ha

/-- A computation that cannot end in any fault ends in a value. -/
theorem exists_ok (h : Ends P E x) (hE : ∀ e, ¬ E e) : ∃ a, x.outcome = .ok a := by
  cases h with
  | ok => exact ⟨_, rfl⟩
  | error h => exact absurd h (hE _)

theorem imp {P' : α → Prop} {E' : ε → Prop} (h : Ends P E x) (hP : ∀ a, P a → P' a)
    (hE : ∀ e, E e → E' e) : Ends P' E' x := by
  cases h with
  | ok h => exact .ok (hP _ h)
  | error h => exact .error (hE _ h)

theorem pure {a : α} (h : P a) : Ends P E (Pure.pure a : Traced ε α) := .ok h

theorem bind {f : α → Traced ε β} (h : Ends P E x) (hf : ∀ a, P a → Ends Q E (f a)) :
    Ends Q E (x >>= f) := by
  cases h with
  | error h => exact .error h
  | @ok es a h =>
    rw [ok_bind]
    have h := hf a h
    generalize f a = y at h
    cases h with
    | ok h => exact .ok h
    | error h => exact .error h

/-- An event changes nothing about the ends. -/
theorem emit_bind {e : Event} {f : Unit → Traced ε β} (h : Ends Q E (f ())) :
    Ends Q E (emit e >>= f) :=
  bind (P := fun _ => True) (.ok trivial) fun _ _ => h

theorem mapFault {D : δ → Prop} {f : ε → δ} (h : Ends P E x) (hf : ∀ e, E e → D (f e)) :
    Ends P D (x.mapFault f) := by
  cases h with
  | ok h => exact .ok h
  | error h => exact .error (hf _ h)

/-- What every step keeps, all steps keep. -/
theorem foldlM {f : α → β → Traced ε α} {xs : List β}
    (hf : ∀ x ∈ xs, ∀ a, P a → Ends P E (f a x)) {a : α} (ha : P a) :
    Ends P E (xs.foldlM f a) := by
  induction xs generalizing a with
  | nil => exact .pure ha
  | cons x xs ih =>
    obtain ⟨hx, hxs⟩ := List.forall_mem_cons.1 hf
    rw [List.foldlM_cons]
    exact (hx a ha).bind fun a ha => ih hxs ha

end Ends

end SchemaInference.Traced
