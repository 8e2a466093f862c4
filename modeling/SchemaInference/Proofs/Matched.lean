/-
Lists matched up to a relation. Each item on either side has one on the other side that it is
related to, wherever that stands and however often either occurs (`Matched`). Lists of one length
related item by item, lists in another order and lists that differ in one item are matched.
-/
import Mathlib.Data.List.Perm.Basic
import Mathlib.Data.List.Forall2

namespace SchemaInference

variable {α β γ δ : Type}

/-- Each item on either side is related to one on the other side. -/
def Matched (R : α → β → Prop) (xs : List α) (ys : List β) : Prop :=
  (∀ x ∈ xs, ∃ y ∈ ys, R x y) ∧ ∀ y ∈ ys, ∃ x ∈ xs, R x y

namespace Matched

variable {R : α → β → Prop} {xs : List α} {ys : List β}

theorem symm {S : β → α → Prop} (h : Matched R xs ys) (hRS : ∀ x y, R x y → S y x) :
    Matched S ys xs := by
  refine ⟨fun y hy => ?_, fun x hx => ?_⟩
  · obtain ⟨x, hx, hR⟩ := h.2 y hy
    exact ⟨x, hx, hRS x y hR⟩
  · obtain ⟨y, hy, hR⟩ := h.1 x hx
    exact ⟨y, hy, hRS x y hR⟩

theorem imp {S : α → β → Prop} (h : Matched R xs ys) (hRS : ∀ x ∈ xs, ∀ y ∈ ys, R x y → S x y) :
    Matched S xs ys := by
  refine ⟨fun x hx => ?_, fun y hy => ?_⟩
  · obtain ⟨y, hy, hR⟩ := h.1 x hx
    exact ⟨y, hy, hRS x hx y hy hR⟩
  · obtain ⟨x, hx, hR⟩ := h.2 y hy
    exact ⟨x, hx, hRS x hx y hy hR⟩

theorem map {S : γ → δ → Prop} (f : α → γ) (g : β → δ)
    (h : Matched (fun x y => S (f x) (g y)) xs ys) : Matched S (xs.map f) (ys.map g) := by
  refine ⟨List.forall_mem_map.2 fun x hx => ?_, List.forall_mem_map.2 fun y hy => ?_⟩
  · obtain ⟨y, hy, hS⟩ := h.1 x hx
    exact ⟨g y, List.mem_map_of_mem hy, hS⟩
  · obtain ⟨x, hx, hS⟩ := h.2 y hy
    exact ⟨f x, List.mem_map_of_mem hx, hS⟩

theorem singleton {x : α} {y : β} (h : R x y) : Matched R [x] [y] :=
  ⟨fun _ hx => ⟨y, List.mem_singleton.2 rfl, List.mem_singleton.1 hx ▸ h⟩,
    fun _ hy => ⟨x, List.mem_singleton.2 rfl, List.mem_singleton.1 hy ▸ h⟩⟩

theorem append {us : List α} {vs : List β} (h : Matched R xs ys) (h' : Matched R us vs) :
    Matched R (xs ++ us) (ys ++ vs) := by
  refine ⟨List.forall_mem_append.2 ⟨fun x hx => ?_, fun x hx => ?_⟩,
    List.forall_mem_append.2 ⟨fun y hy => ?_, fun y hy => ?_⟩⟩
  · obtain ⟨y, hy, hR⟩ := h.1 x hx
    exact ⟨y, List.mem_append_left _ hy, hR⟩
  · obtain ⟨y, hy, hR⟩ := h'.1 x hx
    exact ⟨y, List.mem_append_right _ hy, hR⟩
  · obtain ⟨x, hx, hR⟩ := h.2 y hy
    exact ⟨x, List.mem_append_left _ hx, hR⟩
  · obtain ⟨x, hx, hR⟩ := h'.2 y hy
    exact ⟨x, List.mem_append_right _ hx, hR⟩

theorem trans {S : β → γ → Prop} {T : α → γ → Prop} {zs : List γ} (h : Matched R xs ys)
    (h' : Matched S ys zs) (hRST : ∀ x y z, R x y → S y z → T x z) : Matched T xs zs := by
  refine ⟨fun x hx => ?_, fun z hz => ?_⟩
  · obtain ⟨y, hy, hR⟩ := h.1 x hx
    obtain ⟨z, hz, hS⟩ := h'.1 y hy
    exact ⟨z, hz, hRST x y z hR hS⟩
  · obtain ⟨y, hy, hS⟩ := h'.2 z hz
    obtain ⟨x, hx, hR⟩ := h.2 y hy
    exact ⟨x, hx, hRST x y z hR hS⟩

/-- What related items have alike, one of the items on either side has if one on the other side has. -/
theorem exists_iff {F : α → Prop} {G : β → Prop} (h : Matched R xs ys)
    (hFG : ∀ x y, R x y → (F x ↔ G y)) : (∃ x ∈ xs, F x) ↔ ∃ y ∈ ys, G y := by
  constructor
  · rintro ⟨x, hx, hF⟩
    obtain ⟨y, hy, hR⟩ := h.1 x hx
    exact ⟨y, hy, (hFG x y hR).1 hF⟩
  · rintro ⟨y, hy, hG⟩
    obtain ⟨x, hx, hR⟩ := h.2 y hy
    exact ⟨x, hx, (hFG x y hR).2 hG⟩

/-- Nothing is matched with nothing only. -/
theorem eq_nil (h : Matched R [] ys) : ys = [] :=
  List.eq_nil_iff_forall_not_mem.2 fun y hy => by
    obtain ⟨x, hx, -⟩ := h.2 y hy
    cases hx

end Matched

/-- Two results are related where each of them is there if the other one is. -/
theorem rel_of_some {R : α → β → Prop} {x : Option α} {y : Option β}
    (h : ∀ a, x = some a → ∃ b, y = some b ∧ R a b) (h' : ∀ b, y = some b → ∃ a, x = some a) :
    Option.Rel R x y := by
  cases x with
  | none =>
    cases y with
    | none => exact .none
    | some b =>
      obtain ⟨a, ha⟩ := h' b rfl
      cases ha
  | some a =>
    obtain ⟨b, rfl, hR⟩ := h a rfl
    exact .some hR

section Same

variable {R : α → α → Prop}

theorem matched_of_perm (hR : ∀ x, R x x) {xs ys : List α} (h : xs.Perm ys) : Matched R xs ys :=
  ⟨fun x hx => ⟨x, h.mem_iff.1 hx, hR x⟩, fun y hy => ⟨y, h.mem_iff.2 hy, hR y⟩⟩

theorem matched_of_middle (hR : ∀ x, R x x) (xs ys : List α) {v w : α} (h : R v w) :
    Matched R (xs ++ v :: ys) (xs ++ w :: ys) := by
  have hself : ∀ zs, Matched R zs zs := fun zs => matched_of_perm hR (List.Perm.refl zs)
  exact (hself xs).append ((Matched.singleton h).append (hself ys))

end Same

theorem exists_of_forall₂ {R : α → β → Prop} {x : α} :
    ∀ {xs : List α} {ys : List β}, List.Forall₂ R xs ys → x ∈ xs → ∃ y ∈ ys, R x y
  | x' :: xs, y :: ys, .cons hxy h, hx => by
    rcases List.mem_cons.1 hx with rfl | hx
    · exact ⟨y, List.mem_cons_self .., hxy⟩
    · obtain ⟨y', hy, hR⟩ := exists_of_forall₂ h hx
      exact ⟨y', List.mem_cons_of_mem _ hy, hR⟩

theorem matched_of_forall₂ {R : α → β → Prop} {xs : List α} {ys : List β}
    (h : List.Forall₂ R xs ys) : Matched R xs ys :=
  ⟨fun _ hx => exists_of_forall₂ h hx, fun _ hy => exists_of_forall₂ h.flip hy⟩

end SchemaInference
