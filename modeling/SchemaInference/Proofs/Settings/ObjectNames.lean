/-
When two slots share a declaration by accident of naming. An object is named after its slot with the
affixes of the settings around the hint, and a text of plain characters is left as it is or gets the
reserved start in front. So two texts come to one name just when one needs the reserved start and
the other has it already (`Identifier.sanitize_eq_iff_of_word`). Texts with the same affixes around
valid names begin alike, hence of object names the one that needs it has to be a reserved word
(`objectName_eq_iff`).
-/
import SchemaInference.Settings
import SchemaInference.Proofs.Identifier.Sanitize

namespace SchemaInference

namespace Identifier

variable {d : Dialect} {raw raw' : String}

/-! ## Texts of plain characters -/

theorem text_sanitize_of_word (h : ∀ x ∈ raw.toList, isWord x = true) : (sanitize d raw).text =
    if needsReservedStart d raw.toList = true then "_json" ++ raw else raw := by
  rw [← String.toList_inj]
  simp only [sanitize, String.toList_ofList, sanitizeChars, spellEscapes_of_word h,
    flatMap_spellChar h]
  split
  · rw [String.toList_append]
    rfl
  · rw [List.nil_append]

/-- With the reserved start in front, a text needs no other one. -/
theorem not_needsReservedStart (h : ∀ x ∈ raw.toList, isWord x = true) :
    ¬ needsReservedStart d ("_json" ++ raw).toList = true := by
  rw [String.toList_append, Bool.not_eq_true]
  exact (isValidChars_iff.1 (isValidChars_reservedStart d h)).1

/-- Two texts have one name when one of them needs the reserved start and the other one is that text
with the reserved start in front. -/
theorem sanitize_eq_iff_of_word (h : ∀ x ∈ raw.toList, isWord x = true)
    (h' : ∀ x ∈ raw'.toList, isWord x = true) (hne : raw ≠ raw') :
    sanitize d raw = sanitize d raw' ↔
      (needsReservedStart d raw.toList = true ∧ raw' = "_json" ++ raw) ∨
        (needsReservedStart d raw'.toList = true ∧ raw = "_json" ++ raw') := by
  rw [← text_injective.eq_iff, text_sanitize_of_word h, text_sanitize_of_word h']
  constructor
  · intro heq
    split at heq <;> split at heq
    · exact absurd ((String.append_right_inj _).1 heq) hne
    · exact .inl ⟨by assumption, heq.symm⟩
    · exact .inr ⟨by assumption, heq⟩
    · exact absurd heq hne
  · rintro (⟨hneeds, rfl⟩ | ⟨hneeds, rfl⟩)
    · rw [if_pos hneeds, if_neg (not_needsReservedStart h)]
    · rw [if_pos hneeds, if_neg (not_needsReservedStart h')]

/-! ## The first character -/

/-- The text may stand at the beginning of an identifier. -/
def Starts (raw : String) : Prop := ∃ x ∈ raw.toList.head?, isStart x = true

theorem starts_of_isValid (h : isValid d raw = true) : Starts raw := by
  unfold isValid at h
  unfold Starts
  generalize raw.toList = cs at h
  cases cs with
  | nil => cases h
  | cons x cs =>
    simp only [isValidChars, Bool.and_eq_true] at h
    exact ⟨x, rfl, h.1.1⟩

theorem word_of_isValid (h : isValid d raw = true) : ∀ x ∈ raw.toList, isWord x = true :=
  (isValidChars_iff.1 h).2

/-- A text that may stand at the beginning needs the reserved start just when it is reserved. -/
theorem Starts.needsReservedStart_iff (h : Starts raw) :
    needsReservedStart d raw.toList = true ↔ raw ∈ d.reservedWords := by
  obtain ⟨x, hx, hstart⟩ := h
  have hword : d.isReserved raw = true ↔ raw ∈ d.reservedWords := List.contains_iff_mem
  rw [← hword, ← String.ofList_toList (s := raw)]
  generalize raw.toList = cs at hx
  obtain ⟨cs, rfl⟩ := List.head?_eq_some_iff.1 hx
  rw [String.toList_ofList, needsReservedStart, hstart]
  simp

end Identifier

namespace Settings

open Identifier

variable {c : Settings} {n m : Identifier}

/-- The hint with the affixes around it, which is sanitized to the name of an object. -/
def affixed (c : Settings) (hint : String) : String := c.typePrefix ++ hint ++ c.typeSuffix

theorem objectName_eq (hint : String) : c.objectName hint = c.sanitize (c.affixed hint) := rfl

theorem affixed_injective : Function.Injective c.affixed := by
  intro hint hint' h
  rw [affixed, affixed, String.append_left_inj, String.append_right_inj] at h
  exact h

theorem word_affixed (hbefore : ∀ x ∈ c.typePrefix.toList, isWord x = true)
    (hafter : ∀ x ∈ c.typeSuffix.toList, isWord x = true) {hint : String}
    (hhint : ∀ x ∈ hint.toList, isWord x = true) :
    ∀ x ∈ (c.affixed hint).toList, isWord x = true := by
  intro x hx
  rw [affixed, String.toList_append, String.toList_append, List.mem_append, List.mem_append] at hx
  rcases hx with (hx | hx) | hx
  · exact hbefore x hx
  · exact hhint x hx
  · exact hafter x hx

/-- Whether an affixed name may stand at the beginning hangs on the affixes alone. -/
theorem starts_affixed {hint hint' : String} (h : Starts (c.affixed hint)) (hs : Starts hint') :
    Starts (c.affixed hint') := by
  obtain ⟨x, hx, hstart⟩ := h
  obtain ⟨y, hy, hstart'⟩ := hs
  unfold Starts
  rw [affixed, String.toList_append, String.toList_append, List.append_assoc] at hx ⊢
  cases hbefore : c.typePrefix.toList with
  | nil =>
    refine ⟨y, ?_, hstart'⟩
    rw [List.nil_append, List.head?_append, hy]
    rfl
  | cons z zs =>
    rw [hbefore] at hx
    exact ⟨x, hx, hstart⟩

/-- Where one affixed name is the other with the reserved start in front, the other one needs the
reserved start just when it is a reserved word. -/
theorem needsReservedStart_affixed (hn : isValid c.dialect n.text = true)
    (h : c.affixed m.text = "_json" ++ c.affixed n.text) :
    needsReservedStart c.dialect (c.affixed n.text).toList = true ↔
      c.affixed n.text ∈ c.dialect.reservedWords := by
  have hstarts : Starts (c.affixed m.text) := by
    rw [h]
    refine ⟨'_', ?_, by decide⟩
    rw [String.toList_append]
    rfl
  exact (starts_affixed hstarts (starts_of_isValid hn)).needsReservedStart_iff

/-- Of two slots with different hints, the objects have one name just when one of the affixed hints
is a reserved word and the other is that word with the reserved start in front. -/
theorem objectName_eq_iff (hbefore : ∀ x ∈ c.typePrefix.toList, isWord x = true)
    (hafter : ∀ x ∈ c.typeSuffix.toList, isWord x = true)
    (hn : isValid c.dialect n.text = true) (hm : isValid c.dialect m.text = true) (hne : n ≠ m) :
    c.objectName n.text = c.objectName m.text ↔
      ∃ word ∈ c.dialect.reservedWords,
        (c.affixed n.text = word ∧ c.affixed m.text = "_json" ++ word) ∨
          (c.affixed m.text = word ∧ c.affixed n.text = "_json" ++ word) := by
  have hwn := word_affixed hbefore hafter (word_of_isValid hn)
  have hwm := word_affixed hbefore hafter (word_of_isValid hm)
  have hne' : c.affixed n.text ≠ c.affixed m.text := fun h =>
    hne (text_injective (affixed_injective h))
  rw [objectName_eq, objectName_eq, sanitize, sanitize, sanitize_eq_iff_of_word hwn hwm hne']
  constructor
  · rintro (⟨hneeds, h⟩ | ⟨hneeds, h⟩)
    · exact ⟨_, (needsReservedStart_affixed hn h).1 hneeds, .inl ⟨rfl, h⟩⟩
    · exact ⟨_, (needsReservedStart_affixed hm h).1 hneeds, .inr ⟨rfl, h⟩⟩
  · rintro ⟨word, hword, ⟨rfl, h⟩ | ⟨rfl, h⟩⟩
    · exact .inl ⟨(needsReservedStart_affixed hn h).2 hword, h⟩
    · exact .inr ⟨(needsReservedStart_affixed hm h).2 hword, h⟩

/-- By default objects are named with `_t` at the end, and `wchar_t` is a reserved word. -/
theorem objectName_eq_iff_wchar :
    let c := Settings.default
    let n : Identifier := ⟨"wchar"⟩
    let m : Identifier := ⟨"_jsonwchar"⟩
    (∀ x ∈ c.typePrefix.toList, isWord x = true) ∧ (∀ x ∈ c.typeSuffix.toList, isWord x = true) ∧
      isValid c.dialect n.text = true ∧ isValid c.dialect m.text = true ∧ n ≠ m ∧
      c.objectName n.text = c.objectName m.text := by
  intro c n m
  have hbefore : c.typePrefix.toList.all isWord = true := by decide +kernel
  have hafter : c.typeSuffix.toList.all isWord = true := by decide +kernel
  rw [List.all_eq_true] at hbefore hafter
  have hn : isValid c.dialect n.text = true := by decide +kernel
  have hm : isValid c.dialect m.text = true := by decide +kernel
  have hne : n ≠ m := by decide
  refine ⟨hbefore, hafter, hn, hm, hne, ?_⟩
  exact (objectName_eq_iff hbefore hafter hn hm hne).2
    ⟨"wchar_t", by decide +kernel, .inl ⟨by decide +kernel, by decide +kernel⟩⟩

end Settings

end SchemaInference
