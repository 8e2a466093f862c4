/-
Sanitized names. Sanitizing leads to a valid identifier of the dialect (`isValid_sanitize`), and a
valid one is left as it is (`sanitize_of_isValid`), so sanitizing twice is sanitizing once. A valid
name of any dialect that is made longer is valid in every dialect (`sanitize_append`).
-/
import SchemaInference.Identifier.Sanitize

namespace SchemaInference.Identifier

/-! ## Characters -/

theorem isWord_of_isStart {c : Char} (h : isStart c = true) : isWord c = true := by
  simp only [isStart, isWord, Char.isAlphanum, Bool.or_eq_true] at h ⊢
  exact h.imp_left .inl

theorem isWord_digitChar {n : Nat} (h : n < 16) : isWord n.digitChar = true := by
  have : ∀ n : Fin 16, isWord n.val.digitChar = true := by decide
  exact this ⟨n, h⟩

theorem isWord_of_mem_toDigits {n : Nat} {c : Char} (h : c ∈ Nat.toDigits 16 n) :
    isWord c = true := by
  induction n using Nat.strongRecOn with
  | ind n ih =>
    rcases Nat.lt_or_ge n 16 with hn | hn
    · rw [Nat.toDigits_of_lt_base hn, List.mem_singleton] at h
      exact h ▸ isWord_digitChar hn
    · rw [Nat.toDigits_of_base_le (by decide) hn, List.mem_append, List.mem_singleton] at h
      rcases h with h | rfl
      · exact ih (n / 16) (Nat.div_lt_self (by omega) (by decide)) h
      · exact isWord_digitChar (Nat.mod_lt n (by decide))

theorem isWord_of_mem_spellChar {c d : Char} (h : d ∈ spellChar c) : isWord d = true := by
  unfold spellChar at h
  split at h
  · rename_i hc
    rw [List.mem_singleton] at h
    exact h ▸ hc
  · simp only [spellCodePoint, List.mem_cons] at h
    rcases h with rfl | rfl | h
    · rfl
    · rfl
    · exact isWord_of_mem_toDigits h

/-- A name whose characters may all stand in an identifier is spelled as it is. -/
theorem flatMap_spellChar {cs : List Char} (h : ∀ c ∈ cs, isWord c = true) :
    cs.flatMap spellChar = cs := by
  induction cs with
  | nil => rfl
  | cons c cs ih =>
    obtain ⟨hc, hcs⟩ := List.forall_mem_cons.1 h
    rw [List.flatMap_cons, ih hcs, spellChar, if_pos hc, List.singleton_append]

/-- A name with another character is spelled with a `0` in it. -/
theorem zero_mem_flatMap_spellChar {cs : List Char} {c : Char} (hc : c ∈ cs)
    (h : isWord c = false) : '0' ∈ cs.flatMap spellChar := by
  refine List.mem_flatMap.2 ⟨c, hc, ?_⟩
  rw [spellChar, h]
  exact List.mem_cons_self ..

theorem spellEscapes_of_word {cs : List Char} (h : ∀ c ∈ cs, isWord c = true) :
    spellEscapes cs = cs := by
  induction cs with
  | nil => rfl
  | cons c cs ih =>
    obtain ⟨hc, hcs⟩ := List.forall_mem_cons.1 h
    have hb : c ≠ '\\' := by
      rintro rfl
      revert hc
      decide
    rw [spellEscapes.eq_2 c cs (fun _ _ e _ => hb e), ih hcs]

/-! ## Reserved words -/

/-- No reserved word has a `0` in it or starts the way reserved names do. -/
theorem reserved_plain {d : Dialect} {cs : List Char}
    (h : d.isReserved (String.ofList cs) = true) : '0' ∉ cs ∧ ¬ reservedStart <+: cs := by
  have hall : ∀ d : Dialect, ∀ w ∈ d.reservedWords,
      '0' ∉ w.toList ∧ ¬ reservedStart <+: w.toList := by
    intro d
    cases d <;> decide +kernel
  have := hall d (String.ofList cs) (List.contains_iff_mem.1 h)
  rwa [String.toList_ofList] at this

/-! ## Valid names -/

theorem isValidChars_iff {d : Dialect} {cs : List Char} :
    isValidChars d cs = true ↔
      needsReservedStart d cs = false ∧ ∀ c ∈ cs, isWord c = true := by
  cases cs with
  | nil => simp [isValidChars, needsReservedStart]
  | cons c cs =>
    simp only [isValidChars, needsReservedStart, Bool.and_eq_true, Bool.or_eq_false_iff,
      Bool.not_eq_eq_eq_not, Bool.not_true, Bool.not_false, List.all_eq_true]
    rw [and_right_comm]

/-- A name that may stand at the front stays so when its other characters are spelled. -/
theorem needsReservedStart_flatMap {d : Dialect} {cs : List Char}
    (h : needsReservedStart d cs = false) : needsReservedStart d (cs.flatMap spellChar) = false := by
  cases cs with
  | nil => cases h
  | cons c cs =>
    simp only [needsReservedStart, Bool.or_eq_false_iff, Bool.not_eq_eq_eq_not,
      Bool.not_false] at h
    have hc : spellChar c = [c] := by rw [spellChar, if_pos (isWord_of_isStart h.1)]
    rw [List.flatMap_cons, hc, List.singleton_append]
    simp only [needsReservedStart, Bool.or_eq_false_iff, Bool.not_eq_eq_eq_not, Bool.not_false]
    refine ⟨h.1, ?_⟩
    by_cases hcs : ∀ x ∈ cs, isWord x = true
    · rw [flatMap_spellChar hcs]
      exact h.2
    · -- a character is spelled with a `0`, and no reserved word has one
      obtain ⟨x, hx, hw⟩ : ∃ x ∈ cs, isWord x = false := by simpa using hcs
      refine Bool.eq_false_iff.2 fun hr => (reserved_plain hr).1 ?_
      exact List.mem_cons_of_mem _ (zero_mem_flatMap_spellChar hx hw)

/-- With the reserved start in front, a name is valid in every dialect. -/
theorem isValidChars_reservedStart (d : Dialect) {cs : List Char}
    (hw : ∀ c ∈ cs, isWord c = true) : isValidChars d (reservedStart ++ cs) = true := by
  rw [isValidChars_iff]
  constructor
  · refine Bool.or_eq_false_iff.2 ⟨rfl, Bool.eq_false_iff.2 fun hr => ?_⟩
    exact (reserved_plain hr).2 (List.prefix_append reservedStart _)
  · intro c hc
    rcases List.mem_append.1 hc with hc | hc
    · have hstart : reservedStart.all isWord = true := by decide
      exact List.all_eq_true.1 hstart c hc
    · exact hw c hc

theorem isValidChars_sanitizeChars (d : Dialect) (cs : List Char) :
    isValidChars d (sanitizeChars d cs) = true := by
  have hword : ∀ c ∈ (spellEscapes cs).flatMap spellChar, isWord c = true := fun c hc => by
    obtain ⟨x, -, hx⟩ := List.mem_flatMap.1 hc
    exact isWord_of_mem_spellChar hx
  unfold sanitizeChars
  by_cases hn : needsReservedStart d (spellEscapes cs) = true
  · simp only [hn, if_true]
    exact isValidChars_reservedStart d hword
  · rw [Bool.not_eq_true] at hn
    simp only [hn, Bool.false_eq_true, if_false, List.nil_append]
    exact isValidChars_iff.2 ⟨needsReservedStart_flatMap hn, hword⟩

theorem sanitizeChars_of_isValidChars {d : Dialect} {cs : List Char}
    (h : isValidChars d cs = true) : sanitizeChars d cs = cs := by
  obtain ⟨hn, hw⟩ := isValidChars_iff.1 h
  simp only [sanitizeChars, spellEscapes_of_word hw, hn, flatMap_spellChar hw]
  rfl

/-! ## Sanitizing -/

theorem isValid_sanitize (d : Dialect) (raw : String) :
    isValid d (sanitize d raw).text = true := by
  unfold isValid sanitize
  rw [String.toList_ofList]
  exact isValidChars_sanitizeChars d raw.toList

theorem sanitize_of_isValid {d : Dialect} {name : String} (h : isValid d name = true) :
    sanitize d name = ⟨name⟩ := by
  unfold sanitize
  rw [sanitizeChars_of_isValidChars h, String.ofList_toList]

/-- A sanitized name is left as it is. -/
theorem sanitize_sanitize (d : Dialect) (raw : String) :
    sanitize d (sanitize d raw).text = sanitize d raw :=
  sanitize_of_isValid (isValid_sanitize d raw)

/-- Any text becomes a valid name of the dialect, which then stays as it is; and the valid names are
just the texts that stay as they are. -/
theorem isValid_iff_sanitize_eq (d : Dialect) (raw : String) :
    isValid d (sanitize d raw).text = true ∧ sanitize d (sanitize d raw).text = sanitize d raw ∧
      (isValid d raw = true ↔ (sanitize d raw).text = raw) := by
  have hvalid := isValid_sanitize d raw
  refine ⟨hvalid, sanitize_sanitize d raw, ?_⟩
  constructor
  · intro h
    rw [sanitize_of_isValid h]
  · intro h
    rwa [h] at hvalid

/-! ## Names -/

theorem text_injective : Function.Injective Identifier.text := by
  rintro ⟨n⟩ ⟨m⟩ h
  exact congrArg Identifier.mk h

/-- The identifier is one of some dialect. Whatever sanitizing leads to is. -/
def IsName (n : Identifier) : Prop := ∃ d, isValid d n.text = true

theorem isName_sanitize (d : Dialect) (raw : String) : (sanitize d raw).IsName :=
  ⟨d, isValid_sanitize d raw⟩

/-- A name made longer is left as it is in every dialect, if no reserved word ends that way. -/
theorem sanitize_append {d : Dialect} {n : Identifier} (h : n.IsName) {suffix : String}
    (hw : suffix.toList.all isWord = true)
    (hr : ∀ w ∈ d.reservedWords, ¬ suffix.toList <:+ w.toList) :
    sanitize d (n.text ++ suffix) = ⟨n.text ++ suffix⟩ := by
  obtain ⟨d', h⟩ := h
  apply sanitize_of_isValid
  unfold isValid at h ⊢
  obtain ⟨hn, hword⟩ := isValidChars_iff.1 h
  have hplain : d.isReserved (n.text ++ suffix) = false := by
    refine Bool.eq_false_iff.2 fun hres => hr _ (List.contains_iff_mem.1 hres) ?_
    rw [String.toList_append]
    exact List.suffix_append ..
  rw [isValidChars_iff]
  refine ⟨?_, fun c hc => ?_⟩
  · rw [← String.ofList_toList (s := n.text ++ suffix)] at hplain
    rw [String.toList_append] at hplain ⊢
    generalize n.text.toList = cs at hn hplain
    cases cs with
    | nil => cases hn
    | cons c cs =>
      rw [needsReservedStart, Bool.or_eq_false_iff] at hn
      rw [List.cons_append] at hplain ⊢
      rw [needsReservedStart, hn.1, hplain]
      rfl
  · rw [String.toList_append] at hc
    exact (List.mem_append.1 hc).elim (hword c) (List.all_eq_true.1 hw c)

end SchemaInference.Identifier
