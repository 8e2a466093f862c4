/-
One text named in two dialects. The dialects differ only in the words that they reserve, so a text
has the same name in both unless it spells a word that just one of them reserves
(`sanitize_eq_iff`); and a name that one dialect made fits the other unless the other reserves that
word (`isValid_sanitize_iff`). So a name that had to be changed for one dialect fits them all
(`isValid_sanitize_of_ne`).
-/
import SchemaInference.Proofs.Identifier.Sanitize

namespace SchemaInference

/-- The text spells a reserved word. -/
def Dialect.reserves (d : Dialect) (raw : String) : Bool :=
  d.isReserved (String.ofList (Identifier.spellEscapes raw.toList))

namespace Identifier

variable {d d' : Dialect} {raw : String}

/-- But for the start, a reserved word is an identifier. -/
theorem reserved_word {cs : List Char} (h : d.isReserved (String.ofList cs) = true) :
    (∀ c ∈ cs, isWord c = true) ∧ ∃ c rest, cs = c :: rest ∧ isStart c = true := by
  have hall : ∀ d : Dialect, (d.reservedWords.all fun w =>
      w.toList.all isWord && w.toList.head?.any isStart) = true := by
    intro d
    cases d <;> decide +kernel
  have hw := List.all_eq_true.1 (hall d) (String.ofList cs) (List.contains_iff_mem.1 h)
  rw [String.toList_ofList, Bool.and_eq_true, List.all_eq_true] at hw
  refine ⟨hw.1, ?_⟩
  cases cs with
  | nil => exact absurd hw.2 (by decide)
  | cons c rest => exact ⟨c, rest, rfl, hw.2⟩

theorem sanitizeChars_congr (h : d.reserves raw = d'.reserves raw) :
    sanitizeChars d raw.toList = sanitizeChars d' raw.toList := by
  have hneeds : needsReservedStart d (spellEscapes raw.toList) =
      needsReservedStart d' (spellEscapes raw.toList) := by
    unfold Dialect.reserves at h
    cases hcs : spellEscapes raw.toList with
    | nil => rfl
    | cons c cs =>
      rw [hcs] at h
      simp only [needsReservedStart, h]
  unfold sanitizeChars
  simp only [hneeds]

theorem needsReservedStart_of_reserves (h : d.reserves raw = true) :
    needsReservedStart d (spellEscapes raw.toList) = true := by
  obtain ⟨-, c, cs, hcs, -⟩ := reserved_word h
  unfold Dialect.reserves at h
  rw [hcs] at h ⊢
  rw [needsReservedStart, h, Bool.or_true]

/-- A dialect that reserves the word puts the reserved start in front of it. -/
theorem sanitizeChars_of_reserves (h : d.reserves raw = true) :
    sanitizeChars d raw.toList = reservedStart ++ spellEscapes raw.toList := by
  have hword := (reserved_word h).1
  simp only [sanitizeChars, needsReservedStart_of_reserves h, if_true, flatMap_spellChar hword]

/-- Another dialect leaves it as it is. -/
theorem sanitizeChars_of_not_reserves (h : d.reserves raw = true) (h' : d'.reserves raw = false) :
    sanitizeChars d' raw.toList = spellEscapes raw.toList := by
  obtain ⟨hword, c, cs, hcs, hc⟩ := reserved_word h
  unfold Dialect.reserves at h'
  have hneeds : needsReservedStart d' (spellEscapes raw.toList) = false := by
    rw [hcs] at h' ⊢
    rw [needsReservedStart, h', hc]
    rfl
  simp only [sanitizeChars, hneeds, flatMap_spellChar hword]
  rfl

/-- A name of one dialect fits another one unless only that one reserves the word. -/
theorem isValid_sanitize_iff :
    isValid d (sanitize d' raw).text = true ↔ (d.reserves raw = true → d'.reserves raw = true) := by
  unfold isValid sanitize
  rw [String.toList_ofList]
  constructor
  · intro hv h
    cases h' : d'.reserves raw with
    | true => rfl
    | false =>
      -- the name is the word, which `d` reserves
      rw [sanitizeChars_of_not_reserves h h', isValidChars_iff,
        needsReservedStart_of_reserves h] at hv
      cases hv.1
  · intro himp
    cases h' : d'.reserves raw with
    | true =>
      rw [sanitizeChars_of_reserves h']
      exact isValidChars_reservedStart d (reserved_word h').1
    | false =>
      have h : d.reserves raw = false := Bool.eq_false_iff.2 fun h => by simp [himp h] at h'
      rw [sanitizeChars_congr (h'.trans h.symm)]
      exact isValidChars_sanitizeChars ..

/-- A text has one name in two dialects if both reserve the word or neither does. -/
theorem sanitize_eq_iff : sanitize d raw = sanitize d' raw ↔ d.reserves raw = d'.reserves raw := by
  constructor
  · intro h
    have hd : isValid d (sanitize d' raw).text = true := h ▸ isValid_sanitize d raw
    have hd' : isValid d' (sanitize d raw).text = true := h ▸ isValid_sanitize d' raw
    exact Bool.eq_iff_iff.2 ⟨isValid_sanitize_iff.1 hd, isValid_sanitize_iff.1 hd'⟩
  · intro h
    unfold sanitize
    rw [sanitizeChars_congr h]

theorem sanitize_empty (d d' : Dialect) : sanitize d "" = sanitize d' "" := by
  have hd : ∀ d : Dialect, d.reserves "" = false := by
    intro d
    cases d <;> decide +kernel
  rw [sanitize_eq_iff, hd, hd]

/-- Names that fit each other's dialect are one. -/
theorem sanitize_eq_of_isValid (hd : isValid d (sanitize d' raw).text = true)
    (hd' : isValid d' (sanitize d raw).text = true) : sanitize d raw = sanitize d' raw :=
  sanitize_eq_iff.2 (Bool.eq_iff_iff.2 ⟨isValid_sanitize_iff.1 hd, isValid_sanitize_iff.1 hd'⟩)

/-- A text named in one dialect and then in another one has the name that the other one gives it at
once, unless only the first one reserves the word. -/
theorem sanitize_twice_iff :
    sanitize d (sanitize d' raw).text = sanitize d raw ↔
      (d'.reserves raw = true → d.reserves raw = true) := by
  cases h : d.reserves raw with
  | false =>
    have hfits : isValid d (sanitize d' raw).text = true := isValid_sanitize_iff.2 (by simp [h])
    rw [sanitize_of_isValid hfits]
    show sanitize d' raw = _ ↔ _
    rw [sanitize_eq_iff, h]
    cases d'.reserves raw <;> simp
  | true =>
    refine iff_of_true ?_ fun _ => rfl
    cases h' : d'.reserves raw with
    | true => rw [sanitize_eq_iff.2 (h'.trans h.symm), sanitize_sanitize]
    | false =>
      -- the first dialect leaves the word as it is
      have hword := (reserved_word h).1
      have hchars : (sanitize d' raw).text.toList = spellEscapes raw.toList := by
        rw [sanitize, String.toList_ofList, sanitizeChars_of_not_reserves h h']
      have hspell : spellEscapes (sanitize d' raw).text.toList = spellEscapes raw.toList := by
        rw [hchars, spellEscapes_of_word hword]
      have hagain : d.reserves (sanitize d' raw).text = true := by
        unfold Dialect.reserves
        rw [hspell]
        exact h
      rw [sanitize, sanitizeChars_of_reserves hagain, hspell, ← sanitizeChars_of_reserves h]
      rfl

/-- A name that a dialect changes becomes one that every dialect leaves as it is. -/
theorem isValid_sanitize_of_ne {n : Identifier} (h : n.IsName) (hne : sanitize d n.text ≠ n) :
    isValid d' (sanitize d n.text).text = true := by
  obtain ⟨d₀, h⟩ := h
  refine isValid_sanitize_iff.2 fun _ => ?_
  cases hd : d.reserves n.text with
  | true => rfl
  | false =>
    have hfits : isValid d (sanitize d₀ n.text).text = true := isValid_sanitize_iff.2 (by simp [hd])
    rw [sanitize_of_isValid h] at hfits
    exact absurd (sanitize_of_isValid hfits) hne

end Identifier

end SchemaInference
