/-
Sanitizing in one pass. A name is made in two steps: unicode escapes are replaced, the leftmost one
first and the next one behind it (`Replaced`), and then the characters are spelled one by one. What
the first step writes is left alone by the second, and no reserved word holds any of it, so one scan
from the left that knows both rules does the same (`onePass`), and the text itself tells whether the
reserved start goes in front (`sanitize_eq_onePass`).
-/
import SchemaInference.Proofs.Identifier.Dialects
import Mathlib.Tactic.SplitIfs

namespace SchemaInference.Identifier

/-! ## Escapes -/

/-- The `n` hex digits that the text starts with, and what follows them. -/
def cutHex? (n : Nat) (s : List Char) : Option (List Char × List Char) :=
  if (s.take n).length = n ∧ (s.take n).all isHexDigit then some (s.take n, s.drop n) else none

/-- The digits of the unicode escape that the text starts with, and what follows it. -/
def cutEscape? : List Char → Option (List Char × List Char)
  | [] => none
  | [_] => none
  | c :: mark :: s =>
    if c = '\\' ∧ mark = 'u' then cutHex? 4 s
    else if c = '\\' ∧ mark = 'U' then cutHex? 8 s
    else none

/-- The text starts with a unicode escape. -/
def StartsEscape (s : List Char) : Prop := (cutEscape? s).isSome = true

instance (s : List Char) : Decidable (StartsEscape s) := inferInstanceAs (Decidable (_ = true))

theorem startsHex_iff {n : Nat} {s : List Char} :
    startsHex n s = true ↔ (s.take n).length = n ∧ (s.take n).all isHexDigit = true := by
  induction n generalizing s with
  | zero => simp [startsHex]
  | succ n ih =>
    cases s with
    | nil => simp [startsHex]
    | cons c s =>
      simp only [startsHex, Bool.and_eq_true, ih, List.take_succ_cons, List.length_cons,
        List.all_cons, Nat.add_right_cancel_iff]
      exact and_left_comm

theorem isSome_cutHex? {n : Nat} {s : List Char} : (cutHex? n s).isSome = startsHex n s := by
  rw [Bool.eq_iff_iff, startsHex_iff, cutHex?]
  split <;> simp_all

theorem cutHex?_eq_some {n : Nat} {s digits rest : List Char}
    (h : cutHex? n s = some (digits, rest)) :
    s = digits ++ rest ∧ ∀ c ∈ digits, isHexDigit c = true := by
  unfold cutHex? at h
  split at h
  · rename_i hn
    cases h
    exact ⟨(List.take_append_drop n s).symm, List.all_eq_true.1 hn.2⟩
  · cases h

/-- An escape is a backslash, a mark and digits. -/
theorem cutEscape?_eq_some {s digits rest : List Char} (h : cutEscape? s = some (digits, rest)) :
    ∃ mark, s = '\\' :: mark :: (digits ++ rest) ∧ opensEscape mark (digits ++ rest) = true ∧
      ∀ c ∈ digits, isHexDigit c = true := by
  match s with
  | [] => cases h
  | [_] => cases h
  | c :: mark :: t =>
    rw [cutEscape?] at h
    split_ifs at h with hshort hlong
    · obtain ⟨rfl, rfl⟩ := hshort
      obtain ⟨rfl, hhex⟩ := cutHex?_eq_some h
      have hstarts : startsHex 4 (digits ++ rest) = true := by rw [← isSome_cutHex?, h]; rfl
      exact ⟨'u', rfl, by simp [opensEscape, hstarts], hhex⟩
    · obtain ⟨rfl, rfl⟩ := hlong
      obtain ⟨rfl, hhex⟩ := cutHex?_eq_some h
      have hstarts : startsHex 8 (digits ++ rest) = true := by rw [← isSome_cutHex?, h]; rfl
      exact ⟨'U', rfl, by simp [opensEscape, hstarts], hhex⟩

theorem opensEscape_of_none {mark : Char} {s : List Char}
    (h : cutEscape? ('\\' :: mark :: s) = none) : opensEscape mark s = false := by
  refine Bool.eq_false_iff.2 fun hopens => ?_
  simp only [opensEscape, Bool.or_eq_true, Bool.and_eq_true, beq_iff_eq] at hopens
  rcases hopens with ⟨rfl, hstarts⟩ | ⟨rfl, hstarts⟩
  · rw [cutEscape?, if_pos ⟨rfl, rfl⟩] at h
    rw [← isSome_cutHex?, h] at hstarts
    cases hstarts
  · rw [cutEscape?, if_neg (by decide), if_pos ⟨rfl, rfl⟩] at h
    rw [← isSome_cutHex?, h] at hstarts
    cases hstarts

theorem isWord_of_isHexDigit {c : Char} (h : isHexDigit c = true) : isWord c = true := by
  have halpha : c.isAlpha = true → isWord c = true :=
    fun h => by simp [isWord, Char.isAlphanum, h]
  simp only [isHexDigit, Bool.or_eq_true, Bool.and_eq_true, decide_eq_true_eq] at h
  rcases h with (hdigit | ⟨hlo, hhi⟩) | ⟨hlo, hhi⟩
  · simp [isWord, Char.isAlphanum, hdigit]
  · have hlower : c.isLower = true := by
      have hz : c ≤ 'z' := Char.le_trans hhi (by decide)
      exact Bool.and_eq_true_iff.2 ⟨decide_eq_true hlo, decide_eq_true hz⟩
    exact halpha (Bool.or_eq_true_iff.2 (.inr hlower))
  · have hupper : c.isUpper = true := by
      have hZ : c ≤ 'Z' := Char.le_trans hhi (by decide)
      exact decide_eq_true ⟨hlo, hZ⟩
    exact halpha (Bool.or_eq_true_iff.2 (.inl hupper))

theorem length_lt_of_cutEscape {s digits rest : List Char}
    (h : cutEscape? s = some (digits, rest)) : rest.length < s.length := by
  obtain ⟨mark, rfl, -⟩ := cutEscape?_eq_some h
  simp
  omega

/-! ## The two steps -/

/-- No escape starts within `before`, where `s` follows it. -/
def Plain (before s : List Char) : Prop :=
  ∀ u, u <:+ before → u ≠ [] → cutEscape? (u ++ s) = none

theorem plain_nil (s : List Char) : Plain [] s := fun _ h hne => absurd (List.suffix_nil.1 h) hne

theorem plain_cons {c : Char} {before s : List Char} :
    Plain (c :: before) s ↔ cutEscape? (c :: (before ++ s)) = none ∧ Plain before s := by
  constructor
  · exact fun h => ⟨h _ (List.suffix_refl _) (List.cons_ne_nil _ _),
      fun u hu => h u (hu.trans (List.suffix_cons ..))⟩
  · rintro ⟨hc, h⟩ u hu hne
    rcases List.suffix_cons_iff.1 hu with rfl | hu
    · exact hc
    · exact h u hu hne

/-- `t` is `s` with its unicode escapes spelled as `0x` and their digits: the leftmost one, and then
the leftmost one of those that start behind it. -/
inductive Replaced : List Char → List Char → Prop
  | done {s : List Char} (h : Plain s []) : Replaced s s
  | next {before s digits rest t : List Char} (hbefore : Plain before s)
      (hs : cutEscape? s = some (digits, rest)) (h : Replaced rest t) :
      Replaced (before ++ s) (before ++ '0' :: 'x' :: (digits ++ t))

theorem Replaced.cons {c : Char} {s t : List Char} (hc : cutEscape? (c :: s) = none)
    (h : Replaced s t) : Replaced (c :: s) (c :: t) := by
  cases h with
  | done h => exact .done (plain_cons.2 ⟨by rwa [List.append_nil], h⟩)
  | @next before _ _ _ _ hbefore hs h =>
    exact @Replaced.next (c :: before) _ _ _ _ (plain_cons.2 ⟨hc, hbefore⟩) hs h

theorem spellEscapes_append {cs : List Char} (h : ∀ c ∈ cs, isWord c = true) (s : List Char) :
    spellEscapes (cs ++ s) = cs ++ spellEscapes s := by
  induction cs with
  | nil => rfl
  | cons c cs ih =>
    obtain ⟨hc, hcs⟩ := List.forall_mem_cons.1 h
    have hb : c ≠ '\\' := by
      rintro rfl
      revert hc
      decide
    rw [List.cons_append, spellEscapes.eq_2 _ _ (fun _ _ e _ => hb e), ih hcs, List.cons_append]

theorem spellEscapes_of_some {s digits rest : List Char} (h : cutEscape? s = some (digits, rest)) :
    spellEscapes s = '0' :: 'x' :: (digits ++ spellEscapes rest) := by
  obtain ⟨mark, rfl, hopens, hhex⟩ := cutEscape?_eq_some h
  rw [spellEscapes, if_pos hopens,
    spellEscapes_append fun c hc => isWord_of_isHexDigit (hhex c hc)]

theorem spellEscapes_of_none {c : Char} {s : List Char} (h : cutEscape? (c :: s) = none) :
    spellEscapes (c :: s) = c :: spellEscapes s := by
  by_cases hb : c = '\\'
  · subst hb
    cases s with
    | nil => rfl
    | cons mark s =>
      rw [spellEscapes, opensEscape_of_none h]
      rfl
  · exact spellEscapes.eq_2 _ _ fun _ _ e _ => hb e

/-! ## The pass -/

/-- One scan from the left: a unicode escape becomes `0x` and its digits, which are skipped with it,
and every other character is spelled. -/
def onePass (s : List Char) : List Char :=
  if hne : s = [] then []
  else
    match _ : cutEscape? s with
    | some cut => '0' :: 'x' :: (cut.1 ++ onePass cut.2)
    | none => spellChar (s.head hne) ++ onePass s.tail
termination_by s.length
decreasing_by
  · exact length_lt_of_cutEscape ‹_›
  · have := List.length_pos_iff.2 hne
    simp
    omega

theorem onePass_nil : onePass [] = [] := by
  rw [onePass, dif_pos rfl]

theorem onePass_of_some {s digits rest : List Char} (h : cutEscape? s = some (digits, rest)) :
    onePass s = '0' :: 'x' :: (digits ++ onePass rest) := by
  have hne : s ≠ [] := by
    rintro rfl
    cases h
  rw [onePass, dif_neg hne]
  split
  · rename_i h'
    rw [h] at h'
    cases h'
    rfl
  · rename_i h'
    rw [h] at h'
    cases h'

theorem onePass_of_none {c : Char} {s : List Char} (h : cutEscape? (c :: s) = none) :
    onePass (c :: s) = spellChar c ++ onePass s := by
  rw [onePass, dif_neg (List.cons_ne_nil c s)]
  split
  · rename_i h'
    rw [h] at h'
    cases h'
  · rfl

theorem onePass_append {before s : List Char} (h : Plain before s) :
    onePass (before ++ s) = before.flatMap spellChar ++ onePass s := by
  induction before with
  | nil => rfl
  | cons c before ih =>
    obtain ⟨hc, hbefore⟩ := plain_cons.1 h
    rw [List.cons_append, onePass_of_none hc, ih hbefore, List.flatMap_cons, List.append_assoc]

theorem replaced_spellEscapes (s : List Char) : Replaced s (spellEscapes s) := by
  fun_induction onePass s with
  | case1 => exact .done (plain_nil _)
  | case2 s hne cut h ih =>
    rw [spellEscapes_of_some h]
    exact .next (plain_nil _) h ih
  | case3 s hne h ih =>
    rw [← List.cons_head_tail hne] at h ⊢
    rw [spellEscapes_of_none h]
    exact .cons h ih

/-- Spelling the characters of a text whose escapes were replaced is the one pass over it. -/
theorem Replaced.flatMap_spellChar {s t : List Char} (h : Replaced s t) :
    t.flatMap spellChar = onePass s := by
  induction h with
  | @done s h =>
    have hpass := onePass_append h
    rw [List.append_nil, onePass_nil, List.append_nil] at hpass
    exact hpass.symm
  | @next before s digits rest t hbefore hs h ih =>
    obtain ⟨-, -, -, hhex⟩ := cutEscape?_eq_some hs
    -- what is written for an escape may all stand in an identifier
    have hword : ∀ c ∈ '0' :: 'x' :: digits, isWord c = true :=
      List.forall_mem_cons.2 ⟨rfl, List.forall_mem_cons.2 ⟨rfl, fun c hc =>
        isWord_of_isHexDigit (hhex c hc)⟩⟩
    calc (before ++ (('0' :: 'x' :: digits) ++ t)).flatMap spellChar
        = before.flatMap spellChar ++
            (('0' :: 'x' :: digits).flatMap spellChar ++ t.flatMap spellChar) := by
          rw [List.flatMap_append, List.flatMap_append]
      _ = before.flatMap spellChar ++ (('0' :: 'x' :: digits) ++ onePass rest) := by
          rw [Identifier.flatMap_spellChar hword, ih]
      _ = onePass (before ++ s) := by
          rw [onePass_append hbefore, onePass_of_some hs]
          rfl

/-! ## The reserved start -/

/-- The text could not stand at the front of a name: it is empty, it starts with a unicode escape or
with a character that is neither a letter nor an underscore, or it is a reserved word. -/
def Unfit (d : Dialect) (s : List Char) : Prop :=
  s = [] ∨ StartsEscape s ∨ (∃ c ∈ s.head?, isStart c = false) ∨
    d.isReserved (String.ofList s) = true

instance (d : Dialect) (s : List Char) : Decidable (Unfit d s) :=
  inferInstanceAs (Decidable (_ ∨ _ ∨ _ ∨ _))

theorem needsReservedStart_cons {d : Dialect} {c : Char} {s : List Char} :
    needsReservedStart d (c :: s) = true ↔
      isStart c = false ∨ d.isReserved (String.ofList (c :: s)) = true := by
  simp only [needsReservedStart, Bool.or_eq_true, Bool.not_eq_true']

theorem unfit_cons {d : Dialect} {c : Char} {s : List Char} (h : cutEscape? (c :: s) = none) :
    Unfit d (c :: s) ↔ isStart c = false ∨ d.isReserved (String.ofList (c :: s)) = true := by
  have hno : ¬ StartsEscape (c :: s) := by simp [StartsEscape, h]
  simp only [Unfit, hno, List.cons_ne_nil, List.head?_cons, Option.mem_some_iff, exists_eq_left',
    false_or]

/-- What the first step leads to needs the reserved start just where the text itself is unfit. -/
theorem Replaced.needsReservedStart_iff {d : Dialect} {s t : List Char} (h : Replaced s t) :
    needsReservedStart d t = true ↔ Unfit d s := by
  cases h with
  | done h =>
    cases s with
    | nil => exact iff_of_true rfl (.inl rfl)
    | cons c s =>
      have hc := (plain_cons.1 h).1
      rw [List.append_nil] at hc
      rw [needsReservedStart_cons, unfit_cons hc]
  | @next before s digits rest t hbefore hs h =>
    cases before with
    | nil =>
      have hescape : StartsEscape s := by simp [StartsEscape, hs]
      exact iff_of_true rfl (.inr (.inl hescape))
    | cons c before =>
      -- neither is a reserved word: what was replaced has a `0` in it, the text a backslash
      have ht : d.isReserved (String.ofList (c :: (before ++ '0' :: 'x' :: (digits ++ t)))) =
          false := by
        refine Bool.eq_false_iff.2 fun hr => (reserved_plain hr).1 ?_
        simp
      have hs' : d.isReserved (String.ofList (c :: (before ++ s))) = false := by
        refine Bool.eq_false_iff.2 fun hr => ?_
        obtain ⟨mark, rfl, -⟩ := cutEscape?_eq_some hs
        have hword := (reserved_word hr).1 '\\' (by simp)
        revert hword
        decide
      rw [List.cons_append, List.cons_append, needsReservedStart_cons,
        unfit_cons (plain_cons.1 hbefore).1, ht, hs']

/-- The name of a text is what one pass over it writes, behind the reserved start where the text is
unfit. -/
theorem sanitize_eq_onePass (d : Dialect) (raw : String) :
    (sanitize d raw).text = (if Unfit d raw.toList then "_json" else "") ++
      String.ofList (onePass raw.toList) := by
  have h := replaced_spellEscapes raw.toList
  have hname : (sanitize d raw).text = String.ofList
      ((if needsReservedStart d (spellEscapes raw.toList) then reservedStart else []) ++
        (spellEscapes raw.toList).flatMap spellChar) := rfl
  rw [hname, h.flatMap_spellChar, String.ofList_append]
  congr 1
  simp only [h.needsReservedStart_iff]
  split <;> rfl

/-- A backslash in front of an escape does not undo it, and a mark with too few digits is none. -/
example : (sanitize .rust "\\\\u00e9\\u12").text = "_json0x5c0x00e90x5cu12" := by decide +kernel

end SchemaInference.Identifier
