/-
Texts as bytes. The bytes of a text are those of its characters, one character after the other
(`bytes_eq`). A character below 128 is one byte, by which it is known, and every byte of any other
one is 128 or more. So a byte tells whether such a character comes next (`firstByte_eq_iff`), and
the scan of bytes for a closing quote passes all other characters whole (`closingQuote?_utf8`).
-/
import SchemaInference.Document.Cursor
import Mathlib.Tactic.SplitIfs

namespace SchemaInference.Document

open Cursor

/-! ## Characters -/

/-- The characters in UTF-8. -/
def utf8 (s : List Char) : List UInt8 := s.flatMap String.utf8EncodeChar

theorem utf8_cons (c : Char) (s : List Char) :
    utf8 (c :: s) = String.utf8EncodeChar c ++ utf8 s := List.flatMap_cons

theorem utf8_append (s t : List Char) : utf8 (s ++ t) = utf8 s ++ utf8 t := List.flatMap_append

theorem length_utf8 (s : List Char) : (utf8 s).length = byteLength s := by
  induction s with
  | nil => rfl
  | cons c s ih => rw [utf8_cons, List.length_append, ih, String.length_utf8EncodeChar, byteLength]

/-- One text starts with another one just where its bytes do. -/
theorem utf8_prefix_iff {s t : List Char} : utf8 s <+: utf8 t ↔ s <+: t := by
  constructor
  · rintro ⟨more, h⟩
    refine List.isPrefix_of_utf8Encode_append_eq_utf8Encode more.toByteArray ?_
    unfold List.utf8Encode
    rw [← List.toByteArray_append]
    exact congrArg List.toByteArray h
  · rintro ⟨more, rfl⟩
    exact ⟨utf8 more, (utf8_append s more).symm⟩

theorem bytes_eq (text : String) : bytes text = utf8 text.toList := by
  unfold bytes utf8
  rw [← String.utf8Encode_toList, List.utf8Encode, List.data_toByteArray]

theorem utf8Size_of_lt {c : Char} (h : c.toNat < 128) : c.utf8Size = 1 := by
  rw [Char.utf8Size_eq_one_iff, UInt32.le_iff_toNat_le]
  exact Nat.le_of_lt_succ h

theorem utf8EncodeChar_of_lt {c : Char} (h : c.toNat < 128) :
    String.utf8EncodeChar c = [c.toUInt8] := by
  rw [String.utf8EncodeChar_eq_singleton (utf8Size_of_lt h)]
  rfl

theorem le_of_mem_utf8EncodeChar {c : Char} (h : 128 ≤ c.toNat) {b : UInt8}
    (hb : b ∈ String.utf8EncodeChar c) : 128 ≤ b.toNat := by
  have hv : ¬ c.val.toNat ≤ 127 := Nat.not_le.2 h
  unfold String.utf8EncodeChar at hb
  dsimp only at hb
  rw [if_neg hv] at hb
  split_ifs at hb <;> simp only [List.mem_cons, List.not_mem_nil, or_false] at hb <;>
    rcases hb with rfl | rfl | rfl | rfl <;> rw [UInt8.toNat_ofNat'] <;> omega

/-! ## First bytes -/

/-- The byte that the character starts with. -/
def firstByte (c : Char) : UInt8 := (String.utf8EncodeChar c).head String.utf8EncodeChar_ne_nil

theorem head?_utf8 (s : List Char) : (utf8 s).head? = s.head?.map firstByte := by
  cases s with
  | nil => rfl
  | cons c s =>
    rw [utf8_cons, List.head?_append, List.head?_eq_some_head String.utf8EncodeChar_ne_nil]
    rfl

theorem firstByte_of_lt {c : Char} (h : c.toNat < 128) : firstByte c = c.toUInt8 := by
  unfold firstByte
  simp only [utf8EncodeChar_of_lt h, List.head_cons]

theorem toNat_firstByte {c : Char} (h : c.toNat < 128) : (firstByte c).toNat = c.toNat := by
  rw [firstByte_of_lt h, Char.toUInt8, UInt32.toNat_toUInt8]
  exact Nat.mod_eq_of_lt (Nat.lt_trans h (by decide))

theorem le_firstByte {c : Char} (h : 128 ≤ c.toNat) : 128 ≤ (firstByte c).toNat :=
  le_of_mem_utf8EncodeChar h (List.head_mem _)

/-- A character below 128 is known by its byte. -/
theorem firstByte_eq_iff {c a : Char} (ha : a.toNat < 128) : firstByte c = a.toUInt8 ↔ c = a := by
  rw [← firstByte_of_lt ha]
  constructor
  · intro h
    have h := congrArg UInt8.toNat h
    rw [toNat_firstByte ha] at h
    rcases Nat.lt_or_ge c.toNat 128 with hc | hc
    · rw [toNat_firstByte hc] at h
      exact Char.toNat_inj.1 h
    · have := le_firstByte hc
      omega
  · rintro rfl
    rfl

theorem beq_firstByte {c a : Char} (ha : a.toNat < 128) :
    (firstByte c == a.toUInt8) = (c == a) := by
  rw [Bool.eq_iff_iff, beq_iff_eq, beq_iff_eq, firstByte_eq_iff ha]

/-- From its first byte, `p` tells whether `q` holds for a character; and it holds only for
characters that are a single byte. -/
structure Tells (p : UInt8 → Bool) (q : Char → Bool) : Prop where
  first : ∀ c, p (firstByte c) = q c
  single : ∀ c, q c = true → c.utf8Size = 1

theorem Tells.beq {a : Char} (ha : a.toNat < 128) : Tells (· == a.toUInt8) (· == a) where
  first _ := beq_firstByte ha
  single _ hc := by rw [eq_of_beq hc, utf8Size_of_lt ha]

theorem Tells.or {p p' : UInt8 → Bool} {q q' : Char → Bool} (h : Tells p q) (h' : Tells p' q') :
    Tells (fun b => p b || p' b) (fun c => q c || q' c) where
  first c := by rw [h.first, h'.first]
  single c hc := (Bool.or_eq_true_iff.1 hc).elim (h.single c) (h'.single c)

theorem tells_blank : Tells isBlankByte isBlank :=
  (((Tells.beq (by decide)).or (.beq (by decide))).or (.beq (by decide))).or (.beq (by decide))

theorem isDigit_iff {c : Char} : c.isDigit = true ↔ 48 ≤ c.toNat ∧ c.toNat ≤ 57 := by
  simp only [Char.isDigit, Bool.and_eq_true, decide_eq_true_eq, ge_iff_le, UInt32.le_iff_toNat_le]
  rfl

theorem isDigitByte_iff {b : UInt8} : isDigitByte b = true ↔ 48 ≤ b.toNat ∧ b.toNat ≤ 57 := by
  simp only [isDigitByte, Bool.and_eq_true, decide_eq_true_eq, UInt8.le_iff_toNat_le]
  rfl

theorem tells_digit : Tells isDigitByte Char.isDigit where
  first c := by
    rw [Bool.eq_iff_iff, isDigitByte_iff, isDigit_iff]
    rcases Nat.lt_or_ge c.toNat 128 with hc | hc
    · rw [toNat_firstByte hc]
    · have := le_firstByte hc
      omega
  single c hc := utf8Size_of_lt (by have := isDigit_iff.1 hc; omega)

/-! ## Closing quotes -/

/-- Bytes of 128 or more are passed, and nothing is escaped behind them. -/
theorem closingQuote?_append {high : List UInt8} (hne : high ≠ [])
    (hhigh : ∀ b ∈ high, 128 ≤ b.toNat) (escaped : Bool) (bs : List UInt8) :
    closingQuote? escaped (high ++ bs) = (closingQuote? false bs).map (· + high.length) := by
  induction high generalizing escaped with
  | nil => exact absurd rfl hne
  | cons b high ih =>
    obtain ⟨hb, hhigh⟩ := List.forall_mem_cons.1 hhigh
    have hquote : b ≠ '"'.toUInt8 := by
      rintro rfl
      exact absurd hb (by decide)
    have hback : (b == '\\'.toUInt8) = false := by
      refine beq_false_of_ne ?_
      rintro rfl
      exact absurd hb (by decide)
    rw [List.cons_append, closingQuote?, if_neg fun h => hquote h.1, hback, Bool.false_and]
    by_cases hnil : high = []
    · subst hnil
      rfl
    · rw [ih hnil hhigh, Option.map_map]
      rfl

/-- A character that does not close is passed whole. -/
theorem closingQuote?_cons {c : Char} {escaped : Bool} (hc : c = '"' → escaped = true)
    (s : List Char) :
    closingQuote? escaped (utf8 (c :: s)) =
      (closingQuote? (c == '\\' && !escaped) (utf8 s)).map (· + c.utf8Size) := by
  rw [utf8_cons]
  rcases Nat.lt_or_ge c.toNat 128 with hlt | hge
  · have hopen : ¬ (firstByte c = '"'.toUInt8 ∧ escaped = false) := by
      rw [firstByte_eq_iff (by decide)]
      rintro ⟨h, hfalse⟩
      rw [hc h] at hfalse
      cases hfalse
    rw [utf8EncodeChar_of_lt hlt, ← firstByte_of_lt hlt, List.singleton_append, closingQuote?,
      if_neg hopen, beq_firstByte (by decide), utf8Size_of_lt hlt]
  · have hback : (c == '\\') = false := by
      refine beq_false_of_ne ?_
      rintro rfl
      exact absurd hge (by decide)
    rw [closingQuote?_append String.utf8EncodeChar_ne_nil
      (fun b hb => le_of_mem_utf8EncodeChar hge hb), String.length_utf8EncodeChar, hback,
      Bool.false_and]

/-- The scan of bytes ends where the scan of characters does. -/
theorem closingQuote?_utf8 (s : List Char) :
    closingQuote? false (utf8 s) = (scanString s).map fun r => byteLength r.1 := by
  fun_induction scanString s with
  | case1 => rfl
  | case2 s => rfl
  | case3 c s ih =>
    rw [closingQuote?_cons (by simp), show ('\\' == '\\' && !false) = true from rfl,
      closingQuote?_cons (fun _ => rfl), Bool.not_true, Bool.and_false, ih]
    simp only [Option.map_map]
    refine congrArg (fun f => (scanString s).map f) (funext fun r => ?_)
    simp only [Function.comp_apply, byteLength]
    omega
  | case4 c s hq hb ih =>
    have hquote : c = '"' → false = true := fun h => absurd h hq
    rw [closingQuote?_cons hquote]
    by_cases hc : c = '\\'
    · -- a backslash with nothing after it does not close
      subst hc
      cases s with
      | nil => rfl
      | cons d s => exact absurd rfl (hb d s rfl)
    · rw [beq_false_of_ne hc, Bool.false_and, ih]
      simp only [Option.map_map]
      refine congrArg (fun f => (scanString s).map f) (funext fun r => ?_)
      simp only [Function.comp_apply, byteLength]
      omega

end SchemaInference.Document
