/-
What the scans take. Each scan takes just the texts of its token, and when the text goes on with a
character that cannot belong to the token, it takes all of it. In a string it is enough to know
whether a run of backslashes that has just ended was odd (`RawFrom`), since the scan looks at one
character at a time.
-/
import SchemaInference.Proofs.Document.Grammar
import Mathlib.Data.List.Induction
import Mathlib.Data.List.TakeWhile

namespace SchemaInference.Document

/-! ## Blanks -/

theorem isBlank_iff {c : Char} :
    isBlank c = true ↔ c = ' ' ∨ c = '\t' ∨ c = '\r' ∨ c = '\n' := by
  simp only [isBlank, Bool.or_eq_true, beq_iff_eq]
  tauto

theorem blanks_iff {s : List Char} : Blanks s ↔ ∀ c ∈ s, isBlank c = true := by
  simp only [Blanks, isBlank_iff]

theorem blanks_nil : Blanks [] := fun _ h => nomatch h

theorem Blanks.append {s t : List Char} (hs : Blanks s) (ht : Blanks t) : Blanks (s ++ t) :=
  List.forall_mem_append.2 ⟨hs, ht⟩

theorem skipBlanks_append {b : List Char} (hb : Blanks b) (s : List Char) :
    skipBlanks (b ++ s) = skipBlanks s := by
  unfold skipBlanks
  rw [List.dropWhile_append_of_pos (blanks_iff.1 hb)]

/-- What is skipped is blank. -/
theorem skipBlanks_eq (s : List Char) : ∃ b, Blanks b ∧ s = b ++ skipBlanks s := by
  refine ⟨s.takeWhile isBlank, blanks_iff.2 fun c hc => ?_, ?_⟩
  · exact List.mem_takeWhile_imp hc
  · exact (List.takeWhile_append_dropWhile ..).symm

theorem skipBlanks_cons {c : Char} (hc : isBlank c = false) (s : List Char) :
    skipBlanks (c :: s) = c :: s := by
  unfold skipBlanks
  rw [List.dropWhile_cons, hc]
  rfl

theorem skipBlanks_eq_nil {s : List Char} (h : skipBlanks s = []) : Blanks s := by
  obtain ⟨b, hb, e⟩ := skipBlanks_eq s
  rw [h, List.append_nil] at e
  exact e ▸ hb

theorem skipBlanks_of_blanks {s : List Char} (h : Blanks s) : skipBlanks s = [] := by
  have := skipBlanks_append h []
  rwa [List.append_nil] at this

/-! ## Numbers -/

/-- The text ends, or goes on with a character for which `p` holds. -/
def Next (p : Char → Prop) (s : List Char) : Prop := ∀ c ∈ s.head?, p c

theorem Next.imp {p q : Char → Prop} {s : List Char} (h : Next p s) (hpq : ∀ c, p c → q c) :
    Next q s := fun c hc => hpq c (h c hc)

theorem next_cons {p : Char → Prop} {c : Char} {s : List Char} (h : p c) : Next p (c :: s) := by
  rintro _ ⟨⟩
  exact h

theorem scanDigits_sound {s ds rest : List Char} (h : scanDigits s = .ok (ds, rest)) :
    s = ds ++ rest ∧ Digits ds := by
  obtain ⟨he, hne⟩ := scanDigits_eq h
  refine ⟨he, hne, ?_⟩
  unfold scanDigits at h
  split at h
  · cases h
  · rename_i d ds' hd
    cases h
    intro c hc
    rw [← hd] at hc
    exact List.mem_takeWhile_imp hc

theorem scanDigits_complete {ds rest : List Char} (hd : Digits ds)
    (hr : Next (fun c => c.isDigit = false) rest) : scanDigits (ds ++ rest) = .ok (ds, rest) := by
  have htake : (ds ++ rest).takeWhile Char.isDigit = ds ∧
      (ds ++ rest).dropWhile Char.isDigit = rest := by
    rw [List.takeWhile_append_of_pos hd.2, List.dropWhile_append_of_pos hd.2]
    cases rest with
    | nil => simp
    | cons c rest =>
      have hc : c.isDigit = false := hr c rfl
      rw [List.takeWhile_cons, List.dropWhile_cons, hc]
      simp
  unfold scanDigits
  rw [htake.1, htake.2]
  cases ds with
  | nil => exact absurd rfl hd.1
  | cons d ds => rfl

theorem scanFraction_sound {s part rest : List Char} (h : scanFraction s = .ok (part, rest)) :
    s = part ++ rest ∧ (part = [] ∨ FractionText part) := by
  refine ⟨scanFraction_eq h, ?_⟩
  unfold scanFraction at h
  split at h
  · rename_i s'
    rcases hd : scanDigits s' with e | ⟨ds, rest'⟩
    · rw [hd] at h
      cases h
    · rw [hd] at h
      cases h
      exact .inr ⟨ds, rfl, (scanDigits_sound hd).2⟩
  · cases h
    exact .inl rfl

theorem scanFraction_complete {part rest : List Char} (hp : part = [] ∨ FractionText part)
    (hr : Next (fun c => c.isDigit = false ∧ c ≠ '.') rest) :
    scanFraction (part ++ rest) = .ok (part, rest) := by
  rcases hp with rfl | ⟨ds, rfl, hd⟩
  · rw [List.nil_append]
    unfold scanFraction
    split
    · exact absurd rfl (hr _ rfl).2
    · rfl
  · rw [List.cons_append, scanFraction, scanDigits_complete hd (hr.imp fun _ h => h.1)]
    rfl

theorem scanSign_sound (s : List Char) :
    (scanSign s).1 = [] ∨ (scanSign s).1 = ['+'] ∨ (scanSign s).1 = ['-'] := by
  unfold scanSign
  split
  · exact .inr (.inl rfl)
  · exact .inr (.inr rfl)
  · exact .inl rfl

theorem isExponentMark_iff {c : Char} : isExponentMark c = true ↔ c = 'e' ∨ c = 'E' := by
  simp [isExponentMark]

theorem scanExponent_sound {s part rest : List Char} (h : scanExponent s = .ok (part, rest)) :
    s = part ++ rest ∧ (part = [] ∨ ExponentText part) := by
  refine ⟨scanExponent_eq h, ?_⟩
  unfold scanExponent at h
  split at h
  · cases h
    exact .inl rfl
  · rename_i c s'
    split at h
    · rename_i hc
      rcases hd : scanDigits (scanSign s').2 with e | ⟨ds, rest'⟩
      · rw [hd] at h
        cases h
      · rw [hd] at h
        cases h
        exact .inr ⟨c, (scanSign s').1, ds, rfl, isExponentMark_iff.1 hc, scanSign_sound s',
          (scanDigits_sound hd).2⟩
    · cases h
      exact .inl rfl

/-- A digit is neither a sign nor a minus. -/
theorem ne_of_isDigit {c d : Char} (hc : c.isDigit = true) (hd : d.isDigit = false) : c ≠ d := by
  rintro rfl
  rw [hc] at hd
  cases hd

theorem scanSign_complete {sign ds : List Char}
    (hs : sign = [] ∨ sign = ['+'] ∨ sign = ['-']) (hd : Digits ds) (rest : List Char) :
    scanSign (sign ++ (ds ++ rest)) = (sign, ds ++ rest) := by
  rcases hs with rfl | rfl | rfl
  · obtain ⟨hne, hdig⟩ := hd
    cases ds with
    | nil => exact absurd rfl hne
    | cons d ds =>
      have hd := hdig d (List.mem_cons_self ..)
      have hplus : d ≠ '+' := ne_of_isDigit hd rfl
      have hminus : d ≠ '-' := ne_of_isDigit hd rfl
      rw [List.nil_append, List.cons_append]
      unfold scanSign
      split
      · rename_i e
        exact absurd (List.cons.inj e).1 hplus
      · rename_i e
        exact absurd (List.cons.inj e).1 hminus
      · rfl
  · rfl
  · rfl

theorem scanExponent_complete {part rest : List Char} (hp : part = [] ∨ ExponentText part)
    (hr : Next (fun c => c.isDigit = false ∧ isExponentMark c = false) rest) :
    scanExponent (part ++ rest) = .ok (part, rest) := by
  rcases hp with rfl | ⟨mark, sign, ds, rfl, hm, hs, hd⟩
  · rw [List.nil_append]
    cases rest with
    | nil => rfl
    | cons c rest =>
      have hc : isExponentMark c = false := (hr c rfl).2
      rw [scanExponent, hc]
      rfl
  · rw [List.cons_append, List.append_assoc, scanExponent, if_pos (isExponentMark_iff.2 hm),
      scanSign_complete hs hd, scanDigits_complete hd (hr.imp fun _ h => h.1)]
    rfl

theorem scanMinus_sound (s : List Char) : (scanMinus s).1 = [] ∨ (scanMinus s).1 = ['-'] := by
  unfold scanMinus
  split
  · exact .inr rfl
  · exact .inl rfl

theorem scanMinus_complete {minus ds : List Char} (hm : minus = [] ∨ minus = ['-'])
    (hd : Digits ds) (rest : List Char) :
    scanMinus (minus ++ (ds ++ rest)) = (minus, ds ++ rest) := by
  rcases hm with rfl | rfl
  · obtain ⟨hne, hdig⟩ := hd
    cases ds with
    | nil => exact absurd rfl hne
    | cons d ds =>
      have hminus : d ≠ '-' := ne_of_isDigit (hdig d (List.mem_cons_self ..)) rfl
      rw [List.nil_append, List.cons_append]
      unfold scanMinus
      split
      · rename_i e
        exact absurd (List.cons.inj e).1 hminus
      · rfl
  · rfl

/-- The text of a number, and the value that it is. -/
def NumberText (s : List Char) (v : Value) : Prop :=
  (IntegerText s ∧ v = .integer (String.ofList s)) ∨ (RealText s ∧ v = .real (String.ofList s))

theorem scanNumber_sound {s : List Char} {n : Numeral} (h : scanNumber s = .ok n) :
    s = n.text ++ n.rest ∧ NumberText n.text n.value := by
  refine ⟨(scanNumber_eq h).1, ?_⟩
  unfold scanNumber at h
  simp only [bind, Except.bind] at h
  split at h
  · cases h
  rename_i p hd
  split at h
  · cases h
  rename_i q hf
  split at h
  · cases h
  rename_i r he
  cases h
  have hwhole : IntegerText ((scanMinus s).1 ++ p.1) :=
    ⟨_, _, rfl, scanMinus_sound s, (scanDigits_sound hd).2⟩
  have hfraction := (scanFraction_sound hf).2
  have hexponent := (scanExponent_sound he).2
  unfold NumberText Numeral.value Numeral.text
  by_cases htail : q.1 ++ r.1 = []
  · simp only [htail, List.append_nil, List.isEmpty_nil, if_true]
    exact .inl ⟨hwhole, trivial⟩
  · have hne : (q.1 ++ r.1).isEmpty = false := by
      rw [Bool.eq_false_iff, ne_eq, List.isEmpty_iff]
      exact htail
    simp only [hne, Bool.false_eq_true, if_false]
    exact .inr ⟨⟨_, _, _, rfl, hwhole, hfraction, hexponent, htail⟩, trivial⟩

/-- The characters after which no number goes on. -/
def endsNumber (c : Char) : Prop := isBlank c = true ∨ c = ',' ∨ c = ']' ∨ c = '}'

theorem endsNumber.plain {c : Char} (h : endsNumber c) :
    c.isDigit = false ∧ c ≠ '.' ∧ isExponentMark c = false := by
  rcases h with h | rfl | rfl | rfl
  · rcases isBlank_iff.1 h with rfl | rfl | rfl | rfl <;> decide
  · decide
  · decide
  · decide

theorem scanNumber_complete {whole fraction exponent rest : List Char} (hw : IntegerText whole)
    (hf : fraction = [] ∨ FractionText fraction) (he : exponent = [] ∨ ExponentText exponent)
    (hr : Next endsNumber rest) :
    scanNumber (whole ++ (fraction ++ exponent) ++ rest) =
      .ok ⟨whole, fraction ++ exponent, rest⟩ := by
  obtain ⟨minus, ds, rfl, hm, hd⟩ := hw
  have hrest : Next (fun c => c.isDigit = false ∧ isExponentMark c = false) rest :=
    hr.imp fun c h => ⟨h.plain.1, h.plain.2.2⟩
  -- what follows each part cannot belong to it
  have hexp : Next (fun c => c.isDigit = false ∧ c ≠ '.') (exponent ++ rest) := by
    rcases he with rfl | ⟨mark, sign, es, rfl, hmark, -, -⟩
    · exact hr.imp fun c h => ⟨h.plain.1, h.plain.2.1⟩
    · refine next_cons ?_
      rcases hmark with rfl | rfl <;> decide
  have hfrac : Next (fun c => c.isDigit = false) (fraction ++ (exponent ++ rest)) := by
    rcases hf with rfl | ⟨fs, rfl, -⟩
    · exact hexp.imp fun c h => h.1
    · exact next_cons (by decide)
  have htext : minus ++ ds ++ (fraction ++ exponent) ++ rest =
      minus ++ (ds ++ (fraction ++ (exponent ++ rest))) := by
    simp only [List.append_assoc]
  unfold scanNumber
  rw [htext, scanMinus_complete hm hd]
  simp only [bind, Except.bind, scanDigits_complete hd hfrac, scanFraction_complete hf hexp,
    scanExponent_complete he hrest]
  rfl

/-! ## Strings -/

/-- Whether an odd run of backslashes stands at the end, where one stands in front if `odd`. -/
def endsOdd (odd : Bool) (s : List Char) : Bool := s.foldl (fun odd c => c == '\\' && !odd) odd

theorem endsOdd_iff {s : List Char} : endsOdd false s = true ↔ backslashes s % 2 = 1 := by
  induction s using List.reverseRecOn with
  | nil => decide
  | append_singleton s c ih =>
    have hlast : endsOdd false (s ++ [c]) = (c == '\\' && !endsOdd false s) := by
      unfold endsOdd
      rw [List.foldl_append]
      rfl
    have hcount : backslashes (s ++ [c]) = if c = '\\' then backslashes s + 1 else 0 := by
      unfold backslashes
      rw [List.reverse_append, List.reverse_singleton, List.singleton_append, List.takeWhile_cons]
      by_cases hc : c = '\\' <;> simp [hc]
    rw [hlast, hcount]
    by_cases hc : c = '\\'
    · subst hc
      rw [if_pos rfl, beq_self_eq_true, Bool.true_and, Bool.not_eq_true', ← Bool.not_eq_true, ih]
      omega
    · rw [if_neg hc, beq_false_of_ne hc]
      simp

/-- `s` may go on a string up to its closing quote, where an odd run of backslashes stands in front
of it if `odd`. -/
def RawFrom (odd : Bool) (s : List Char) : Prop :=
  (∀ before after, s = before ++ '"' :: after → endsOdd odd before = true) ∧ endsOdd odd s = false

theorem rawText_iff {s : List Char} : RawText s ↔ RawFrom false s := by
  unfold RawText RawFrom
  rw [← Bool.not_eq_true, endsOdd_iff]
  simp only [endsOdd_iff]
  have : backslashes s % 2 = 0 ↔ ¬ backslashes s % 2 = 1 := by omega
  rw [this]

theorem rawFrom_nil {odd : Bool} : RawFrom odd [] ↔ odd = false := by
  constructor
  · exact fun h => h.2
  · rintro rfl
    exact ⟨fun _ _ e => by simp at e, rfl⟩

/-- One character after the other. -/
theorem rawFrom_cons {odd : Bool} {c : Char} {s : List Char} :
    RawFrom odd (c :: s) ↔ (c = '"' → odd = true) ∧ RawFrom (c == '\\' && !odd) s := by
  constructor
  · rintro ⟨hq, he⟩
    refine ⟨?_, fun before after e => ?_, he⟩
    · rintro rfl
      exact hq [] s rfl
    · exact hq (c :: before) after (by rw [e]; rfl)
  · rintro ⟨hc, hq, he⟩
    refine ⟨fun before after e => ?_, he⟩
    cases before with
    | nil => exact hc (List.cons.inj e).1
    | cons d before =>
      obtain ⟨rfl, hs⟩ := List.cons.inj e
      exact hq before after hs

theorem scanString_sound {s raw rest : List Char} (h : scanString s = some (raw, rest)) :
    RawFrom false raw := by
  fun_induction scanString s generalizing raw rest with
  | case1 => cases h
  | case2 s =>
    cases h
    exact rawFrom_nil.2 rfl
  | case3 c s ih =>
    obtain ⟨⟨raw', rest'⟩, h', e⟩ := Option.map_eq_some_iff.1 h
    obtain ⟨rfl, rfl⟩ := Prod.mk.inj e
    refine rawFrom_cons.2 ⟨fun e => absurd e (by decide), rawFrom_cons.2 ⟨fun _ => rfl, ?_⟩⟩
    rw [show (c == '\\' && !('\\' == '\\' && !false)) = false by simp]
    exact ih h'
  | case4 c s hq hb ih =>
    obtain ⟨⟨raw', rest'⟩, h', e⟩ := Option.map_eq_some_iff.1 h
    obtain ⟨rfl, rfl⟩ := Prod.mk.inj e
    -- a backslash with nothing after it does not close
    have hc : c ≠ '\\' := by
      rintro rfl
      cases s with
      | nil => cases h'
      | cons d s => exact hb d s rfl rfl
    refine rawFrom_cons.2 ⟨fun e => absurd e hq, ?_⟩
    rw [beq_false_of_ne hc, Bool.false_and]
    exact ih h'

theorem scanString_complete {raw : List Char} (h : RawFrom false raw) (rest : List Char) :
    scanString (raw ++ '"' :: rest) = some (raw, rest) := by
  match raw with
  | [] => rfl
  | [c] =>
    obtain ⟨hq, hs⟩ := rawFrom_cons.1 h
    have hq : c ≠ '"' := fun e => nomatch hq e
    have hc : c ≠ '\\' := by
      rintro rfl
      cases hs.2
    rw [List.singleton_append, scanString.eq_4 _ _ hq fun _ _ e => absurd e hc, scanString]
    rfl
  | c :: d :: s =>
    obtain ⟨hq, hs⟩ := rawFrom_cons.1 h
    have hq : c ≠ '"' := fun e => nomatch hq e
    by_cases hc : c = '\\'
    · subst hc
      have hs := (rawFrom_cons.1 hs).2
      rw [show (d == '\\' && !('\\' == '\\' && !false)) = false by simp] at hs
      rw [List.cons_append, List.cons_append, scanString, scanString_complete hs rest]
      rfl
    · rw [beq_false_of_ne hc, Bool.false_and] at hs
      rw [List.cons_append, scanString.eq_4 _ _ hq fun _ _ e => absurd e hc,
        scanString_complete hs rest]
      rfl

end SchemaInference.Document
