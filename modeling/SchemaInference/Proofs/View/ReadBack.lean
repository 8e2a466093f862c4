/-
Reading a printed tree back. The text of a tree is that of a document, with the strings as they stand in
quotes (`spells_pretty`), and read as strings these are those of the tree (`unescape?_escaped`). Up to
the depth that documents may have, the reader therefore has the tree back (`parse_pretty`).
-/
import SchemaInference.Proofs.Document.Reader
import SchemaInference.Proofs.View.Layout

namespace SchemaInference

open Document

namespace Tree

/-! ## Strings -/

/-- What stands between the quotes. -/
def escaped (s : String) : List Char := s.toList.flatMap escapeChar

/-- The ways to write a character in quotes: as itself, as a letter after a backslash, or by its
number. -/
inductive Escapes (c : Char) : List Char → Prop
  | itself (hq : c ≠ '"') (hb : c ≠ '\\') (h : 0x20 ≤ c.toNat) : Escapes c [c]
  | letter {e : Char} (hu : e ≠ 'u') (h : Text.shortEscape? e = some c) : Escapes c ['\\', e]
  | number {x y : Char} (hlt : c.toNat < 0x20) (h : Text.codeUnit? '0' '0' x y = some c.toNat)
      (hx : x.isAlphanum) (hy : y.isAlphanum) : Escapes c ['\\', 'u', '0', '0', x, y]

theorem codeUnit?_hexByte : ∀ n < 0x20,
    Text.codeUnit? '0' '0' (Nat.digitChar (n / 16)) (Nat.digitChar (n % 16)) = some n ∧
      (Nat.digitChar (n / 16)).isAlphanum ∧ (Nat.digitChar (n % 16)).isAlphanum := by
  decide

theorem escapes_escapeChar (c : Char) : Escapes c (escapeChar c) := by
  unfold escapeChar
  split
  case h_8 hq hb _ _ _ _ _ =>
    split
    · obtain ⟨hunit, hx, hy⟩ := codeUnit?_hexByte c.toNat ‹_›
      exact .number ‹_› hunit hx hy
    · exact .itself hq hb (Nat.le_of_not_lt ‹_›)
  all_goals exact .letter (by decide) rfl

namespace Escapes

variable {c : Char} {s : List Char}

/-- The reader takes what is written for the character. -/
theorem unescape?_append (h : Escapes c s) (cs : List Char) :
    Text.unescape? (s ++ cs) = (Text.unescape? cs).map (c :: ·) := by
  cases h with
  | itself hq hb h =>
    have hguard : (c != '\\' && decide (0x20 ≤ c.toNat)) = true := by simp [hb, h]
    rw [List.singleton_append, Text.unescape?]
    · simp only [hguard]
      cases Text.unescape? cs <;> rfl
    all_goals grind
  | @letter e hu h =>
    rw [List.cons_append, List.singleton_append, Text.unescape?]
    · rw [h]
      cases Text.unescape? cs <;> rfl
    all_goals grind
  | number hlt h =>
    have hhigh : Text.isHighSurrogate c.toNat = false := by
      simp [Text.isHighSurrogate]; omega
    have hlow : Text.isLowSurrogate c.toNat = false := by
      simp [Text.isLowSurrogate]; omega
    simp only [List.cons_append, List.nil_append, Text.unescape?, h, Option.bind_eq_bind,
      Option.bind_some, hhigh, hlow, Bool.false_eq_true, if_false, Char.ofNat_toNat]
    cases Text.unescape? cs <;> rfl

/-- What is written ends no string. -/
theorem rawFrom_append (h : Escapes c s) {raw : List Char} (hr : RawFrom false raw) :
    RawFrom false (s ++ raw) := by
  cases h with
  | itself hq hb h =>
    refine rawFrom_cons.2 ⟨fun e => absurd e hq, ?_⟩
    rwa [beq_false_of_ne hb, Bool.false_and]
  | letter hu h =>
    refine rawFrom_cons.2 ⟨fun e => absurd e (by decide), rawFrom_cons.2 ⟨fun _ => rfl, ?_⟩⟩
    simpa using hr
  | @number x y hlt h hx hy =>
    have hplain : ∀ z : Char, z.isAlphanum = true → z ≠ '"' ∧ z ≠ '\\' := fun z hz => by
      constructor <;> rintro rfl <;> cases hz
    have hcons : ∀ {z : Char} {l : List Char}, z ≠ '"' ∧ z ≠ '\\' → RawFrom false l →
        RawFrom false (z :: l) := fun hz hl => by
      refine rawFrom_cons.2 ⟨fun e => absurd e hz.1, ?_⟩
      rwa [beq_false_of_ne hz.2, Bool.false_and]
    have hdigits : RawFrom false ('0' :: '0' :: x :: y :: raw) :=
      hcons (by decide) (hcons (by decide) (hcons (hplain x hx) (hcons (hplain y hy) hr)))
    refine rawFrom_cons.2 ⟨fun e => absurd e (by decide), rawFrom_cons.2 ⟨fun _ => rfl, ?_⟩⟩
    exact hdigits

end Escapes

theorem unescape?_escaped (s : String) : Text.unescape? (escaped s) = some s.toList := by
  unfold escaped
  induction s.toList with
  | nil => simp [Text.unescape?]
  | cons c cs ih => rw [List.flatMap_cons, (escapes_escapeChar c).unescape?_append, ih, Option.map_some]

theorem rawText_escaped (s : String) : RawText (escaped s) := by
  rw [rawText_iff, escaped]
  induction s.toList with
  | nil => exact rawFrom_nil.2 rfl
  | cons c cs ih =>
    rw [List.flatMap_cons]
    exact (escapes_escapeChar c).rawFrom_append ih

/-! ## Values -/

mutual

/-- The value that the text of the tree is read as; strings are as they stand in quotes. -/
def value : Tree → Value
  | .boolean b => .boolean b
  | .text s => .string (String.ofList (escaped s))
  | .list items => .array (valueItems items)
  | .record fields => .object (valueFields fields)

def valueItems : List Tree → List Value
  | [] => []
  | t :: ts => value t :: valueItems ts

def valueFields : List (String × Tree) → List (String × Value)
  | [] => []
  | (name, t) :: fs => (String.ofList (escaped name), value t) :: valueFields fs

end

/-- A member of an object written out, with blanks at will. -/
def SpellsMember (s : List Char) (m : String × Value) : Prop :=
  ∃ text : MemberText, text.chars = s ∧ text.member = m ∧ Blanks text.before ∧
    Blanks text.after ∧ RawText text.name ∧ Spells text.text text.value

theorem spells_array {texts : List (List Char)} {vs : List Value} (h : List.Forall₂ Spells texts vs)
    (hne : texts ≠ []) : Spells ('[' :: (commas texts ++ [']'])) (.array vs) := by
  obtain ⟨hlength, hzip⟩ := List.forall₂_iff_zip.1 h
  have htexts := List.map_fst_zip hlength.le
  have hvs := List.map_snd_zip hlength.ge
  have hitems : texts.zip vs ≠ [] := fun e => hne (by rw [← htexts, e, List.map_nil])
  have hspells : Spells ('[' :: (commas ((texts.zip vs).map Prod.fst) ++ [']']))
      (.array ((texts.zip vs).map Prod.snd)) := .array hitems fun i hi => hzip hi
  rwa [htexts, hvs] at hspells

theorem exists_memberTexts {texts : List (List Char)} {ms : List (String × Value)}
    (h : List.Forall₂ SpellsMember texts ms) :
    ∃ members : List MemberText, members.map MemberText.chars = texts ∧
      members.map MemberText.member = ms ∧
      ∀ m ∈ members, (Blanks m.before ∧ Blanks m.after) ∧ RawText m.name ∧
        Spells m.text m.value := by
  induction h with
  | nil => exact ⟨[], rfl, rfl, fun _ h => nomatch h⟩
  | cons hm _ ih =>
    obtain ⟨text, rfl, rfl, hb, ha, hn, hv⟩ := hm
    obtain ⟨members, rfl, rfl, hall⟩ := ih
    exact ⟨text :: members, rfl, rfl, List.forall_mem_cons.2 ⟨⟨⟨hb, ha⟩, hn, hv⟩, hall⟩⟩

theorem spells_object {texts : List (List Char)} {ms : List (String × Value)}
    (h : List.Forall₂ SpellsMember texts ms) (hne : texts ≠ []) :
    Spells ('\x7b' :: (commas texts ++ ['\x7d'])) (.object ms) := by
  obtain ⟨members, rfl, rfl, hall⟩ := exists_memberTexts h
  exact .object (fun e => hne (by rw [e, List.map_nil])) (fun m hm => (hall m hm).1)
    (fun m hm => (hall m hm).2.1) fun m hm => (hall m hm).2.2

/-! ## Parts on lines of their own -/

/-- The parts with blanks before each of them and after the last. -/
def padded (before after : List Char) : List (List Char) → List (List Char)
  | [] => []
  | [s] => [before ++ (s ++ after)]
  | s :: t :: texts => (before ++ s) :: padded before after (t :: texts)

section Parts

variable {γ : Type} {before after : List Char} {texts : List (List Char)} {depth : Nat}

/-- What may be padded part by part may be padded so. -/
theorem forall₂_padded {P : List Char → γ → Prop} {xs : List γ}
    (hP : ∀ b s a x, Blanks b → Blanks a → P s x → P (b ++ (s ++ a)) x) (hb : Blanks before)
    (ha : Blanks after) (h : List.Forall₂ P texts xs) :
    List.Forall₂ P (padded before after texts) xs := by
  induction h with
  | nil => exact .nil
  | @cons s x texts xs hs htexts ih =>
    cases htexts with
    | nil => exact .cons (hP _ _ _ _ hb ha hs) .nil
    | cons hnext htexts =>
      refine .cons ?_ ih
      have hs := hP before s [] x hb (fun _ h => nomatch h) hs
      rwa [List.append_nil] at hs

/-- The text between the brackets, with the commas in it. -/
theorem toList_layOut (opener closer : String) {parts : List String} (hne : parts ≠ []) :
    (layOut depth opener closer parts).toList = opener.toList ++
      (commas (padded (newline (depth + 1)).toList (newline depth).toList
        (parts.map String.toList)) ++ closer.toList) := by
  have hcommas : ∀ before after : String,
      commas (padded before.toList after.toList (parts.map String.toList)) =
        before.toList ++ (("," ++ before).intercalate parts).toList ++ after.toList := by
    intro before after
    induction parts with
    | nil => exact absurd rfl hne
    | cons part parts ih =>
      cases parts with
      | nil => simp [padded, commas]
      | cons next parts =>
        have hne' : padded before.toList after.toList ((next :: parts).map String.toList) ≠ [] := by
          cases parts <;> exact List.cons_ne_nil _ _
        rw [List.map_cons, List.map_cons, padded, ← List.map_cons, commas_cons hne',
          ih (List.cons_ne_nil _ _)]
        simp
  unfold layOut
  rw [if_neg (by simpa using hne), hcommas]
  simp

/-! ## Containers -/

theorem blanks_newline (depth : Nat) : Blanks (newline depth).toList := by
  intro c hc
  have hc : c = '\n' ∨ c ∈ List.replicate (2 * depth) ' ' := by simpa [newline] using hc
  rcases hc with rfl | hc
  · exact .inr (.inr (.inr rfl))
  · exact .inl (List.eq_of_mem_replicate hc)

theorem padded_ne_nil (h : texts ≠ []) : padded before after texts ≠ [] := by
  match texts with
  | [] => exact absurd rfl h
  | [_] | _ :: _ :: _ => exact List.cons_ne_nil _ _

theorem spells_list {parts : List String} {vs : List Value}
    (h : List.Forall₂ Spells (parts.map String.toList) vs) :
    Spells (layOut depth "[" "]" parts).toList (.array vs) := by
  by_cases hne : parts = []
  · subst hne
    cases h
    simpa [layOut] using Spells.emptyArray blanks_nil
  have hpadded := forall₂_padded (fun _ _ _ _ => .padded) (blanks_newline (depth + 1))
    (blanks_newline depth) h
  rw [toList_layOut _ _ hne]
  simpa using spells_array hpadded (padded_ne_nil (by simpa using hne))

theorem spellsMember_padded (b s a : List Char) (m : String × Value) (hb : Blanks b) (ha : Blanks a)
    (h : SpellsMember s m) : SpellsMember (b ++ (s ++ a)) m := by
  obtain ⟨text, rfl, rfl, hbefore, hafter, hname, hv⟩ := h
  refine ⟨{ text with before := b ++ text.before, text := text.text ++ a }, ?_, rfl, ?_, hafter,
    hname, ?_⟩
  · simp [MemberText.chars]
  · exact hb.append hbefore
  · exact .padded blanks_nil ha hv

theorem spells_record {parts : List String} {ms : List (String × Value)}
    (h : List.Forall₂ SpellsMember (parts.map String.toList) ms) :
    Spells (layOut depth "\x7b" "\x7d" parts).toList (.object ms) := by
  by_cases hne : parts = []
  · subst hne
    cases h
    simpa [layOut] using Spells.emptyObject blanks_nil
  rw [toList_layOut _ _ hne]
  have hpadded := forall₂_padded spellsMember_padded (blanks_newline (depth + 1))
    (blanks_newline depth) h
  simpa using spells_object hpadded (padded_ne_nil (by simpa using hne))

end Parts

/-! ## Trees -/

theorem spells_quote (s : String) : Spells (quote s).toList (.string (String.ofList (escaped s))) := by
  have htext : (quote s).toList = '"' :: (escaped s ++ ['"']) := by simp [quote, escaped]
  rw [htext]
  exact .string (rawText_escaped s)

/-- What is printed is the tree written out. -/
theorem spells_pretty (t : Tree) (depth : Nat) : Spells (t.pretty depth).toList t.value := by
  induction t using Tree.induction generalizing depth with
  | boolean b =>
    cases b
    · simpa [pretty, bool, value] using Spells.false
    · simpa [pretty, bool, value] using Spells.true
  | text s => exact spells_quote s
  | list items ih =>
    refine spells_list ?_
    induction items with
    | nil => exact .nil
    | cons t items ih' =>
      obtain ⟨ht, hi⟩ := List.forall_mem_cons.1 ih
      exact .cons (ht _) (ih' hi)
  | record fields ih =>
    refine spells_record ?_
    induction fields with
    | nil => exact .nil
    | cons f fields ih' =>
      obtain ⟨hf, hfs⟩ := List.forall_mem_cons.1 ih
      have hspace : Blanks [' '] := List.forall_mem_singleton.2 (.inl rfl)
      refine .cons ⟨⟨[], escaped f.1, [], [' '] ++ ((f.2.pretty (depth + 1)).toList ++ []),
        f.2.value⟩, ?_, rfl, blanks_nil, blanks_nil, rawText_escaped f.1,
        .padded hspace blanks_nil (hf _)⟩ (ih' hfs)
      simp [MemberText.chars, quote, escaped]

/-- Trees that are no deeper than documents may be are read back. -/
theorem parse_pretty {t : Tree} (h : t.value.depth ≤ 128) (depth : Nat) :
    parse (t.pretty depth) = .ok t.value :=
  parse_iff_spells.2 ⟨spells_pretty t depth, h⟩

end Tree

end SchemaInference
