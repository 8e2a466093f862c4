/-
Where reading stops, nothing before that place is wrong. A text starts one of the grammar if it can
be completed to one (`Starts`), and whatever a reader stops at, the text before the stop starts one
of the texts that the reader takes (`Stops`). If the text stops short, so that the stop may be for
want of more of it only, the whole of it does (`Stop.CutShort`). Each reader passes on the stops of
the readers that it is made of, behind what it has taken by then; so they come from the characters
and tokens up to the documents (`parse_error_located`).
-/
import SchemaInference.Proofs.Document.Reader
import Mathlib.Data.String.Basic

namespace SchemaInference.Document

/-! ## Stops -/

/-- The text may be wrong only in that it ends where it does: something is wanted where it ends, its
last string is not closed, or it ends within a word. -/
def Stop.CutShort : Stop → Prop
  | ⟨.unexpectedEnd, _⟩ => True
  | ⟨.unclosedString, _⟩ => True
  | ⟨.expectedDigits, rest⟩ => rest = []
  | ⟨.expectedWord w, rest⟩ => rest <+: w.chars
  | _ => False

/-- What is told of the place is so: the text ends there, the character stands there, or the word
does not. -/
def Stop.Placed : Stop → Prop
  | ⟨.unexpectedEnd, rest⟩ => rest = []
  | ⟨.unexpectedCharacter c, rest⟩ => rest.head? = some c
  | ⟨.expectedWord w, rest⟩ => ¬ w.chars <+: rest
  | _ => True

/-- The stop `e` is in the text `s`, and `V` holds of the text before it, and of the whole text if
that is cut short. -/
structure Stops (V : List Char → Prop) (s : List Char) (e : Stop) : Prop where
  before : ∃ before, s = before ++ e.rest ∧ V before
  whole : e.CutShort → V s
  placed : e.Placed

namespace Stops

variable {V W : List Char → Prop} {s before : List Char} {e : Stop}

/-- Where a text that is cut short ends at the stop, there is nothing else to be told of the whole
of it. -/
theorem of_before (hV : V before) (hs : s = before ++ e.rest) (hcut : e.CutShort → e.rest = [])
    (hplaced : e.Placed) : Stops V s e := by
  refine ⟨⟨before, hs, hV⟩, fun h => ?_, hplaced⟩
  rw [hs, hcut h, List.append_nil]
  exact hV

/-- The same stop, in a text that has more in front. -/
theorem after (h : Stops V s e) (front : List Char) (hVW : ∀ u, V u → W (front ++ u)) :
    Stops W (front ++ s) e := by
  obtain ⟨before, hs, hV⟩ := h.before
  refine ⟨⟨front ++ before, ?_, hVW _ hV⟩, fun hcut => hVW _ (h.whole hcut), h.placed⟩
  rw [hs, List.append_assoc]

theorem imp (h : Stops V s e) (hVW : ∀ u, V u → W u) : Stops W s e := h.after [] hVW

/-- The stop is behind the blanks where the text ends there, and otherwise it is that of what the
next character opens. -/
theorem atNext {α : Type} {f : Char → List Char → Except Stop (α × List Char)}
    (hblanks : ∀ b, Blanks b → V b)
    (hf : ∀ b c rest, Blanks b → s = b ++ c :: rest → f c rest = .error e →
      Stops V (b ++ c :: rest) e)
    (h : atNext f s = .error e) : Stops V s e := by
  obtain ⟨b, hb, hs⟩ := skipBlanks_eq s
  rcases hnext : skipBlanks s with _ | ⟨c, rest⟩
  · rw [atNext_of_nil hnext] at h
    cases h
    exact .of_before (hblanks b hb) (hnext ▸ hs) (fun _ => rfl) rfl
  · rw [atNext_of_cons hnext] at h
    rw [hnext] at hs
    exact hs ▸ hf b c rest hb hs h

end Stops

/-- The text can be completed to one that is written in a way of the grammar. -/
def Starts {γ : Type} (chars : γ → List Char) (Q : γ → Prop) (s : List Char) : Prop :=
  ∃ more y, Q y ∧ s ++ more = chars y

/-- The text is the value, and nests no deeper than `room`. -/
def ValueText (room : Nat) (y : List Char × Value) : Prop := Spells y.1 y.2 ∧ y.2.depth ≤ room

/-- The text can be completed to a value that nests no deeper than `room`. -/
def Viable (room : Nat) (s : List Char) : Prop := Starts Prod.fst (ValueText room) s

theorem Starts.of_text {γ : Type} {chars : γ → List Char} {Q : γ → Prop} {y : γ} (hy : Q y) :
    Starts chars Q (chars y) :=
  ⟨[], y, hy, List.append_nil _⟩

theorem Starts.of_append {γ : Type} {chars : γ → List Char} {Q : γ → Prop} {s t : List Char}
    (h : Starts chars Q (s ++ t)) : Starts chars Q s := by
  obtain ⟨more, y, hy, hs⟩ := h
  exact ⟨t ++ more, y, hy, by rw [← List.append_assoc, hs]⟩

theorem viable_iff {room : Nat} {s : List Char} :
    Viable room s ↔ ∃ more v, Spells (s ++ more) v ∧ v.depth ≤ room := by
  constructor
  · rintro ⟨more, ⟨t, v⟩, hv, ht⟩
    exact ⟨more, v, by rw [ht]; exact hv⟩
  · rintro ⟨more, v, hv⟩
    exact ⟨more, (s ++ more, v), hv, rfl⟩

theorem Viable.pad {room : Nat} {s b : List Char} (h : Viable room s) (hb : Blanks b) :
    Viable room (b ++ s) := by
  obtain ⟨more, v, hv, hd⟩ := viable_iff.1 h
  refine viable_iff.2 ⟨more, v, ?_, hd⟩
  rw [List.append_assoc, ← List.append_nil (s ++ more)]
  exact .padded hb blanks_nil hv

/-- Anything may come where nothing has come yet. -/
theorem viable_nil (room : Nat) : Viable room [] :=
  viable_iff.2 ⟨Word.null.chars, .null, .null, Nat.zero_le _⟩

theorem viable_blanks (room : Nat) {b : List Char} (hb : Blanks b) : Viable room b := by
  have h := (viable_nil room).pad hb
  rwa [List.append_nil] at h

/-! ## Numbers -/

theorem scanDigits_eq_error {s : List Char} {e : Stop} (h : scanDigits s = .error e) :
    e = ⟨.expectedDigits, s⟩ := by
  unfold scanDigits at h
  split at h
  · cases h
    rfl
  · cases h

theorem scanFraction_eq_error {s : List Char} {e : Stop} (h : scanFraction s = .error e) :
    ∃ rest, s = '.' :: rest ∧ e = ⟨.expectedDigits, rest⟩ := by
  unfold scanFraction at h
  split at h
  · exact ⟨_, rfl, scanDigits_eq_error (mapItem_eq_error.1 h)⟩
  · cases h

theorem scanExponent_eq_error {s : List Char} {e : Stop} (h : scanExponent s = .error e) :
    ∃ mark sign rest, s = mark :: (sign ++ rest) ∧ (mark = 'e' ∨ mark = 'E') ∧
      (sign = [] ∨ sign = ['+'] ∨ sign = ['-']) ∧ e = ⟨.expectedDigits, rest⟩ := by
  unfold scanExponent at h
  split at h
  · cases h
  · rename_i c s'
    split at h
    · rename_i hc
      refine ⟨c, (scanSign s').1, (scanSign s').2, ?_, isExponentMark_iff.1 hc, scanSign_sound s',
        scanDigits_eq_error (mapItem_eq_error.1 h)⟩
      rw [scanSign_eq]
    · cases h

theorem digits_zero : Digits ['0'] := ⟨List.cons_ne_nil _ _, List.forall_mem_singleton.2 rfl⟩

theorem NumberText.viable {s : List Char} {v : Value} (h : NumberText (s ++ ['0']) v)
    (room : Nat) : Viable room s := by
  refine viable_iff.2 ⟨['0'], v, ?_⟩
  rcases h with ⟨h, rfl⟩ | ⟨h, rfl⟩
  · exact ⟨.integer h, Nat.zero_le _⟩
  · exact ⟨.real h, Nat.zero_le _⟩

/-- A number lacks nothing but digits where it stops, and any digit would do. -/
theorem stops_readNumber (room : Nat) {s : List Char} {e : Stop}
    (h : ending (readNumber s) = .error e) : Stops (Viable room) s e := by
  have hs := (scanMinus_eq s).symm
  rw [ending_readNumber] at h
  rcases andThen_eq_error.1 h with h | ⟨digits, s₁, hd, h⟩
  · obtain rfl := scanDigits_eq_error h
    have hnumber : IntegerText ((scanMinus s).1 ++ ['0']) :=
      ⟨_, _, rfl, scanMinus_sound s, digits_zero⟩
    exact .of_before (NumberText.viable (.inl ⟨hnumber, rfl⟩) room) hs id trivial
  · obtain ⟨hs₁, hdigits⟩ := scanDigits_sound hd
    have hwhole : IntegerText ((scanMinus s).1 ++ digits) :=
      ⟨_, _, rfl, scanMinus_sound s, hdigits⟩
    rw [hs₁, ← List.append_assoc] at hs
    generalize (scanMinus s).1 ++ digits = whole at hs hwhole
    rcases andThen_eq_error.1 h with hf | ⟨fraction, s₂, hf, he⟩
    · obtain ⟨rest, rfl, rfl⟩ := scanFraction_eq_error hf
      have hnumber : RealText (whole ++ ['.'] ++ ['0']) :=
        ⟨whole, ['.', '0'], [], by simp, hwhole, .inr ⟨_, rfl, digits_zero⟩, .inl rfl, by simp⟩
      exact .of_before (NumberText.viable (.inr ⟨hnumber, rfl⟩) room) (by simp [hs]) id trivial
    · obtain ⟨hs₂, hfraction⟩ := scanFraction_sound hf
      obtain ⟨mark, sign, rest, hs₃, hmark, hsign, rfl⟩ :=
        scanExponent_eq_error (mapItem_eq_error.1 he)
      rw [hs₂, hs₃] at hs
      have hnumber : RealText (whole ++ fraction ++ mark :: sign ++ ['0']) :=
        ⟨whole, fraction, mark :: (sign ++ ['0']), by simp, hwhole, hfraction,
          .inr ⟨mark, sign, _, rfl, hmark, hsign, digits_zero⟩, by simp⟩
      exact .of_before (NumberText.viable (.inr ⟨hnumber, rfl⟩) room) (by simp [hs]) id trivial

/-! ## Words and strings -/

theorem stops_readWord (room : Nat) (w : Word) {s : List Char} {e : Stop}
    (h : ending (readWord w s) = .error e) : Stops (Viable room) s e := by
  rw [ending_readWord] at h
  split at h
  · cases h
  · rename_i hw
    cases h
    refine ⟨⟨[], rfl, viable_nil room⟩, fun hcut => ?_, hw⟩
    obtain ⟨more, hw⟩ := hcut
    exact viable_iff.2 ⟨more, w.value, hw ▸ spells_word w, (depth_word w).le.trans (Nat.zero_le _)⟩

/-- A string that is not closed can be, even where it ends in a backslash that has yet to take a
character with it. -/
theorem scanString_eq_none {s : List Char} (h : scanString s = none) :
    ∃ more raw, s ++ more = raw ++ ['"'] ∧ RawText raw := by
  suffices ∃ more raw, scanString (s ++ more) = some (raw, []) by
    obtain ⟨more, raw, h⟩ := this
    exact ⟨more, raw, scanString_eq h, rawText_iff.2 (scanString_sound h)⟩
  fun_induction scanString s with
  | case1 => exact ⟨['"'], [], rfl⟩
  | case2 => cases h
  | case3 c s ih =>
    obtain ⟨more, raw, hs⟩ := ih (Option.map_eq_none_iff.1 h)
    refine ⟨more, '\\' :: c :: raw, ?_⟩
    rw [List.cons_append, List.cons_append, scanString, hs]
    rfl
  | case4 c s hq hb ih =>
    by_cases hc : c = '\\'
    · cases s with
      | nil => exact ⟨['\\', '"'], ['\\', '\\'], by rw [hc]; rfl⟩
      | cons d s => exact absurd rfl (hb d s hc)
    · obtain ⟨more, raw, hs⟩ := ih (Option.map_eq_none_iff.1 h)
      refine ⟨more, c :: raw, ?_⟩
      rw [List.cons_append, scanString.eq_4 _ _ hq fun _ _ e => absurd e hc, hs]
      rfl

/-- Where a string is not closed, the stop is at its opening quote and for want of a closing one. -/
theorem scanQuoted_eq_error {t : List Char} {e : Stop} (h : scanQuoted t = .error e) :
    e = ⟨.unclosedString, '"' :: t⟩ ∧ ∃ more raw, t ++ more = raw ++ ['"'] ∧ RawText raw := by
  unfold scanQuoted at h
  split at h
  · rename_i hnone
    cases h
    exact ⟨rfl, scanString_eq_none hnone⟩
  · cases h

theorem scanQuoted_eq_ok {t raw rest : List Char} (h : scanQuoted t = .ok (raw, rest)) :
    t = raw ++ '"' :: rest ∧ RawText raw := by
  unfold scanQuoted at h
  split at h
  · cases h
  · rename_i hsome
    cases h
    exact ⟨scanString_eq hsome, rawText_iff.2 (scanString_sound hsome)⟩

theorem stops_readString (room : Nat) {t : List Char} {e : Stop}
    (h : ending (readString ('"' :: t)) = .error e) : Stops (Viable room) ('"' :: t) e := by
  rw [ending_readString, mapItem_eq_error] at h
  obtain ⟨rfl, more, raw, ht, hraw⟩ := scanQuoted_eq_error h
  refine ⟨⟨[], rfl, viable_nil room⟩, fun _ => ?_, trivial⟩
  refine viable_iff.2 ⟨more, .string (String.ofList raw), ?_, Nat.zero_le _⟩
  rw [List.cons_append, ht]
  exact .string hraw

/-! ## Items and members -/

section Items

variable {α γ : Type} {chars : γ → List Char} {Q : γ → Prop} {read : Reader α} {closer : Char}
  {s : List Char}

/-- The text can be completed to items, with a comma between each two. -/
def StartsItems (chars : γ → List Char) (Q : γ → Prop) (s : List Char) : Prop :=
  ∃ more, ∃ ys : List γ, ys ≠ [] ∧ (∀ y ∈ ys, Q y) ∧ s ++ more = commas (ys.map chars)

theorem Starts.items (h : Starts chars Q s) : StartsItems chars Q s := by
  obtain ⟨more, y, hy, hs⟩ := h
  exact ⟨more, [y], List.cons_ne_nil _ _, by simpa using hy, hs⟩

theorem StartsItems.cons (h : StartsItems chars Q s) {y : γ} (hy : Q y) :
    StartsItems chars Q (chars y ++ [','] ++ s) := by
  obtain ⟨more, ys, hne, hys, hs⟩ := h
  refine ⟨more, y :: ys, List.cons_ne_nil _ _, List.forall_mem_cons.2 ⟨hy, hys⟩, ?_⟩
  rw [List.map_cons, commas_cons (by simpa using hne), ← hs]
  simp

variable (hread : ∀ s x rest, ending (read s) = .ok (x, rest) → ∃ y, Q y ∧ s = chars y ++ rest)
  (hpad : ∀ y b, Q y → Blanks b → ∃ y', Q y' ∧ chars y' = chars y ++ b)
  (hstops : ∀ s e, ending (read s) = .error e → Stops (Starts chars Q) s e) {e : Stop}

include hread hpad hstops

/-- The stop is in one of the items, behind those that were read and their commas; or behind the
blanks that follow an item, where neither a comma nor the closing character comes. -/
theorem stops_readItems (h : ending (readItems closer read s) = .error e) :
    Stops (StartsItems chars Q) s e := by
  induction hn : s.length using Nat.strongRecOn generalizing s with
  | ind n ih =>
    rw [ending_readItems] at h
    rcases andThen_eq_error.1 h with h | ⟨x, left, hx, h⟩
    · exact (hstops s e h).imp fun u hu => hu.items
    · have hlt := length_lt_of_ending hx
      obtain ⟨y, hy, hs⟩ := hread _ _ _ hx
      -- the blanks behind an item become part of its text
      have hleft : Stops (fun u => StartsItems chars Q (chars y ++ u)) left e := by
        refine .atNext (fun b hb => ?_) (fun b c more hb hleft h => ?_) h
        · obtain ⟨y', hy', hc⟩ := hpad y b hy hb
          exact hc ▸ (Starts.of_text hy').items
        · obtain ⟨y', hy', hc⟩ := hpad y b hy hb
          split_ifs at h with hcomma hclose
          · have hmore : more.length < n := by
              rw [hleft, List.length_append, List.length_cons, hn] at hlt
              omega
            have hrest := ih _ hmore (mapItem_eq_error.1 h) rfl
            rw [hcomma, List.append_cons b ',' more]
            refine hrest.after (b ++ [',']) fun u hu => ?_
            have hcons := hu.cons hy'
            rwa [hc, List.append_assoc (chars y), List.append_assoc (chars y)] at hcons
          · cases h
            exact .of_before (hc ▸ (Starts.of_text hy').items) rfl False.elim trivial
      rw [hs]
      exact hleft.after (chars y) fun u hu => hu

theorem stops_readContents (h : ending (readContents closer read s) = .error e) :
    Stops (StartsItems chars Q) s e := by
  have hitems : ending (readItems closer read s) = .error e → Stops (StartsItems chars Q) s e :=
    stops_readItems hread hpad hstops
  rw [ending_readContents] at h
  split at h
  · exact hitems h
  · split_ifs at h with hclose
    exact hitems h

end Items

section Members

variable {room : Nat}

/-- The text can be completed to a member whose value nests no deeper than `room`. -/
def ViableMember (room : Nat) (s : List Char) : Prop :=
  Starts MemberText.chars (MemberText.Written room) s

theorem Viable.member {u : List Char} (hu : Viable room u) {before name after : List Char}
    (hbefore : Blanks before) (hname : RawText name) (hafter : Blanks after) :
    ViableMember room (before ++ '"' :: (name ++ '"' :: after) ++ [':'] ++ u) := by
  obtain ⟨more, v, hv, hd⟩ := viable_iff.1 hu
  refine ⟨more, ⟨before, name, after, u ++ more, v⟩, ⟨hbefore, hname, hafter, hv, hd⟩, ?_⟩
  simp [MemberText.chars]

/-- Behind its name, a member goes on with a colon and any value. -/
theorem viableMember_name (room : Nat) {before name after : List Char}
    (hbefore : Blanks before) (hname : RawText name) (hafter : Blanks after) :
    ViableMember room (before ++ '"' :: (name ++ '"' :: after)) :=
  ((viable_nil room).member hbefore hname hafter).of_append.of_append

theorem rawText_nil : RawText [] := rawText_iff.2 (rawFrom_nil.2 rfl)

theorem viableMember_blanks (room : Nat) {b : List Char} (hb : Blanks b) : ViableMember room b :=
  (viableMember_name room hb rawText_nil blanks_nil).of_append

/-- The stop is where no name starts, in a name that is not closed, where no colon follows the name,
or in the value. -/
theorem stops_readMember {read : Reader Value}
    (hstops : ∀ s e, ending (read s) = .error e → Stops (Viable room) s e) {s : List Char} {e : Stop}
    (h : ending (readMember read s) = .error e) : Stops (ViableMember room) s e := by
  rw [ending_readMember] at h
  refine .atNext (fun b hb => viableMember_blanks room hb) (fun b c t hb _ h => ?_) h
  have hblanks := viableMember_blanks room hb
  split_ifs at h with hquote
  · subst hquote
    rcases andThen_eq_error.1 h with hname | ⟨name, u, hname, hnext⟩
    · obtain ⟨rfl, more, raw, ht, hraw⟩ := scanQuoted_eq_error hname
      refine ⟨⟨b, rfl, hblanks⟩, fun _ => ?_, trivial⟩
      have hclosed := viableMember_name room hb hraw blanks_nil
      rw [← ht, ← List.cons_append, ← List.append_assoc] at hclosed
      exact hclosed.of_append
    · obtain ⟨rfl, hraw⟩ := scanQuoted_eq_ok hname
      have hnamed :
          Stops (fun u => ViableMember room (b ++ '"' :: (name ++ '"' :: u))) u e := by
        refine .atNext (fun a ha => viableMember_name room hb hraw ha)
          (fun a c v ha _ h => ?_) hnext
        split_ifs at h with hcolon
        · rw [hcolon, List.append_cons a ':' v]
          refine (hstops v e (mapItem_eq_error.1 h)).after (a ++ [':']) fun u hu => ?_
          simpa using hu.member hb hraw ha
        · cases h
          exact .of_before (viableMember_name room hb hraw ha) rfl False.elim trivial
      simpa using hnamed.after (b ++ '"' :: (name ++ ['"'])) fun u hu => by simpa using hu
  · cases h
    exact .of_before hblanks rfl False.elim trivial

end Members

/-! ## Values -/

theorem viable_items {room : Nat} {u : List Char} (h : StartsItems Prod.fst (ValueText room) u) :
    Viable (room + 1) (['['] ++ u) := by
  obtain ⟨more, ys, hne, hys, hu⟩ := h
  refine viable_iff.2 ⟨more ++ [']'], .array (ys.map (·.2)), ?_, ?_⟩
  · have harray := Spells.array hne fun y hy => (hys y hy).1
    rw [← hu] at harray
    simpa using harray
  · refine Value.depth_array_le.2 ⟨room, rfl, fun v hv => ?_⟩
    obtain ⟨y, hy, rfl⟩ := List.mem_map.1 hv
    exact (hys y hy).2

theorem viable_members {room : Nat} {u : List Char}
    (h : StartsItems MemberText.chars (MemberText.Written room) u) :
    Viable (room + 1) (['{'] ++ u) := by
  obtain ⟨more, ms, hne, hms, hu⟩ := h
  refine viable_iff.2 ⟨more ++ ['}'], .object (ms.map MemberText.member), ?_, ?_⟩
  · have hobject := Spells.object hne (fun m hm => ⟨(hms m hm).before, (hms m hm).after⟩)
      (fun m hm => (hms m hm).name) fun m hm => (hms m hm).value
    rw [← hu] at hobject
    simpa using hobject
  · refine Value.depth_object_le.2 ⟨room, rfl, fun v hv => ?_⟩
    obtain ⟨m, hm, rfl⟩ := List.mem_map.1 hv
    exact (hms m hm).depth

theorem ValueText.of_ending {room : Nat} {s : List Char} {v : Value} {rest : List Char}
    (h : ending (readValue room s) = .ok (v, rest)) : ∃ y, ValueText room y ∧ s = y.1 ++ rest := by
  obtain ⟨t, hs, hv⟩ := readValue_sound (taken?_eq_some.2 h)
  exact ⟨(t, v), hv, hs⟩

theorem ValueText.pad {room : Nat} {y : List Char × Value} {b : List Char} (hy : ValueText room y)
    (hb : Blanks b) : ∃ y', ValueText room y' ∧ y'.1 = y.1 ++ b :=
  ⟨(y.1 ++ b, y.2), ⟨.padded blanks_nil hb hy.1, hy.2⟩, rfl⟩

theorem MemberText.Written.of_ending {room : Nat} {s : List Char} {m : String × Value}
    {rest : List Char} (h : ending (readMember (readValue room) s) = .ok (m, rest)) :
    ∃ y : MemberText, y.Written room ∧ s = y.chars ++ rest := by
  obtain ⟨y, hy, hs, -⟩ := readMember_sound (fun _ _ _ h => readValue_sound h) (taken?_eq_some.2 h)
  exact ⟨y, hy, hs⟩

/-- A value that is too deep is no more than a value that has yet to come: the stop is in front of
its bracket. -/
theorem stops_readValue {room : Nat} {s : List Char} {e : Stop}
    (h : ending (readValue room s) = .error e) : Stops (Viable room) s e := by
  induction room using Nat.strongRecOn generalizing s e with
  | ind room ih =>
    rw [ending_readValue] at h
    refine .atNext (fun b hb => viable_blanks room hb) (fun b c rest hb _ h => ?_) h
    have hblanks := viable_blanks room hb
    have hpad : ∀ u, Stops (Viable room) u e → Stops (Viable room) (b ++ u) e :=
      fun u hu => hu.after b fun _ h => h.pad hb
    split_ifs at h with hbrace hbracket hquote
    · cases room with
      | zero =>
        cases h
        exact .of_before hblanks rfl False.elim trivial
      | succ inner =>
        have hcontents := stops_readContents (fun _ _ _ h => MemberText.Written.of_ending h)
          (fun m a hm ha => (hm.pad ha).imp fun _ h => ⟨h.1, h.2.1⟩)
          (fun s e h => stops_readMember (fun _ _ h => ih inner (Nat.lt_succ_self _) h) h)
          (mapItem_eq_error.1 h)
        exact hpad _ (hbrace ▸ hcontents.after ['{'] fun _ hu => viable_members hu)
    · cases room with
      | zero =>
        cases h
        exact .of_before hblanks rfl False.elim trivial
      | succ inner =>
        have hcontents := stops_readContents (fun _ _ _ h => ValueText.of_ending h)
          (fun y a hy ha => hy.pad ha) (fun _ _ h => ih inner (Nat.lt_succ_self _) h)
          (mapItem_eq_error.1 h)
        exact hpad _ (hbracket ▸ hcontents.after ['['] fun _ hu => viable_items hu)
    · exact hpad _ (hquote ▸ stops_readString room (hquote ▸ h))
    · exact hpad _ (stops_readWord room _ h)
    · exact hpad _ (stops_readWord room _ h)
    · exact hpad _ (stops_readWord room _ h)
    · exact hpad _ (stops_readNumber room h)
    · cases h
      exact .of_before hblanks rfl False.elim rfl

/-! ## Documents -/

theorem stops_endingDocument {s : List Char} {e : Stop} (h : endingDocument s = .error e) :
    Stops (Viable maxDepth) s e := by
  rcases andThen_eq_error.1 h with h | ⟨v, left, hv, h⟩
  · exact stops_readValue h
  · obtain ⟨t, hs, hspells, hdepth⟩ := readValue_sound (taken?_eq_some.2 hv)
    obtain ⟨b, hb, hleft⟩ := skipBlanks_eq left
    split at h
    · cases h
    · rename_i c rest hc
      cases h
      have hwhole : Viable maxDepth (t ++ b) := by
        refine viable_iff.2 ⟨[], v, ?_, hdepth⟩
        rw [List.append_nil]
        exact .padded blanks_nil hb hspells
      refine .of_before hwhole ?_ False.elim trivial
      rw [hs, hleft, hc, List.append_assoc]

theorem Viable.exists_parse {s : List Char} (h : Viable maxDepth s) :
    ∃ more v, parse (String.ofList s ++ more) = .ok v := by
  obtain ⟨more, v, hv, hd⟩ := viable_iff.1 h
  refine ⟨String.ofList more, v, parse_iff_spells.2 ⟨?_, hd⟩⟩
  rwa [String.toList_append, String.toList_ofList, String.toList_ofList]

theorem byteLength_eq (s : List Char) : byteLength s = String.utf8Len s := by
  induction s with
  | nil => rfl
  | cons c s ih => rw [byteLength, ih, String.utf8Len_cons, Nat.add_comm]

/-- The offset of a fault counts the bytes of the text before the stop. -/
theorem offset_within {s before : List Char} {e : Stop} (hs : s = before ++ e.rest) :
    (e.within s).offset = String.utf8Len before := by
  unfold Stop.within
  rw [hs, byteLength_eq, byteLength_eq, String.utf8Len_append]
  exact Nat.add_sub_cancel ..

theorem eq_append_of_toList {text : String} {before rest : List Char}
    (hs : text.toList = before ++ rest) : text = String.ofList before ++ String.ofList rest := by
  rw [← String.ofList_append, ← hs, String.ofList_toList]

/-- A fault is within the text and between two of its characters. Where the fault is that the text
ends, it does so there; where it is a character, that is the one that stands there; and the text
before that place is the start of a document. -/
theorem parse_error_located {text : String} {f : Fault} (h : parse text = .error f) :
    f.offset ≤ text.utf8ByteSize ∧ String.Pos.Raw.IsValid text ⟨f.offset⟩ ∧
      (f.cause = .unexpectedEnd → f.offset = text.utf8ByteSize) ∧
      (∀ c, f.cause = .unexpectedCharacter c →
        String.Pos.Raw.get? text ⟨f.offset⟩ = some c) ∧
      ∃ before rest, text = before ++ rest ∧ before.utf8ByteSize = f.offset ∧
        ∃ more v, parse (before ++ more) = .ok v := by
  obtain ⟨⟨cause, rest⟩, he, rfl⟩ := parse_eq_error.1 h
  have hstops := stops_endingDocument he
  obtain ⟨before, hs, hviable⟩ := hstops.before
  have htext := eq_append_of_toList hs
  have hplaced := hstops.placed
  rw [offset_within hs]
  refine ⟨?_, ?_, fun hcause => ?_, fun c hcause => ?_, String.ofList before, String.ofList rest,
    htext, String.utf8ByteSize_ofList before, hviable.exists_parse⟩
  · rw [htext, String.utf8ByteSize_append, String.utf8ByteSize_ofList]
    exact Nat.le_add_right ..
  · refine String.Pos.Raw.isValid_iff_exists_append.2 ⟨_, _, htext, ?_⟩
    rw [String.rawEndPos, String.utf8ByteSize_ofList]
  · obtain rfl : cause = .unexpectedEnd := hcause
    obtain rfl : rest = [] := hplaced
    rw [htext, String.utf8ByteSize_append, String.utf8ByteSize_ofList, String.utf8ByteSize_ofList]
    rfl
  · obtain rfl : cause = .unexpectedCharacter c := hcause
    have hc : rest.head? = some c := hplaced
    rw [htext, ← String.ofList_append, String.get?_of_valid, hc]

theorem parse_error_located_euro :
    parse "\x7b\"é\": [1, €]\x7d" = .error ⟨.unexpectedCharacter '€', 11⟩ ∧
      11 ≤ "\x7b\"é\": [1, €]\x7d".utf8ByteSize ∧
      String.Pos.Raw.IsValid "\x7b\"é\": [1, €]\x7d" ⟨11⟩ ∧
      String.Pos.Raw.get? "\x7b\"é\": [1, €]\x7d" ⟨11⟩ = some '€' ∧
      ∃ before rest, "\x7b\"é\": [1, €]\x7d" = before ++ rest ∧ before.utf8ByteSize = 11 ∧
        ∃ more v, parse (before ++ more) = .ok v :=
  have h : parse "\x7b\"é\": [1, €]\x7d" = .error ⟨.unexpectedCharacter '€', 11⟩ := by
    decide +kernel
  have hlocated := parse_error_located h
  ⟨h, hlocated.1, hlocated.2.1, hlocated.2.2.2.1 _ rfl, hlocated.2.2.2.2⟩

end SchemaInference.Document
