/-
What more text changes. A reader that has left text over, or that stops for another reason than want
of text, ends the same way however the text goes on, and what follows is left over too (`Settles`).
Readers keep this when they are put together, since none of them is settled where nothing is left.
So a fault is either one that more text can mend, or one that none can (`parse_error_extended`).
-/
import SchemaInference.Proofs.Document.Viable

namespace SchemaInference.Document

section Settles

variable {α β : Type} {s : List Char}

/-- The same end, with more text left. -/
def extended (more : List Char) :
    Except Stop (α × List Char) → Except Stop (α × List Char)
  | .error e => .error ⟨e.cause, e.rest ++ more⟩
  | .ok (a, rest) => .ok (a, rest ++ more)

/-- There is text left behind the item, or the stop is not for want of it. -/
def Settled : Except Stop (α × List Char) → Prop
  | .error e => ¬ e.CutShort
  | .ok (_, rest) => rest ≠ []

/-- If the reader is settled on `s`, it ends the same way on more text. -/
def Settles (f : List Char → Except Stop (α × List Char)) (s : List Char) : Prop :=
  Settled (f s) → ∀ more, f (s ++ more) = extended more (f s)

theorem skipBlanks_more {c : Char} {rest : List Char} (h : skipBlanks s = c :: rest)
    (more : List Char) : skipBlanks (s ++ more) = c :: (rest ++ more) := by
  unfold skipBlanks at h ⊢
  rw [List.dropWhile_append, h]
  rfl

theorem settled_mapItem {f : α → β} {x : Except Stop (α × List Char)} :
    Settled (mapItem f x) ↔ Settled x := by
  rcases x with e | ⟨a, rest⟩ <;> rfl

theorem extended_mapItem (f : α → β) (x : Except Stop (α × List Char)) (more : List Char) :
    extended more (mapItem f x) = mapItem f (extended more x) := by
  rcases x with e | ⟨a, rest⟩ <;> rfl

theorem not_settled_atNext_nil (f : Char → List Char → Except Stop (α × List Char)) :
    ¬ Settled (atNext f []) := fun h => h trivial

namespace Settles

theorem of_not_settled {f : List Char → Except Stop (α × List Char)} (h : ¬ Settled (f s)) :
    Settles f s := fun hs => absurd hs h

theorem of_eq {f g : List Char → Except Stop (α × List Char)} (hfg : ∀ s, f s = g s)
    (h : Settles g s) : Settles f s := by
  rwa [funext hfg]

theorem ite {p : Prop} [Decidable p] {f g : List Char → Except Stop (α × List Char)}
    (hf : p → Settles f s) (hg : ¬ p → Settles g s) :
    Settles (fun s => if p then f s else g s) s := by
  split_ifs with hp
  · exact hf hp
  · exact hg hp

theorem stop (cause : Cause) (c : Char) (s : List Char) :
    Settles (fun rest => (.error ⟨cause, c :: rest⟩ : Except Stop (α × List Char))) s :=
  fun _ _ => rfl

theorem ok (a : α) (s : List Char) : Settles (fun rest => .ok (a, rest)) s := fun _ _ => rfl

theorem mapItem {f : List Char → Except Stop (α × List Char)} (h : Settles f s) (g : α → β) :
    Settles (fun s => mapItem g (f s)) s := by
  intro hs more
  dsimp only
  rw [h (settled_mapItem.1 hs) more, extended_mapItem]

/-- Two readers one after the other settle if both do, and the second is not settled where the first
leaves nothing. -/
theorem andThen {f : List Char → Except Stop (α × List Char)}
    {g : α → List Char → Except Stop (β × List Char)} (hf : Settles f s)
    (hg : ∀ a rest, f s = .ok (a, rest) → Settles (g a) rest)
    (hnil : ∀ a, ¬ Settled (g a [])) : Settles (fun s => andThen (f s) g) s := by
  intro hs more
  dsimp only at hs ⊢
  rcases hx : f s with e | ⟨a, rest⟩
  · rw [hx] at hs
    have hmore := hf (hx ▸ hs) more
    rw [hx] at hmore
    rw [hmore]
    rfl
  · rw [hx, andThen_ok] at hs
    have hrest : rest ≠ [] := by
      rintro rfl
      exact hnil a hs
    have hmore := hf (hx ▸ hrest) more
    rw [hx] at hmore
    rw [hmore]
    exact hg a rest hx hs more

theorem atNext {f : Char → List Char → Except Stop (α × List Char)}
    (hf : ∀ c rest, skipBlanks s = c :: rest → Settles (f c) rest) : Settles (atNext f) s := by
  intro hs more
  rcases hnext : skipBlanks s with _ | ⟨c, rest⟩
  · rw [atNext_of_nil hnext] at hs
    exact absurd trivial hs
  · rw [atNext_of_cons hnext] at hs ⊢
    rw [atNext_of_cons (skipBlanks_more hnext more)]
    exact hf c rest hnext hs more

end Settles

end Settles

/-! ## Tokens -/

theorem settles_scanDigits (s : List Char) : Settles scanDigits s := by
  intro hs more
  -- the digits end within the text, where the reader is settled
  have hleft : s.dropWhile Char.isDigit ≠ [] := by
    unfold scanDigits at hs
    intro hnil
    split at hs
    · rename_i htake
      refine hs ?_
      have h := List.takeWhile_append_dropWhile (p := Char.isDigit) (l := s)
      rw [htake, hnil] at h
      exact h.symm
    · exact hs hnil
  have hdrop : (s ++ more).dropWhile Char.isDigit = s.dropWhile Char.isDigit ++ more := by
    rw [List.dropWhile_append, if_neg (by simpa using hleft)]
  have htake : (s ++ more).takeWhile Char.isDigit = s.takeWhile Char.isDigit := by
    rw [List.takeWhile_append, if_neg]
    intro hlength
    have h := congrArg List.length (List.takeWhile_append_dropWhile (p := Char.isDigit) (l := s))
    rw [List.length_append] at h
    exact hleft (List.eq_nil_of_length_eq_zero (by omega))
  unfold scanDigits
  rw [htake, hdrop]
  split <;> rfl

theorem settles_scanFraction (s : List Char) : Settles scanFraction s := by
  rcases s with _ | ⟨c, s⟩
  · exact .of_not_settled fun h => h rfl
  · by_cases hc : c = '.'
    · subst hc
      exact (settles_scanDigits s).mapItem fun digits => '.' :: digits
    · have hscan : ∀ t, scanFraction (c :: t) = .ok ([], c :: t) := fun t =>
        scanFraction.eq_2 _ fun _ h => hc (List.cons.inj h).1
      intro _ more
      rw [List.cons_append, hscan, hscan]
      rfl

/-- More text changes nothing at the sign, where there is any text. -/
theorem scanSign_append {s : List Char} (h : s ≠ []) (more : List Char) :
    scanSign (s ++ more) = ((scanSign s).1, (scanSign s).2 ++ more) := by
  rcases s with _ | ⟨c, s⟩
  · exact absurd rfl h
  by_cases hplus : c = '+'
  · subst hplus
    rfl
  by_cases hminus : c = '-'
  · subst hminus
    rfl
  have hscan : ∀ t, scanSign (c :: t) = ([], c :: t) := fun t =>
    scanSign.eq_3 _ (fun _ e => hplus (List.cons.inj e).1) fun _ e => hminus (List.cons.inj e).1
  rw [List.cons_append, hscan, hscan]
  rfl

theorem scanMinus_append {s : List Char} (h : s ≠ []) (more : List Char) :
    scanMinus (s ++ more) = ((scanMinus s).1, (scanMinus s).2 ++ more) := by
  rcases s with _ | ⟨c, s⟩
  · exact absurd rfl h
  by_cases hminus : c = '-'
  · subst hminus
    rfl
  have hscan : ∀ t, scanMinus (c :: t) = ([], c :: t) := fun t =>
    scanMinus.eq_2 _ fun _ e => hminus (List.cons.inj e).1
  rw [List.cons_append, hscan, hscan]
  rfl

theorem not_settled_scanDigits_nil : ¬ Settled (scanDigits []) := fun h => h rfl

theorem settles_scanExponent (s : List Char) : Settles scanExponent s := by
  rcases s with _ | ⟨c, s⟩
  · exact .of_not_settled fun h => h rfl
  intro hs more
  rw [List.cons_append]
  simp only [scanExponent] at hs ⊢
  split_ifs at hs ⊢ with hc
  · have hdigits : Settled (scanDigits (scanSign s).2) := settled_mapItem.1 hs
    have hne : s ≠ [] := by
      rintro rfl
      exact not_settled_scanDigits_nil hdigits
    rw [scanSign_append hne, settles_scanDigits _ hdigits]
    exact (extended_mapItem _ _ more).symm
  · rfl

theorem settles_readNumber (s : List Char) : Settles (fun s => ending (readNumber s)) s := by
  refine .of_eq ending_readNumber ?_
  intro hs more
  have hne : s ≠ [] := by
    rintro rfl
    exact hs rfl
  dsimp only at hs ⊢
  rw [scanMinus_append hne]
  refine Settles.andThen (settles_scanDigits _) (fun digits s₁ _ => ?_) ?_ hs more
  · refine (settles_scanFraction s₁).andThen (fun fraction s₂ _ => ?_) ?_
    · exact (settles_scanExponent s₂).mapItem _
    · exact fun fraction h => h rfl
  · exact fun digits h => h rfl

theorem settles_scanQuoted (t : List Char) : Settles scanQuoted t := by
  intro hs more
  rcases ht : scanQuoted t with e | ⟨raw, rest⟩
  · obtain ⟨rfl, -⟩ := scanQuoted_eq_error ht
    rw [ht] at hs
    exact absurd trivial hs
  · obtain ⟨rfl, hraw⟩ := scanQuoted_eq_ok ht
    have hmore := scanString_complete (rawText_iff.1 hraw) (rest ++ more)
    rw [List.append_assoc, List.cons_append, scanQuoted, hmore]
    rfl

theorem settles_readWord (w : Word) (s : List Char) :
    Settles (fun s => ending (readWord w s)) s := by
  refine .of_eq (ending_readWord w) fun hs more => ?_
  by_cases hw : w.chars <+: s
  · rw [if_pos hw, if_pos (hw.trans (List.prefix_append s more)),
      List.drop_append_of_le_length hw.length_le]
    rfl
  · rw [if_neg hw] at hs ⊢
    have hmore : ¬ w.chars <+: s ++ more := fun h =>
      (List.prefix_or_prefix_of_prefix h (List.prefix_append s more)).elim hw hs
    rw [if_neg hmore]
    rfl

/-! ## Containers -/

section Containers

variable {α : Type} {read : Reader α} {closer : Char}
  (hread : ∀ s, Settles (fun s => ending (read s)) s)

include hread

theorem settles_readItems (s : List Char) :
    Settles (fun s => ending (readItems closer read s)) s := by
  induction hn : s.length using Nat.strongRecOn generalizing s with
  | ind n ih =>
    refine .of_eq (ending_readItems closer read) ?_
    refine (hread s).andThen (fun x left hx => .atNext fun c more hc => ?_)
      fun x => not_settled_atNext_nil _
    have hmore : more.length < n :=
      hn ▸ Nat.lt_trans (length_lt_of_skipBlanks hc) (length_lt_of_ending hx)
    refine .ite (fun _ => (ih _ hmore more rfl).mapItem (x :: ·)) fun _ => ?_
    exact .ite (fun _ => .ok [x] more) fun _ => .stop (.missingSeparator closer) c more

/-- Behind an opening bracket nothing is settled until the character that follows is there. -/
theorem settles_readContents
    (hblank : ∀ s, skipBlanks s = [] → ending (read s) = .error ⟨.unexpectedEnd, []⟩)
    (s : List Char) : Settles (fun s => ending (readContents closer read s)) s := by
  refine .of_eq (ending_readContents closer read) ?_
  have hitems : Settles (fun s => ending (readItems closer read s)) s := settles_readItems hread s
  rcases hnext : skipBlanks s with _ | ⟨c, rest⟩
  · refine .of_not_settled ?_
    rw [hnext]
    dsimp only
    rw [ending_readItems, hblank s hnext]
    exact fun h => h trivial
  · intro hs more
    dsimp only at hs ⊢
    rw [skipBlanks_more hnext]
    rw [hnext] at hs ⊢
    dsimp only at hs ⊢
    split_ifs at hs ⊢ with hclose
    · rfl
    · exact hitems hs more

end Containers

theorem settles_readMember {read : Reader Value}
    (hread : ∀ s, Settles (fun s => ending (read s)) s) (s : List Char) :
    Settles (fun s => ending (readMember read s)) s := by
  refine .of_eq (ending_readMember read) (.atNext fun c t _ => ?_)
  refine .ite (fun _ => ?_) fun _ => .stop .expectedMemberName c t
  refine (settles_scanQuoted t).andThen (fun name u _ => .atNext fun c v _ => ?_)
    fun name => not_settled_atNext_nil _
  exact .ite (fun _ => (hread v).mapItem (String.ofList name, ·)) fun _ => .stop .missingColon c v

/-! ## Values -/

theorem settles_readValue (room : Nat) (s : List Char) :
    Settles (fun s => ending (readValue room s)) s := by
  induction room using Nat.strongRecOn generalizing s with
  | ind room ih =>
    refine .of_eq (ending_readValue room) (.atNext fun c rest _ => ?_)
    refine .ite (fun _ => ?brace) fun _ => .ite (fun _ => ?bracket) fun _ =>
      .ite (fun hquote => ?quote) fun _ =>
      .ite (fun _ => settles_readWord .true (c :: rest)) fun _ =>
      .ite (fun _ => settles_readWord .false (c :: rest)) fun _ =>
      .ite (fun _ => settles_readWord .null (c :: rest)) fun _ =>
      .ite (fun _ => settles_readNumber (c :: rest)) fun _ =>
      .stop (.unexpectedCharacter c) c rest
    case brace =>
      cases room with
      | zero => exact .stop .tooDeep c rest
      | succ inner =>
        have hmember := settles_readMember (ih inner (Nat.lt_succ_self _))
        exact (settles_readContents hmember
          (fun s hs => by rw [ending_readMember, atNext_of_nil hs]) rest).mapItem Value.object
    case bracket =>
      cases room with
      | zero => exact .stop .tooDeep c rest
      | succ inner =>
        exact (settles_readContents (ih inner (Nat.lt_succ_self _))
          (fun s hs => by rw [ending_readValue, atNext_of_nil hs]) rest).mapItem Value.array
    case quote =>
      subst hquote
      exact .of_eq ending_readString ((settles_scanQuoted rest).mapItem _)

/-! ## Documents -/

theorem settles_endingDocument (s : List Char) : Settles endingDocument s := by
  refine (settles_readValue maxDepth s).andThen (fun v left _ => ?_) fun v h => h rfl
  intro hs more
  dsimp only at hs ⊢
  rcases hnext : skipBlanks left with _ | ⟨c, rest⟩
  · rw [hnext] at hs
    exact absurd rfl hs
  · rw [skipBlanks_more hnext]
    rfl

/-! ## Faults -/

/-- The text may be wrong only in that it ends where it does: something is wanted where it ends, its
last string is not closed, or what stands at the fault is a part of the word that is wanted. -/
def Fault.Incomplete (text : String) (f : Fault) : Prop :=
  match f.cause with
  | .unexpectedEnd => True
  | .unclosedString => True
  | .expectedDigits => f.offset = text.utf8ByteSize
  | .expectedWord w => ∃ before rest, text = before ++ rest ∧ before.utf8ByteSize = f.offset ∧
      rest.toList <+: w.text.toList ∧ rest ≠ w.text
  | _ => False

/-- A text is cut at a byte offset in one way only. -/
theorem append_inj_of_utf8Len {s t s' t' : List Char} (h : s ++ t = s' ++ t')
    (hlen : String.utf8Len s = String.utf8Len s') : s = s' ∧ t = t' := by
  have hsame : ∀ u : List Char, ∀ n : Nat, n + String.utf8Len u = n → u = [] := fun u n hn =>
    String.utf8Len_eq_zero.1 (by omega)
  rcases List.append_eq_append_iff.1 h with ⟨u, rfl, rfl⟩ | ⟨u, rfl, rfl⟩
  · rw [String.utf8Len_append] at hlen
    obtain rfl := hsame u _ hlen.symm
    simp
  · rw [String.utf8Len_append] at hlen
    obtain rfl := hsame u _ hlen
    simp

/-- The text is cut short at a stop if and only if it is incomplete at the fault. -/
theorem incomplete_within {text : String} {before : List Char} {e : Stop}
    (hs : text.toList = before ++ e.rest) (hplaced : e.Placed) :
    (e.within text.toList).Incomplete text ↔ e.CutShort := by
  have hoffset := offset_within hs
  obtain ⟨cause, rest⟩ := e
  cases cause with
  | expectedDigits =>
    have hsize : text.utf8ByteSize = String.utf8Len before + String.utf8Len rest := by
      rw [← String.utf8Len_toList, hs, String.utf8Len_append]
    calc (Stop.within ⟨.expectedDigits, rest⟩ text.toList).offset = text.utf8ByteSize
        ↔ String.utf8Len rest = 0 := by rw [hoffset, hsize]; omega
      _ ↔ rest = [] := String.utf8Len_eq_zero
  | expectedWord w =>
    constructor
    · rintro ⟨b, r, rfl, hsize, hword, -⟩
      rw [hoffset, ← String.utf8Len_toList] at hsize
      rw [String.toList_append] at hs
      have hrest : r.toList = rest := (append_inj_of_utf8Len hs hsize).2
      rw [hrest, w.toList_text] at hword
      exact hword
    · intro hword
      refine ⟨String.ofList before, String.ofList rest, eq_append_of_toList hs, ?_, ?_, ?_⟩
      · rw [hoffset, String.utf8ByteSize_ofList]
      · rw [String.toList_ofList, w.toList_text]
        exact hword
      · intro hwhole
        have hchars : rest = w.chars := by
          rw [← w.toList_text, ← hwhole, String.toList_ofList]
        exact hplaced (hchars ▸ List.prefix_refl _)
  | _ => exact Iff.rfl

/-- A text that is incomplete at its fault can be completed to a document. Any other fault stays the
same, and at its place, whatever text is put behind. -/
theorem parse_error_extended {text : String} {f : Fault} (h : parse text = .error f) :
    (f.Incomplete text → ∃ more v, parse (text ++ more) = .ok v) ∧
      (¬ f.Incomplete text → ∀ more, parse (text ++ more) = .error f) := by
  obtain ⟨e, he, rfl⟩ := parse_eq_error.1 h
  have hstops := stops_endingDocument he
  obtain ⟨before, hs, -⟩ := hstops.before
  rw [incomplete_within hs hstops.placed]
  constructor
  · intro hcut
    have hmended := (hstops.whole hcut).exists_parse
    rwa [String.ofList_toList] at hmended
  · intro hcut more
    have hmore : endingDocument (text ++ more).toList = .error ⟨e.cause, e.rest ++ more.toList⟩ := by
      have hsettled : Settled (endingDocument text.toList) := he ▸ hcut
      rw [String.toList_append, settles_endingDocument _ hsettled, he]
      rfl
    refine parse_eq_error.2 ⟨_, hmore, ?_⟩
    have hbehind : (text ++ more).toList = before ++ (e.rest ++ more.toList) := by
      rw [String.toList_append, hs, List.append_assoc]
    have hoffset : (e.within text.toList).offset =
        (Stop.within ⟨e.cause, e.rest ++ more.toList⟩ (text ++ more).toList).offset := by
      rw [offset_within hs, offset_within hbehind]
    exact congrArg (Fault.mk e.cause) hoffset

theorem parse_error_extended_list :
    (parse "[1, tru" = .error ⟨.expectedWord .true, 4⟩ ∧
      ∃ more v, parse ("[1, tru" ++ more) = .ok v) ∧
    parse "[1 2" = .error ⟨.missingSeparator ']', 3⟩ ∧
      ∀ more, parse ("[1 2" ++ more) = .error ⟨.missingSeparator ']', 3⟩ :=
  have hshort : parse "[1, tru" = .error ⟨.expectedWord .true, 4⟩ := by decide +kernel
  have hwrong : parse "[1 2" = .error ⟨.missingSeparator ']', 3⟩ := by decide +kernel
  ⟨⟨hshort, (parse_error_extended hshort).1 ⟨"[1, ", "tru", by decide, by decide, by decide,
    by decide⟩⟩, hwrong, (parse_error_extended hwrong).2 id⟩

end SchemaInference.Document
