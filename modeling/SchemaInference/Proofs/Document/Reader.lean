/-
The reader accepts exactly the grammar. What a reader takes and leaves is the one way in which it
ends (`taken?`), each reader by one equation. By these what a reader takes is written as the grammar
says (`readValue_sound`), and it takes all that is written so, up to blanks, when the text goes on
with nothing that could belong to it (`readValue_complete`). Room counts down with every container
that opens and is the same for its siblings, so it bounds the depth of a value.
-/
import SchemaInference.Proofs.Document.Ending

namespace SchemaInference.Document

/-! ## What a reader takes -/

section Taken

variable {α β : Type} {s t : List Char}

/-- The item that was read, and the text that is left. -/
def taken? (x : Except Stop (Read α s)) : Option (α × List Char) :=
  x.toOption.map fun r => (r.item, r.rest)

@[simp] theorem taken?_error (e : Stop) : taken? (.error e : Except Stop (Read α s)) = none := rfl

@[simp] theorem taken?_ok (a : α) (left : List Char) (h : left.length < s.length) :
    taken? (.ok ⟨a, left, h⟩ : Except Stop (Read α s)) = some (a, left) := rfl

theorem taken?_eq (x : Except Stop (Read α s)) : taken? x = (ending x).toOption := by
  cases x <;> rfl

theorem taken?_eq_some {x : Except Stop (Read α s)} {a : α} {rest : List Char} :
    taken? x = some (a, rest) ↔ ending x = .ok (a, rest) := by
  rw [taken?_eq]
  cases ending x <;> simp [Except.toOption]

@[simp] theorem toOption_mapItem (f : α → β) (x : Except Stop (α × List Char)) :
    (mapItem f x).toOption = x.toOption.map fun r => (f r.1, r.2) := by
  cases x <;> rfl

@[simp] theorem toOption_andThen (x : Except Stop (α × List Char))
    (f : α → List Char → Except Stop (β × List Char)) :
    (andThen x f).toOption = x.toOption.bind fun r => (f r.1 r.2).toOption := by
  cases x <;> rfl

@[simp] theorem toOption_atNext (f : Char → List Char → Except Stop (α × List Char))
    (s : List Char) :
    (atNext f s).toOption =
      match skipBlanks s with
      | [] => none
      | c :: rest => (f c rest).toOption := by
  unfold atNext
  cases skipBlanks s <;> rfl

theorem toOption_scanQuoted (t : List Char) : (scanQuoted t).toOption = scanString t := by
  unfold scanQuoted
  cases scanString t <;> rfl

end Taken

section Containers

variable {α : Type} {closer : Char} {read : Reader α} {s rest : List Char} {xs : List α}

theorem taken?_readItems (closer : Char) (read : Reader α) (s : List Char) :
    taken? (readItems closer read s) = (taken? (read s)).bind fun (x, left) =>
      match skipBlanks left with
      | [] => none
      | c :: more =>
        if c = ',' then (taken? (readItems closer read more)).map fun (xs, rest) => (x :: xs, rest)
        else if c = closer then some ([x], more) else none := by
  rw [taken?_eq, ending_readItems, toOption_andThen, ← taken?_eq]
  refine Option.bind_congr fun (x, left) _ => ?_
  simp only [toOption_atNext, taken?_eq]
  rcases skipBlanks left with _ | ⟨c, more⟩
  · rfl
  · dsimp only
    split_ifs
    · exact toOption_mapItem ..
    · rfl
    · rfl

theorem taken?_readContents (closer : Char) (read : Reader α) (s : List Char) :
    taken? (readContents closer read s) =
      match skipBlanks s with
      | [] => taken? (readItems closer read s)
      | c :: rest => if c = closer then some ([], rest) else taken? (readItems closer read s) := by
  simp only [taken?_eq, ending_readContents]
  rcases skipBlanks s with _ | ⟨c, rest⟩
  · rfl
  · dsimp only
    split_ifs <;> rfl

theorem taken?_readMember (read : Reader Value) (s : List Char) :
    taken? (readMember read s) =
      match skipBlanks s with
      | '"' :: t => (scanString t).bind fun (name, u) =>
        match skipBlanks u with
        | ':' :: v => (taken? (read v)).map fun (value, rest) => ((String.ofList name, value), rest)
        | _ => none
      | _ => none := by
  simp only [taken?_eq, ending_readMember, toOption_atNext]
  split
  · rename_i hb
    rw [hb]
  · rename_i c t hb
    rw [hb]
    by_cases hquote : c = '"'
    · subst hquote
      rw [if_pos rfl, toOption_andThen, toOption_scanQuoted]
      refine Option.bind_congr fun (name, u) _ => ?_
      rw [readNamed, toOption_atNext]
      rcases skipBlanks u with _ | ⟨c, v⟩
      · rfl
      · by_cases hcolon : c = ':'
        · subst hcolon
          exact toOption_mapItem ..
        · dsimp only
          rw [if_neg hcolon]
          split
          · rename_i e
            exact absurd (List.cons.inj e).1 hcolon
          · rfl
    · rw [if_neg hquote]
      split
      · rename_i e
        exact absurd (List.cons.inj e).1 hquote
      · rfl

end Containers

theorem taken?_readWord (w : Word) (s : List Char) :
    taken? (readWord w s) =
      if w.chars <+: s then some (w.value, s.drop w.chars.length) else none := by
  rw [taken?_eq, ending_readWord]
  split_ifs <;> rfl

theorem taken?_readString (s : List Char) :
    taken? (readString s) =
      match s with
      | '"' :: t => (scanString t).map fun (raw, rest) => (.string (String.ofList raw), rest)
      | _ => none := by
  split
  · rename_i t
    rw [taken?_eq, ending_readString, toOption_mapItem, scanQuoted]
    cases scanString t <;> rfl
  · rename_i hquote
    rw [readString.eq_2 _ hquote, taken?_error]

theorem taken?_readNumber (s : List Char) :
    taken? (readNumber s) = (scanNumber s).toOption.map fun n => (n.value, n.rest) := by
  rw [taken?_eq, ending_readNumber_scan]
  cases scanNumber s <;> rfl

theorem taken?_readValue (room : Nat) (s : List Char) :
    taken? (readValue room s) =
      match skipBlanks s with
      | [] => none
      | c :: rest =>
        if c = '{' then
          match room with
          | 0 => none
          | room + 1 => (taken? (readContents '}' (readMember (readValue room)) rest)).map
            fun (members, rest) => (.object members, rest)
        else if c = '[' then
          match room with
          | 0 => none
          | room + 1 => (taken? (readContents ']' (readValue room) rest)).map
            fun (items, rest) => (.array items, rest)
        else if c = '"' then taken? (readString (c :: rest))
        else if c = 't' then taken? (readWord .true (c :: rest))
        else if c = 'f' then taken? (readWord .false (c :: rest))
        else if c = 'n' then taken? (readWord .null (c :: rest))
        else if c = '-' || c.isDigit then taken? (readNumber (c :: rest))
        else none := by
  simp only [taken?_eq, ending_readValue, toOption_atNext]
  rcases skipBlanks s with _ | ⟨c, rest⟩
  · rfl
  · dsimp only
    split_ifs
    · cases room with
      | zero => rfl
      | succ room => exact toOption_mapItem ..
    · cases room with
      | zero => rfl
      | succ room => exact toOption_mapItem ..
    all_goals rfl

/-! ## Lists of items -/

theorem commas_cons {s : List Char} {texts : List (List Char)} (h : texts ≠ []) :
    commas (s :: texts) = s ++ ',' :: commas texts := by
  cases texts with
  | nil => exact absurd rfl h
  | cons t texts => rfl

section Items

/- `γ` are the ways to write one item: the text, the item that it is, and whether the grammar has
it. -/
variable {α γ : Type} {chars : γ → List Char} {item : γ → α} {Q : γ → Prop} {read : Reader α}
  {closer : Char}

/-- Where an item that is read is written in a way of the grammar, and blanks may go after it, all
items are written so. -/
theorem readItems_sound (hcl : closer ≠ ',')
    (hread : ∀ s x rest, taken? (read s) = some (x, rest) →
      ∃ y, Q y ∧ s = chars y ++ rest ∧ item y = x)
    (hpad : ∀ y a, Q y → Blanks a → ∃ y', Q y' ∧ chars y' = chars y ++ a ∧ item y' = item y)
    {s : List Char} {xs : List α} {rest : List Char}
    (h : taken? (readItems closer read s) = some (xs, rest)) :
    ∃ ys : List γ, ys ≠ [] ∧ (∀ y ∈ ys, Q y) ∧ s = commas (ys.map chars) ++ closer :: rest ∧
      ys.map item = xs := by
  induction hn : s.length using Nat.strongRecOn generalizing s xs with
  | ind n ih =>
    rw [taken?_readItems] at h
    obtain ⟨⟨x, left⟩, hx, hrest⟩ := Option.bind_eq_some_iff.1 h
    obtain ⟨y, hy, rfl, rfl⟩ := hread _ _ _ hx
    obtain ⟨a, ha, hleft⟩ := skipBlanks_eq left
    -- the blanks behind an item become part of its text
    obtain ⟨y', hy', hc, hi⟩ := hpad y a hy ha
    dsimp only at hrest
    split at hrest
    · cases hrest
    · rename_i c more hb
      rw [hb] at hleft
      split at hrest
      · rename_i e
        subst e
        obtain ⟨⟨zs, rest'⟩, hz, e⟩ := Option.map_eq_some_iff.1 hrest
        obtain ⟨rfl, rfl⟩ := Prod.mk.inj e
        have hlt : more.length < n := by
          rw [← hn, hleft]
          simp only [List.length_append, List.length_cons]
          omega
        obtain ⟨ys, hne, hys, rfl, rfl⟩ := ih _ hlt hz rfl
        refine ⟨y' :: ys, List.cons_ne_nil _ _, List.forall_mem_cons.2 ⟨hy', hys⟩, ?_, ?_⟩
        · rw [List.map_cons, commas_cons (by simpa using hne), hc, hleft]
          simp only [List.append_assoc, List.cons_append]
        · rw [List.map_cons, hi]
      · -- the closer, and with it the last item
        split at hrest
        · rename_i e
          subst e
          obtain ⟨rfl, rfl⟩ := Prod.mk.inj (Option.some.inj hrest)
          refine ⟨[y'], List.cons_ne_nil _ _, by simpa using hy', ?_, by simp [hi]⟩
          rw [hleft, List.map_singleton, commas, hc, List.append_assoc]
        · cases hrest

theorem readContents_sound (hcl : closer ≠ ',')
    (hread : ∀ s x rest, taken? (read s) = some (x, rest) →
      ∃ y, Q y ∧ s = chars y ++ rest ∧ item y = x)
    (hpad : ∀ y a, Q y → Blanks a → ∃ y', Q y' ∧ chars y' = chars y ++ a ∧ item y' = item y)
    {s : List Char} {xs : List α} {rest : List Char}
    (h : taken? (readContents closer read s) = some (xs, rest)) :
    (xs = [] ∧ ∃ b, Blanks b ∧ s = b ++ closer :: rest) ∨
      ∃ ys : List γ, ys ≠ [] ∧ (∀ y ∈ ys, Q y) ∧ s = commas (ys.map chars) ++ closer :: rest ∧
        ys.map item = xs := by
  rw [taken?_readContents] at h
  split at h
  · exact .inr (readItems_sound hcl hread hpad h)
  · rename_i c more hb
    split at h
    · rename_i e
      subst e
      obtain ⟨rfl, rfl⟩ := Prod.mk.inj (Option.some.inj h)
      obtain ⟨b, hb', e⟩ := skipBlanks_eq s
      exact .inl ⟨rfl, b, hb', hb ▸ e⟩
    · exact .inr (readItems_sound hcl hread hpad h)

/-- Where an item that is written is read up to blanks, all items are read. -/
theorem readItems_complete (hcl : closer ≠ ',') (hend : endsNumber closer)
    (hblank : isBlank closer = false) {ys : List γ} (hne : ys ≠ [])
    (hread : ∀ y ∈ ys, ∀ rest, Next endsNumber rest →
      ∃ a, Blanks a ∧ taken? (read (chars y ++ rest)) = some (item y, a ++ rest))
    (rest : List Char) :
    taken? (readItems closer read (commas (ys.map chars) ++ closer :: rest)) =
      some (ys.map item, rest) := by
  induction ys with
  | nil => exact absurd rfl hne
  | cons y ys ih =>
    obtain ⟨hy, hys⟩ := List.forall_mem_cons.1 hread
    rw [taken?_readItems]
    by_cases hnil : ys = []
    · subst hnil
      obtain ⟨a, ha, hy⟩ := hy (closer :: rest) (next_cons hend)
      rw [List.map_singleton, commas, hy, Option.bind_some]
      simp only [skipBlanks_append ha, skipBlanks_cons hblank, if_neg hcl, if_true,
        List.map_singleton]
    · obtain ⟨a, ha, hy⟩ :=
        hy (',' :: (commas (ys.map chars) ++ closer :: rest)) (next_cons (.inr (.inl rfl)))
      have htext : commas ((y :: ys).map chars) ++ closer :: rest =
          chars y ++ ',' :: (commas (ys.map chars) ++ closer :: rest) := by
        rw [List.map_cons, commas_cons (by simpa using hnil), List.append_assoc, List.cons_append]
      rw [htext, hy, Option.bind_some]
      have hcomma : isBlank ',' = false := by decide
      simp only [skipBlanks_append ha, skipBlanks_cons hcomma, if_true, ih hnil hys,
        Option.map_some, List.map_cons]

theorem readContents_complete (hcl : closer ≠ ',') (hend : endsNumber closer)
    (hblank : isBlank closer = false)
    (hcloser : ∀ s rest, skipBlanks s = closer :: rest → taken? (read s) = none) {ys : List γ}
    (hne : ys ≠ [])
    (hread : ∀ y ∈ ys, ∀ rest, Next endsNumber rest →
      ∃ a, Blanks a ∧ taken? (read (chars y ++ rest)) = some (item y, a ++ rest))
    (rest : List Char) :
    taken? (readContents closer read (commas (ys.map chars) ++ closer :: rest)) =
      some (ys.map item, rest) := by
  have hitems := readItems_complete hcl hend hblank hne hread rest
  rw [taken?_readContents]
  split
  · exact hitems
  · rename_i c more hb
    -- no item starts with the closing character
    have hc : c ≠ closer := by
      rintro rfl
      rw [taken?_readItems, hcloser _ _ hb] at hitems
      cases hitems
    rw [if_neg hc]
    exact hitems

theorem readContents_empty (hblank : isBlank closer = false) {b : List Char} (hb : Blanks b)
    (rest : List Char) : taken? (readContents closer read (b ++ closer :: rest)) = some ([], rest) := by
  rw [taken?_readContents, skipBlanks_append hb, skipBlanks_cons hblank]
  exact if_pos rfl

end Items

/-! ## Members -/

/-- A member as the grammar has it, its value nested no deeper than `room`. -/
structure MemberText.Written (room : Nat) (m : MemberText) : Prop where
  before : Blanks m.before
  name : RawText m.name
  after : Blanks m.after
  value : Spells m.text m.value
  depth : m.value.depth ≤ room

section Members

variable {room : Nat} {read : Reader Value}

theorem readMember_sound
    (hread : ∀ s v rest, taken? (read s) = some (v, rest) →
      ∃ t, s = t ++ rest ∧ Spells t v ∧ v.depth ≤ room)
    {s : List Char} {m : String × Value} {rest : List Char}
    (h : taken? (readMember read s) = some (m, rest)) :
    ∃ t : MemberText, t.Written room ∧ s = t.chars ++ rest ∧ t.member = m := by
  rw [taken?_readMember] at h
  split at h
  · rename_i t hb
    obtain ⟨⟨name, u⟩, ht, hrest⟩ := Option.bind_eq_some_iff.1 h
    dsimp only at hrest
    split at hrest
    · rename_i v hu
      obtain ⟨⟨value, rest'⟩, hv, e⟩ := Option.map_eq_some_iff.1 hrest
      obtain ⟨rfl, rfl⟩ := Prod.mk.inj e
      obtain ⟨before, hbefore, hs⟩ := skipBlanks_eq s
      obtain ⟨after, hafter, hu'⟩ := skipBlanks_eq u
      obtain ⟨text, rfl, hvalue, hdepth⟩ := hread _ _ _ hv
      refine ⟨⟨before, name, after, text, value⟩,
        ⟨hbefore, rawText_iff.2 (scanString_sound ht), hafter, hvalue, hdepth⟩, ?_, rfl⟩
      rw [hs, hb, scanString_eq ht, hu', hu]
      simp only [MemberText.chars, List.append_assoc, List.cons_append]
    · cases hrest
  · cases h

theorem MemberText.Written.pad {m : MemberText} (h : m.Written room) {a : List Char}
    (ha : Blanks a) : ∃ m' : MemberText, m'.Written room ∧ m'.chars = m.chars ++ a ∧
      m'.member = m.member := by
  refine ⟨{ m with text := m.text ++ a }, ⟨h.before, h.name, h.after, ?_, h.depth⟩, ?_, rfl⟩
  · exact .padded blanks_nil ha h.value
  · simp only [MemberText.chars, List.append_assoc, List.cons_append]

theorem readMember_complete {m : MemberText} (hb : Blanks m.before) (hn : RawText m.name)
    (ha : Blanks m.after)
    (hread : ∀ rest, Next endsNumber rest →
      ∃ a, Blanks a ∧ taken? (read (m.text ++ rest)) = some (m.value, a ++ rest))
    {rest : List Char} (hr : Next endsNumber rest) :
    ∃ a, Blanks a ∧ taken? (readMember read (m.chars ++ rest)) = some (m.member, a ++ rest) := by
  obtain ⟨a, hblank, hread⟩ := hread rest hr
  refine ⟨a, hblank, ?_⟩
  have htext : m.chars ++ rest =
      m.before ++ '"' :: (m.name ++ '"' :: (m.after ++ ':' :: (m.text ++ rest))) := by
    simp only [MemberText.chars, List.append_assoc, List.cons_append]
  have hquote : isBlank '"' = false := by decide
  have hcolon : isBlank ':' = false := by decide
  rw [taken?_readMember, htext, skipBlanks_append hb, skipBlanks_cons hquote]
  simp only [scanString_complete (rawText_iff.1 hn), Option.bind_some, skipBlanks_append ha,
    skipBlanks_cons hcolon, hread, Option.map_some]
  rfl

end Members

/-! ## Values -/

theorem readWord_sound {w : Word} {s : List Char} {v : Value} {rest : List Char}
    (h : taken? (readWord w s) = some (v, rest)) : s = w.chars ++ rest ∧ v = w.value := by
  rw [taken?_readWord] at h
  split at h
  · rename_i hp
    obtain ⟨rfl, rfl⟩ := Prod.mk.inj (Option.some.inj h)
    obtain ⟨t, rfl⟩ := hp
    rw [List.drop_left]
    exact ⟨rfl, rfl⟩
  · cases h

theorem readWord_complete (w : Word) (rest : List Char) :
    taken? (readWord w (w.chars ++ rest)) = some (w.value, rest) := by
  rw [taken?_readWord, if_pos (List.prefix_append ..), List.drop_left]

theorem spells_word (w : Word) : Spells w.chars w.value := by
  cases w with
  | true => exact .true
  | false => exact .false
  | null => exact .null

theorem depth_word (w : Word) : w.value.depth = 0 := by cases w <;> rfl

theorem readNumber_sound {s : List Char} {v : Value} {rest : List Char}
    (h : taken? (readNumber s) = some (v, rest)) :
    ∃ t, s = t ++ rest ∧ Spells t v ∧ v.depth = 0 := by
  rw [taken?_readNumber] at h
  obtain ⟨n, hn, e⟩ := Option.map_eq_some_iff.1 h
  obtain ⟨rfl, rfl⟩ := Prod.mk.inj e
  have hn : scanNumber s = .ok n := by
    rcases hs : scanNumber s with f | m
    · rw [hs] at hn
      cases hn
    · rw [hs] at hn
      cases hn
      rfl
  obtain ⟨hs, hnumber⟩ := scanNumber_sound hn
  refine ⟨n.text, hs, ?_⟩
  rcases hnumber with ⟨ht, hv⟩ | ⟨ht, hv⟩
  · exact hv ▸ ⟨.integer ht, rfl⟩
  · exact hv ▸ ⟨.real ht, rfl⟩

theorem readString_sound {s : List Char} {v : Value} {rest : List Char}
    (h : taken? (readString s) = some (v, rest)) :
    ∃ t, s = t ++ rest ∧ Spells t v ∧ v.depth = 0 := by
  rw [taken?_readString] at h
  split at h
  · rename_i t
    obtain ⟨⟨raw, left⟩, ht, e⟩ := Option.map_eq_some_iff.1 h
    obtain ⟨rfl, rfl⟩ := Prod.mk.inj e
    refine ⟨'"' :: (raw ++ ['"']), ?_, .string (rawText_iff.2 (scanString_sound ht)), rfl⟩
    rw [scanString_eq ht]
    simp only [List.cons_append, List.append_assoc, List.nil_append]
  · cases h

/-- The ways to read a value, behind the blanks in front of it. -/
theorem readValue_cases {room : Nat} {s : List Char} {v : Value} {rest : List Char}
    (h : taken? (readValue room s) = some (v, rest)) :
    ∃ b c more, Blanks b ∧ s = b ++ c :: more ∧
      ((∃ w, taken? (readWord w (c :: more)) = some (v, rest)) ∨
        taken? (readString (c :: more)) = some (v, rest) ∨
        taken? (readNumber (c :: more)) = some (v, rest) ∨
        (∃ inner items, room = inner + 1 ∧ c = '[' ∧
          taken? (readContents ']' (readValue inner) more) = some (items, rest) ∧
            v = .array items) ∨
        ∃ inner members, room = inner + 1 ∧ c = '{' ∧
          taken? (readContents '}' (readMember (readValue inner)) more) = some (members, rest) ∧
            v = .object members) := by
  obtain ⟨b, hb, hs⟩ := skipBlanks_eq s
  rw [taken?_readValue] at h
  split at h
  · cases h
  · rename_i c more hc
    refine ⟨b, c, more, hb, hc ▸ hs, ?_⟩
    split_ifs at h with hbrace hbracket
    · cases room with
      | zero => cases h
      | succ inner =>
        obtain ⟨⟨members, left⟩, hm, e⟩ := Option.map_eq_some_iff.1 h
        obtain ⟨rfl, rfl⟩ := Prod.mk.inj e
        exact .inr (.inr (.inr (.inr ⟨inner, members, rfl, hbrace, hm, rfl⟩)))
    · cases room with
      | zero => cases h
      | succ inner =>
        obtain ⟨⟨items, left⟩, hi, e⟩ := Option.map_eq_some_iff.1 h
        obtain ⟨rfl, rfl⟩ := Prod.mk.inj e
        exact .inr (.inr (.inr (.inl ⟨inner, items, rfl, hbracket, hi, rfl⟩)))
    · exact .inr (.inl h)
    · exact .inl ⟨_, h⟩
    · exact .inl ⟨_, h⟩
    · exact .inl ⟨_, h⟩
    · exact .inr (.inr (.inl h))

/-- What the reader of values takes is written as the grammar says, and nests no deeper than there
is room. -/
theorem readValue_sound {room : Nat} {s : List Char} {v : Value} {rest : List Char}
    (h : taken? (readValue room s) = some (v, rest)) :
    ∃ t, s = t ++ rest ∧ Spells t v ∧ v.depth ≤ room := by
  induction room using Nat.strongRecOn generalizing s v rest with
  | ind room ih =>
    obtain ⟨b, c, more, hb, rfl, hway⟩ := readValue_cases h
    -- it is enough to tell what is taken behind the blanks
    have hpad : ∀ t, c :: more = t ++ rest → Spells t v → v.depth ≤ room →
        ∃ t, b ++ c :: more = t ++ rest ∧ Spells t v ∧ v.depth ≤ room := by
      intro t ht hv hd
      refine ⟨b ++ (t ++ []), ?_, .padded hb blanks_nil hv, hd⟩
      rw [ht]
      simp only [List.append_assoc, List.append_nil]
    rcases hway with ⟨w, hr⟩ | hr | hr | ⟨inner, items, rfl, rfl, hr, rfl⟩ |
      ⟨inner, members, rfl, rfl, hr, rfl⟩
    · obtain ⟨ht, rfl⟩ := readWord_sound hr
      exact hpad _ ht (spells_word w) (depth_word w ▸ Nat.zero_le _)
    · obtain ⟨t, ht, hv, hd⟩ := readString_sound hr
      exact hpad t ht hv (hd ▸ Nat.zero_le _)
    · obtain ⟨t, ht, hv, hd⟩ := readNumber_sound hr
      exact hpad t ht hv (hd ▸ Nat.zero_le _)
    · have hread : ∀ s v rest, taken? (readValue inner s) = some (v, rest) →
          ∃ y : List Char × Value, (Spells y.1 y.2 ∧ y.2.depth ≤ inner) ∧ s = y.1 ++ rest ∧
            y.2 = v := by
        intro s v rest h
        obtain ⟨t, ht, hv, hd⟩ := ih inner (Nat.lt_succ_self _) h
        exact ⟨(t, v), ⟨hv, hd⟩, ht, rfl⟩
      rcases readContents_sound (by decide) hread
        (fun y a hy ha => ⟨(y.1 ++ a, y.2), ⟨.padded blanks_nil ha hy.1, hy.2⟩, rfl, rfl⟩) hr with
        ⟨rfl, b', hb', rfl⟩ | ⟨ys, hne, hys, rfl, rfl⟩
      · refine hpad ('[' :: (b' ++ [']'])) ?_ (.emptyArray hb') ?_
        · simp only [List.cons_append, List.append_assoc, List.nil_append]
        · exact Value.depth_array_le.2 ⟨inner, rfl, by simp⟩
      · refine hpad ('[' :: (commas (ys.map (·.1)) ++ [']'])) ?_ (.array hne fun y hy => (hys y hy).1)
          ?_
        · simp only [List.cons_append, List.append_assoc, List.nil_append]
        · refine Value.depth_array_le.2 ⟨inner, rfl, fun v hv => ?_⟩
          obtain ⟨y, hy, rfl⟩ := List.mem_map.1 hv
          exact (hys y hy).2
    · have hread : ∀ s v rest, taken? (readValue inner s) = some (v, rest) →
          ∃ t, s = t ++ rest ∧ Spells t v ∧ v.depth ≤ inner :=
        fun s v rest h => ih inner (Nat.lt_succ_self _) h
      rcases readContents_sound (by decide) (fun s m rest h => readMember_sound hread h)
        (fun m a hm ha => hm.pad ha) hr with ⟨rfl, b', hb', rfl⟩ | ⟨ms, hne, hms, rfl, rfl⟩
      · refine hpad ('{' :: (b' ++ ['}'])) ?_ (.emptyObject hb') ?_
        · simp only [List.cons_append, List.append_assoc, List.nil_append]
        · exact Value.depth_object_le.2 ⟨inner, rfl, by simp⟩
      · refine hpad ('{' :: (commas (ms.map MemberText.chars) ++ ['}'])) ?_
          (.object hne (fun m hm => ⟨(hms m hm).before, (hms m hm).after⟩)
            (fun m hm => (hms m hm).name) fun m hm => (hms m hm).value) ?_
        · simp only [List.cons_append, List.append_assoc, List.nil_append]
        · refine Value.depth_object_le.2 ⟨inner, rfl, fun v hv => ?_⟩
          obtain ⟨m, hm, rfl⟩ := List.mem_map.1 hv
          exact (hms m hm).depth

/-! ## All that is written is read -/

theorem IntegerText.head {s : List Char} (h : IntegerText s) :
    ∃ c t, s = c :: t ∧ (c = '-' ∨ c.isDigit = true) := by
  obtain ⟨minus, digits, rfl, rfl | rfl, hne, hd⟩ := h
  · cases digits with
    | nil => exact absurd rfl hne
    | cons d ds => exact ⟨d, ds, rfl, .inr (hd d (List.mem_cons_self ..))⟩
  · exact ⟨'-', digits, rfl, .inl rfl⟩

/-- Where a value starts with a minus or a digit, it is a number. -/
theorem readValue_number (room : Nat) {c : Char} (hc : c = '-' ∨ c.isDigit = true) (s : List Char) :
    taken? (readValue room (c :: s)) = taken? (readNumber (c :: s)) := by
  have hne : ∀ d : Char, d ≠ '-' → d.isDigit = false → c ≠ d := by
    rintro d hd hdig rfl
    rcases hc with hc | hc
    · exact hd hc
    · rw [hdig] at hc
      cases hc
  have hblank : isBlank c = false := by
    rw [Bool.eq_false_iff]
    intro hb
    rcases isBlank_iff.1 hb with e | e | e | e <;> revert e <;>
      exact hne _ (by decide) (by decide)
  rw [taken?_readValue, skipBlanks_cons hblank]
  dsimp only
  rw [if_neg (hne '{' (by decide) (by decide)), if_neg (hne '[' (by decide) (by decide)),
    if_neg (hne '"' (by decide) (by decide)), if_neg (hne 't' (by decide) (by decide)),
    if_neg (hne 'f' (by decide) (by decide)), if_neg (hne 'n' (by decide) (by decide))]
  exact if_pos (by simpa using hc)

theorem readNumber_complete {whole fraction exponent rest : List Char} (hw : IntegerText whole)
    (hf : fraction = [] ∨ FractionText fraction) (he : exponent = [] ∨ ExponentText exponent)
    (hr : Next endsNumber rest) (room : Nat) :
    taken? (readValue room (whole ++ (fraction ++ exponent) ++ rest)) =
      some (Numeral.value ⟨whole, fraction ++ exponent, rest⟩, rest) := by
  have hscan := scanNumber_complete hw hf he hr
  obtain ⟨c, t, rfl, hc⟩ := hw.head
  rw [List.cons_append, List.cons_append] at hscan ⊢
  rw [readValue_number room hc, taken?_readNumber, hscan]
  rfl

theorem readValue_blanks (room : Nat) {b : List Char} (hb : Blanks b) (s : List Char) :
    taken? (readValue room (b ++ s)) = taken? (readValue room s) := by
  rw [taken?_readValue, taken?_readValue, skipBlanks_append hb]

theorem readValue_quote (room : Nat) (s : List Char) :
    taken? (readValue room ('"' :: s)) = taken? (readString ('"' :: s)) := by
  rw [taken?_readValue, skipBlanks_cons (by decide)]
  rfl

theorem readValue_bracket (room : Nat) (s : List Char) :
    taken? (readValue (room + 1) ('[' :: s)) =
      (taken? (readContents ']' (readValue room) s)).map fun (items, rest) =>
        (.array items, rest) := by
  rw [taken?_readValue, skipBlanks_cons (by decide)]
  rfl

theorem readValue_brace (room : Nat) (s : List Char) :
    taken? (readValue (room + 1) ('{' :: s)) =
      (taken? (readContents '}' (readMember (readValue room)) s)).map fun (members, rest) =>
        (.object members, rest) := by
  rw [taken?_readValue, skipBlanks_cons (by decide)]
  rfl

theorem readValue_closer (room : Nat) {s rest : List Char} (h : skipBlanks s = ']' :: rest) :
    taken? (readValue room s) = none := by
  rw [taken?_readValue, h]
  rfl

theorem readMember_closer (read : Reader Value) {s rest : List Char}
    (h : skipBlanks s = '}' :: rest) : taken? (readMember read s) = none := by
  rw [taken?_readMember, h]
  rfl

/-- What is written as the grammar says and nests no deeper than there is room is read, up to blanks
behind it, when the text ends or goes on with a blank, a comma or a closing bracket. -/
theorem readValue_complete {s : List Char} {v : Value} (h : Spells s v) {room : Nat}
    (hd : v.depth ≤ room) {rest : List Char} (hr : Next endsNumber rest) :
    ∃ a, Blanks a ∧ taken? (readValue room (s ++ rest)) = some (v, a ++ rest) := by
  induction h generalizing room rest with
  | null =>
    refine ⟨[], blanks_nil, ?_⟩
    rw [taken?_readValue]
    exact readWord_complete .null rest
  | true =>
    refine ⟨[], blanks_nil, ?_⟩
    rw [taken?_readValue]
    exact readWord_complete .true rest
  | false =>
    refine ⟨[], blanks_nil, ?_⟩
    rw [taken?_readValue]
    exact readWord_complete .false rest
  | integer h =>
    refine ⟨[], blanks_nil, ?_⟩
    have := readNumber_complete h (.inl rfl) (.inl rfl) hr room
    rw [List.append_nil, List.append_nil] at this
    rw [this]
    simp only [Numeral.value, Numeral.text, List.isEmpty_nil, if_true, List.append_nil,
      List.nil_append]
  | real h =>
    refine ⟨[], blanks_nil, ?_⟩
    obtain ⟨whole, fraction, exponent, rfl, hw, hf, he, hne⟩ := h
    have hempty : (fraction ++ exponent).isEmpty = false := by
      rw [Bool.eq_false_iff, ne_eq, List.isEmpty_iff]
      exact hne
    rw [readNumber_complete hw hf he hr]
    simp only [Numeral.value, Numeral.text, hempty, Bool.false_eq_true, if_false, List.nil_append]
  | @string raw h =>
    refine ⟨[], blanks_nil, ?_⟩
    rw [List.cons_append, List.append_assoc, List.singleton_append, readValue_quote,
      taken?_readString]
    simp only [scanString_complete (rawText_iff.1 h), Option.map_some, List.nil_append]
  | @emptyArray b h =>
    obtain ⟨inner, rfl, -⟩ := Value.depth_array_le.1 hd
    refine ⟨[], blanks_nil, ?_⟩
    rw [List.cons_append, List.append_assoc, List.singleton_append, readValue_bracket,
      readContents_empty (by decide) h]
    rfl
  | @array items hne _ ih =>
    obtain ⟨inner, rfl, hitems⟩ := Value.depth_array_le.1 hd
    refine ⟨[], blanks_nil, ?_⟩
    have hcontents : taken? (readContents ']' (readValue inner)
        (commas (items.map (·.1)) ++ ']' :: rest)) = some (items.map (·.2), rest) :=
      readContents_complete (by decide) (.inr (.inr (.inl rfl))) (by decide)
        (fun _ _ => readValue_closer inner) hne
        (fun i hi rest hr => ih i hi (hitems _ (List.mem_map_of_mem hi)) hr) rest
    rw [List.cons_append, List.append_assoc, List.singleton_append, readValue_bracket, hcontents]
    rfl
  | @emptyObject b h =>
    obtain ⟨inner, rfl, -⟩ := Value.depth_object_le.1 hd
    refine ⟨[], blanks_nil, ?_⟩
    rw [List.cons_append, List.append_assoc, List.singleton_append, readValue_brace,
      readContents_empty (by decide) h]
    rfl
  | @object members hne hblanks hnames _ ih =>
    obtain ⟨inner, rfl, hmembers⟩ := Value.depth_object_le.1 hd
    refine ⟨[], blanks_nil, ?_⟩
    have hread : ∀ m ∈ members, ∀ rest, Next endsNumber rest → ∃ a, Blanks a ∧
        taken? (readMember (readValue inner) (m.chars ++ rest)) = some (m.member, a ++ rest) := by
      intro m hm rest hr
      obtain ⟨hbefore, hafter⟩ := hblanks m hm
      have hdepth : m.value.depth ≤ inner := hmembers m.member (List.mem_map_of_mem hm)
      exact readMember_complete hbefore (hnames m hm) hafter (fun _ => ih m hm hdepth) hr
    have hcontents : taken? (readContents '}' (readMember (readValue inner))
        (commas (members.map MemberText.chars) ++ '}' :: rest)) =
          some (members.map MemberText.member, rest) :=
      readContents_complete (by decide) (.inr (.inr (.inr rfl))) (by decide)
        (fun _ _ => readMember_closer _) hne hread rest
    rw [List.cons_append, List.append_assoc, List.singleton_append, readValue_brace, hcontents]
    rfl
  | @padded before s after v hb ha _ ih =>
    -- a number may also end where its blanks start
    have hnext : Next endsNumber (after ++ rest) := by
      cases after with
      | nil => exact hr
      | cons c after => exact next_cons (.inl (blanks_iff.1 ha c (List.mem_cons_self ..)))
    obtain ⟨a, hblank, h⟩ := ih hd hnext
    refine ⟨a ++ after, hblank.append ha, ?_⟩
    rw [List.append_assoc, readValue_blanks room hb, List.append_assoc, h, List.append_assoc]

/-! ## Documents -/

theorem parse_eq_ok {text : String} {v : Value} :
    parse text = .ok v ↔
      ∃ rest, taken? (readValue maxDepth text.toList) = some (v, rest) ∧ skipBlanks rest = [] := by
  unfold parse readDocument
  rcases readValue maxDepth text.toList with e | ⟨item, left, hlt⟩
  · constructor
    · intro h
      cases h
    · rintro ⟨rest, h, -⟩
      cases h
  · simp only [taken?_ok, Option.some.injEq, Prod.mk.injEq]
    split
    · rename_i hb
      constructor
      · intro h
        cases h
        exact ⟨left, ⟨rfl, rfl⟩, hb⟩
      · rintro ⟨rest, ⟨rfl, rfl⟩, -⟩
        rfl
    · rename_i hb
      constructor
      · intro h
        cases h
      · rintro ⟨rest, ⟨rfl, rfl⟩, h⟩
        exact absurd h hb

/-- A text is read as a value just where it is the value written out, nested at most 128 deep. -/
theorem parse_iff_spells {text : String} {v : Value} :
    parse text = .ok v ↔ Spells text.toList v ∧ v.depth ≤ 128 := by
  rw [parse_eq_ok]
  constructor
  · rintro ⟨rest, h, hrest⟩
    obtain ⟨t, ht, hv, hd⟩ := readValue_sound h
    rw [ht]
    exact ⟨.padded blanks_nil (skipBlanks_eq_nil hrest) hv, hd⟩
  · rintro ⟨hv, hd⟩
    have hend : Next endsNumber [] := fun _ h => nomatch h
    have hd : v.depth ≤ maxDepth := hd
    obtain ⟨a, ha, h⟩ := readValue_complete hv hd hend
    rw [List.append_nil, List.append_nil] at h
    exact ⟨a, h, skipBlanks_of_blanks ha⟩

end SchemaInference.Document
