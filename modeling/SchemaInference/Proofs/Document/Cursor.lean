/-
The reader on a cursor reads what the reader of texts reads (`parse_eq`): wherever a character
starts and however many containers are open, it ends as `readValue` does with the room that is left
(`follows_readValue`). So it comes to an end, which is never a breach, and where it has a value it
has moved on to another such place, with as many containers open as before
(`readers_keep_discipline`).
-/
import SchemaInference.Proofs.Document.Follows

namespace SchemaInference.Document

open Cursor

variable {α β : Type} {text : String} {d d' : Nat} {s : List Char}

/-! ## Ends put together -/

theorem mapItem_mapItem {γ : Type} (g : β → γ) (f : α → β) (x : Except Stop (α × List Char)) :
    mapItem g (mapItem f x) = mapItem (fun a => g (f a)) x := by
  rcases x with e | ⟨a, rest⟩ <;> rfl

theorem mapItem_nil_append (x : Except Stop (List α × List Char)) : mapItem ([] ++ ·) x = x := by
  rcases x with e | ⟨a, rest⟩ <;> rfl

theorem mapItem_andThen {γ : Type} (h : β → γ) (x : Except Stop (α × List Char))
    (f : α → List Char → Except Stop (β × List Char)) :
    mapItem h (andThen x f) = andThen x fun a rest => mapItem h (f a rest) := by
  rcases x with e | ⟨a, rest⟩ <;> rfl

theorem andThen_andThen {γ : Type} (x : Except Stop (α × List Char))
    (f : α → List Char → Except Stop (β × List Char))
    (g : β → List Char → Except Stop (γ × List Char)) :
    andThen (andThen x f) g = andThen x fun a rest => andThen (f a rest) g := by
  rcases x with e | ⟨a, rest⟩ <;> rfl

theorem andThen_ite {p : Prop} [Decidable p] (x y : Except Stop (α × List Char))
    (f : α → List Char → Except Stop (β × List Char)) :
    andThen (if p then x else y) f = if p then andThen x f else andThen y f :=
  apply_ite (andThen · f) p x y

theorem mapItem_atNext (h : α → β) (f : Char → List Char → Except Stop (α × List Char))
    (s : List Char) : mapItem h (atNext f s) = atNext (fun c rest => mapItem h (f c rest)) s := by
  unfold atNext
  cases Document.skipBlanks s <;> rfl

theorem andThen_atNext (f : Char → List Char → Except Stop (α × List Char))
    (g : α → List Char → Except Stop (β × List Char)) (s : List Char) :
    andThen (atNext f s) g = atNext (fun c rest => andThen (f c rest) g) s := by
  unfold atNext
  cases Document.skipBlanks s <;> rfl

theorem atNext_skipBlanks (f : Char → List Char → Except Stop (α × List Char)) (s : List Char) :
    atNext f (Document.skipBlanks s) = atNext f s := by
  obtain ⟨b, hb, hs⟩ := skipBlanks_eq s
  have hidem := skipBlanks_append hb (Document.skipBlanks s)
  rw [← hs] at hidem
  unfold atNext
  rw [← hidem]

/-! ## Containers -/

theorem follows_enter (text : String) (d : Nat) (s : List Char) :
    Follows text d (d + 1) (fun _ => enter) s
      (if maxDepth < d + 1 then .error ⟨.tooDeep, s⟩ else .ok ((), s)) :=
  .step (.of_run fun _ => rfl)
    (.step .get (.ite Iff.rfl (fun _ => .stop .tooDeep) fun _ => .pure ()))

/-- Where no more containers may be open, what comes behind the bracket is not reached. -/
theorem follows_tooDeep (hd : maxDepth ≤ d) {f : Nat → Unit → Steps α} :
    Follows text d d' (fun n => enter >>= f n) s (.error ⟨.tooDeep, s⟩) := by
  have henter := follows_enter text d s
  rw [if_pos (Nat.lt_succ_of_le hd)] at henter
  exact .bind_error henter.of_error

theorem follows_leave : Follows text (d + 1) d (fun _ => leave) s (.ok ((), s)) :=
  .of_run fun _ => rfl

/-- What comes behind an item. -/
theorem follows_goesOn {closer : Char} (hcloser : closer.toNat < 128) {f : Nat → Bool → Steps α}
    {x y : List Char → Except Stop (α × List Char)}
    (hon : ∀ rest, rest.length < s.length →
      Follows text d d' (fun n => f n true) rest (x rest))
    (hend : ∀ rest, Follows text d d' (fun n => f n false) rest (y rest)) :
    Follows text d d' (fun n => do f n (← goesOn text closer n)) s (atNext (fun c rest =>
      if c = ',' then x rest
      else if c = closer then y rest
      else .error ⟨.missingSeparator closer, c :: rest⟩) s) := by
  unfold goesOn
  simp only [bind_assoc]
  refine follows_atNext (.bind_error (.stop _)) fun c rest hnext => ?_
  refine follows_ite_bind (by decide) (fun hcomma => ?_) fun _ =>
    follows_ite_bind hcloser (fun hc => ?_) fun _ => .bind_error (.stop _)
  · rw [hcomma]
    exact .step (.step (follows_advance (u := [',']) rfl) (.pure true))
      (hon rest (length_lt_of_skipBlanks hnext))
  · have hone : 1 = byteLength [c] := by rw [hc, byteLength, utf8Size_of_lt hcloser, byteLength]
    exact .step (.step (follows_advance (u := [c]) hone) (.pure false)) (hend rest)

/-- The loop over items, each of which is followed by a comma or by the closing character. -/
theorem follows_items {closer : Char} (hcloser : closer.toNat < 128) {read : Reader α}
    {item : Nat → Steps α} (hitem : ∀ s, Follows text d d item s (ending (read s)))
    (loop : Nat → List α → Steps (List α)) (hzero : ∀ known, loop 0 known = unfinished)
    (hsucc : ∀ known n, loop (n + 1) known = do
      let x ← item n
      if ← goesOn text closer n then loop n (known ++ [x]) else return known ++ [x])
    (known : List α) (s : List Char) :
    Follows text d d (fun n => loop n known) s
      (mapItem (known ++ ·) (ending (readItems closer read s))) := by
  induction hn : s.length using Nat.strongRecOn generalizing known s with
  | ind n ih =>
    refine .round (hzero known) (hsucc known) ?_
    rw [ending_readItems, mapItem_andThen]
    refine (hitem s).bind fun x left hx => ?_
    have hleft := length_lt_of_ending hx
    simp only [mapItem_atNext, apply_ite (mapItem _), mapItem_mapItem, mapItem_ok, mapItem_error]
    refine follows_goesOn hcloser (fun rest hrest => ?_) fun rest => .pure _
    refine (ih _ (by omega) (known ++ [x]) rest rfl).of_eq ?_
    simp only [List.append_assoc, List.singleton_append]

/-- A container: one more is open inside it, and no more afterwards. -/
theorem follows_container {opener closer : Char} (hopener : opener.utf8Size = 1)
    (hcloser : closer.toNat < 128) {read : Reader α}
    (hread : ∀ s, ending (read (Document.skipBlanks s)) = ending (read s))
    {items : Nat → Steps (List α)}
    (hitems : ∀ s, Follows text (d + 1) (d + 1) items s (ending (readItems closer read s)))
    (hd : d < maxDepth) (wrap : List α → Value) :
    Follows text d d (fun n => do
      enter
      advance 1
      Cursor.skipBlanks text n
      if ← pass text (· == closer.toUInt8) then
        leave
        return wrap []
      else
        let xs ← items n
        leave
        return wrap xs) (opener :: s) (mapItem wrap (ending (readContents closer read s))) := by
  have hskip : ending (readItems closer read (Document.skipBlanks s)) =
      ending (readItems closer read s) := by
    rw [ending_readItems, hread, ← ending_readItems]
  have hmore : Follows text (d + 1) d (fun n => do
      let xs ← items n
      leave
      return wrap xs) (Document.skipBlanks s)
      (mapItem wrap (ending (readItems closer read s))) := by
    rw [← hskip, mapItem_eq_andThen]
    exact (hitems _).bind fun xs _ _ => .step follows_leave (.pure (wrap xs))
  have henter := follows_enter text d (opener :: s)
  rw [if_neg (Nat.not_lt.2 hd)] at henter
  refine .step henter (.step (follows_advance (u := [opener]) hopener.symm) ?_)
  refine .step follows_skipBlanks ?_
  rw [ending_readContents]
  rcases hnext : Document.skipBlanks s with _ | ⟨c, rest⟩
  · rw [hnext] at hmore
    exact .step (follows_pass_next (.beq hcloser) nofun) hmore
  · rw [hnext] at hmore
    dsimp only
    by_cases hc : c = closer
    · rw [if_pos hc]
      exact .step (follows_pass_cons (.beq hcloser) (beq_iff_eq.2 hc))
        (.step follows_leave (.pure (wrap [])))
    · rw [if_neg hc]
      exact .step (follows_pass_next (.beq hcloser) (next_cons (beq_false_of_ne hc))) hmore

/-! ## Members -/

/-- The end of the name of a member, which is behind its colon. -/
def endingName : List Char → Except Stop (String × List Char) :=
  atNext fun c t =>
    if c = '"' then
      andThen (scanQuoted t) fun name => atNext fun c v =>
        if c = ':' then .ok (String.ofList name, v) else .error ⟨.missingColon, c :: v⟩
    else .error ⟨.expectedMemberName, c :: t⟩

theorem follows_readName : Follows text d d (readName text) s (endingName s) := by
  refine follows_demand (by decide) fun t => ?_
  refine follows_readString.bind_map fun name u _ => ?_
  exact follows_demand (by decide) fun v => .step (follows_advance (u := [':']) rfl) (.pure _)

theorem ending_readMember_eq (read : Reader Value) (s : List Char) :
    ending (readMember read s) =
      andThen (endingName s) fun name v => mapItem (name, ·) (ending (read v)) := by
  rw [ending_readMember]
  unfold endingName readNamed
  simp only [andThen_atNext, andThen_ite, andThen_andThen, andThen_ok, andThen_error]

theorem follows_member {read : Reader Value} {value : Nat → Steps Value}
    (hvalue : ∀ s, Follows text d d value s (ending (read s))) (s : List Char) :
    Follows text d d (fun n => do
      let name ← readName text n
      let v ← value n
      return (name, v)) s (ending (readMember read s)) := by
  rw [ending_readMember_eq]
  exact follows_readName.bind fun name v _ => (hvalue v).map (name, ·)

/-! ## Values -/

section Values

variable {room : Nat}

theorem ending_readValue_skipBlanks (room : Nat) (s : List Char) :
    ending (Document.readValue room (Document.skipBlanks s)) =
      ending (Document.readValue room s) := by
  rw [ending_readValue, ending_readValue, atNext_skipBlanks]

theorem ending_readMember_skipBlanks (read : Reader Value) (s : List Char) :
    ending (readMember read (Document.skipBlanks s)) = ending (readMember read s) := by
  rw [ending_readMember, ending_readMember, atNext_skipBlanks]

theorem ending_readValue_bracket (room : Nat) (s : List Char) :
    ending (Document.readValue room ('[' :: s)) =
      match room with
      | 0 => .error ⟨.tooDeep, '[' :: s⟩
      | room + 1 => mapItem .array (ending (readContents ']' (Document.readValue room) s)) := by
  rw [ending_readValue, atNext_of_cons (skipBlanks_cons rfl s)]
  exact (if_neg (by decide)).trans (if_pos rfl)

theorem ending_readValue_brace (room : Nat) (s : List Char) :
    ending (Document.readValue room ('{' :: s)) =
      match room with
      | 0 => .error ⟨.tooDeep, '{' :: s⟩
      | room + 1 =>
        mapItem .object (ending (readContents '}' (readMember (Document.readValue room)) s)) := by
  rw [ending_readValue, atNext_of_cons (skipBlanks_cons rfl s)]
  exact if_pos rfl

section Brackets

variable (hinner : ∀ inner, room = inner + 1 → ∀ s,
  Follows text (d + 1) (d + 1) (Cursor.readValue text) s (ending (Document.readValue inner s)))

include hinner

theorem follows_readArray (h : d + room = maxDepth) (s : List Char) :
    Follows text d d (readArray text) ('[' :: s)
      (ending (Document.readValue room ('[' :: s))) := by
  rw [ending_readValue_bracket]
  refine .round (by rw [readArray]) (fun n => by rw [readArray]) ?_
  cases room with
  | zero => exact follows_tooDeep (by omega)
  | succ inner =>
    have hcloser : ']'.toNat < 128 := by decide
    refine follows_container rfl hcloser (ending_readValue_skipBlanks inner) (fun s => ?_)
      (by omega) _
    have hitems := follows_items hcloser (hinner inner rfl) (Cursor.readItems text)
      (fun known => by rw [Cursor.readItems]) (fun known n => by rw [Cursor.readItems]) [] s
    rwa [mapItem_nil_append] at hitems

theorem follows_readObject (h : d + room = maxDepth) (s : List Char) :
    Follows text d d (readObject text) ('{' :: s)
      (ending (Document.readValue room ('{' :: s))) := by
  rw [ending_readValue_brace]
  refine .round (by rw [readObject]) (fun n => by rw [readObject]) ?_
  cases room with
  | zero => exact follows_tooDeep (by omega)
  | succ inner =>
    have hcloser : '}'.toNat < 128 := by decide
    refine follows_container rfl hcloser (ending_readMember_skipBlanks _) (fun s => ?_)
      (by omega) _
    have hitems := follows_items hcloser (follows_member (hinner inner rfl)) (readMembers text)
      (fun known => by rw [readMembers])
      (fun known n => by rw [readMembers]; simp only [bind_assoc, pure_bind]) [] s
    rwa [mapItem_nil_append] at hitems

end Brackets

/-- Every container that is open takes one level of room from the reader of texts. -/
theorem follows_readValue (h : d + room = maxDepth) (s : List Char) :
    Follows text d d (Cursor.readValue text) s (ending (Document.readValue room s)) := by
  induction room using Nat.strongRecOn generalizing d s with
  | ind room ih =>
    have hinner : ∀ inner, room = inner + 1 → ∀ s, Follows text (d + 1) (d + 1)
        (Cursor.readValue text) s (ending (Document.readValue inner s)) :=
      fun inner hroom => ih inner (by omega) (by omega)
    rw [ending_readValue]
    refine .round (by rw [Cursor.readValue]) (fun n => by rw [Cursor.readValue]) ?_
    refine follows_atNext follows_unexpected fun c rest _ => ?_
    have hnumber := ((Tells.beq (show '-'.toNat < 128 by decide)).or tells_digit).first c
    dsimp only
    refine follows_ite (by decide) (fun hc => ?brace) fun _ =>
      follows_ite (by decide) (fun hc => ?bracket) fun _ =>
      follows_ite (by decide) (fun hc => ?quote) fun _ =>
      follows_ite (by decide) (fun _ => follows_readWord .true) fun _ =>
      follows_ite (by decide) (fun _ => follows_readWord .false) fun _ =>
      follows_ite (by decide) (fun _ => follows_readWord .null) fun _ =>
      .ite (Bool.eq_iff_iff.1 hnumber) (fun _ => follows_readNumber) fun _ => follows_unexpected
    case brace =>
      subst hc
      exact (follows_readObject hinner h rest).of_eq (ending_readValue_brace room rest)
    case bracket =>
      subst hc
      exact (follows_readArray hinner h rest).of_eq (ending_readValue_bracket room rest)
    case quote =>
      subst hc
      rw [ending_readString]
      exact (follows_readString.map Value.string).of_eq (mapItem_mapItem ..)

end Values

/-! ## Documents -/

theorem placeOf_nil (text : String) : placeOf text [] = (bytes text).length := by
  rw [bytes_eq, length_utf8]
  rfl

theorem follows_readDocument (text : String) :
    Follows text 0 0 (Cursor.readDocument text) text.toList (endingDocument text.toList) := by
  refine (follows_readValue (Nat.zero_add maxDepth) text.toList).bind fun v left _ =>
    .step follows_skipBlanks ?_
  refine .of_suffix fun hs => .step .get ?_
  generalize Document.skipBlanks left = behind at hs ⊢
  rcases behind with _ | ⟨c, rest⟩
  · have hend : ¬ (before text [] 0).place < (bytes text).length := (placeOf_nil text).not_lt
    rw [if_neg hend]
    exact .pure v
  · have hlt : (before text (c :: rest) 0).place < (bytes text).length := by
      have hend := placeOf_append (u := c :: rest) (s := []) (by rwa [List.append_nil])
      have hpos := byteLength_pos (List.cons_ne_nil c rest)
      rw [placeOf_nil, List.append_nil] at hend
      dsimp only [before]
      omega
    rw [if_pos hlt]
    exact .bind_error (.stop _)

/-- The reader on a cursor comes to an end, which is the end of the reader of texts. -/
theorem parse_eq (text : String) :
    ∃ k, ∀ n, Cursor.parse text n =
      if n < k then none else some ((Document.parse text).mapError .fault) := by
  obtain ⟨k, hends⟩ := (follows_readDocument text List.suffix_rfl).1
  have hstart : before text text.toList 0 = ⟨0, 0⟩ := by rw [before, placeOf, Nat.sub_self]
  refine ⟨k, fun n => ?_⟩
  have hrun := hends n
  rw [hstart] at hrun
  unfold Cursor.parse Document.parse
  rw [StateT.run'_eq, readDocument_eq]
  show (Prod.fst <$> (Cursor.readDocument text n).run ⟨0, 0⟩).run = _
  rw [ExceptT.run_map, hrun]
  split_ifs
  · rfl
  · rcases endingDocument text.toList with e | ⟨v, rest⟩ <;> rfl

example : Cursor.parse "[\"é\" €]" 4 = none ∧
    Cursor.parse "[\"é\" €]" 5 = some (.error (.fault ⟨.missingSeparator ']', 6⟩)) := ⟨rfl, rfl⟩

/-! ## Discipline -/

/-- An end of steps from the cursor `c` on which is not a breach. If it is a result, the steps have
moved on within the text, to where a character starts or the text ends, with as many containers open
as before. -/
structure Disciplined (text : String) (c : Cursor) (r : Except Failure (α × Cursor)) : Prop where
  safe : ∀ b, r ≠ .error (.breach b)
  moves : ∀ a c', r = .ok (a, c') →
    c.place < c'.place ∧ c'.place ≤ text.utf8ByteSize ∧
      String.Pos.Raw.IsValid text ⟨c'.place⟩ ∧ c'.depth = c.depth

/-- The steps come to an end, and to one that is disciplined. -/
def KeepsDiscipline (text : String) (m : Nat → Steps α) (c : Cursor) : Prop :=
  ∃ r, ComesTo m c r ∧ Disciplined text c r

/-- A character starts just at the places before an end of the text, or the text ends there. -/
theorem isValid_iff_placeOf {place : Nat} :
    String.Pos.Raw.IsValid text ⟨place⟩ ↔ ∃ s, s <:+ text.toList ∧ place = placeOf text s := by
  rw [String.Pos.Raw.isValid_iff_exists_append]
  constructor
  · rintro ⟨pre, s, htext, hplace⟩
    have hlist : pre.toList ++ s.toList = text.toList := by rw [htext, String.toList_append]
    refine ⟨s.toList, ⟨pre.toList, hlist⟩, ?_⟩
    rw [placeOf_eq hlist, byteLength_eq, ← String.utf8ByteSize_ofList, String.ofList_toList]
    exact congrArg String.Pos.Raw.byteIdx hplace
  · rintro ⟨s, ⟨pre, hlist⟩, rfl⟩
    refine ⟨String.ofList pre, String.ofList s, eq_append_of_toList hlist.symm, ?_⟩
    rw [placeOf_eq hlist, byteLength_eq, String.rawEndPos, String.utf8ByteSize_ofList]

/-- The discipline of a reader that takes something. -/
theorem disciplined_told {x : Except Stop (α × List Char)} (hs : s <:+ text.toList)
    (hx : ∀ a rest, x = .ok (a, rest) → rest.length < s.length ∧ rest <:+ text.toList) :
    Disciplined text (before text s d) (told text d x) := by
  rcases x with e | ⟨a, rest⟩
  · exact ⟨nofun, nofun⟩
  obtain ⟨hlt, hsuffix⟩ := hx a rest rfl
  refine ⟨nofun, ?_⟩
  rintro _ _ ⟨⟩
  refine ⟨?_, placeOf_le rest, isValid_iff_placeOf.2 ⟨rest, hsuffix, rfl⟩, rfl⟩
  obtain ⟨u, rfl⟩ := List.suffix_of_suffix_length_le hsuffix hs hlt.le
  have hu : u ≠ [] := by
    rintro rfl
    exact hlt.ne rfl
  have hmoved := placeOf_append hs
  have hpos := byteLength_pos hu
  dsimp only [before]
  omega

theorem Follows.keepsDiscipline {m : Nat → Steps α} {x : Except Stop (α × List Char)}
    (hm : Follows text d d m s x) (hs : s <:+ text.toList)
    (hx : ∀ a rest, x = .ok (a, rest) → rest.length < s.length) :
    KeepsDiscipline text m (before text s d) :=
  ⟨_, (hm hs).1, disciplined_told hs fun a rest h => ⟨hx a rest h, (hm hs).2 a rest h⟩⟩

theorem exists_eq_cons {a : Char} (ha : a.toNat < 128) (hs : s <:+ text.toList)
    (h : (bytes text)[placeOf text s]? = some a.toUInt8) : ∃ t, s = a :: t := by
  rw [getElem?_bytes hs] at h
  obtain ⟨c, hc, hbyte⟩ := Option.map_eq_some_iff.1 h
  rw [(firstByte_eq_iff ha).1 hbyte] at hc
  exact List.head?_eq_some_iff.1 hc

/-- The readers keep to the discipline wherever a character starts or the text ends and no more
containers are open than may be; those of strings and containers do so where they are called, which
is in front of a quote or an opening bracket. -/
theorem readers_keep_discipline {c : Cursor} (hplace : String.Pos.Raw.IsValid text ⟨c.place⟩)
    (hdepth : c.depth ≤ maxDepth) :
    KeepsDiscipline text (Cursor.readValue text) c ∧
      KeepsDiscipline text (Cursor.readNumber text) c ∧
      ((bytes text)[c.place]? = some '['.toUInt8 → KeepsDiscipline text (readArray text) c) ∧
      ((bytes text)[c.place]? = some '{'.toUInt8 → KeepsDiscipline text (readObject text) c) ∧
      ((bytes text)[c.place]? = some '"'.toUInt8 →
        KeepsDiscipline text (fun _ => Cursor.readString text) c) := by
  obtain ⟨place, d⟩ := c
  obtain ⟨s, hs, rfl⟩ := isValid_iff_placeOf.1 hplace
  obtain ⟨room, hroom⟩ := Nat.exists_eq_add_of_le hdepth
  have hinner : ∀ inner, room = inner + 1 → ∀ s, Follows text (d + 1) (d + 1)
      (Cursor.readValue text) s (ending (Document.readValue inner s)) :=
    fun inner h => follows_readValue (by dsimp only at hroom; omega)
  refine ⟨?value, ?number, fun h => ?array, fun h => ?object, fun h => ?string⟩
  case value =>
    exact (follows_readValue hroom.symm s).keepsDiscipline hs fun _ _ => length_lt_of_ending
  case number =>
    exact follows_readNumber.keepsDiscipline hs fun _ _ => length_lt_of_ending
  case array =>
    obtain ⟨t, rfl⟩ := exists_eq_cons (by decide) hs h
    exact (follows_readArray hinner hroom.symm t).keepsDiscipline hs fun _ _ => length_lt_of_ending
  case object =>
    obtain ⟨t, rfl⟩ := exists_eq_cons (by decide) hs h
    exact (follows_readObject hinner hroom.symm t).keepsDiscipline hs fun _ _ => length_lt_of_ending
  case string =>
    obtain ⟨t, rfl⟩ := exists_eq_cons (by decide) hs h
    refine follows_readString.keepsDiscipline hs fun a rest hx => ?_
    rcases hquoted : scanQuoted t with e | ⟨raw, left⟩
    · rw [hquoted] at hx
      cases hx
    · rw [hquoted] at hx
      cases hx
      obtain ⟨rfl, -⟩ := scanQuoted_eq_ok hquoted
      simp only [List.length_cons, List.length_append]
      omega

theorem readers_keep_discipline_within :
    String.Pos.Raw.IsValid "[\x7b\"é\": 1\x7d]" ⟨1⟩ ∧ 1 ≤ maxDepth ∧
      (bytes "[\x7b\"é\": 1\x7d]")[1]? = some '{'.toUInt8 ∧
      KeepsDiscipline "[\x7b\"é\": 1\x7d]" (readObject "[\x7b\"é\": 1\x7d]") ⟨1, 1⟩ ∧
      ((readObject "[\x7b\"é\": 1\x7d]" 5).run ⟨1, 1⟩).run =
        some (.ok (.object [("é", .integer "1")], ⟨10, 1⟩)) :=
  have hplace : String.Pos.Raw.IsValid "[\x7b\"é\": 1\x7d]" ⟨1⟩ := by decide +kernel
  have hdepth : 1 ≤ maxDepth := by decide
  have hbyte : (bytes "[\x7b\"é\": 1\x7d]")[1]? = some '{'.toUInt8 := by decide +kernel
  ⟨hplace, hdepth, hbyte, (readers_keep_discipline (c := ⟨1, 1⟩) hplace hdepth).2.2.2.1 hbyte, rfl⟩

end SchemaInference.Document
