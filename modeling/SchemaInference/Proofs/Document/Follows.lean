/-
The steps on a cursor against readers of the text that is left. Steps come to an end if that is what
any number of rounds comes to from some number on, and fewer leave them unfinished (`ComesTo`). They
follow a reader (`Follows`) if they end as the reader does, from the place before the text that is
left to the place before what the reader leaves, or with a fault where it stops. There is a rule for
each single step and one for steps one after the other, and the tokens follow from these.
-/
import SchemaInference.Proofs.Document.Bytes
import SchemaInference.Proofs.Document.Viable

namespace SchemaInference.Document

open Cursor

/-! ## Places -/

/-- Where `s` starts in the bytes of a text that ends with it. -/
def placeOf (text : String) (s : List Char) : Nat := byteLength text.toList - byteLength s

section Places

variable {text : String} {pre u s t : List Char}

theorem byteLength_append (s t : List Char) :
    byteLength (s ++ t) = byteLength s + byteLength t := by
  simp only [byteLength_eq, String.utf8Len_append]

theorem byteLength_pos (h : s ≠ []) : 0 < byteLength s := by
  cases s with
  | nil => exact absurd rfl h
  | cons c s =>
    have := c.utf8Size_pos
    rw [byteLength]
    omega

theorem placeOf_eq (h : pre ++ s = text.toList) : placeOf text s = byteLength pre := by
  rw [placeOf, ← h, byteLength_append]
  omega

theorem placeOf_append (h : u ++ s <:+ text.toList) :
    placeOf text s = placeOf text (u ++ s) + byteLength u := by
  obtain ⟨pre, h⟩ := h
  rw [placeOf_eq h, placeOf_eq ((List.append_assoc ..).trans h), byteLength_append]

theorem placeOf_le (s : List Char) : placeOf text s ≤ (bytes text).length := by
  rw [bytes_eq, length_utf8]
  exact Nat.sub_le ..

theorem drop_bytes (h : s <:+ text.toList) : (bytes text).drop (placeOf text s) = utf8 s := by
  obtain ⟨pre, h⟩ := h
  rw [bytes_eq, placeOf_eq h, ← h, utf8_append, ← length_utf8]
  exact List.drop_left

theorem getElem?_bytes (h : s <:+ text.toList) :
    (bytes text)[placeOf text s]? = s.head?.map firstByte := by
  rw [← head?_utf8, ← drop_bytes h, List.head?_drop]

theorem pos?_eq (p : text.Pos) : text.pos? p.offset = some p := by
  unfold String.pos? String.Slice.pos?
  rw [dif_pos (by simpa using p.isValid)]
  rfl

/-- A character starts at the place, or the text ends there. -/
theorem exists_splits (h : pre ++ s = text.toList) :
    ∃ p : text.Pos, p.Splits (String.ofList pre) (String.ofList s) ∧
      text.pos? ⟨placeOf text s⟩ = some p := by
  have hsplits := String.Pos.splits_ofEqAppend (eq_append_of_toList h.symm)
  have hplace : (String.ofList pre).rawEndPos = ⟨placeOf text s⟩ := by
    rw [placeOf_eq h, byteLength_eq, String.rawEndPos, String.utf8ByteSize_ofList]
  refine ⟨_, hsplits, ?_⟩
  rw [← hplace, ← hsplits.offset_eq_rawEndPos]
  exact pos?_eq _

theorem extract_of_splits {p q : text.Pos} {before between behind : String}
    (hp : p.Splits before (between ++ behind)) (hq : q.Splits (before ++ between) behind) :
    text.extract p q = between := by
  have hbytes : text.toByteArray =
      before.toByteArray ++ (between.toByteArray ++ behind.toByteArray) := by
    rw [← String.toByteArray_append, ← String.toByteArray_append, ← hp.eq_append]
  rw [← String.toByteArray_inj, String.toByteArray_extract, hp.offset_eq_rawEndPos,
    hq.offset_eq_rawEndPos, String.byteIdx_rawEndPos, String.byteIdx_rawEndPos,
    String.utf8ByteSize_append, hbytes, ← String.size_toByteArray, ← String.size_toByteArray]
  exact (@ByteArray.extract_append_size_add _ _ 0 _).trans (ByteArray.extract_append_eq_left rfl)

end Places

/-! ## Steps and readers -/

section Follows

variable {α β : Type} {text : String} {d d' d'' : Nat} {s : List Char}

theorem mapItem_eq_andThen (h : α → β) (x : Except Stop (α × List Char)) :
    mapItem h x = andThen x fun a rest => .ok (h a, rest) := by
  rcases x with e | ⟨a, rest⟩ <;> rfl

/-- From `c` on, the steps end in `r` if they have enough rounds, and are unfinished otherwise. -/
def ComesTo (m : Nat → Steps α) (c : Cursor) (r : Except Failure (α × Cursor)) : Prop :=
  ∃ k, ∀ n, ((m n).run c).run = if n < k then none else some r

/-- The cursor in front of `s`, with `d` containers open. -/
def before (text : String) (s : List Char) (d : Nat) : Cursor := ⟨placeOf text s, d⟩

/-- The end of a reader, told of a cursor. -/
def told (text : String) (d : Nat) : Except Stop (α × List Char) → Except Failure (α × Cursor)
  | .ok (a, rest) => .ok (a, before text rest d)
  | .error e => .error (.fault (e.within text.toList))

/-- In front of the end `s` of the text and with `d` containers open, the steps end as the reader
does, and in front of what it leaves with `d'` containers open. -/
def Follows (text : String) (d d' : Nat) (m : Nat → Steps α) (s : List Char)
    (x : Except Stop (α × List Char)) : Prop :=
  s <:+ text.toList → ComesTo m (before text s d) (told text d' x) ∧
    ∀ a rest, x = .ok (a, rest) → rest <:+ text.toList

/-! ### Ends of steps -/

namespace ComesTo

variable {m : Nat → Steps α} {f : Nat → α → Steps β} {c : Cursor}

theorem of_run {m : Steps α} {r : Except Failure (α × Cursor)} (h : (m.run c).run = some r) :
    ComesTo (fun _ => m) c r := ⟨0, fun _ => h⟩

/-- One round is taken by the steps themselves. -/
theorem round {m' : Nat → Steps α} {r : Except Failure (α × Cursor)} (hzero : m 0 = unfinished)
    (hsucc : ∀ n, m (n + 1) = m' n) (h : ComesTo m' c r) : ComesTo m c r := by
  obtain ⟨k, h⟩ := h
  refine ⟨k + 1, fun n => ?_⟩
  cases n with
  | zero =>
    rw [hzero, if_pos (Nat.succ_pos k)]
    rfl
  | succ n => simp only [hsucc, h, Nat.add_lt_add_iff_right]

theorem bind_error {e : Failure} (hm : ComesTo m c (.error e)) :
    ComesTo (fun n => m n >>= f n) c (.error e) := by
  obtain ⟨k, hm⟩ := hm
  refine ⟨k, fun n => ?_⟩
  rw [StateT.run_bind, ExceptT.run_bind, hm]
  split_ifs <;> rfl

/-- Both come to an end with the more of the rounds that they need. -/
theorem bind_ok {a : α} {c' : Cursor} {r : Except Failure (β × Cursor)}
    (hm : ComesTo m c (.ok (a, c'))) (hf : ComesTo (fun n => f n a) c' r) :
    ComesTo (fun n => m n >>= f n) c r := by
  obtain ⟨k, hm⟩ := hm
  obtain ⟨l, hf⟩ := hf
  refine ⟨max k l, fun n => ?_⟩
  rw [StateT.run_bind, ExceptT.run_bind, hm]
  by_cases hk : n < k
  · rw [if_pos hk, if_pos (lt_max_of_lt_left hk)]
    rfl
  · simp only [lt_max_iff, hk, if_false, false_or]
    exact hf n

end ComesTo

/-! ### Rules -/

namespace Follows

variable {m : Nat → Steps α} {f : Nat → α → Steps β}

/-- Where it follows from the text that is left being an end of the text, it does so at all. -/
theorem of_suffix {x : Except Stop (α × List Char)}
    (h : s <:+ text.toList → Follows text d d' m s x) : Follows text d d' m s x :=
  fun hs => h hs hs

theorem of_eq {x y : Except Stop (α × List Char)} (hm : Follows text d d' m s x) (h : x = y) :
    Follows text d d' m s y := h ▸ hm

/-- How many containers are open does not matter behind a stop. -/
theorem of_error {e : Stop} (hm : Follows text d d' m s (.error e)) :
    Follows text d d'' m s (.error e) := hm

/-- The cursor moves over `u`. -/
theorem of_move {m : Steps α} {u : List Char} {a : α}
    (h : u ++ s <:+ text.toList →
      (m.run (before text (u ++ s) d)).run = some (.ok (a, before text s d'))) :
    Follows text d d' (fun _ => m) (u ++ s) (.ok (a, s)) := by
  refine fun hs => ⟨.of_run (h hs), ?_⟩
  rintro _ _ ⟨⟩
  exact (List.suffix_append u s).trans hs

/-- The cursor stays where it is. -/
theorem of_run {m : Steps α} {a : α}
    (h : s <:+ text.toList →
      (m.run (before text s d)).run = some (.ok (a, before text s d'))) :
    Follows text d d' (fun _ => m) s (.ok (a, s)) :=
  of_move (u := []) h

theorem pure (a : α) : Follows text d d (fun _ => Pure.pure a) s (.ok (a, s)) :=
  of_run fun _ => rfl

theorem get : Follows text d d (fun _ => MonadState.get) s (.ok (before text s d, s)) :=
  of_run fun _ => rfl

theorem stop (cause : Cause) :
    Follows text d d' (fun _ => Cursor.stop (α := α) cause) s (.error ⟨cause, s⟩) :=
  fun _ => ⟨.of_run rfl, nofun⟩

theorem round {m' : Nat → Steps α} {x : Except Stop (α × List Char)} (hzero : m 0 = unfinished)
    (hsucc : ∀ n, m (n + 1) = m' n) (h : Follows text d d' m' s x) : Follows text d d' m s x :=
  fun hs => ⟨.round hzero hsucc (h hs).1, (h hs).2⟩

/-- Steps one after the other, the first of which do something else with the item that is read. -/
theorem bind_map {γ : Type} {x : Except Stop (γ × List Char)} {h : γ → α}
    {g : γ → List Char → Except Stop (β × List Char)} (hm : Follows text d d' m s (mapItem h x))
    (hf : ∀ a rest, x = .ok (a, rest) →
      Follows text d' d'' (fun n => f n (h a)) rest (g a rest)) :
    Follows text d d'' (fun n => m n >>= f n) s (andThen x g) := by
  intro hs
  obtain ⟨hends, hrest⟩ := hm hs
  rcases x with e | ⟨a, rest⟩
  · exact ⟨hends.bind_error, nofun⟩
  · obtain ⟨hends', hrest'⟩ := hf a rest rfl (hrest _ _ rfl)
    exact ⟨hends.bind_ok hends', hrest'⟩

theorem bind {x : Except Stop (α × List Char)} {g : α → List Char → Except Stop (β × List Char)}
    (hm : Follows text d d' m s x)
    (hf : ∀ a rest, x = .ok (a, rest) →
      Follows text d' d'' (fun n => f n a) rest (g a rest)) :
    Follows text d d'' (fun n => m n >>= f n) s (andThen x g) := by
  refine bind_map (h := id) ?_ hf
  rcases x with e | ⟨a, rest⟩ <;> exact hm

/-- What comes behind a stop is not reached. -/
theorem bind_error {e : Stop} (hm : Follows text d d m s (.error e)) :
    Follows text d d' (fun n => m n >>= f n) s (.error e) :=
  fun hs => ⟨(hm hs).1.bind_error, nofun⟩

/-- Steps behind some that come to a result. -/
theorem step {a : α} {rest : List Char} {x : Except Stop (β × List Char)}
    (hm : Follows text d d' m s (.ok (a, rest)))
    (hf : Follows text d' d'' (fun n => f n a) rest x) :
    Follows text d d'' (fun n => m n >>= f n) s x := by
  refine bind (g := fun _ _ => x) hm ?_
  rintro _ _ ⟨⟩
  exact hf

theorem ite {p q : Prop} [Decidable p] [Decidable q] {m' : Nat → Steps α}
    {x y : Except Stop (α × List Char)} (hpq : p ↔ q) (hm : q → Follows text d d' m s x)
    (hm' : ¬ q → Follows text d d' m' s y) :
    Follows text d d' (fun n => if p then m n else m' n) s (if q then x else y) := by
  by_cases hq : q
  · simp only [if_pos (hpq.2 hq), if_pos hq]
    exact hm hq
  · simp only [if_neg (mt hpq.1 hq), if_neg hq]
    exact hm' hq

/-- The item as it is used afterwards. -/
theorem map {x : Except Stop (α × List Char)} (hm : Follows text d d' m s x) (h : α → β) :
    Follows text d d' (fun n => do return h (← m n)) s (mapItem h x) := by
  rw [mapItem_eq_andThen]
  exact hm.bind fun a _ _ => .pure (h a)

end Follows

/-! ## Single steps -/

theorem follows_peek :
    Follows text d d (fun _ => peek text) s (.ok (s.head?.map firstByte, s)) := by
  refine .of_run fun hs => ?_
  rw [← getElem?_bytes hs]
  rfl

theorem follows_advance {u : List Char} {k : Nat} (hk : k = byteLength u) :
    Follows text d d (fun _ => advance k) (u ++ s) (.ok ((), s)) := by
  refine .of_move fun hs => ?_
  rw [before, before, placeOf_append hs, hk]
  rfl

theorem follows_unexpected :
    Follows text d d' (fun _ => unexpected (α := α) text) s (.error (.unexpected s)) := by
  refine .of_suffix fun hs => ?_
  obtain ⟨p, hp, hpos⟩ := exists_splits hs.choose_spec
  refine .step .get ?_
  dsimp only [before]
  rw [hpos]
  dsimp only
  cases s with
  | nil =>
    rw [dif_pos (hp.eq_endPos_iff.2 rfl)]
    exact .stop _
  | cons c s =>
    have hend : p ≠ text.endPos := fun h => by simpa using hp.eq_endPos_iff.1 h
    obtain ⟨more, hc⟩ := hp.exists_eq_singleton_append hend
    have hget : p.get hend = c := by
      have hlist := congrArg String.toList hc
      rw [String.toList_ofList, String.toList_append, String.toList_singleton] at hlist
      exact (List.cons.inj hlist).1.symm
    rw [dif_neg hend, hget]
    exact .stop _

section Bytes

variable {a c : Char} (ha : a.toNat < 128) {m m' : Nat → Steps α}
  {x y : Except Stop (α × List Char)}

include ha

/-- Where the steps go by a byte and the reader goes by the character. -/
theorem follows_ite (hm : c = a → Follows text d d' m s x)
    (hm' : c ≠ a → Follows text d d' m' s y) :
    Follows text d d' (fun n => if firstByte c = a.toUInt8 then m n else m' n) s
      (if c = a then x else y) :=
  .ite (firstByte_eq_iff ha) hm hm'

/-- The same with steps that come behind both. -/
theorem follows_ite_bind {k k' : Nat → Steps β} {f : Nat → β → Steps α}
    (hk : c = a → Follows text d d' (fun n => k n >>= f n) s x)
    (hk' : c ≠ a → Follows text d d' (fun n => k' n >>= f n) s y) :
    Follows text d d' (fun n => (if firstByte c = a.toUInt8 then k n else k' n) >>= f n) s
      (if c = a then x else y) := by
  have hite : ∀ n, (if firstByte c = a.toUInt8 then k n else k' n) >>= f n =
      if firstByte c = a.toUInt8 then k n >>= f n else k' n >>= f n :=
    fun n => apply_ite (· >>= f n) _ _ _
  simp only [hite]
  exact follows_ite ha hk hk'

end Bytes

theorem follows_pass_cons {p : UInt8 → Bool} {q : Char → Bool} (h : Tells p q) {c : Char}
    (hc : q c = true) : Follows text d d (fun _ => pass text p) (c :: s) (.ok (true, s)) := by
  refine .step follows_peek ?_
  dsimp only [List.head?_cons, Option.map_some]
  rw [if_pos ((h.first c).trans hc)]
  exact .step (follows_advance (u := [c]) (h.single c hc).symm) (.pure true)

theorem follows_pass_next {p : UInt8 → Bool} {q : Char → Bool} (h : Tells p q)
    (hs : Next (fun c => q c = false) s) :
    Follows text d d (fun _ => pass text p) s (.ok (false, s)) := by
  refine .step follows_peek ?_
  cases s with
  | nil => exact .pure false
  | cons c s =>
    dsimp only [List.head?_cons, Option.map_some]
    rw [h.first, hs c rfl]
    exact .pure false

theorem follows_passAll {p : UInt8 → Bool} {q : Char → Bool} (h : Tells p q) :
    Follows text d d (passAll text p) s (.ok ((), s.dropWhile q)) := by
  induction s with
  | nil =>
    refine .round rfl (fun _ => rfl) ?_
    exact .step (follows_pass_next h nofun) (.pure ())
  | cons c s ih =>
    refine .round rfl (fun _ => rfl) ?_
    rw [List.dropWhile_cons]
    cases hc : q c with
    | false => exact .step (follows_pass_next h (next_cons hc)) (.pure ())
    | true => exact .step (follows_pass_cons h hc) ih

theorem follows_skipBlanks :
    Follows text d d (Cursor.skipBlanks text) s (.ok ((), skipBlanks s)) :=
  follows_passAll tells_blank

/-- Steps that skip blanks and go by the byte behind them. -/
theorem follows_atNext {k : Nat → Option UInt8 → Steps α}
    {f : Char → List Char → Except Stop (α × List Char)}
    (hnil : Follows text d d' (fun n => k n none) [] (.error ⟨.unexpectedEnd, []⟩))
    (hcons : ∀ c rest, skipBlanks s = c :: rest →
      Follows text d d' (fun n => k n (some (firstByte c))) (c :: rest) (f c rest)) :
    Follows text d d' (fun n => do Cursor.skipBlanks text n; k n (← peek text)) s (atNext f s) := by
  refine .step follows_skipBlanks (.step follows_peek ?_)
  rcases hnext : skipBlanks s with _ | ⟨c, rest⟩
  · rw [atNext_of_nil hnext]
    exact hnil
  · rw [atNext_of_cons hnext]
    exact hcons c rest hnext

theorem follows_demand {a : Char} (ha : a.toNat < 128) {cause : Cause} {m : Nat → Steps α}
    {f : List Char → Except Stop (α × List Char)}
    (hm : ∀ rest, Follows text d d' m (a :: rest) (f rest)) :
    Follows text d d' (fun n => do Cursor.skipBlanks text n; demand text a cause; m n) s
      (atNext (fun c rest => if c = a then f rest else .error ⟨cause, c :: rest⟩) s) := by
  unfold demand
  simp only [bind_assoc]
  refine follows_atNext (.bind_error (.stop _)) fun c rest _ => ?_
  refine follows_ite_bind ha (fun hc => ?_) fun _ => .bind_error (.stop cause)
  rw [hc]
  exact .step (.pure ()) (hm rest)

theorem follows_bytesFrom {place : Nat} {t : List Char} (ht : t <:+ text.toList)
    (hplace : place = placeOf text t) :
    Follows text d d (fun _ => bytesFrom text place) s (.ok (utf8 t, s)) := by
  unfold bytesFrom
  rw [hplace, if_pos (placeOf_le t), drop_bytes ht]
  exact .pure _

/-- What is cut out lies between two ends of the text. -/
theorem follows_cut {u v : List Char} (h : u ++ v <:+ text.toList) :
    Follows text d d (fun _ => cut text (placeOf text (u ++ v)) (placeOf text v)) s
      (.ok (String.ofList u, s)) := by
  have hle : placeOf text (u ++ v) ≤ placeOf text v := by
    rw [placeOf_append h]
    exact Nat.le_add_right ..
  obtain ⟨pre, h⟩ := h
  obtain ⟨p, hp, hfirst⟩ := exists_splits h
  obtain ⟨q, hq, hlast⟩ := exists_splits ((List.append_assoc ..).trans h)
  rw [String.ofList_append] at hp hq
  unfold cut
  rw [if_pos ⟨hle, placeOf_le v⟩, hfirst, hlast]
  dsimp only
  rw [extract_of_splits hp hq]
  exact .pure _

/-! ## Tokens -/

theorem bytes_text (w : Word) : bytes w.text = utf8 w.chars := by
  rw [bytes_eq, Word.toList_text]

theorem follows_readWord (w : Word) :
    Follows text d d (fun _ => Cursor.readWord text w) s (ending (readWord w s)) := by
  refine .of_suffix fun hs => ?_
  unfold Cursor.readWord
  rw [ending_readWord, bytes_text, length_utf8]
  refine .step .get (.step (follows_bytesFrom hs rfl) (.ite utf8_prefix_iff ?_ fun _ => .stop _))
  rintro ⟨rest, rfl⟩
  rw [List.drop_left]
  exact .step (follows_advance rfl) (.pure _)

theorem follows_readString {t : List Char} :
    Follows text d d (fun _ => Cursor.readString text) ('"' :: t)
      (mapItem String.ofList (scanQuoted t)) := by
  refine .of_suffix fun hs => ?_
  have hfirst : placeOf text t = placeOf text ('"' :: t) + 1 := placeOf_append (u := ['"']) hs
  unfold Cursor.readString
  refine .step .get ?_
  dsimp only [before]
  rw [← hfirst]
  refine .step (follows_bytesFrom ((List.suffix_cons _ t).trans hs) rfl) ?_
  rw [closingQuote?_utf8]
  unfold scanQuoted
  rcases ht : scanString t with _ | ⟨raw, rest⟩
  · exact .stop _
  · obtain rfl := scanString_eq ht
    have hraw : raw ++ '"' :: rest <:+ text.toList := (List.suffix_cons _ _).trans hs
    have hlast : placeOf text ('"' :: rest) =
        placeOf text (raw ++ '"' :: rest) + byteLength raw := placeOf_append hraw
    have hquoted : '"' :: (raw ++ '"' :: rest) = '"' :: (raw ++ ['"']) ++ rest := by simp
    have hlength : byteLength raw + 2 = byteLength ('"' :: (raw ++ ['"'])) := by
      rw [byteLength, byteLength_append, show byteLength ['"'] = 1 from rfl,
        show '"'.utf8Size = 1 from rfl]
      omega
    rw [hquoted]
    dsimp only [Option.map_some]
    rw [← hlast]
    exact .step (follows_advance hlength) (follows_cut hraw)

theorem follows_readDigits :
    Follows text d d (readDigits text) s (mapItem (fun _ => ()) (scanDigits s)) := by
  refine .of_suffix fun hs => .step .get (.step (follows_passAll tells_digit) (.step .get ?_))
  have hparts := List.takeWhile_append_dropWhile (p := Char.isDigit) (l := s)
  unfold scanDigits
  rcases htake : s.takeWhile Char.isDigit with _ | ⟨c, digits⟩
  · rw [htake, List.nil_append] at hparts
    rw [hparts, if_pos rfl]
    exact .stop _
  · rw [htake] at hparts
    have hmoved : (before text (s.dropWhile Char.isDigit) d).place ≠ (before text s d).place := by
      have hplace := placeOf_append (hparts.symm ▸ hs)
      have hpos := byteLength_pos (List.cons_ne_nil c digits)
      rw [hparts] at hplace
      dsimp only [before]
      omega
    rw [if_neg hmoved]
    exact .pure ()

/-- The test of one character, where the text starts with no such character. -/
theorem next_of_ne {a : Char} (h : ∀ t, s = a :: t → False) :
    Next (fun c => (c == a) = false) s := by
  intro c hc
  refine beq_false_of_ne ?_
  rintro rfl
  obtain ⟨t, rfl⟩ := List.head?_eq_some_iff.1 hc
  exact h t rfl

/-- Digits that go on a part which is not empty. -/
theorem follows_digits {f : List Char → List Char} (hf : ∀ digits, (f digits).isEmpty = false) :
    Follows text d d (fun n => do readDigits text n; return true) s
      (mapItem (!·.isEmpty) ((scanDigits s).map fun (digits, rest) => (f digits, rest))) := by
  refine (follows_readDigits.map fun _ => true).of_eq ?_
  rcases scanDigits s with e | ⟨digits, rest⟩
  · rfl
  · simp [Except.map, hf]

theorem follows_readFraction :
    Follows text d d (readFraction text) s (mapItem (!·.isEmpty) (scanFraction s)) := by
  unfold readFraction scanFraction
  split
  · exact .step (follows_pass_cons (.beq (by decide)) rfl) (follows_digits fun _ => rfl)
  · rename_i hne
    exact .step (follows_pass_next (.beq (by decide)) (next_of_ne hne)) (.pure false)

theorem exists_follows_sign (text : String) (d : Nat) (s : List Char) :
    ∃ b, Follows text d d (fun _ => pass text fun b => b == '+'.toUInt8 || b == '-'.toUInt8) s
      (.ok (b, (scanSign s).2)) := by
  have hsign : Tells (fun b => b == '+'.toUInt8 || b == '-'.toUInt8)
      fun c => c == '+' || c == '-' := (Tells.beq (by decide)).or (.beq (by decide))
  unfold scanSign
  split
  · exact ⟨true, follows_pass_cons hsign rfl⟩
  · exact ⟨true, follows_pass_cons hsign rfl⟩
  · rename_i hplus hminus
    refine ⟨false, follows_pass_next hsign fun c hc => ?_⟩
    exact Bool.or_eq_false_iff.2 ⟨next_of_ne hplus c hc, next_of_ne hminus c hc⟩

theorem exists_follows_minus (text : String) (d : Nat) (s : List Char) :
    ∃ b, Follows text d d (fun _ => pass text (· == '-'.toUInt8)) s (.ok (b, (scanMinus s).2)) := by
  unfold scanMinus
  split
  · exact ⟨true, follows_pass_cons (.beq (by decide)) rfl⟩
  · rename_i hminus
    exact ⟨false, follows_pass_next (.beq (by decide)) (next_of_ne hminus)⟩

theorem follows_readExponent :
    Follows text d d (readExponent text) s (mapItem (!·.isEmpty) (scanExponent s)) := by
  have hmark : Tells (fun b => b == 'e'.toUInt8 || b == 'E'.toUInt8) isExponentMark :=
    (Tells.beq (by decide)).or (.beq (by decide))
  unfold readExponent
  rcases s with _ | ⟨c, s⟩
  · exact .step (follows_pass_next hmark nofun) (.pure false)
  · rw [scanExponent]
    cases hc : isExponentMark c with
    | false => exact .step (follows_pass_next hmark (next_cons hc)) (.pure false)
    | true =>
      obtain ⟨_, hsign⟩ := exists_follows_sign text d s
      exact .step (follows_pass_cons hmark hc) (.step hsign (follows_digits fun _ => rfl))

theorem follows_readNumber :
    Follows text d d (Cursor.readNumber text) s (ending (readNumber s)) := by
  refine .of_suffix fun hs => ?_
  obtain ⟨_, hminus⟩ := exists_follows_minus text d s
  rw [ending_readNumber]
  refine .step .get (.step hminus ?_)
  refine follows_readDigits.bind_map fun digits s₁ hdigits => ?_
  refine follows_readFraction.bind_map fun fraction s₂ hfraction => ?_
  rw [mapItem_eq_andThen]
  refine follows_readExponent.bind_map fun exponent s₃ hexponent => .step .get ?_
  have htext : ((scanMinus s).1 ++ digits ++ (fraction ++ exponent)) ++ s₃ = s := by
    simp only [List.append_assoc]
    rw [← scanExponent_eq hexponent, ← scanFraction_eq hfraction, ← (scanDigits_eq hdigits).1,
      scanMinus_eq]
  have hcut := follows_cut (s := s₃) (d := d) (htext.symm ▸ hs)
  rw [htext] at hcut
  refine .step hcut ?_
  cases fraction <;> cases exponent <;> exact .pure _

end Follows

end SchemaInference.Document
