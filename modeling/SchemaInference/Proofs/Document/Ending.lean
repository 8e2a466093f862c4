/-
How readers end, told without the proofs of progress that they carry: with an item and the text that
is left, or with a stop (`ending`). Each reader has one equation, by the readers that it is made of,
one after the other.
-/
import SchemaInference.Document.Reader
import SchemaInference.Proofs.Document.Scan

namespace SchemaInference.Document

section Ending

variable {α β γ : Type} {s t : List Char}

/-- The item that was read and the text that is left, or where reading stopped. -/
def ending (x : Except Stop (Read α s)) : Except Stop (α × List Char) :=
  x.map fun r => (r.item, r.rest)

@[simp] theorem ending_error (e : Stop) :
    ending (.error e : Except Stop (Read α s)) = .error e := rfl

@[simp] theorem ending_ok (a : α) (rest : List Char) (h : rest.length < s.length) :
    ending (.ok ⟨a, rest, h⟩ : Except Stop (Read α s)) = .ok (a, rest) := rfl

/-- The same end with another item. -/
def mapItem (f : α → β) (x : Except Stop (α × List Char)) : Except Stop (β × List Char) :=
  x.map fun r => (f r.1, r.2)

@[simp] theorem mapItem_ok (f : α → β) (a : α) (rest : List Char) :
    mapItem f (.ok (a, rest)) = .ok (f a, rest) := rfl

@[simp] theorem mapItem_error (f : α → β) (e : Stop) : mapItem f (.error e) = .error e := rfl

theorem mapItem_eq_error {f : α → β} {x : Except Stop (α × List Char)} {e : Stop} :
    mapItem f x = .error e ↔ x = .error e := by
  rcases x with e' | ⟨a, rest⟩ <;> simp

/-- The end of two readers one after the other, the second of which starts where the first ends. -/
def andThen (x : Except Stop (α × List Char))
    (f : α → List Char → Except Stop (β × List Char)) : Except Stop (β × List Char) :=
  x.bind fun r => f r.1 r.2

@[simp] theorem andThen_ok (a : α) (rest : List Char)
    (f : α → List Char → Except Stop (β × List Char)) : andThen (.ok (a, rest)) f = f a rest := rfl

@[simp] theorem andThen_error (e : Stop) (f : α → List Char → Except Stop (β × List Char)) :
    andThen (.error e) f = .error e := rfl

/-- Two readers stop where the first does, or where the second does behind what the first took. -/
theorem andThen_eq_error {x : Except Stop (α × List Char)}
    {f : α → List Char → Except Stop (β × List Char)} {e : Stop} :
    andThen x f = .error e ↔
      x = .error e ∨ ∃ a rest, x = .ok (a, rest) ∧ f a rest = .error e := by
  rcases x with e' | ⟨a, rest⟩ <;> simp

/-- The end of a reader that skips blanks and goes by the character behind them; at the end of the
text there is none. -/
def atNext (f : Char → List Char → Except Stop (α × List Char)) (s : List Char) :
    Except Stop (α × List Char) :=
  match skipBlanks s with
  | [] => .error ⟨.unexpectedEnd, []⟩
  | c :: rest => f c rest

theorem atNext_of_nil {f : Char → List Char → Except Stop (α × List Char)}
    (h : skipBlanks s = []) : atNext f s = .error ⟨.unexpectedEnd, []⟩ := by
  rw [atNext, h]

theorem atNext_of_cons {f : Char → List Char → Except Stop (α × List Char)} {c : Char}
    {rest : List Char} (h : skipBlanks s = c :: rest) : atNext f s = f c rest := by
  rw [atNext, h]

@[simp] theorem ending_extend (x : Except Stop (Read α s)) (h : s.length ≤ t.length) :
    ending (x.map (·.extend h)) = ending x := by
  cases x <;> rfl

@[simp] theorem ending_map_extend (x : Except Stop (Read α s)) (f : α → β)
    (h : s.length ≤ t.length) :
    ending (x.map fun r => (r.map f).extend h) = mapItem f (ending x) := by
  cases x <;> rfl

theorem length_lt_of_ending {x : Except Stop (Read α s)} {a : α} {rest : List Char}
    (h : ending x = .ok (a, rest)) : rest.length < s.length := by
  rcases x with e | ⟨b, left, hlt⟩
  · cases h
  · cases h
    exact hlt

end Ending

/-! ## Tokens -/

/-- The end of what stands behind an opening quote. -/
def scanQuoted (t : List Char) : Except Stop (List Char × List Char) :=
  match scanString t with
  | none => .error ⟨.unclosedString, '"' :: t⟩
  | some r => .ok r

theorem ending_readString (t : List Char) :
    ending (readString ('"' :: t)) =
      mapItem (fun raw => .string (String.ofList raw)) (scanQuoted t) := by
  rw [readString]
  split
  · rename_i h
    simp only [scanQuoted, h]
    rfl
  · rename_i raw rest h
    simp only [scanQuoted, h]
    rfl

theorem ending_readWord (w : Word) (s : List Char) :
    ending (readWord w s) =
      if w.chars <+: s then .ok (w.value, s.drop w.chars.length)
      else .error ⟨.expectedWord w, s⟩ := by
  unfold readWord
  split <;> rfl

theorem ending_readNumber_scan (s : List Char) :
    ending (readNumber s) = (scanNumber s).map fun n => (n.value, n.rest) := by
  unfold readNumber
  split
  · rename_i h
    simp only [h]
    rfl
  · rename_i n h
    simp only [h]
    rfl

/-- A number is digits, a fraction and an exponent, behind the minus sign if there is one. -/
theorem ending_readNumber (s : List Char) :
    ending (readNumber s) =
      andThen (scanDigits (scanMinus s).2) fun digits s₁ =>
        andThen (scanFraction s₁) fun fraction s₂ =>
          mapItem (fun exponent =>
            Numeral.value ⟨(scanMinus s).1 ++ digits, fraction ++ exponent, []⟩)
              (scanExponent s₂) := by
  rw [ending_readNumber_scan]
  unfold scanNumber
  simp only [bind, Except.bind]
  rcases scanDigits (scanMinus s).2 with e | ⟨digits, s₁⟩
  · rfl
  rw [andThen_ok]
  rcases hf : scanFraction s₁ with e | ⟨fraction, s₂⟩
  · simp only [hf]
    rfl
  rw [andThen_ok]
  rcases he : scanExponent s₂ with e | ⟨exponent, s₃⟩
  · simp only [hf, he]
    rfl
  · simp only [hf, he]
    rfl

/-! ## Containers -/

section Containers

variable {α : Type}

theorem ending_readItems (closer : Char) (read : Reader α) (s : List Char) :
    ending (readItems closer read s) = andThen (ending (read s)) fun x =>
      atNext fun c more =>
        if c = ',' then mapItem (x :: ·) (ending (readItems closer read more))
        else if c = closer then .ok ([x], more) else .error ⟨.missingSeparator closer, c :: more⟩ := by
  rw [readItems]
  rcases read s with e | ⟨x, left, hlt⟩
  · rfl
  · simp only [ending_ok, andThen_ok]
    split
    · rename_i hb
      rw [atNext_of_nil hb, ending_error]
    · rename_i c more hb
      rw [atNext_of_cons hb]
      by_cases hc : c = ','
      · rw [if_pos hc, if_pos hc]
        cases readItems closer read more <;> rfl
      · rw [if_neg hc, if_neg hc]
        by_cases hc' : c = closer
        · rw [if_pos hc', if_pos hc', ending_ok]
        · rw [if_neg hc', if_neg hc', ending_error]

theorem ending_readContents (closer : Char) (read : Reader α) (s : List Char) :
    ending (readContents closer read s) =
      match skipBlanks s with
      | [] => ending (readItems closer read s)
      | c :: rest => if c = closer then .ok ([], rest) else ending (readItems closer read s) := by
  unfold readContents
  split
  · rename_i hb
    rw [hb]
  · rename_i c rest hb
    simp only [hb]
    by_cases hc : c = closer
    · rw [if_pos hc, if_pos hc]
      rfl
    · rw [if_neg hc, if_neg hc]

/-- What stands behind the name of a member: a colon and the value. -/
def readNamed (read : Reader Value) (name : List Char) :
    List Char → Except Stop ((String × Value) × List Char) :=
  atNext fun c v =>
    if c = ':' then mapItem (String.ofList name, ·) (ending (read v))
    else .error ⟨.missingColon, c :: v⟩

theorem ending_readMember (read : Reader Value) (s : List Char) :
    ending (readMember read s) = atNext (fun c t =>
      if c = '"' then andThen (scanQuoted t) (readNamed read)
      else .error ⟨.expectedMemberName, c :: t⟩) s := by
  unfold readMember
  split
  · rename_i t hb
    rw [atNext_of_cons hb, if_pos rfl]
    unfold scanQuoted
    split
    · rename_i ht
      simp only [ht]
      rfl
    · rename_i name u ht
      simp only [ht, andThen_ok]
      unfold readNamed
      split
      · rename_i v hu
        rw [atNext_of_cons hu, if_pos rfl]
        cases read v <;> rfl
      · rename_i hu
        rcases hv : skipBlanks u with _ | ⟨c, v⟩
        · rw [atNext_of_nil hv]
          rfl
        · have hc : c ≠ ':' := by
            rintro rfl
            exact hu v hv
          rw [atNext_of_cons hv, if_neg hc]
          rfl
  · rename_i hb
    rcases ht : skipBlanks s with _ | ⟨c, t⟩
    · rw [atNext_of_nil ht]
      rfl
    · have hc : c ≠ '"' := by
        rintro rfl
        exact hb t ht
      rw [atNext_of_cons ht, if_neg hc]
      rfl

end Containers

/-! ## Values -/

theorem ending_readValue (room : Nat) (s : List Char) :
    ending (readValue room s) = atNext (fun c rest =>
      if c = '{' then
        match room with
        | 0 => .error ⟨.tooDeep, c :: rest⟩
        | room + 1 =>
          mapItem .object (ending (readContents '}' (readMember (readValue room)) rest))
      else if c = '[' then
        match room with
        | 0 => .error ⟨.tooDeep, c :: rest⟩
        | room + 1 => mapItem .array (ending (readContents ']' (readValue room) rest))
      else if c = '"' then ending (readString (c :: rest))
      else if c = 't' then ending (readWord .true (c :: rest))
      else if c = 'f' then ending (readWord .false (c :: rest))
      else if c = 'n' then ending (readWord .null (c :: rest))
      else if c = '-' || c.isDigit then ending (readNumber (c :: rest))
      else .error ⟨.unexpectedCharacter c, c :: rest⟩) s := by
  unfold readValue
  dsimp only
  split
  · rename_i hb
    rw [atNext_of_nil hb]
    rfl
  · rename_i c rest hb
    rw [atNext_of_cons hb]
    split_ifs
    · cases room with
      | zero => rfl
      | succ room => exact ending_map_extend ..
    · cases room with
      | zero => rfl
      | succ room => exact ending_map_extend ..
    · exact ending_extend ..
    · exact ending_extend ..
    · exact ending_extend ..
    · exact ending_extend ..
    · exact ending_extend ..
    · rfl

/-! ## Documents -/

/-- The end of a whole document: a value, and nothing behind it. -/
def endingDocument (s : List Char) : Except Stop (Value × List Char) :=
  andThen (ending (readValue maxDepth s)) fun v left =>
    match skipBlanks left with
    | [] => .ok (v, [])
    | c :: rest => .error ⟨.trailingCharacters, c :: rest⟩

theorem readDocument_eq (s : List Char) : readDocument s = (endingDocument s).map Prod.fst := by
  unfold readDocument endingDocument
  rcases readValue maxDepth s with e | ⟨v, left, h⟩
  · rfl
  · simp only [ending_ok, andThen_ok]
    cases skipBlanks left <;> rfl

/-- The fault of a text tells of the stop in it. -/
theorem parse_eq_error {text : String} {f : Fault} :
    parse text = .error f ↔
      ∃ e, endingDocument text.toList = .error e ∧ f = e.within text.toList := by
  unfold parse
  rw [readDocument_eq]
  rcases endingDocument text.toList with e | r
  · simp [Except.map, Except.mapError, eq_comm]
  · simp [Except.map, Except.mapError]

instance (text : String) (f : Fault) : Decidable (parse text = .error f) :=
  match h : parse text with
  | .error f' => decidable_of_iff (f' = f) (by simp)
  | .ok _ => isFalse (by simp)

end SchemaInference.Document
