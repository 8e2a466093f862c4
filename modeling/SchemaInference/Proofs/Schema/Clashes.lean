/-
Where two nodes cannot be of one slot. Parts of two nodes meet when the same steps lead to both of
them: into the elements of two arrays, into the values of two maps of one name, into a member that
two objects of one name have in common (`Node.Meets`). Two parts clash if their names rule out that
they are of one slot (`Node.NamesClash`), or else if their kinds do (`Kind.Apart`). Joining two
nodes fails just where some of their parts clash in a way that the policy does not settle, and its
fault tells of such a clash: of the names of the members on the way there and of what clashes
(`unify_ok_iff_no_clash`).
-/
import SchemaInference.Proofs.Schema.Joins

namespace SchemaInference.Schema

open Members Traced

/-! ## Parts that meet -/

namespace Node

/-- The part `l` of the first node and the part `r` of the second one are reached by the same steps;
`path` are the names of the members among these, from the outermost one down. -/
inductive Meets : Node → Node → Path → Node → Node → Prop
  | here (l r : Node) : Meets l r [] l r
  | element {e f l r : Node} {path : Path} (x y : Bool) (h : Meets e f path l r) :
      Meets (.array e x) (.array f y) path l r
  | value (n : Identifier) {v w l r : Node} {path : Path} (x y : Bool) (h : Meets v w path l r) :
      Meets (.map n v x) (.map n w y) path l r
  | member (n : Identifier) {ms ns : Members} {name : Identifier} {a b l r : Node} {path : Path}
      (x y : Bool) (ha : get? ms name = some a) (hb : get? ns name = some b)
      (h : Meets a b path l r) : Meets (.object n ms x) (.object n ns y) (name :: path) l r

theorem Meets.symm {a b l r : Node} {path : Path} (h : a.Meets b path l r) : b.Meets a path r l := by
  induction h with
  | here l r => exact .here r l
  | element x y _ ih => exact .element y x ih
  | value n x y _ ih => exact .value n y x ih
  | member n x y ha hb _ ih => exact .member n y x hb ha ih

end Node

/-! ## Clashes -/

/-- Integers and reals are numbers. -/
def Kind.isNumber : Kind → Bool
  | .scalar .integer => true
  | .scalar .real => true
  | _ => false

/-- Neither kind is null, they differ and are not both numbers, and they are not those of an object
and a map, which is a clash of names. -/
def Kind.Apart (k l : Kind) : Prop :=
  k ≠ .null ∧ l ≠ .null ∧ k ≠ l ∧ ¬ (k.isNumber = true ∧ l.isNumber = true) ∧
    ¬ (k = .object ∧ l = .map) ∧ ¬ (k = .map ∧ l = .object)

/-- Two objects or two maps of different names, or an object and a map; and how that is told. -/
inductive Node.NamesClash : Node → Node → Clash → Prop
  | objects {n m : Identifier} (h : n ≠ m) (ms ns : Members) (x y : Bool) :
      NamesClash (.object n ms x) (.object m ns y) (.objectNames n m)
  | maps {n m : Identifier} (h : n ≠ m) (v w : Node) (x y : Bool) :
      NamesClash (.map n v x) (.map m w y) (.mapNames n m)
  | objectMap (n m : Identifier) (ms : Members) (w : Node) (x y : Bool) :
      NamesClash (.object n ms x) (.map m w y) (.objectAndMap n m)
  | mapObject (n m : Identifier) (v : Node) (ns : Members) (x y : Bool) :
      NamesClash (.map m v x) (.object n ns y) (.objectAndMap n m)

/-- What is told is not that two kinds clash. -/
def Clash.OfNames (c : Clash) : Prop := ∀ left right, c ≠ .kinds left right

/-- There are five kinds apart from the scalars, and four scalars: a finite table. -/
theorem Kind.apart_iff {k l : Kind} : k.Apart l ↔ k.clashes l = true := by
  unfold Apart
  rcases k with _ | (_ | _ | _ | _) | _ | _ | _ <;>
    rcases l with _ | (_ | _ | _ | _) | _ | _ | _ <;> decide

theorem Kind.Apart.symm {k l : Kind} (h : k.Apart l) : l.Apart k := by
  obtain ⟨hk, hl, hne, hnumbers, hobject, hmap⟩ := h
  exact ⟨hl, hk, hne.symm, fun h => hnumbers h.symm, fun h => hmap h.symm, fun h => hobject h.symm⟩

namespace Node.NamesClash

variable {l r : Node} {c : Clash}

theorem ofNames (h : l.NamesClash r c) : c.OfNames := by
  intro left right
  cases h <;> simp

theorem not_apart (h : l.NamesClash r c) : ¬ l.kind.Apart r.kind := by
  rw [Kind.apart_iff]
  cases h <;> simp [Node.kind, Kind.clashes]

theorem symm (h : l.NamesClash r c) : ∃ c', r.NamesClash l c' := by
  cases h with
  | objects h => exact ⟨_, .objects h.symm ..⟩
  | maps h => exact ⟨_, .maps h.symm ..⟩
  | objectMap => exact ⟨_, .mapObject ..⟩
  | mapObject => exact ⟨_, .objectMap ..⟩

end Node.NamesClash

/-! ## A join rules clashes out -/

/-- Whatever clashes between the two nodes, the policy settles it. -/
def Policy.Settles (p : Policy) (l r : Node) : Prop :=
  (l.kind.Apart r.kind → p = .preferFirst) ∧ ∀ c, ¬ l.NamesClash r c

theorem Policy.Settles.symm {p : Policy} {l r : Node} (h : p.Settles l r) : p.Settles r l := by
  refine ⟨fun hk => h.1 hk.symm, fun c hc => ?_⟩
  obtain ⟨c', hc'⟩ := hc.symm
  exact h.2 c' hc'

variable {p : Policy} {a b k l r : Node} {path : Path}

theorem Joins.settles_here (h : Joins p a b k) : p.Settles a b := by
  constructor
  · intro hk
    exact ((joins_of_clashes (Kind.apart_iff.1 hk)).1 h).1
  · intro c hc
    cases hc with
    | objects hn => exact hn (joins_object.1 h).1
    | maps hn => exact hn (joins_map.1 h).1
    | objectMap => exact not_joins_object_map h
    | mapObject => exact not_joins_map_object h

/-- Where two nodes have a join, so have all parts of them that meet. -/
theorem Joins.settles (h : Joins p a b k) (hm : a.Meets b path l r) : p.Settles l r := by
  induction hm generalizing k with
  | here => exact h.settles_here
  | element _ _ _ ih =>
    obtain ⟨d, hd, -⟩ := joins_array.1 h
    exact ih hd
  | value _ _ _ _ ih =>
    obtain ⟨-, d, hd, -⟩ := joins_map.1 h
    exact ih hd
  | @member _ ms ns name a b _ _ _ _ _ ha hb _ ih =>
    obtain ⟨-, ks, hks, -⟩ := joins_object.1 h
    obtain ⟨d, hd⟩ := exists_get? hks.names (.inl (mem_names_of_get? ha))
    exact ih (hks.both name a b d ha hb hd)

/-! ## What a fault tells -/

/-- The fault tells of parts of the nodes that meet and clash, which `p` does not settle. -/
def Fault.Tells (f : Fault) (p : Policy) (a b : Node) : Prop :=
  ∃ l r, a.Meets b f.path l r ∧
    (p = .strict ∧ l.kind.Apart r.kind ∧ f.clash = .kinds l.kind r.kind ∨ l.NamesClash r f.clash)

namespace Fault.Tells

variable {f : Fault}

theorem element (h : f.Tells p a b) (x y : Bool) : f.Tells p (.array a x) (.array b y) := by
  obtain ⟨l, r, hm, hc⟩ := h
  exact ⟨l, r, .element x y hm, hc⟩

theorem value (h : f.Tells p a b) (n : Identifier) (x y : Bool) :
    f.Tells p (.map n a x) (.map n b y) := by
  obtain ⟨l, r, hm, hc⟩ := h
  exact ⟨l, r, .value n x y hm, hc⟩

theorem member {ms ns : Members} {name : Identifier} (h : f.Tells p a b)
    (ha : get? ms name = some a) (hb : get? ns name = some b) (n : Identifier) (x y : Bool) :
    (f.within name).Tells p (.object n ms x) (.object n ns y) := by
  obtain ⟨l, r, hm, hc⟩ := h
  exact ⟨l, r, .member n x y ha hb hm, hc⟩

end Fault.Tells

theorem tells_settle (p : Policy) (hk : a.kind.clashes b.kind = true) :
    (settle p a b).Ends (fun _ => True) fun f => f.Tells p a b := by
  cases p with
  | strict => exact .error ⟨a, b, .here a b, .inl ⟨rfl, Kind.apart_iff.2 hk, rfl⟩⟩
  | preferFirst => exact .ok trivial

/-- Members are taken in one by one; the first that fails was there before and is one that comes in,
so the fault is that of the two. -/
theorem ends_absorb_common {p : Policy} {E : Fault → Prop} {ms ns : Members} (hns : Unique ns)
    (h : ∀ name a b, get? ms name = some a → get? ns name = some b →
      (unify p a b).Ends (fun _ => True) fun f => E (f.within name)) :
    (absorb p ms ns).Ends (fun _ => True) fun e => E e.fault := by
  induction ns generalizing ms with
  | nil =>
    unfold absorb
    exact .pure trivial
  | cons m ns ih =>
    obtain ⟨name, b⟩ := m
    obtain ⟨hn, hns⟩ := unique_cons.1 hns
    have hrest : ∀ k, (absorb p (put ms name k) ns).Ends (fun _ => True) fun e => E e.fault := by
      intro k
      refine ih hns fun other a c ha hc => ?_
      obtain ⟨ha, hc⟩ := get?_of_put b hn ha hc
      exact h other a c ha hc
    unfold absorb
    rcases ha : get? ms name with _ | a
    · exact hrest _
    · have hunify := h name a b ha (by rw [get?_cons, if_pos rfl])
      exact Ends.bind (.mapFault hunify fun _ hf => hf) fun k _ => hrest k

/-- A join that fails tells of a clash. -/
theorem tells_unify (p : Policy) (a : Node) (hb : b.WF) :
    (unify p a b).Ends (fun _ => True) fun f => f.Tells p a b := by
  induction b using Node.induction generalizing a with
  | null => cases a <;> exact .pure trivial
  | scalar t y =>
    cases a with
    | null => exact .pure trivial
    | scalar s x =>
      unfold unify
      split
      · exact .pure trivial
      · rename_i hu
        exact tells_settle p (by simp [Node.kind, Kind.clashes, hu])
    | _ => exact tells_settle p rfl
  | array f y ih =>
    cases a with
    | null => exact .pure trivial
    | array e x =>
      unfold unify
      have he := (ih e hb.element).imp (fun _ _ => trivial) fun f hf => hf.element x y
      exact he.bind fun _ _ => .pure trivial
    | _ => exact tells_settle p rfl
  | map m w y ih =>
    cases a with
    | null => exact .pure trivial
    | map n v x =>
      unfold unify
      split
      · rename_i hn
        subst hn
        have hv := (ih v hb.value).imp (fun _ _ => trivial) fun f hf => hf.value n x y
        exact hv.bind fun _ _ => .pure trivial
      · rename_i hn
        exact .error ⟨_, _, .here _ _, .inr (.maps hn ..)⟩
    | object => exact .error ⟨_, _, .here _ _, .inr (.objectMap ..)⟩
    | _ => exact tells_settle p rfl
  | object m ns y ih =>
    cases a with
    | null => exact .pure trivial
    | object n ms x =>
      unfold unify
      split
      · rename_i hn
        subst hn
        have habsorb : (absorb p (relaxMissing ms ns) ns).Ends (fun _ => True) fun e =>
            e.fault.Tells p (.object n ms x) (.object n ns y) := by
          refine ends_absorb_common (E := fun f => f.Tells p (.object n ms x) (.object n ns y))
            hb.unique fun name a b ha hb' => ?_
          rw [get?_relaxMissing_of_get? ms hb'] at ha
          have hmember := ih _ (mem_of_get? hb') a (hb.member hb')
          exact hmember.imp (fun _ _ => trivial) fun f hf => hf.member ha hb' n x y
        exact Ends.bind (.mapFault habsorb fun _ he => he) fun _ _ => .pure trivial
      · rename_i hn
        exact .error ⟨_, _, .here _ _, .inr (.objects hn ..)⟩
    | map => exact .error ⟨_, _, .here _ _, .inr (.mapObject ..)⟩
    | _ => exact tells_settle p rfl

/-! ## When joining fails, and where -/

/-- Two nodes are joined just where all clashes of their parts are settled. -/
theorem exists_unify_iff (ha : a.WF) (hb : b.WF) :
    (∃ k, (unify p a b).outcome = .ok k) ↔ ∀ path l r, a.Meets b path l r → p.Settles l r := by
  constructor
  · rintro ⟨k, hk⟩ path l r hm
    exact ((value?_unify ha hb).1 (value?_eq_some.2 hk)).settles hm
  · intro h
    refine (tells_unify p a hb).exists_ok ?_
    rintro f ⟨l, r, hm, ⟨rfl, hk, -⟩ | hc⟩
    · cases (h _ l r hm).1 hk
    · exact (h _ l r hm).2 _ hc

/-- Whether two nodes are joined does not hang on which of them comes first. -/
theorem exists_unify_comm (ha : a.WF) (hb : b.WF) :
    (∃ k, (unify p a b).outcome = .ok k) ↔ ∃ k, (unify p b a).outcome = .ok k := by
  rw [exists_unify_iff ha hb, exists_unify_iff hb ha]
  constructor
  · intro h path l r hm
    exact (h path r l hm.symm).symm
  · intro h path l r hm
    exact (h path r l hm.symm).symm

/-- Under the strict policy two nodes are joined just where no parts of them that meet clash, and
under the lenient one just where none clash in their names. A fault tells of parts that clash: its
path are the names of the members on the way to them, and it tells of the kinds of the two, the
known one first, just where these clash, which they do not under the lenient policy, and of their
names just where those do. -/
theorem unify_ok_iff_no_clash (ha : a.WF) (hb : b.WF) :
    ((∃ k, (unify .strict a b).outcome = .ok k) ↔
      ¬ ∃ path l r, a.Meets b path l r ∧ (l.kind.Apart r.kind ∨ ∃ c, l.NamesClash r c)) ∧
    ((∃ k, (unify .preferFirst a b).outcome = .ok k) ↔
      ¬ ∃ path l r, a.Meets b path l r ∧ ∃ c, l.NamesClash r c) ∧
    ∀ p f, (unify p a b).outcome = .error f → ∃ l r, a.Meets b f.path l r ∧
      (l.kind.Apart r.kind ∨ l.NamesClash r f.clash) ∧
      (f.clash = .kinds l.kind r.kind ↔ l.kind.Apart r.kind) ∧
      (p = .preferFirst → ¬ l.kind.Apart r.kind) ∧
      (f.clash.OfNames ↔ ∃ c, l.NamesClash r c) := by
  refine ⟨?_, ?_, ?_⟩
  · rw [exists_unify_iff ha hb]
    simp [Policy.Settles]
  · rw [exists_unify_iff ha hb]
    simp [Policy.Settles]
  · intro p f hf
    obtain ⟨l, r, hm, ⟨rfl, hk, hc⟩ | hc⟩ := (tells_unify p a hb).of_error hf
    · refine ⟨l, r, hm, .inl hk, iff_of_true hc hk, by simp, iff_of_false ?_ ?_⟩
      · intro hnames
        exact hnames _ _ hc
      · rintro ⟨_, hnames⟩
        exact hnames.not_apart hk
    · have hk := hc.not_apart
      exact ⟨l, r, hm, .inr hc, iff_of_false (hc.ofNames _ _) hk, fun _ => hk,
        iff_of_true hc.ofNames ⟨_, hc⟩⟩

/-- Below the values of two maps an integer meets a string, in a member of a member. The lenient
policy settles that, so there is no clash of names. -/
theorem unify_ok_iff_no_clash_nested :
    let a : Node := .object ⟨"a_t"⟩ [(⟨"n"⟩, .scalar .integer false), (⟨"inner"⟩, .object ⟨"inner_t"⟩
      [(⟨"flag"⟩, .scalar .boolean false), (⟨"ids"⟩, .map ⟨"ids"⟩ (.scalar .integer false) false)]
        false)] false
    let b : Node := .object ⟨"a_t"⟩ [(⟨"inner"⟩, .object ⟨"inner_t"⟩
      [(⟨"ids"⟩, .map ⟨"ids"⟩ (.scalar .string false) true)] false),
        (⟨"n"⟩, .scalar .real false)] false
    a.WF ∧ b.WF ∧
      (unify .strict a b).outcome =
        .error ⟨[⟨"inner"⟩, ⟨"ids"⟩], .kinds (.scalar .integer) (.scalar .string)⟩ ∧
      (∃ l r, a.Meets b [⟨"inner"⟩, ⟨"ids"⟩] l r ∧ l.kind.Apart r.kind) ∧
      ¬ ∃ path l r, a.Meets b path l r ∧ ∃ c, l.NamesClash r c := by
  intro a b
  have ha : a.WF := by decide +kernel
  have hb : b.WF := by decide +kernel
  have hstrict : (unify .strict a b).outcome =
      .error ⟨[⟨"inner"⟩, ⟨"ids"⟩], .kinds (.scalar .integer) (.scalar .string)⟩ :=
    fault?_eq_some.1 (by decide +kernel)
  have hlenient : (unify .preferFirst a b).value?.isSome = true := by decide +kernel
  obtain ⟨k, hk⟩ := Option.isSome_iff_exists.1 hlenient
  obtain ⟨-, hnames, hfault⟩ := unify_ok_iff_no_clash ha hb
  obtain ⟨l, r, hm, hk' | hc, -⟩ := hfault _ _ hstrict
  · exact ⟨ha, hb, hstrict, ⟨l, r, hm, hk'⟩, hnames.1 ⟨k, value?_eq_some.1 hk⟩⟩
  · exact absurd rfl (hc.ofNames _ _)

end SchemaInference.Schema
