/-
What a run tells of itself while it works. A traced computation emits events, in order, and ends in
a value or a fault; what was emitted before the fault stays emitted.
-/
import SchemaInference.Schema.Fault

namespace SchemaInference

/-! ## Events -/

/-- The levels of severity, the most severe first. -/
inductive Level where
  | error
  | warn
  | info
  | debug
  | trace
deriving DecidableEq, Repr, Inhabited

namespace Level

def rank : Level → Nat
  | .error => 0
  | .warn => 1
  | .info => 2
  | .debug => 3
  | .trace => 4

def name : Level → String
  | .error => "ERROR"
  | .warn => "WARN"
  | .info => "INFO"
  | .debug => "DEBUG"
  | .trace => "TRACE"

end Level

inductive Event where
  /-- Two kinds met that do not go together, and the first was kept. -/
  | conflict (kept dropped : Schema.Kind)
  /-- An object with `members` members goes into the registry, as the first or not of its name. -/
  | registering (name : Identifier) (members : Nat)
  | merging (name : Identifier) (members : Nat)
  /-- The builder comes to a value in the slot `hint` below `path`. -/
  | visiting (path : Schema.Path) (hint : Identifier) (kind : Schema.Kind)
  /-- The settings of the run are known. -/
  | settled
  | loaded (source : String) (bytes : Nat)
  | finished (documents objects : Nat)
deriving DecidableEq, Repr

namespace Event

def level : Event → Level
  | .conflict .. => .warn
  | .registering .. => .debug
  | .merging .. => .debug
  | .visiting .. => .trace
  | .settled => .debug
  | .loaded .. => .debug
  | .finished .. => .info

def message : Event → String
  | .conflict .. => "conflicting observations, keeping the first"
  | .registering .. => "registering object"
  | .merging .. => "merging into registered object"
  | .visiting .. => "infer"
  | .settled => "resolved configuration"
  | .loaded .. => "loaded input"
  | .finished .. => "inference finished"

def fields : Event → List (String × String)
  | .conflict kept dropped => [("kept", kept.name), ("dropped", dropped.name)]
  | .registering name members => [("name", name.text), ("members", toString members)]
  | .merging name members => [("name", name.text), ("members", toString members)]
  | .visiting path hint kind =>
    [("path", path.dotted), ("hint", hint.text), ("kind", kind.name)]
  | .settled => []
  | .loaded source bytes => [("source", source), ("bytes", toString bytes)]
  | .finished documents objects =>
    [("documents", toString documents), ("objects", toString objects)]

/-- Whether the event is shown when all of `level` and above it is. -/
def shownAt (level : Level) (e : Event) : Bool := e.level.rank ≤ level.rank

end Event

/-! ## Traced computations -/

structure Traced (ε α : Type) where
  events : List Event
  outcome : Except ε α

namespace Traced

variable {ε δ α β : Type}

/-- The events of `x` come first; after a fault of `x` nothing follows. -/
def bind (x : Traced ε α) (f : α → Traced ε β) : Traced ε β :=
  match x.outcome with
  | .error e => ⟨x.events, .error e⟩
  | .ok a => ⟨x.events ++ (f a).events, (f a).outcome⟩

instance : Monad (Traced ε) where
  pure a := ⟨[], .ok a⟩
  bind := bind

def fail (e : ε) : Traced ε α := ⟨[], .error e⟩

def emit (e : Event) : Traced ε Unit := ⟨[e], .ok ()⟩

def ofExcept (r : Except ε α) : Traced ε α := ⟨[], r⟩

/-- The same computation, its fault told in other terms. -/
def mapFault (f : ε → δ) (x : Traced ε α) : Traced δ α := ⟨x.events, x.outcome.mapError f⟩

/-! ### Laws -/

@[simp] theorem pure_eq (a : α) : (pure a : Traced ε α) = ⟨[], .ok a⟩ := rfl

theorem bind_eq (x : Traced ε α) (f : α → Traced ε β) : x >>= f = x.bind f := rfl

@[simp] theorem ok_bind (es : List Event) (a : α) (f : α → Traced ε β) :
    (⟨es, .ok a⟩ : Traced ε α) >>= f = ⟨es ++ (f a).events, (f a).outcome⟩ := rfl

@[simp] theorem error_bind (es : List Event) (e : ε) (f : α → Traced ε β) :
    (⟨es, .error e⟩ : Traced ε α) >>= f = ⟨es, .error e⟩ := rfl

instance : LawfulMonad (Traced ε) :=
  LawfulMonad.mk' (Traced ε)
    (fun x => by
      obtain ⟨es, o⟩ := x
      cases o <;> simp [Functor.map, bind])
    (fun a f => by simp)
    (fun x f g => by
      obtain ⟨es, o⟩ := x
      cases o with
      | error e => simp
      | ok a =>
        simp only [ok_bind]
        generalize f a = y
        obtain ⟨es', o'⟩ := y
        cases o' <;> simp)

end Traced

/-- How far an operation had come when it failed, and why it did. -/
structure Halted (σ ε : Type) where
  left : σ
  fault : ε

end SchemaInference
