/-
Joining two observations of one slot. Null joins with anything and makes it optional; scalars join
where one covers both; arrays, maps and objects join part by part; a flag set on either side stays
set. Whatever else meets is a clash of kinds, which the policy settles, or a clash of names, which
nothing settles.

Members absorb those of another object: a member that one side lacks becomes optional, common
members are joined, new ones come last in the order they arrive. An absorption that fails leaves
the members as they were by then, with null in place of the one that clashed.
-/
import SchemaInference.Trace

namespace SchemaInference.Schema

/-- What is done when two kinds meet that do not go together. -/
inductive Policy where
  /-- The clash is a fault. -/
  | strict
  /-- The node that was there first stays, and an event tells of it. -/
  | preferFirst
deriving DecidableEq, Repr, Inhabited

namespace Policy

def name : Policy → String
  | .strict => "strict"
  | .preferFirst => "prefer-first"

def ofName? : String → Option Policy
  | "strict" => some .strict
  | "prefer-first" => some .preferFirst
  | _ => none

end Policy

open Traced

def clash (c : Clash) : Traced Fault Node := fail ⟨[], c⟩

/-- Two kinds that do not go together meet. -/
def settle (p : Policy) (a b : Node) : Traced Fault Node :=
  match p with
  | .strict => clash (.kinds a.kind b.kind)
  | .preferFirst => do
    emit (.conflict a.kind b.kind)
    return a.setOptional (a.isOptional || b.isOptional)

mutual

def unify (p : Policy) : Node → Node → Traced Fault Node
  | a, .null => pure a.relax
  | .null, b => pure b.relax
  | .scalar s x, .scalar t y =>
    match s.join? t with
    | some u => pure (.scalar u (x || y))
    | none => settle p (.scalar s x) (.scalar t y)
  | .array e x, .array f y => do return .array (← unify p e f) (x || y)
  | .object n ms x, .object m ns y =>
    if n = m then do
      let joined ← (absorb p (Members.relaxMissing ms ns) ns).mapFault (·.fault)
      return .object n joined (x || y)
    else clash (.objectNames n m)
  | .map n v x, .map m w y =>
    if n = m then do return .map n (← unify p v w) (x || y) else clash (.mapNames n m)
  | .object n _ _, .map m _ _ => clash (.objectAndMap n m)
  | .map n _ _, .object m _ _ => clash (.objectAndMap m n)
  | a, b => settle p a b

/-- The incoming members taken in one by one. -/
def absorb (p : Policy) : Members → Members → Traced (Halted Members Fault) Members
  | ms, [] => pure ms
  | ms, (name, b) :: incoming =>
    match Members.get? ms name with
    | none => absorb p (Members.put ms name b.relax) incoming
    | some a => do
      let joined ← (unify p a b).mapFault fun f => ⟨Members.put ms name .null, f.within name⟩
      absorb p (Members.put ms name joined) incoming

end

/-- The members of one object merged with those of another. -/
def Members.merge (p : Policy) (ms incoming : Members) :
    Traced (Halted Members Fault) Members :=
  absorb p (relaxMissing ms incoming) incoming

/-- The object keeps its name and its own flag. -/
def Object.merge (p : Policy) (o incoming : Object) : Traced (Halted Object Fault) Object :=
  let merged := Members.merge p o.members incoming.members
  ⟨merged.events, match merged.outcome with
    | .ok ms => .ok { o with members := ms }
    | .error h => .error ⟨{ o with members := h.left }, h.fault⟩⟩

end SchemaInference.Schema
