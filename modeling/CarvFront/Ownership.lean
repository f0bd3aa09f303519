import CarvFront.Journal
import CarvFront.Ty.Basic

/-! Which bindings have given their value away. Only bindings of types that are given away have a
record; the others can be read as often as one likes. -/
namespace CarvFront

/-- Where a value went: the line, and the name, call or return that took it. -/
structure MoveSite where
  line : Nat
  destination : String
deriving DecidableEq

/-- What became of the value of a binding. -/
inductive Holding where
  | owned
  | moved (site : MoveSite)
deriving DecidableEq

/-- The records of all bindings, by name. -/
structure Ownership where
  records : Journal Holding

namespace Ownership

def empty : Ownership := ⟨.empty⟩

/-- Start a record for a new binding. Whatever an earlier binding of the name did is forgotten. -/
def track (o : Ownership) (name : String) (ty : Ty) : Ownership :=
  match ty.category with
  | .move => ⟨o.records.insert name .owned⟩
  | .copy => ⟨o.records.erase name⟩

/-- Give the value of a binding away, and tell whether it still had one to give. -/
def markMoved (o : Ownership) (name : String) (line : Nat) (destination : String) :
    Bool × Ownership :=
  if o.records.find? name = some .owned then
    (true, ⟨o.records.insert name (.moved ⟨line, destination⟩)⟩)
  else (false, o)

/-- The record of a binding. -/
def state? (o : Ownership) (name : String) : Option Holding :=
  o.records.find? name

/-- Give a binding an earlier record again; none means that it had none. -/
def restore (o : Ownership) (name : String) : Option Holding → Ownership
  | some h => ⟨o.records.insert name h⟩
  | none => ⟨o.records.erase name⟩

/-- Where the value of a binding went. -/
def movedAt? (o : Ownership) (name : String) : Option MoveSite :=
  match o.state? name with
  | some (.moved site) => some site
  | _ => none

def isMoved (o : Ownership) (name : String) : Bool :=
  (o.movedAt? name).isSome

def push (o : Ownership) : Checkpoint × Ownership :=
  let (c, records) := o.records.push
  (c, ⟨records⟩)

def pop (o : Ownership) (c : Checkpoint) : Ownership :=
  ⟨o.records.pop c⟩

end Ownership
end CarvFront
