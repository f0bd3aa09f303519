import CarvFront.Table

/-! Tables that can be taken back to an earlier state. While a frame is open, every change notes the
value that it replaced; closing the frame undoes the changes, the last one first. -/
namespace CarvFront

/-- How many changes had been noted when a frame was opened. -/
structure Checkpoint where
  size : Nat
deriving DecidableEq

/-- A table, the values replaced while frames were open, the latest first, and the number of open
frames. -/
structure Journal (α : Type) where
  entries : Table α
  trail : List (String × Option α)
  frames : Nat

namespace Journal
variable {α : Type}

def empty : Journal α := ⟨∅, [], 0⟩

instance : Inhabited (Journal α) := ⟨empty⟩

def find? (j : Journal α) (name : String) : Option α :=
  j.entries.find? name

def contains (j : Journal α) (name : String) : Bool :=
  j.entries.contains name

/-- Open a frame. -/
def push (j : Journal α) : Checkpoint × Journal α :=
  (⟨j.trail.length⟩, { j with frames := j.frames + 1 })

/-- Give a name its old value again, or none. -/
def putBack (t : Table α) (name : String) : Option α → Table α
  | some v => t.insert name v
  | none => t.erase name

/-- Undo changes until only `size` are left. -/
def rewind (size : Nat) : Table α → List (String × Option α) → Table α × List (String × Option α)
  | t, [] => (t, [])
  | t, (name, old) :: trail =>
    if size ≤ trail.length then rewind size (putBack t name old) trail
    else (t, (name, old) :: trail)

/-- Close a frame. -/
def pop (j : Journal α) (c : Checkpoint) : Journal α :=
  let (entries, trail) := rewind c.size j.entries j.trail
  ⟨entries, trail, j.frames - 1⟩

/-- Note what a name had been, if a frame is open. -/
def note (j : Journal α) (name : String) (old : Option α) : Journal α :=
  if 0 < j.frames then { j with trail := (name, old) :: j.trail } else j

/-- Set the value of a name. -/
def insert (j : Journal α) (name : String) (value : α) : Journal α :=
  { j with entries := j.entries.insert name value }.note name (j.find? name)

/-- Remove a name, if it is there. -/
def erase (j : Journal α) (name : String) : Journal α :=
  match j.find? name with
  | some old => { j with entries := j.entries.erase name }.note name (some old)
  | none => j

/-- Change the value of a name, and tell whether there was one. -/
def update (j : Journal α) (name : String) (f : α → α) : Bool × Journal α :=
  match j.find? name with
  | some old => (true, { j with entries := j.entries.insert name (f old) }.note name (some old))
  | none => (false, j)

end Journal
end CarvFront
