import CarvFront.Borrow
import CarvFront.Ownership

/-! What becomes of the values of bindings while a program is read: who owns them and who borrows
them. -/
namespace CarvFront

/-- A way to keep track of moves and borrows. Pieces of code are entered and left in pairs, one
inside the other. -/
class Tracking (τ : Type) where
  /-- At the start of a program. -/
  empty : τ
  /-- Enter a loop or the body of a function. -/
  enterFrame : τ → τ
  leaveFrame : τ → τ
  /-- Enter any other block. -/
  enterBlock : τ → τ
  leaveBlock : τ → τ
  /-- Bind a name. -/
  bind : String → Ty → τ → τ
  /-- Give the value of a binding away. -/
  move : String → MoveSite → τ → τ
  /-- Where the value of a binding went. -/
  movedAt? : τ → String → Option MoveSite
  /-- Borrow a binding, mutably or not, and tell what this is in conflict with. -/
  borrow : String → Bool → τ → List BorrowConflict × τ
  isBorrowed : τ → String → Bool
  /-- The borrowed names in order. -/
  borrowed : τ → List String

/-- A piece of code that was entered, and what has to be undone when it is left. -/
inductive Region where
  /-- A loop or the body of a function: all moves and borrows. -/
  | frame (ownership borrows : Checkpoint)
  /-- Any other block: the borrows, and the records that its own bindings hide. -/
  | block (borrows : Checkpoint) (hidden : List (String × Option Holding))

/-- Moves and borrows by name, and the pieces of code around, the innermost first. -/
structure Custody where
  ownership : Ownership
  borrows : Borrows
  regions : List Region

namespace Custody

def empty : Custody := ⟨.empty, .empty, []⟩

def enterFrame (c : Custody) : Custody :=
  let (o, ownership) := c.ownership.push
  let (b, borrows) := c.borrows.push
  ⟨ownership, borrows, .frame o b :: c.regions⟩

/-- Whatever was moved or borrowed inside is forgotten. -/
def leaveFrame (c : Custody) : Custody :=
  match c.regions with
  | .frame o b :: regions => ⟨c.ownership.pop o, c.borrows.pop b, regions⟩
  | _ => c

def enterBlock (c : Custody) : Custody :=
  let (b, borrows) := c.borrows.push
  { c with borrows, regions := .block b [] :: c.regions }

/-- Moves made inside stay, but for the names that the block bound itself. -/
def leaveBlock (c : Custody) : Custody :=
  match c.regions with
  | .block b hidden :: regions =>
    ⟨hidden.foldl (fun o (name, record) => o.restore name record) c.ownership, c.borrows.pop b,
      regions⟩
  | _ => c

/-- Keep the record of a name that is bound in a block for the first time. -/
def hide (c : Custody) (name : String) : List Region → List Region
  | .block b hidden :: regions =>
    if hidden.any (·.1 = name) then .block b hidden :: regions
    else .block b (hidden ++ [(name, c.ownership.state? name)]) :: regions
  | regions => regions

def bind (name : String) (ty : Ty) (c : Custody) : Custody :=
  { c with ownership := c.ownership.track name ty, regions := c.hide name c.regions }

def move (name : String) (site : MoveSite) (c : Custody) : Custody :=
  { c with ownership := (c.ownership.markMoved name site.line site.destination).2 }

def borrow (name : String) (mutable : Bool) (c : Custody) : List BorrowConflict × Custody :=
  let (conflicts, borrows) := c.borrows.borrow name mutable
  (conflicts, { c with borrows })

instance : Tracking Custody where
  empty := empty
  enterFrame := enterFrame
  leaveFrame := leaveFrame
  enterBlock := enterBlock
  leaveBlock := leaveBlock
  bind := bind
  move := move
  movedAt? c := c.ownership.movedAt?
  borrow := borrow
  isBorrowed c := c.borrows.isBorrowed
  borrowed c := c.borrows.active

end Custody
end CarvFront
