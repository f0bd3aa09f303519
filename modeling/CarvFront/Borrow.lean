import CarvFront.Journal

/-! Which bindings are borrowed. A borrow lasts until the frame it was made in is closed. -/
namespace CarvFront

/-- The borrows of one binding. -/
structure Loans where
  /-- How many may only read. -/
  shared : Nat
  /-- Whether one may write. -/
  mutable : Bool
deriving DecidableEq

namespace Loans

def none : Loans := ⟨0, false⟩

/-- Whether there is any borrow. -/
def isActive (l : Loans) : Bool :=
  0 < l.shared || l.mutable

end Loans

/-- Two borrows of one binding that do not go together. -/
inductive BorrowConflict where
  | mutWhileShared
  | mutWhileMut
  | sharedWhileMut
deriving DecidableEq

def BorrowConflict.text : BorrowConflict → String
  | .mutWhileShared => "cannot mutably borrow: already immutably borrowed"
  | .mutWhileMut => "cannot mutably borrow: already mutably borrowed"
  | .sharedWhileMut => "cannot immutably borrow: already mutably borrowed"

namespace Loans

/-- The conflicts of one more borrow. -/
def conflicts (l : Loans) (mutable : Bool) : List BorrowConflict :=
  if mutable then
    (if 0 < l.shared then [.mutWhileShared] else []) ++ (if l.mutable then [.mutWhileMut] else [])
  else if l.mutable then [.sharedWhileMut]
  else []

/-- The borrows with one more. -/
def add (l : Loans) (mutable : Bool) : Loans :=
  if mutable then { l with mutable := true } else { l with shared := l.shared + 1 }

end Loans

/-- The borrows of all bindings, by name. -/
structure Borrows where
  loans : Journal Loans

namespace Borrows

def empty : Borrows := ⟨.empty⟩

/-- The borrows of a binding. -/
def of (b : Borrows) (name : String) : Loans :=
  (b.loans.find? name).getD .none

/-- Borrow a binding, and tell what this is in conflict with. The borrow counts all the same. -/
def borrow (b : Borrows) (name : String) (mutable : Bool) : List BorrowConflict × Borrows :=
  let loans := if b.loans.contains name then b.loans else b.loans.insert name .none
  ((b.of name).conflicts mutable, ⟨(loans.update name (·.add mutable)).2⟩)

def isBorrowed (b : Borrows) (name : String) : Bool :=
  (b.of name).isActive

/-- The borrowed names in order. -/
def active (b : Borrows) : List String :=
  (b.loans.entries.entries.filter fun e => e.2.isActive).map (·.1)

def push (b : Borrows) : Checkpoint × Borrows :=
  let (c, loans) := b.loans.push
  (c, ⟨loans⟩)

def pop (b : Borrows) (c : Checkpoint) : Borrows :=
  ⟨b.loans.pop c⟩

end Borrows
end CarvFront
