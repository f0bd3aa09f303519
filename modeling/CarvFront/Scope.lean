import CarvFront.Table
import CarvFront.Ty.Basic

/-! Nested scopes of names. -/
namespace CarvFront

/-- What code a scope belongs to. -/
inductive ScopeKind where
  /-- The top of a program. -/
  | global
  /-- The body of a function, method or lambda. -/
  | function (async : Bool)
  /-- The header and body of a loop. -/
  | loop
  /-- Any other block. -/
  | block
deriving DecidableEq

def ScopeKind.isFunction : ScopeKind → Bool
  | .function _ => true
  | _ => false

/-- The names bound in one piece of code. -/
structure Scope where
  kind : ScopeKind
  names : Table Ty

/-- The scopes around a place: the innermost one and those around it, from the inside out. There is
always one. -/
structure Scopes where
  inner : Scope
  outer : List Scope

namespace Scopes

/-- Only the scope of the program, without names. -/
def empty : Scopes := ⟨⟨.global, ∅⟩, []⟩

/-- All scopes from the inside out. -/
def toList (s : Scopes) : List Scope :=
  s.inner :: s.outer

/-- Enter a scope. -/
def push (s : Scopes) (kind : ScopeKind) : Scopes :=
  ⟨⟨kind, ∅⟩, s.toList⟩

/-- Leave the innermost scope. The last one stays. -/
def pop (s : Scopes) : Scopes :=
  match s.outer with
  | [] => s
  | scope :: outer => ⟨scope, outer⟩

/-- Bind a name in the innermost scope, in place of what it was there. -/
def define (s : Scopes) (name : String) (ty : Ty) : Scopes :=
  { s with inner := { s.inner with names := s.inner.names.insert name ty } }

/-- The type of a name, by its innermost binding. -/
def lookup (s : Scopes) (name : String) : Option Ty :=
  s.toList.findSome? fun scope => scope.names.find? name

/-- Whether the innermost binding of a name is one of the program itself. -/
def resolvesGlobally (s : Scopes) (name : String) : Bool :=
  match s.toList.find? fun scope => scope.names.contains name with
  | some scope => scope.kind = .global
  | none => false

/-- How many scopes there are. -/
def depth (s : Scopes) : Nat :=
  s.toList.length

def atGlobal (s : Scopes) : Bool :=
  s.outer.isEmpty

/-- Whether there is a loop around, inside the function around. -/
def inLoop (s : Scopes) : Bool :=
  (s.toList.takeWhile fun scope => !scope.kind.isFunction).any fun scope => scope.kind = .loop

/-- Whether the innermost function around is asynchronous. -/
def inAsync (s : Scopes) : Bool :=
  match s.toList.find? fun scope => scope.kind.isFunction with
  | some scope => scope.kind = .function true
  | none => false

theorem pop_push (s : Scopes) (kind : ScopeKind) : (s.push kind).pop = s := rfl

theorem lookup_define (s : Scopes) (name other : String) (ty : Ty) :
    (s.define name ty).lookup other = if name = other then some ty else s.lookup other := by
  by_cases h : name = other <;>
    simp [lookup, toList, define, List.findSome?_cons, Table.find?_insert, h]

end Scopes
end CarvFront
