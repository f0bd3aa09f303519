import CarvFront.Scope
import CarvFront.Builtin
import CarvFront.Custody
import CarvFront.Ty.Assignable
import CarvFront.Check.Cause

/-! What is known at a point of a program while it is checked, and the elementary steps. -/
namespace CarvFront

/-- A method: how it takes its object, and its type without it. -/
structure MethodTy where
  receiver : Receiver
  fn : FnTy

/-- What is known of a class. -/
structure ClassDef where
  fields : Table Ty
  methods : Table MethodTy

/-- A type, and what was found wrong on the way to it. -/
structure Judgement where
  ty : Ty
  findings : List Finding := []

/-- What is known at a point of a program. -/
structure State (τ : Type) where
  scopes : Scopes
  /-- The moves and borrows up to here. -/
  tracking : τ
  classes : Table ClassDef
  /-- The methods of each interface. -/
  interfaces : Table (Table MethodTy)
  /-- Classes with the interfaces that they declare to implement. -/
  impls : List (String × String)
  /-- The types of functions and methods that were declared but not yet come to, by their spans. -/
  signatures : List (Span × FnTy)
  /-- What the functions around have to return, the innermost first. -/
  returns : List (Option Ty)
  /-- The variadic functions whose name the program gave to something else. -/
  replaced : List String
  /-- Whether names may come from a module whose members are not known. -/
  openNames : Bool
  /-- The latest first. -/
  findings : List Finding
  /-- The types of expressions, the latest first. -/
  types : List (Span × Ty)

namespace State
variable {τ : Type}

/-- Before a program only the functions that are built in are known. -/
def start [Tracking τ] : State τ where
  scopes := Builtin.globals.entries.foldl (fun s (name, f) => s.define name f.toTy) .empty
  tracking := Tracking.empty
  classes := ∅
  interfaces := ∅
  impls := []
  signatures := []
  returns := []
  replaced := []
  openNames := false
  findings := []
  types := []

def implements (s : State τ) : Implements :=
  fun cls interface => s.impls.contains (cls, interface)

/-- Whether a value of type `a` may stand where a `b` is wanted. -/
def assignable (s : State τ) (a b : Ty) : Bool :=
  a.assignable s.implements b

/-- The type that a name stands for. -/
def known (s : State τ) (name : String) : Option Ty :=
  if s.classes.contains name then some (.cls name)
  else if s.interfaces.contains name then some (.interface name)
  else none

/-- Whether a name calls a variadic function that is built in. -/
def isVariadic (s : State τ) (name : String) : Bool :=
  Builtin.isVariadic name && !s.replaced.contains name && s.scopes.resolvesGlobally name

/-- Bind a name in the innermost scope. -/
def bind [Tracking τ] (s : State τ) (name : String) (ty : Ty) : State τ :=
  { s with
    replaced :=
      if s.scopes.atGlobal && Builtin.isVariadic name then name :: s.replaced else s.replaced
    tracking := Tracking.bind name ty s.tracking
    scopes := s.scopes.define name ty }

/-- Keep the type of a declaration until it is come to. -/
def keepSignature (s : State τ) (span : Span) (f : FnTy) : State τ :=
  { s with signatures := (span, f) :: s.signatures.filter (·.1 ≠ span) }

/-- The kept type of a declaration. -/
def signature? (s : State τ) (span : Span) : Option FnTy :=
  (s.signatures.find? (·.1 = span)).map (·.2)

/-- A declaration was come to. -/
def dropSignature (s : State τ) (span : Span) : State τ :=
  { s with signatures := s.signatures.filter (·.1 ≠ span) }

def enterFrame [Tracking τ] (s : State τ) (kind : ScopeKind) : State τ :=
  { s with scopes := s.scopes.push kind, tracking := Tracking.enterFrame s.tracking }

def leaveFrame [Tracking τ] (s : State τ) : State τ :=
  { s with scopes := s.scopes.pop, tracking := Tracking.leaveFrame s.tracking }

def enterBlock [Tracking τ] (s : State τ) : State τ :=
  { s with scopes := s.scopes.push .block, tracking := Tracking.enterBlock s.tracking }

def leaveBlock [Tracking τ] (s : State τ) : State τ :=
  { s with scopes := s.scopes.pop, tracking := Tracking.leaveBlock s.tracking }

end State

/-- A step of checking. -/
abbrev Check (τ : Type) := StateM (State τ)

namespace Check
variable {τ α : Type}

/-- Report findings in order. -/
def report (fs : List Finding) : Check τ Unit :=
  modify fun s => { s with findings := fs.reverse ++ s.findings }

/-- Report a cause unless all is well. -/
def demand (ok : Bool) (cause : Cause) (span : Span) : Check τ Unit :=
  if ok then pure () else report [⟨cause, span⟩]

/-- Report what was found, and go on with the type. -/
def accept (j : Judgement) : Check τ Ty := do
  report j.findings
  pure j.ty

/-- Demand that a value of type `a` may stand where a `b` is wanted. -/
def demandAssignable (a b : Ty) (cause : Cause) (span : Span) : Check τ Unit := do
  demand ((← get).assignable a b) cause span

/-- Note the type of the expression with that span. -/
def recorded (span : Span) (step : Check τ Ty) : Check τ Ty := do
  let ty ← step
  modify fun s => { s with types := (span, ty) :: s.types }
  pure ty

/-- Code in which a return has to give `expected`, if that is known. -/
def returning (expected : Option Ty) (step : Check τ Unit) : Check τ Unit := do
  modify fun s => { s with returns := expected :: s.returns }
  step
  modify fun s => { s with returns := s.returns.tail }

variable [Tracking τ]

def bind (name : String) (ty : Ty) : Check τ Unit :=
  modify (·.bind name ty)

/-- A loop or the body of a function. -/
def inFrame (kind : ScopeKind) (step : Check τ Unit) : Check τ Unit := do
  modify (·.enterFrame kind)
  step
  modify (·.leaveFrame)

/-- Any other block. -/
def inBlock (step : Check τ Unit) : Check τ Unit := do
  modify (·.enterBlock)
  step
  modify (·.leaveBlock)

/-- The type of a name that is used. -/
def lookup (name : String) (span : Span) : Check τ Ty := do
  let s ← get
  match s.scopes.lookup name with
  | some ty => pure ty
  | none =>
    if s.openNames then pure .any
    else accept ⟨.unknown, [⟨.undefined name, span⟩]⟩

/-- Warn when the value of a binding has been given away. -/
def warnIfMoved (name : String) (span : Span) : Check τ Unit := do
  match Tracking.movedAt? (← get).tracking name with
  | some site => report [⟨.useAfterMove name site.line, span⟩]
  | none => pure ()

/-- A name that is read. -/
def use (name : String) (span : Span) : Check τ Ty := do
  let ty ← lookup name span
  warnIfMoved name span
  pure ty

/-- Give the value of an expression away. Only a binding has anything to lose. -/
def give (value : Expr) (ty : Ty) (site : MoveSite) : Check τ Unit :=
  match value.ident? with
  | some name =>
    if ty.isMove then modify fun s => { s with tracking := Tracking.move name site s.tracking }
    else pure ()
  | none => pure ()

/-- Borrow a binding. What was given away cannot be borrowed. -/
def borrow (name : String) (mutable : Bool) (span : Span) : Check τ Unit := do
  let s ← get
  if (Tracking.movedAt? s.tracking name).isSome then report [⟨.borrowOfMoved name, span⟩]
  else
    let (conflicts, tracking) := Tracking.borrow name mutable s.tracking
    set { s with tracking }
    report (conflicts.map fun c => ⟨.borrowConflict c, span⟩)

/-- What is borrowed must not be assigned to. -/
def demandFree (name : String) (span : Span) : Check τ Unit := do
  demand (!Tracking.isBorrowed (← get).tracking name) (.assignWhileBorrowed name) span

/-- Nothing may be borrowed here. -/
def demandNoBorrows (span : Span) : Check τ Unit := do
  let held := Tracking.borrowed (← get).tracking
  demand held.isEmpty (.borrowAcrossAwait held) span

end Check
end CarvFront
