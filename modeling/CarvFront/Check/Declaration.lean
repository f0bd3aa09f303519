import CarvFront.Check.Annotation

/-! Classes, interfaces and implementations are known before the code beside them is checked, so
that they can name each other in any order. -/
namespace CarvFront

/-- Make the names of classes and interfaces known. -/
def State.reserve {τ : Type} (s : State τ) : Stmt → State τ
  | .classDecl _ name _ _ =>
    if s.classes.contains name.name then s
    else { s with classes := s.classes.insert name.name ⟨∅, ∅⟩ }
  | .interfaceDecl _ name _ =>
    if s.interfaces.contains name.name then s
    else { s with interfaces := s.interfaces.insert name.name ∅ }
  | _ => s

namespace Check
variable {τ : Type}

/-- The methods of an interface. Of two with one name the last counts. -/
def interfaceMethods (heads : List MethodHead) : Check τ (Table MethodTy) :=
  heads.foldlM (fun t m => do pure (t.insert m.name.name ⟨m.receiver, ← signature m.sig⟩)) ∅

/-- Add methods to those of a class, in place of earlier ones of the same name, and keep their
types for their bodies. -/
def addMethods (t : Table MethodTy) (methods : List Method) : Check τ (Table MethodTy) :=
  methods.foldlM (fun t m => do
    let f ← signature m.sig
    modify (·.keepSignature m.span f)
    pure (t.insert m.name.name ⟨m.receiver, f⟩)) t

def classFields (fields : List Field) : Check τ (Table Ty) :=
  fields.foldlM (fun t f => do pure (t.insert f.name.name (← resolve f.type))) ∅

def declareInterface : Stmt → Check τ Unit
  | .interfaceDecl _ name heads => do
    let methods ← interfaceMethods heads
    modify fun s => { s with interfaces := s.interfaces.insert name.name methods }
  | _ => pure ()

def declareClass : Stmt → Check τ Unit
  | .classDecl _ name fields methods => do
    let fields ← classFields fields
    let methods ← addMethods ∅ methods
    modify fun s => { s with classes := s.classes.insert name.name ⟨fields, methods⟩ }
  | _ => pure ()

/-- The methods of an implementation join those of its class. -/
def declareImpl : Stmt → Check τ Unit
  | .implDecl _ interface target methods => do
    match (← get).classes.find? target.name with
    | none => pure ()
    | some cls => do
      let methods ← addMethods cls.methods methods
      modify fun s =>
        { s with
          classes := s.classes.insert target.name { cls with methods }
          impls :=
            if s.interfaces.contains interface.name then (target.name, interface.name) :: s.impls
            else s.impls }
  | _ => pure ()

/-- Declare the types among some statements. -/
def declareTypes (stmts : List Stmt) : Check τ Unit := do
  modify fun s => stmts.foldl State.reserve s
  stmts.forM declareInterface
  stmts.forM declareClass
  stmts.forM declareImpl

end Check
end CarvFront
