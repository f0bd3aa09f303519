import CarvFront.Check.State

/-! The types that annotations stand for. -/
namespace CarvFront

def BasicType.ty : BasicType → Ty
  | .int => .int
  | .float => .float
  | .bool => .bool
  | .string => .string
  | .char => .char
  | .void => .void
  | .any => .any
  | .nil => .nil

namespace TypeExpr

mutual

/-- The type that an annotation stands for, given the types with a name. -/
def ty (known : String → Option Ty) : TypeExpr → Ty
  | .basic _ t => t.ty
  | .array _ e => .array (e.ty known)
  | .map _ k v => .map (k.ty known) (v.ty known)
  | .fn _ ps r => .fn (tys known ps) (r.ty known)
  | .chan _ e => .chan (e.ty known)
  | .future _ e => .future (e.ty known)
  | .optional _ e => .optional (e.ty known)
  | .ref _ mutable e => .ref mutable (e.ty known)
  | .named _ name => (known name).getD .unknown

def tys (known : String → Option Ty) : List TypeExpr → List Ty
  | [] => []
  | t :: ts => t.ty known :: tys known ts

end

mutual

/-- The names in an annotation, in source order. -/
def names : TypeExpr → List Ident
  | .basic _ _ => []
  | .array _ e | .chan _ e | .future _ e | .optional _ e | .ref _ _ e => e.names
  | .map _ k v => k.names ++ v.names
  | .fn _ ps r => namesAll ps ++ r.names
  | .named span name => [⟨name, span⟩]

def namesAll : List TypeExpr → List Ident
  | [] => []
  | t :: ts => t.names ++ namesAll ts

end
end TypeExpr

namespace Signature

/-- The type of a function: anything for a parameter without a type, nothing for a result without
one, and a future if it is asynchronous. -/
def fnTy (known : String → Option Ty) (sig : Signature) : FnTy where
  params := sig.params.map fun p => (p.type.map (·.ty known)).getD .any
  ret :=
    let ret := (sig.ret.map (·.ty known)).getD .void
    if sig.async then .future ret else ret

/-- The names in the types of a signature, in source order. -/
def names (sig : Signature) : List Ident :=
  sig.params.flatMap (fun p => (p.type.map (·.names)).getD [])
    ++ (sig.ret.map (·.names)).getD []

end Signature

/-- The names that no type has. -/
def unknownTypes (known : String → Option Ty) (names : List Ident) : List Finding :=
  (names.filter fun n => (known n.name).isNone).map fun n => ⟨.unknownType n.name, n.span⟩

namespace Check
variable {τ : Type}

/-- The type of an annotation. -/
def resolve (t : TypeExpr) : Check τ Ty := do
  let known := (← get).known
  report (unknownTypes known t.names)
  pure (t.ty known)

/-- The type of a function, method or lambda. -/
def signature (sig : Signature) : Check τ FnTy := do
  let known := (← get).known
  report (unknownTypes known sig.names)
  pure (sig.fnTy known)

/-- The type of a function or method that is come to: the one it was declared with, if it was. -/
def declaredSignature (span : Span) (sig : Signature) : Check τ FnTy := do
  match (← get).signature? span with
  | some f => do
    modify (·.dropSignature span)
    pure f
  | none => signature sig

end Check
end CarvFront
