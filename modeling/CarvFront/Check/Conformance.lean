import CarvFront.Check.State

/-! Whether a class has the methods that an interface asks for. -/
namespace CarvFront

/-- An implementation of an interface by a class, with the methods of both. -/
structure Conformance where
  interface : String
  cls : String
  required : Table MethodTy
  provided : Table MethodTy
  /-- The methods written in the implementation. -/
  methods : List Method
  /-- The implementation as a whole. -/
  span : Span

namespace Conformance

/-- Where a method is written, or else the whole implementation. -/
def methodSpan (c : Conformance) (name : String) : Span :=
  match c.methods.find? (·.name.name = name) with
  | some m => m.span
  | none => c.span

/-- The parameters that do not take what the interface lets callers pass, with their positions from
`i` on. -/
def parameters (c : Conformance) (impls : Implements) (name : String) (span : Span) (i : Nat) :
    List Ty → List Ty → List Finding
  | want :: wants, got :: gots =>
    (if want.assignable impls got then []
     else [⟨.parameterMismatch i name c.interface want got, span⟩])
      ++ c.parameters impls name span (i + 1) wants gots
  | _, _ => []

/-- What is wrong with a method that is there. -/
def method (c : Conformance) (impls : Implements) (name : String) (want got : MethodTy) :
    List Finding :=
  let span := c.methodSpan name
  (if want.fn.params.length ≠ got.fn.params.length then
    [⟨.methodArity name c.interface want.fn.params.length got.fn.params.length, span⟩]
   else c.parameters impls name span 1 want.fn.params got.fn.params)
  ++ (if got.fn.ret.assignable impls want.fn.ret then []
      else [⟨.returnMismatch name c.interface want.fn.ret got.fn.ret, span⟩])
  ++ (if want.receiver = got.receiver then []
      else [⟨.receiverMismatch name c.interface want.receiver got.receiver, span⟩])

/-- What is wrong with a method that the interface asks for. -/
def one (c : Conformance) (impls : Implements) (name : String) (want : MethodTy) :
    List Finding :=
  match c.provided.find? name with
  | none => [⟨.missingMethod name c.interface c.cls, c.span⟩]
  | some got => c.method impls name want got

/-- What is wrong with an implementation, method by method in the order of their names. -/
def findings (c : Conformance) (impls : Implements) : List Finding :=
  c.required.entries.flatMap fun (name, want) => c.one impls name want

end Conformance
end CarvFront
