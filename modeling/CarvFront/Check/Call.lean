import CarvFront.Check.Member

/-! Calls, assignments and awaiting, once the types of their parts are known. -/
namespace CarvFront

/-- How messages call what an expression calls. -/
def Expr.callee : Expr → Callee
  | .ident _ name => .named name
  | .member _ _ name => .named name.name
  | _ => .anonymous

/-- A call whose arguments are still to come. -/
structure OpenCall where
  callee : Callee
  params : List Ty
  /-- Whether bindings that are passed give their value away. -/
  takes : Bool
  ret : Ty

/-- The type of what awaiting gives. `operand` is where the future stands. -/
def Ty.awaited (t : Ty) (operand : Span) : Judgement :=
  match t with
  | .future output => ⟨output, []⟩
  | t => ⟨t, if t.isDynamic then [] else [⟨.awaitNonFuture t, operand⟩]⟩

namespace Check
variable {τ : Type} [Tracking τ]

/-- A member that is read. -/
def readMember (object : Ty) (name : Ident) : Check τ Ty := do
  accept ((← get).member object name)

/-- An element that is read or assigned to. `place` is where the index stands. -/
def readElement (object index : Ty) (place span : Span) : Check τ Ty := do
  accept ((← get).element object index place span)

/-- Begin a call with a number of arguments. What is not a function can be called with anything and
gives anything. -/
def openCall (callee : Expr) (ty : Ty) (count : Nat) (span : Span) : Check τ OpenCall := do
  let s ← get
  match ty with
  | .fn params ret => do
    let variadic := (callee.ident?.map s.isVariadic).getD false
    demand (variadic || count = params.length)
      (.argumentCount callee.callee params.length count) span
    pure ⟨callee.callee, params, callee.callee ≠ .anonymous && !variadic, ret⟩
  | _ => pure ⟨.anonymous, [], false, .any⟩

/-- Pass the argument at a position. -/
def pass (call : OpenCall) (i : Nat) (arg : Expr) (ty : Ty) : Check τ Unit := do
  match call.params[i]? with
  | some param =>
    demandAssignable ty param (.argument (i + 1) call.callee ty param) arg.span
  | none => pure ()
  if call.takes then give arg ty ⟨arg.span.start.line, "function call"⟩

/-- Await a value. No borrow may be held meanwhile. -/
def await (ty : Ty) (operand span : Span) : Check τ Ty := do
  demand (← get).scopes.inAsync .awaitOutsideAsync span
  demandNoBorrows span
  accept (ty.awaited operand)

/-- Assign a value where there is one of type `target`. -/
def assign (target : Ty) (op : AssignOp) (value : Ty) (span : Span) : Check τ Unit := do
  let result ← match op.binary? with
    | some binary => accept (binary.result target value span)
    | none => pure value
  demandAssignable result target (.cannotAssign result target) span

/-- Assign to a binding. `place` is where its name stands. -/
def assignName (name : String) (place : Span) (op : AssignOp) (value : Ty) (span : Span) :
    Check τ Unit := do
  let target ← lookup name place
  if op ≠ .assign then warnIfMoved name place
  demandFree name place
  assign target op value span

/-- Assign to a field. `place` is where object and field stand. -/
def assignField (object : Ty) (member : Ident) (place : Span) (op : AssignOp) (value : Ty)
    (span : Span) : Check τ Unit := do
  let (target, findings) := (← get).assignedField object member place
  report findings
  match target with
  | some target => assign target op value span
  | none => pure ()

/-- Give a field of a new object its value. -/
def initialise (cls : String) (c : ClassDef) (field : Ident) (value : Ty) (span : Span) :
    Check τ Unit :=
  match c.fields.find? field.name with
  | some ty => demandAssignable value ty (.fieldValue field.name value ty) span
  | none => report [⟨.noClassField cls field.name, field.span⟩]

end Check
end CarvFront
