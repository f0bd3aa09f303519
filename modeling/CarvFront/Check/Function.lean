import CarvFront.Check.Operator
import CarvFront.Check.Annotation

/-! Bodies of functions, and the statements that matter to what is around them. -/
namespace CarvFront

/-- The type of `self` in a method of `owner`. -/
def Receiver.self? (owner : Ty) : Receiver → Option Ty
  | .none => Option.none
  | .value => some owner
  | .ref => some (.ref false owner)
  | .refMut => some (.ref true owner)

/-- What the body of a function has to return, if that is written. -/
def FnTy.expected? (f : FnTy) (sig : Signature) : Option Ty :=
  if sig.ret.isSome then
    some (if sig.async then f.ret.output?.getD f.ret else f.ret)
  else none

namespace Check
variable {τ : Type} [Tracking τ]

/-- Bind the parameters of a function. -/
def bindAll (params : List Param) (tys : List Ty) : Check τ Unit :=
  (params.zip tys).forM fun (p, ty) => bind p.name.name ty

/-- The body of a function, method or lambda. -/
def function (sig : Signature) (f : FnTy) (self? : Option Ty) (body : Check τ Unit) :
    Check τ Unit :=
  inFrame (.function sig.async) do
    match self? with
    | some ty => bind "self" ty
    | none => pure ()
    bindAll sig.params f.params
    returning (f.expected? sig) body

/-- Warn when a reference is returned. -/
def warnIfEscapes (ty : Ty) (span : Span) : Check τ Unit :=
  match ty with
  | .ref _ _ => report [⟨.referenceEscapes, span⟩]
  | _ => pure ()

/-- What is returned has to be what the function around promises. -/
def demandReturn (ty : Ty) (span : Span) : Check τ Unit := do
  match (← get).returns with
  | some expected :: _ => demandAssignable ty expected (.cannotReturn ty expected) span
  | _ => pure ()

/-- Return a value, if there is one, of type `ty`. -/
def ret (span : Span) (value : Option Expr) (ty : Ty) : Check τ Unit := do
  match value with
  | some value => give value ty ⟨span.start.line, "return"⟩
  | none => pure ()
  warnIfEscapes ty span
  demandReturn ty span

/-- Leave a loop, or go on with its next turn. -/
def jump (word : Keyword) (span : Span) : Check τ Unit := do
  demand (← get).scopes.inLoop (.outsideLoop word) span

/-- A condition has to be true or false. -/
def condition (construct : Construct) (ty : Ty) (span : Span) : Check τ Unit :=
  demand (ty.fits .bool) (.conditionNotBool construct ty) span

/-- The type of a new binding: the one that is written, or else that of its value. -/
def bindingTy (type : Option TypeExpr) (value : Ty) (span : Span) : Check τ Ty := do
  match type with
  | some type => do
    let declared ← resolve type
    demandAssignable value declared (.cannotAssign value declared) span
    pure declared
  | none => pure value

end Check
end CarvFront
