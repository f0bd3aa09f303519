import CarvFront.Check.State

/-! The types of operations. Where operands do not fit, the operation still has a type, so that
checking can go on. -/
namespace CarvFront

/-- Whether a type is the wanted one or stands for all. -/
def Ty.fits (t wanted : Ty) : Bool :=
  t = wanted || t.isDynamic

/-- A type, with a cause unless all is well. -/
def Judgement.demand (ty : Ty) (ok : Bool) (cause : Cause) (span : Span) : Judgement :=
  ⟨ty, if ok then [] else [⟨cause, span⟩]⟩

namespace BinOp

/-- The type of `+`, `-`, `*`, `/` and `%`. -/
def arithmetic (op : BinOp) (left right : Ty) (span : Span) : Judgement :=
  if op = .add ∧ left = .string ∧ right = .string then ⟨.string, []⟩
  else if left.isDynamic || right.isDynamic then ⟨.any, []⟩
  else if left.isNumeric && right.isNumeric then
    ⟨if left = .float ∨ right = .float then .float else .int, []⟩
  else ⟨left, [⟨.arithmetic op left right, span⟩]⟩

/-- The type of an operation on two operands. -/
def result (op : BinOp) (left right : Ty) (span : Span) : Judgement :=
  match op with
  | .add | .sub | .mul | .div | .mod => op.arithmetic left right span
  | .eq | .notEq => ⟨.bool, []⟩
  | .less | .greater | .lessEq | .greaterEq =>
    .demand .bool
      ((left.isComparable || left.isDynamic) && (right.isComparable || right.isDynamic))
      (.comparison op left right) span
  | .and | .or =>
    .demand .bool (left.fits .bool && right.fits .bool) (.logical op left right) span
  | .bitAnd | .bitOr | .bitXor | .shl | .shr =>
    .demand .int (left.fits .int && right.fits .int) (.bitwise op left right) span

end BinOp

/-- The type of an operation on one operand. -/
def UnaryOp.result (op : UnaryOp) (operand : Ty) (span : Span) : Judgement :=
  match op with
  | .neg =>
    .demand operand (operand.isNumeric || operand.isDynamic) (.unaryOperand op operand) span
  | .not => .demand .bool (operand.fits .bool) (.unaryOperand op operand) span
  | .bitNot => .demand .int (operand.fits .int) (.unaryOperand op operand) span

/-- The type of what a reference leads to. -/
def Ty.deref (t : Ty) (span : Span) : Judgement :=
  match t with
  | .ref _ inner => ⟨inner, []⟩
  | t => ⟨t, if t.isDynamic then [] else [⟨.invalidDeref t, span⟩]⟩

end CarvFront
