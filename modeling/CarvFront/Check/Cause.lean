import CarvFront.Borrow
import CarvFront.Ty.Basic
import CarvFront.Token.Basic
import CarvFront.Syntax.Tree
import CarvFront.Diagnostic.Code

/-! What can be wrong with a well-formed program. Each cause has a code, a severity and a message. -/
namespace CarvFront

/-- The statements whose condition has to be true or false. -/
inductive Construct where
  | ifStmt
  | whileStmt
  | forStmt
deriving DecidableEq

def Construct.text : Construct → String
  | .ifStmt => "if"
  | .whileStmt => "while"
  | .forStmt => "for"

/-- What a call calls: something with a name, or some function. -/
inductive Callee where
  | named (name : String)
  | anonymous
deriving DecidableEq

def Callee.text : Callee → String
  | .named name => "'" ++ name ++ "'"
  | .anonymous => "function"

/-- A mistake, or a risk, in a program. -/
inductive Cause where
  -- types
  | unknownType (name : String)
  | unknownClass (name : String)
  | cannotAssign (source target : Ty)
  | cannotReturn (source target : Ty)
  | conditionNotBool (construct : Construct) (got : Ty)
  | argument (position : Nat) (callee : Callee) (source target : Ty)
  | fieldValue (field : String) (source target : Ty)
  | fieldDefault (field : String) (source target : Ty)
  | arrayIndex (got : Ty)
  | stringIndex (got : Ty)
  | mapKey (key got : Ty)
  | notIndexable (ty : Ty)
  | arithmetic (op : BinOp) (left right : Ty)
  | comparison (op : BinOp) (left right : Ty)
  | logical (op : BinOp) (left right : Ty)
  | bitwise (op : BinOp) (left right : Ty)
  | unaryOperand (op : UnaryOp) (got : Ty)
  -- names and members
  | argumentCount (callee : Callee) (wanted got : Nat)
  | undefined (name : String)
  | noMember (ty : Ty) (member : String)
  | noField (ty : Ty) (field : String)
  | noClassMember (cls member : String)
  | noClassField (cls field : String)
  | noInterfaceMethod (interface method : String)
  | noModuleMember (module member : String)
  | invalidTarget
  | outsideLoop (jump : Keyword)
  -- ownership and borrowing
  | useAfterMove (name : String) (line : Nat)
  | borrowConflict (conflict : BorrowConflict)
  | assignWhileBorrowed (name : String)
  | borrowOfMoved (name : String)
  | invalidDeref (ty : Ty)
  | referenceEscapes
  | callThroughShared (method cls : String)
  | assignThroughShared (field : String)
  -- interfaces
  | missingMethod (method interface cls : String)
  | methodArity (method interface : String) (wanted got : Nat)
  | returnMismatch (method interface : String) (wanted got : Ty)
  | parameterMismatch (position : Nat) (method interface : String) (wanted got : Ty)
  | receiverMismatch (method interface : String) (wanted got : Receiver)
  | callThroughSharedInterface (method interface : String)
  | implOfUnknownInterface (name : String)
  | implForUnknownClass (name : String)
  -- awaiting
  | awaitOutsideAsync
  | awaitNonFuture (got : Ty)
  | borrowAcrossAwait (names : List String)

namespace Cause

def code : Cause → Code
  | .unknownType _ | .unknownClass _ => .unknownType
  | .cannotAssign _ _ | .cannotReturn _ _ | .conditionNotBool _ _ | .argument _ _ _ _
  | .fieldValue _ _ _ | .fieldDefault _ _ _ | .arrayIndex _ | .stringIndex _ | .mapKey _ _
  | .notIndexable _ | .arithmetic _ _ _ | .comparison _ _ _ | .logical _ _ _ | .bitwise _ _ _
  | .unaryOperand _ _ => .typeMismatch
  | .argumentCount _ _ _ => .wrongArgumentCount
  | .undefined _ => .undefinedName
  | .noMember _ _ | .noField _ _ | .noClassMember _ _ | .noClassField _ _
  | .noInterfaceMethod _ _ => .unknownMember
  | .noModuleMember _ _ => .unknownModuleMember
  | .invalidTarget => .invalidAssignTarget
  | .outsideLoop _ => .controlOutsideLoop
  | .useAfterMove _ _ => .useAfterMove
  | .borrowConflict _ => .borrowConflict
  | .assignWhileBorrowed _ => .assignWhileBorrowed
  | .borrowOfMoved _ => .borrowOfMoved
  | .invalidDeref _ => .invalidDeref
  | .referenceEscapes => .referenceEscapes
  | .callThroughShared _ _ | .assignThroughShared _ => .mutationThroughShared
  | .missingMethod _ _ _ => .missingMethod
  | .methodArity _ _ _ _ => .methodArity
  | .returnMismatch _ _ _ _ => .returnMismatch
  | .parameterMismatch _ _ _ _ _ => .parameterMismatch
  | .receiverMismatch _ _ _ _ => .receiverMismatch
  | .callThroughSharedInterface _ _ => .mutMethodThroughShared
  | .implOfUnknownInterface _ | .implForUnknownClass _ => .unknownImplTarget
  | .awaitOutsideAsync => .awaitOutsideAsync
  | .awaitNonFuture _ => .awaitNonFuture
  | .borrowAcrossAwait _ => .borrowAcrossAwait

/-- Moves, borrows and the ways of taking an object are only advised on. -/
def severity : Cause → Severity
  | .useAfterMove _ _ | .borrowConflict _ | .assignWhileBorrowed _ | .borrowOfMoved _
  | .invalidDeref _ | .referenceEscapes | .callThroughShared _ _ | .assignThroughShared _
  | .receiverMismatch _ _ _ _ => .warning
  | _ => .error

private def assign (source target : Ty) : String :=
  "cannot assign " ++ source.text ++ " to " ++ target.text

private def operands (left right : Ty) : String :=
  left.text ++ " and " ++ right.text

private def wanted : UnaryOp → String
  | .neg => "a numeric"
  | .not => "a bool"
  | .bitNot => "an int"

private def quoted (names : List String) : String :=
  ", ".intercalate (names.map fun name => "'" ++ name ++ "'")

def message : Cause → String
  | .unknownType name => "unknown type '" ++ name ++ "'"
  | .unknownClass name => "unknown class '" ++ name ++ "'"
  | .cannotAssign source target => assign source target
  | .cannotReturn source target =>
    "cannot return " ++ source.text ++ " from a function returning " ++ target.text
  | .conditionNotBool construct got =>
    construct.text ++ " condition must be bool, got " ++ got.text
  | .argument position callee source target =>
    "argument " ++ toString position ++ " to " ++ callee.text ++ ": " ++ assign source target
  | .fieldValue field source target => "field '" ++ field ++ "': " ++ assign source target
  | .fieldDefault field source target =>
    "default for field '" ++ field ++ "': " ++ assign source target
  | .arrayIndex got => "array index must be int, got " ++ got.text
  | .stringIndex got => "string index must be int, got " ++ got.text
  | .mapKey key got => "map key must be " ++ key.text ++ ", got " ++ got.text
  | .notIndexable ty => "cannot index into " ++ ty.text
  | .arithmetic op left right =>
    "operator '" ++ op.text ++ "' cannot be applied to " ++ operands left right
  | .comparison op left right =>
    "cannot compare " ++ operands left right ++ " with '" ++ op.text ++ "'"
  | .logical op left right =>
    "operator '" ++ op.text ++ "' requires bool operands, got " ++ operands left right
  | .bitwise op left right =>
    "operator '" ++ op.text ++ "' requires int operands, got " ++ operands left right
  | .unaryOperand op got =>
    "unary '" ++ op.text ++ "' requires " ++ wanted op ++ " operand, got " ++ got.text
  | .argumentCount callee wanted got =>
    callee.text ++ " expects " ++ toString wanted ++ " argument(s), got " ++ toString got
  | .undefined name => "undefined: '" ++ name ++ "'"
  | .noMember ty member => "type " ++ ty.text ++ " has no member '" ++ member ++ "'"
  | .noField ty field => "type " ++ ty.text ++ " has no field '" ++ field ++ "'"
  | .noClassMember cls member =>
    "class '" ++ cls ++ "' has no field or method '" ++ member ++ "'"
  | .noClassField cls field => "class '" ++ cls ++ "' has no field '" ++ field ++ "'"
  | .noInterfaceMethod interface method =>
    "interface '" ++ interface ++ "' has no method '" ++ method ++ "'"
  | .noModuleMember module member =>
    "module '" ++ module ++ "' has no member '" ++ member ++ "'"
  | .invalidTarget => "invalid assignment target"
  | .outsideLoop jump => "'" ++ jump.text ++ "' outside of a loop"
  | .useAfterMove name line =>
    "use of moved value '" ++ name ++ "' (moved at line " ++ toString line ++ ")"
  | .borrowConflict conflict => conflict.text
  | .assignWhileBorrowed name => "cannot assign to '" ++ name ++ "' while it is borrowed"
  | .borrowOfMoved name => "cannot borrow moved value '" ++ name ++ "'"
  | .invalidDeref ty => "cannot dereference non-reference type " ++ ty.text
  | .referenceEscapes => "reference cannot escape function scope"
  | .callThroughShared method cls =>
    "cannot call '&mut self' method '" ++ method ++ "' through a shared reference to '" ++ cls
      ++ "'"
  | .assignThroughShared field =>
    "cannot assign to field '" ++ field ++ "' through a shared reference"
  | .missingMethod method interface cls =>
    "missing method '" ++ method ++ "' in impl of '" ++ interface ++ "' for '" ++ cls ++ "'"
  | .methodArity method interface wanted got =>
    "wrong number of parameters for method '" ++ method ++ "': interface '" ++ interface
      ++ "' declares " ++ toString wanted ++ ", found " ++ toString got
  | .returnMismatch method interface wanted got =>
    "return type mismatch for method '" ++ method ++ "': interface '" ++ interface
      ++ "' declares " ++ wanted.text ++ ", found " ++ got.text
  | .parameterMismatch position method interface wanted got =>
    "parameter " ++ toString position ++ " of method '" ++ method ++ "' has type " ++ got.text
      ++ ", but interface '" ++ interface ++ "' declares " ++ wanted.text
  | .receiverMismatch method interface wanted got =>
    "receiver mismatch for method '" ++ method ++ "': interface '" ++ interface
      ++ "' declares '" ++ wanted.text ++ "', found '" ++ got.text ++ "'"
  | .callThroughSharedInterface method interface =>
    "cannot call '&mut self' method '" ++ method ++ "' through a shared '&" ++ interface
      ++ "' reference"
  | .implOfUnknownInterface name => "unknown interface '" ++ name ++ "'"
  | .implForUnknownClass name => "unknown class '" ++ name ++ "' in impl"
  | .awaitOutsideAsync => "'await' is only allowed inside an async function"
  | .awaitNonFuture got => "await requires Future type, got " ++ got.text
  | .borrowAcrossAwait names => "borrow of " ++ quoted names ++ " held across await"

end Cause

/-- A cause and where it was found. -/
structure Finding where
  cause : Cause
  span : Span

end CarvFront
