/-! The operators of expressions. -/
namespace CarvFront

/-- Operators with two operands. -/
inductive BinOp where
  | or | and
  | bitOr | bitXor | bitAnd
  | eq | notEq
  | less | greater | lessEq | greaterEq
  | shl | shr
  | add | sub | mul | div | mod
deriving DecidableEq

def BinOp.text : BinOp → String
  | .or => "||"
  | .and => "&&"
  | .bitOr => "|"
  | .bitXor => "^"
  | .bitAnd => "&"
  | .eq => "=="
  | .notEq => "!="
  | .less => "<"
  | .greater => ">"
  | .lessEq => "<="
  | .greaterEq => ">="
  | .shl => "<<"
  | .shr => ">>"
  | .add => "+"
  | .sub => "-"
  | .mul => "*"
  | .div => "/"
  | .mod => "%"

/-- Operators before their operand. Borrowing, following a reference and awaiting have expressions
of their own. -/
inductive UnaryOp where
  | neg
  | not
  | bitNot
deriving DecidableEq

def UnaryOp.text : UnaryOp → String
  | .neg => "-"
  | .not => "!"
  | .bitNot => "~"

/-- Assignments: plain, or with an operator that is applied first. -/
inductive AssignOp where
  | assign
  | add | sub | mul | div | mod
  | bitAnd | bitOr | bitXor
deriving DecidableEq

namespace AssignOp

/-- The operator that an assignment applies. -/
def binary? : AssignOp → Option BinOp
  | .assign => none
  | .add => some .add
  | .sub => some .sub
  | .mul => some .mul
  | .div => some .div
  | .mod => some .mod
  | .bitAnd => some .bitAnd
  | .bitOr => some .bitOr
  | .bitXor => some .bitXor

def text (op : AssignOp) : String :=
  (op.binary?.map BinOp.text).getD "" ++ "="

end AssignOp
end CarvFront
