import CarvFront.Grammar.Parser

/-! The grammar of types. -/
namespace CarvFront.Grammar
open CarvFront.Parser

/-- The word of a basic type. -/
def basicType? : String → Option BasicType
  | "int" => some .int
  | "float" => some .float
  | "bool" => some .bool
  | "string" => some .string
  | "char" => some .char
  | "void" => some .void
  | "any" => some .any
  | _ => none

/-- `< T >`. Of a sign that closes more than this, the rest is left for what follows. -/
def angled (type : Parser TypeExpr) : Parser TypeExpr := do
  sym .less
  let inner ← type
  match ← peek with
  | .sym .shr => become (.sym .greater)
  | .sym .greaterEq => become (.sym .eq)
  | _ => sym .greater
  pure inner

/-- A type that starts with a name: a basic type, a generic one, or the name itself. -/
def namedType (type : Parser TypeExpr) (name : String) : Parser (Span → TypeExpr) := do
  match basicType? name with
  | some t => pure (.basic · t)
  | none =>
    let generic ← isAt (.sym .less)
    if name = "chan" ∧ generic then
      let inner ← angled type
      pure (.chan · inner)
    else if name = "Future" ∧ generic then
      let inner ← angled type
      pure (.future · inner)
    else pure (.named · name)

/-- `(T1, T2) -> R` after `fn`. Without an arrow nothing is returned, which is noted at the closing
parenthesis. -/
def functionType (type : Parser TypeExpr) : Parser (Span → TypeExpr) := do
  sym .lparen
  let params ← items .rparen type
  let close ← before
  if ← eat (.sym .arrow) then
    let ret ← type
    pure (.fn · params ret)
  else pure (.fn · params (.basic close .void))

/-- A type without the question marks behind it. The types inside are read by `type`. -/
def bareType (type : Parser TypeExpr) : Parser (Span → TypeExpr) := do
  match ← peek with
  | .word .nilKw => do
    let _ ← next
    pure (.basic · .nil)
  | .sym .lbracket => do
    let _ ← next
    let elem ← type
    sym .rbracket
    pure (.array · elem)
  | .sym .lbrace => do
    let _ ← next
    let key ← type
    sym .colon
    let value ← type
    sym .rbrace
    pure (.map · key value)
  | .word .fnKw => do
    let _ ← next
    functionType type
  | .sym .amp => do
    let _ ← next
    let mutable ← eat (.word .mutKw)
    let inner ← type
    pure (.ref · mutable inner)
  | .ident name => do
    let _ ← next
    namedType type name
  | got => fail (.expected .type got)

/-- At most `n` question marks behind a type that starts at `start`. -/
def optionalWithin (start : Span) : Nat → TypeExpr → Parser TypeExpr
  | 0, t => pure t
  | n + 1, t => do
    if ← eat (.sym .question) then
      let stop ← before
      optionalWithin start n (.optional (start.merge stop) t)
    else pure t

/-- A type. The types inside are read by `type`. -/
def typeExpr (type : Parser TypeExpr) : Parser TypeExpr := do
  let start ← here
  let make ← bareType type
  let stop ← before
  let n ← remaining
  optionalWithin start n (make (start.merge stop))

end CarvFront.Grammar
