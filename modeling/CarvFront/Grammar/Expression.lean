import CarvFront.Grammar.Type

/-! The grammar of expressions: assignment binds loosest, then pipes, then the binary operators by
level, then prefixes, then calls, members and indices. -/
namespace CarvFront.Grammar
open CarvFront.Parser

/-- How to read the constructs one level deeper: a type, an expression, the operand of a prefix and
the statements of a block. -/
structure Rules where
  type : Parser TypeExpr
  expr : Parser Expr
  operand : Parser Expr
  stmts : Parser (List Stmt)

variable (r : Rules)

/-- `{ … }` -/
def block : Parser Block := do
  let start ← here
  sym .lbrace
  let stmts ← r.stmts
  sym .rbrace
  let stop ← before
  pure ⟨start.merge stop, stmts⟩

/-! ### Signatures -/

/-- `: T`, or nothing. -/
def annotation : Parser (Option TypeExpr) := do
  if ← eat (.sym .colon) then
    let t ← r.type
    pure (some t)
  else pure none

/-- `x: T` or `x`. -/
def param : Parser Param := do
  let name ← ident
  let type ← annotation r
  let stop ← before
  pure ⟨name, type, name.span.merge stop⟩

/-- `-> T`, or nothing. -/
def returnType : Parser (Option TypeExpr) := do
  if ← eat (.sym .arrow) then
    let t ← r.type
    pure (some t)
  else pure none

/-- Parameters up to the closing parenthesis, and the return type. -/
def signature (async : Bool) : Parser Signature := do
  let params ← items .rparen (param r)
  let ret ← returnType r
  pure ⟨async, params, ret⟩

/-! ### Primary expressions -/

/-- A function without a name. -/
def lambda : Parser Expr := do
  let start ← here
  let async ← eat (.word .asyncKw)
  word .fnKw
  sym .lparen
  let sig ← signature r async
  let body ← block r
  pure (.lambda (start.merge body.span) sig body)

/-- Expressions of one token. -/
def literal? : Kind → Option (Span → Expr)
  | .int n => some (.int · n)
  | .float d => some (.float · d)
  | .string s => some (.string · s)
  | .char c => some (.char · c)
  | .word .trueKw => some (.bool · true)
  | .word .falseKw => some (.bool · false)
  | .word .nilKw => some .nil
  | .word .selfKw => some (.ident · Keyword.selfKw.text)
  | .ident name => some (.ident · name)
  | _ => none

/-- A text between holes; the empty one is left out. -/
def textPart (s : String) : List Part :=
  if s.isEmpty then [] else [.text s]

/-- At most `n` holes of a string, each with the text behind it. -/
def holesWithin : Nat → Parser (List Part)
  | 0 => do
    let got ← peek
    fail (.expected (.token .holeStart) got)
  | n + 1 => do
    let _ ← expect .holeStart
    let e ← r.expr
    let _ ← expect .holeEnd
    match ← peek with
    | .stringPart s => do
      let _ ← next
      let parts ← holesWithin n
      pure (.hole e :: textPart s ++ parts)
    | .stringEnd s => do
      let _ ← next
      pure (.hole e :: textPart s)
    | got => fail (.expected .stringEnd got)

/-- `key: value` -/
def entry : Parser (Expr × Expr) := do
  let key ← r.expr
  sym .colon
  let value ← r.expr
  pure (key, value)

/-- `field: value` -/
def fieldInit : Parser (Ident × Expr) := do
  let name ← ident
  sym .colon
  let value ← r.expr
  pure (name, value)

/-- Expressions that start with the token `k` here, lambdas apart. -/
def atom (k : Kind) : Parser (Span → Expr) := do
  match literal? k, k with
  | some make, _ => do
    let _ ← next
    pure make
  | none, .stringStart s => do
    let _ ← next
    let n ← remaining
    let parts ← holesWithin r n
    pure (.interp · (textPart s ++ parts))
  | none, .sym .lbracket => do
    let _ ← next
    let elems ← items .rbracket r.expr
    pure (.array · elems)
  | none, .sym .lbrace => do
    let _ ← next
    let entries ← items .rbrace (entry r)
    pure (.map · entries)
  | none, .word .newKw => do
    let _ ← next
    let cls ← ident
    sym .lbrace
    let fields ← items .rbrace (fieldInit r)
    pure (.new · cls fields)
  | none, .sym .lparen => do
    let _ ← next
    let inner ← r.expr
    sym .rparen
    pure (.paren · inner)
  | none, got => fail (.expected .expression got)

/-- An expression without operators. -/
def primary : Parser Expr := do
  match ← peek with
  | .word .fnKw | .word .asyncKw => lambda r
  | k => do
    let start ← here
    let make ← atom r k
    let stop ← before
    pure (make (start.merge stop))

/-! ### Operators -/

/-- At most `n` calls, members and indices behind an expression. Each is one level deeper. -/
def postfixWithin : Nat → Expr → Parser Expr
  | 0, e => pure e
  | n + 1, e => do
    match ← peek with
    | .sym .lparen => nested do
      let _ ← next
      let args ← items .rparen r.expr
      let stop ← before
      postfixWithin n (.call (e.span.merge stop) e args)
    | .sym .dot => nested do
      let _ ← next
      let name ← memberName
      postfixWithin n (.member (e.span.merge name.span) e name)
    | .sym .lbracket => nested do
      let _ ← next
      let index ← r.expr
      sym .rbracket
      let stop ← before
      postfixWithin n (.index (e.span.merge stop) e index)
    | _ => pure e

/-- An expression with the calls, members and indices behind it. -/
def postfixed : Parser Expr := do
  let e ← primary r
  let n ← remaining
  postfixWithin r n e

/-- What a sign or word in front makes of its operand. -/
def prefixed? : Kind → Option (Span → Expr → Expr)
  | .sym .minus => some (.unary · .neg)
  | .sym .bang => some (.unary · .not)
  | .sym .tilde => some (.unary · .bitNot)
  | .sym .star => some .deref
  | .word .awaitKw => some .await
  | _ => none

/-- An expression with the signs in front of it. -/
def unary : Parser Expr := do
  let start ← here
  match ← peek with
  | .sym .amp => do
    let _ ← next
    let mutable ← eat (.word .mutKw)
    let operand ← r.operand
    pure (.borrow (start.merge operand.span) mutable operand)
  | k =>
    match prefixed? k with
    | some make => do
      let _ ← next
      let operand ← r.operand
      pure (make (start.merge operand.span) operand)
    | none => postfixed r

/-- The binary operators by level, the loosest first. -/
def levels : List (List (Symbol × BinOp)) :=
  [[(.orOr, .or)],
   [(.andAnd, .and)],
   [(.pipe, .bitOr)],
   [(.caret, .bitXor)],
   [(.amp, .bitAnd)],
   [(.eqEq, .eq), (.bangEq, .notEq)],
   [(.less, .less), (.greater, .greater), (.lessEq, .lessEq), (.greaterEq, .greaterEq)],
   [(.shl, .shl), (.shr, .shr)],
   [(.plus, .add), (.minus, .sub)],
   [(.star, .mul), (.slash, .div), (.percent, .mod)]]

/-- The operator of a level that a token is. -/
def operator? (ops : List (Symbol × BinOp)) : Kind → Option BinOp
  | .sym s => ops.lookup s
  | _ => none

/-- At most `n` operators of one level behind their left operand, grouped from the left. Each is
one level deeper. -/
def binaryWithin (ops : List (Symbol × BinOp)) (operand : Parser Expr) :
    Nat → Expr → Parser Expr
  | 0, e => pure e
  | n + 1, e => do
    match operator? ops (← peek) with
    | some op => nested do
      let _ ← next
      let right ← operand
      binaryWithin ops operand n (.binary (e.span.merge right.span) op e right)
    | none => pure e

/-- An expression of binary operators, of the given levels. -/
def binary : List (List (Symbol × BinOp)) → Parser Expr
  | [] => unary r
  | ops :: tighter => do
    let e ← binary tighter
    let n ← remaining
    binaryWithin ops (binary tighter) n e

/-- At most `n` pipes behind their left operand, grouped from the left. Each is one level
deeper. -/
def pipeWithin : Nat → Expr → Parser Expr
  | 0, e => pure e
  | n + 1, e => do
    if ← eat (.sym .pipeGt) then
      nested do
        let right ← binary r levels
        pipeWithin n (.pipe (e.span.merge right.span) e right)
    else pure e

/-- An expression of pipes. -/
def pipe : Parser Expr := do
  let e ← binary r levels
  let n ← remaining
  pipeWithin r n e

/-- The assignment that a token is. -/
def assignOp? : Kind → Option AssignOp
  | .sym .eq => some .assign
  | .sym .plusEq => some .add
  | .sym .minusEq => some .sub
  | .sym .starEq => some .mul
  | .sym .slashEq => some .div
  | .sym .percentEq => some .mod
  | .sym .ampEq => some .bitAnd
  | .sym .pipeEq => some .bitOr
  | .sym .caretEq => some .bitXor
  | _ => none

/-- An expression. Assignments group from the right. -/
def expression : Parser Expr := do
  let target ← pipe r
  match assignOp? (← peek) with
  | some op => do
    let _ ← next
    let value ← r.expr
    pure (.assign (target.span.merge value.span) op target value)
  | none => pure target

end CarvFront.Grammar
