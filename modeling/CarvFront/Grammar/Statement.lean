import CarvFront.Grammar.Declaration

/-! The grammar of statements. -/
namespace CarvFront.Grammar
open CarvFront.Parser

variable (r : Rules)

/-- `let x: T = e;` or `const x: T = e;` -/
def binding : Parser Stmt := do
  let const ← isAt (.word .constKw)
  let start ← next
  let name ← ident
  let type ← annotation r
  sym .eq
  let value ← r.expr
  let stop ← before
  semicolon
  pure (.bind (start.merge stop) const name type value)

/-- An expression, unless the token here is one of `stops`. -/
def expressionUnless (stops : List Kind) : Parser (Option Expr) := do
  if stops.contains (← peek) then pure none
  else
    let e ← r.expr
    pure (some e)

/-- `return e;` or `return;` -/
def returnStmt : Parser Stmt := do
  let start ← next
  let value ← expressionUnless r [.sym .semicolon, .sym .rbrace, .eof]
  let stop ← before
  semicolon
  pure (.ret (start.merge stop) value)

/-- `break;` or `continue;` -/
def jump (make : Span → Stmt) : Parser Stmt := do
  let span ← next
  semicolon
  pure (make span)

/-- `if e { … }` with at most `n` further conditions behind its `else`. -/
def conditionalWithin : Nat → Parser Conditional
  | 0 => do
    let got ← peek
    fail (.expected (.token (.word .ifKw)) got)
  | n + 1 => do
    let start ← expect (.word .ifKw)
    let test ← r.expr
    let body ← block r
    let otherwise ← do
      if ← eat (.word .elseKw) then
        if ← isAt (.word .ifKw) then
          let c ← conditionalWithin n
          pure (.elseIf c)
        else
          let b ← block r
          pure (.block b)
      else pure .none
    let stop ← before
    pure ⟨start.merge stop, test, body, otherwise⟩

/-- `if e { … } else …` -/
def conditional : Parser Stmt := do
  let n ← remaining
  let c ← conditionalWithin r n
  pure (.cond c)

/-- The first part of a loop header, with its semicolon. -/
def loopInit : Parser (Option Stmt) := do
  match ← peek with
  | .sym .semicolon => do
    let _ ← next
    pure none
  | .word .letKw | .word .constKw => do
    let s ← binding r
    pure (some s)
  | _ => do
    let e ← r.expr
    sym .semicolon
    pure (some (.expr e.span e))

/-- `for (init; test; post) { … }` or `for x in xs { … }` -/
def forStmt : Parser Stmt := do
  let start ← next
  if ← eat (.sym .lparen) then
    let init ← loopInit r
    let test ← expressionUnless r [.sym .semicolon]
    sym .semicolon
    let post ← expressionUnless r [.sym .rparen]
    sym .rparen
    let body ← block r
    pure (.forLoop (start.merge body.span) init test post body)
  else
    let item ← ident
    word .inKw
    let iterable ← r.expr
    let body ← block r
    pure (.forIn (start.merge body.span) item iterable body)

/-- `while e { … }` -/
def whileStmt : Parser Stmt := do
  let start ← next
  let test ← r.expr
  let body ← block r
  pure (.whileLoop (start.merge body.span) test body)

/-- `loop { … }` -/
def loopStmt : Parser Stmt := do
  let start ← next
  let body ← block r
  pure (.loop (start.merge body.span) body)

/-- `e;` -/
def expressionStmt : Parser Stmt := do
  let e ← r.expr
  semicolon
  pure (.expr e.span e)

/-- Whether a token is a name. -/
def isIdent : Kind → Bool
  | .ident _ => true
  | _ => false

/-- A statement. A function without a name is an expression. -/
def statement : Parser Stmt := do
  match ← peek with
  | .word .letKw | .word .constKw => binding r
  | .word .fnKw => do
    if isIdent (← lookAhead 1) then functionDecl r else expressionStmt r
  | .word .asyncKw => do
    if (← lookAhead 1) = .word .fnKw ∧ isIdent (← lookAhead 2) then functionDecl r
    else expressionStmt r
  | .word .returnKw => returnStmt r
  | .word .breakKw => jump .brk
  | .word .continueKw => jump .cont
  | .word .ifKw => conditional r
  | .word .forKw => forStmt r
  | .word .whileKw => whileStmt r
  | .word .loopKw => loopStmt r
  | .sym .lbrace => do
    let b ← block r
    pure (.block b)
  | .word .classKw => classDecl r
  | .word .interfaceKw => interfaceDecl r
  | .word .implKw => implDecl r
  | .word .requireKw => require
  | _ => expressionStmt r

end CarvFront.Grammar
