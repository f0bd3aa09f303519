import CarvFront.Token.Lexer
import CarvFront.Grammar.Statement

/-! The grammar of programs. The rules refer to each other only one level deeper, and levels are
bounded, so the grammar is unrolled once a level. -/
namespace CarvFront.Grammar
open CarvFront.Parser

/-- Rules that read nothing. -/
def Rules.none : Rules where
  type := fail .nestingLimit
  expr := fail .nestingLimit
  operand := fail .nestingLimit
  stmts := fail .nestingLimit

/-- The rules of one level from those of the next. -/
def Rules.outside (inner : Rules) : Rules where
  type := nested (typeExpr inner.type)
  expr := nested (expression inner)
  operand := nested (unary inner)
  stmts := nested (allInBraces (statement inner))

/-- The rules for `n` levels. -/
def Rules.levels : Nat → Rules
  | 0 => .none
  | n + 1 => .outside (levels n)

/-- The rules for as many levels as may be entered, and one more to refuse. -/
def rules : Rules :=
  .levels (maxNesting + 1)

/-- A program: statements up to the end. -/
def program : Parser Program := do
  let start ← here
  let stmts ← all (fun _ => false) (statement rules)
  let stop ← before
  pure ⟨stmts, start.merge stop⟩

end CarvFront.Grammar

namespace CarvFront

/-- The program that a list of tokens makes up, without the statements that have faults, and all
faults. -/
def Program.ofTokens (ts : List Token) : Program × List Fault :=
  match Grammar.program (.start ts) with
  | (some p, c) => (p, c.faults)
  | (none, c) => (⟨[], c.span⟩, c.faults)

/-- The program in a source, and what is wrong with its tokens and then with their order. -/
def Program.ofSource (source : Source) : Program × Log :=
  let (tokens, lexical) := Token.scan source.text
  let (program, grammatical) := Program.ofTokens tokens
  (program,
    (Log.empty.extend (.ofFaults source lexical)).extend (.ofFaults source grammatical))

end CarvFront
