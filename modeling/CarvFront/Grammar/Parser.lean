import CarvFront.SyntaxError
import CarvFront.Syntax.Tree

/-! Parsers: functions on a cursor over tokens. A parser that fails says so and leaves the cursor
where it got to, so that reading can go on from there. -/
namespace CarvFront

/-- A place in a list of tokens, how deep the construct around it nests and the faults so far. -/
structure Cursor where
  rest : List Token
  /-- The span of the token before the place. -/
  prev : Span
  depth : Nat
  faults : List Fault

namespace Cursor

/-- The start of a list of tokens. -/
def start (ts : List Token) : Cursor :=
  ⟨ts, .point .first, 0, []⟩

/-- The kind of the `n`th token from here; behind the last token there is only the end. -/
def lookAhead (c : Cursor) (n : Nat) : Kind :=
  match c.rest[n]? with
  | some t => t.kind
  | none => .eof

/-- The kind of the token here. -/
def kind (c : Cursor) : Kind :=
  match c.rest with
  | t :: _ => t.kind
  | [] => .eof

/-- The span of the token here; behind the last token, that token's. -/
def span (c : Cursor) : Span :=
  match c.rest with
  | t :: _ => t.span
  | [] => c.prev

/-- Go past the token here. -/
def next (c : Cursor) : Cursor :=
  match c.rest with
  | t :: ts => { c with rest := ts, prev := t.span }
  | [] => c

/-- Note a fault at the token here. -/
def report (c : Cursor) (e : SyntaxError) : Cursor :=
  { c with faults := c.faults ++ [⟨e, c.span⟩] }

/-- Whether there are so many faults that reading stops. -/
def full (c : Cursor) : Bool :=
  maxErrors ≤ c.faults.length

/-- Skip to where a statement may start: past a semicolon, or to a brace or a word that begins a
statement. At least one token is passed, so a brace right at the start is stepped over; `moved`
tells that one was. -/
def skipTo (moved : Bool) : List Token → Span → List Token × Span
  | [], prev => ([], prev)
  | t :: ts, prev =>
    if t.kind = .eof then (t :: ts, prev)
    else if t.kind = .sym .semicolon then (ts, t.span)
    else if moved ∧ (t.kind.startsStatement ∨ t.kind = .sym .rbrace) then (t :: ts, prev)
    else if t.kind = .sym .rbrace then (ts, t.span)
    else skipTo true ts t.span

/-- Go on after a failure. -/
def recover (c : Cursor) : Cursor :=
  let (rest, prev) := skipTo false c.rest c.prev
  { c with rest, prev }

end Cursor

/-- A parser gives a value, or none if it fails, and the cursor behind what it read. -/
def Parser (α : Type) : Type :=
  Cursor → Option α × Cursor

namespace Parser
variable {α β : Type}

instance : Monad Parser where
  pure a := fun c => (some a, c)
  bind p f := fun c =>
    match p c with
    | (some a, c') => f a c'
    | (none, c') => (none, c')

/-- Fail after noting why. -/
def fail (e : SyntaxError) : Parser α := fun c =>
  (none, c.report e)

/-- Note a fault and go on. -/
def report (e : SyntaxError) : Parser Unit := fun c =>
  (some (), c.report e)

/-- The kind of the token here. -/
def peek : Parser Kind := fun c =>
  (some c.kind, c)

/-- The kind of the `n`th token from here. -/
def lookAhead (n : Nat) : Parser Kind := fun c =>
  (some (c.lookAhead n), c)

/-- The span of the token here. -/
def here : Parser Span := fun c =>
  (some c.span, c)

/-- The span of the token before. -/
def before : Parser Span := fun c =>
  (some c.prev, c)

/-- Go past the token here, and give its span. -/
def next : Parser Span := fun c =>
  (some c.span, c.next)

/-- How many tokens are left. -/
def remaining : Parser Nat := fun c =>
  (some c.rest.length, c)

/-- Whether the token here is of that kind. -/
def isAt (k : Kind) : Parser Bool := fun c =>
  (some (c.kind = k), c)

/-- Go past the token here if it is of that kind, and tell whether it was. -/
def eat (k : Kind) : Parser Bool := fun c =>
  if c.kind = k then (some true, c.next) else (some false, c)

/-- Replace the token here by one of another kind at the same place. -/
def become (k : Kind) : Parser Unit := fun c =>
  match c.rest with
  | t :: ts => (some (), { c with rest := { t with kind := k } :: ts })
  | [] => (some (), c)

/-- Go past a token of that kind, which has to be here, and give its span. -/
def expect (k : Kind) : Parser Span := do
  let got ← peek
  if got = k then next else fail (.expected (.token k) got)

/-- Go past a sign, which has to be here. -/
def sym (s : Symbol) : Parser Unit := do
  let _ ← expect (.sym s)

/-- Go past a word, which has to be here. -/
def word (w : Keyword) : Parser Unit := do
  let _ ← expect (.word w)

/-- The semicolon after a statement. It may be left out before a closing brace and at the end; its
absence elsewhere is noted, and the statement stands. -/
def semicolon : Parser Unit := do
  if ← eat (.sym .semicolon) then pure ()
  else
    let got ← peek
    if got = .sym .rbrace ∨ got = .eof then pure ()
    else report (.expected (.token (.sym .semicolon)) got)

/-- A name. -/
def ident : Parser Ident := do
  match ← peek with
  | .ident name => return ⟨name, ← next⟩
  | got => fail (.expected .identifier got)

/-- The name of a member. Reserved words will do. -/
def memberName : Parser Ident := do
  match ← peek with
  | .ident name => return ⟨name, ← next⟩
  | .word w => return ⟨w.text, ← next⟩
  | got => fail (.expected .memberName got)

/-- A string without holes. -/
def stringLiteral : Parser String := do
  match ← peek with
  | .string s => do
    let _ ← next
    return s
  | got => fail (.expected .stringLiteral got)

/-- Read a construct one level deeper. Beyond the limit nothing is read. -/
def nested (p : Parser α) : Parser α := fun c =>
  if maxNesting < c.depth + 1 then fail .nestingLimit c
  else
    let (a, c') := p { c with depth := c.depth + 1 }
    (a, { c' with depth := c'.depth - 1 })

/-- At most `n` items with commas between them, up to `close`. A comma may stand before `close`. -/
def itemsWithin (close : Kind) (item : Parser α) : Nat → Parser (List α)
  | 0 => pure []
  | n + 1 => do
    let got ← peek
    if got = close ∨ got = .eof then pure []
    else
      let a ← item
      if ← eat (.sym .comma) then
        let as ← itemsWithin close item n
        pure (a :: as)
      else pure [a]

/-- Items with commas between them, and `close`. There are no more items than tokens. -/
def items (close : Symbol) (item : Parser α) : Parser (List α) := do
  let n ← remaining
  let as ← itemsWithin (.sym close) item n
  sym close
  pure as

/-- At most `n` items up to a token that `stop` holds of or the end. An item that fails is left out
and reading goes on where a statement may start, unless there are too many faults. -/
def allWithin (stop : Kind → Bool) (item : Parser α) : Nat → Cursor → List α × Cursor
  | 0, c => ([], c)
  | n + 1, c =>
    if stop c.kind ∨ c.kind = .eof ∨ c.full then ([], c)
    else match item c with
      | (some a, c') =>
        let (as, last) := allWithin stop item n c'
        (a :: as, last)
      | (none, c') => allWithin stop item n c'.recover

/-- Items up to a token that `stop` holds of or the end. Each takes a token. -/
def all (stop : Kind → Bool) (item : Parser α) : Parser (List α) := fun c =>
  let (as, last) := allWithin stop item c.rest.length c
  (some as, last)

/-- Items up to a closing brace. -/
def allInBraces (item : Parser α) : Parser (List α) :=
  all (· = .sym .rbrace) item

end Parser
end CarvFront
