/-! Positions in a text and the spans between them. -/
namespace CarvFront

/-- A place in a text: line and column, both counted from 1. -/
structure Position where
  line : Nat
  column : Nat
deriving DecidableEq

namespace Position

/-- The first place of every text. -/
def first : Position := ⟨1, 1⟩

/-- Positions are ordered by line, then by column. -/
instance : LE Position where
  le a b := a.line < b.line ∨ (a.line = b.line ∧ a.column ≤ b.column)

instance (a b : Position) : Decidable (a ≤ b) :=
  inferInstanceAs (Decidable (_ ∨ _))

/-- The place right after `c` when `c` stands at `p`. -/
def step (p : Position) (c : Char) : Position :=
  if c = '\n' then ⟨p.line + 1, 1⟩ else ⟨p.line, p.column + 1⟩

/-- The place after a run of characters that starts at `p`. -/
def advance (p : Position) (cs : List Char) : Position :=
  cs.foldl step p

theorem advance_append (p : Position) (as bs : List Char) :
    p.advance (as ++ bs) = (p.advance as).advance bs :=
  List.foldl_append

end Position

/-- The stretch of text from `start` to `stop`, both included. -/
structure Span where
  start : Position
  stop : Position
deriving DecidableEq

namespace Span

/-- The span of a single place. -/
def point (p : Position) : Span := ⟨p, p⟩

/-- The span from `start` up to, not including, the place `next`. A span ends in column 1 at the
earliest. -/
def upTo (start next : Position) : Span :=
  ⟨start, ⟨next.line, max (next.column - 1) 1⟩⟩

/-- The least span that covers both. -/
def merge (a b : Span) : Span where
  start := if a.start ≤ b.start then a.start else b.start
  stop := if b.stop ≤ a.stop then a.stop else b.stop

/-- Spans are written as their start, `line:column`. -/
def text (s : Span) : String :=
  s!"{s.start.line}:{s.start.column}"

end Span
end CarvFront
