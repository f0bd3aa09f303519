import CarvFront.Span

/-! A text being read: what is left of it and the place where that starts. Also the parts of a
text that hold no tokens. -/
namespace CarvFront

/-- The rest of a text and the place of its first character. -/
structure Reader where
  rest : List Char
  pos : Position

namespace Reader

/-- The start of a text. -/
def ofString (s : String) : Reader :=
  ⟨s.toList, .first⟩

/-- Pass over `n` characters, or over all if there are fewer. -/
def advance (r : Reader) (n : Nat) : Reader :=
  ⟨r.rest.drop n, r.pos.advance (r.rest.take n)⟩

theorem length_rest_advance (r : Reader) (n : Nat) :
    (r.advance n).rest.length = r.rest.length - n :=
  List.length_drop

end Reader

/-- Characters that only separate tokens. -/
def isBlank (c : Char) : Bool :=
  c == ' ' || c == '\t' || c == '\r' || c == '\n'

/-- What follows blanks and comments, and where a comment starts that is never closed. -/
structure Skipped where
  next : Reader
  unclosed : Option Position

mutual

/-- Skip blanks and comments. -/
def skipBlanks : List Char → Position → Skipped
  | '/' :: '/' :: cs, p => skipLine cs ((p.step '/').step '/')
  | '/' :: '*' :: cs, p => skipBlock p cs ((p.step '/').step '*')
  | c :: cs, p => if isBlank c then skipBlanks cs (p.step c) else ⟨⟨c :: cs, p⟩, none⟩
  | [], p => ⟨⟨[], p⟩, none⟩

/-- Skip the rest of a line comment, its newline, and what follows that. -/
def skipLine : List Char → Position → Skipped
  | c :: cs, p => if c = '\n' then skipBlanks cs (p.step c) else skipLine cs (p.step c)
  | [], p => ⟨⟨[], p⟩, none⟩

/-- Skip the rest of a block comment opened at `start`, and what follows it. Block comments do not
nest. -/
def skipBlock (start : Position) : List Char → Position → Skipped
  | '*' :: '/' :: cs, p => skipBlanks cs ((p.step '*').step '/')
  | c :: cs, p => skipBlock start cs (p.step c)
  | [], p => ⟨⟨[], p⟩, some start⟩

end

mutual

private theorem length_skipBlanks_le :
    ∀ (cs : List Char) (p : Position), (skipBlanks cs p).next.rest.length ≤ cs.length
  | cs, p => by
    unfold skipBlanks
    split
    · next p cs => exact Nat.le_trans (length_skipLine_le cs _) (by simp; omega)
    · next p cs => exact Nat.le_trans (length_skipBlock_le _ cs _) (by simp; omega)
    · next p c cs _ _ =>
      split
      · exact Nat.le_trans (length_skipBlanks_le cs _) (by simp)
      · exact Nat.le_refl _
    · exact Nat.le_refl _
termination_by cs => cs.length
decreasing_by
  all_goals
    subst_vars
    simp +arith

private theorem length_skipLine_le :
    ∀ (cs : List Char) (p : Position), (skipLine cs p).next.rest.length ≤ cs.length
  | cs, p => by
    unfold skipLine
    split
    · next p c cs =>
      split
      · exact Nat.le_trans (length_skipBlanks_le cs _) (by simp)
      · exact Nat.le_trans (length_skipLine_le cs _) (by simp)
    · exact Nat.le_refl _
termination_by cs => cs.length
decreasing_by
  all_goals
    subst_vars
    simp +arith

private theorem length_skipBlock_le :
    ∀ (start : Position) (cs : List Char) (p : Position),
      (skipBlock start cs p).next.rest.length ≤ cs.length
  | start, cs, p => by
    unfold skipBlock
    split
    · next p cs => exact Nat.le_trans (length_skipBlanks_le cs _) (by simp; omega)
    · next p c cs _ => exact Nat.le_trans (length_skipBlock_le start cs _) (by simp)
    · exact Nat.le_refl _
termination_by _ cs => cs.length
decreasing_by
  all_goals
    subst_vars
    simp +arith

end

/-- Skip blanks and comments. -/
def Reader.skip (r : Reader) : Skipped :=
  skipBlanks r.rest r.pos

theorem Reader.length_skip_le (r : Reader) : r.skip.next.rest.length ≤ r.rest.length :=
  length_skipBlanks_le r.rest r.pos

end CarvFront
