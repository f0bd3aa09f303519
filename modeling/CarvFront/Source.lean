/-! Named source texts and their lines. -/
namespace CarvFront

/-- A program text with the name of its file. -/
structure Source where
  name : String
  text : String

namespace Source

/-- The lines of a text: it is cut at every newline, so there is always a last, maybe empty, one. -/
def splitLines : List Char → List (List Char)
  | [] => [[]]
  | c :: cs =>
    if c = '\n' then [] :: splitLines cs
    else match splitLines cs with
      | [] => [[c]]
      | l :: ls => (c :: l) :: ls

/-- A line without the carriage returns at its end. -/
def trimReturns (l : List Char) : List Char :=
  (l.reverse.dropWhile (· == '\r')).reverse

/-- The lines of the source, each without its newline. -/
def lines (s : Source) : List (List Char) :=
  splitLines s.text.toList

/-- The text of line `n`, counted from 1. -/
def line? (s : Source) : Nat → Option String
  | 0 => none
  | n + 1 => s.lines[n]?.map fun l => String.ofList (trimReturns l)

/-- How many lines the source has. -/
def lineCount (s : Source) : Nat :=
  s.lines.length

theorem splitLines_ne_nil (cs : List Char) : splitLines cs ≠ [] := by
  cases cs with
  | nil => simp [splitLines]
  | cons c cs =>
    rw [splitLines]
    split
    · simp
    · split <;> simp

/-- There is one line more than there are newlines. -/
theorem length_splitLines (cs : List Char) :
    (splitLines cs).length = cs.count '\n' + 1 := by
  induction cs with
  | nil => rfl
  | cons c cs ih =>
    rw [splitLines]
    split
    · next h => simp [h, ih]
    · next h =>
      have hc : (c == '\n') = false := by simpa using h
      rw [List.count_cons, hc]
      split
      · next he => exact absurd he (splitLines_ne_nil cs)
      · next l ls he => rw [he] at ih; simpa using ih

end Source
end CarvFront
