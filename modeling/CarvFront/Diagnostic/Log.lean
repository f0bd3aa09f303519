import CarvFront.Span
import CarvFront.Json
import CarvFront.Diagnostic.Code

/-! Diagnostics and the log that collects them. The log stores the first errors only and counts
them all, as far as it can count. -/
namespace CarvFront

/-- A message about a place in a file. -/
structure Diagnostic where
  file : String
  code : Code
  severity : Severity
  message : String
  span : Span
  sourceLine : String
  suggestion : Option String
deriving DecidableEq

namespace Diagnostic

/-- The category of a diagnostic is that of its code. -/
def category (d : Diagnostic) : Category :=
  d.code.category

/-- The same message as advice. -/
def toWarning (d : Diagnostic) : Diagnostic :=
  { d with severity := .warning }

/-- One line: place, code, category, message. -/
def text (d : Diagnostic) : String :=
  d.span.text ++ ": " ++ d.code.text ++ " [" ++ d.category.text ++ "] " ++ d.message

/-- A diagnostic as a record; the suggestion is left out if there is none. -/
def toJson (d : Diagnostic) : Json :=
  .object <|
    [("file", Json.string d.file),
     ("code", Json.nat d.code.number),
     ("severity", Json.string d.severity.text),
     ("category", Json.string d.category.text),
     ("message", Json.string d.message),
     ("line", Json.nat d.span.start.line),
     ("column", Json.nat d.span.start.column),
     ("end_line", Json.nat d.span.stop.line),
     ("end_column", Json.nat d.span.stop.column),
     ("source_line", Json.string d.sourceLine)]
    ++ (d.suggestion.map fun s => ("suggestion", Json.string s)).toList

end Diagnostic

/-- Numbers to count in. Behind the greatest there may be none, but what is no more than one of them
is one of them too. -/
class Counter (κ : Type) where
  /-- The number that stands for a count; another one if the count is too great. -/
  ofNat : Nat → κ
  toNat : κ → Nat
  ofNat_toNat (k : κ) : ofNat (toNat k) = k
  toNat_ofNat {n : Nat} {k : κ} (h : n ≤ toNat k) : toNat (ofNat n : κ) = n

namespace Counter

instance nat : Counter Nat where
  ofNat := id
  toNat := id
  ofNat_toNat _ := rfl
  toNat_ofNat _ := rfl

/-- Words of 64 bits start again from zero. -/
instance word : Counter UInt64 where
  ofNat := UInt64.ofNat
  toNat := UInt64.toNat
  ofNat_toNat _ := UInt64.ofNat_toNat
  toNat_ofNat {_ k} h := UInt64.toNat_ofNat_of_lt' (Nat.lt_of_le_of_lt h k.toNat_lt_size)

/-- Count so many more. -/
def add {κ : Type} [Counter κ] (k : κ) (n : Nat) : κ :=
  ofNat (toNat k + n)

end Counter

/-- How many errors are stored; later ones are only counted. -/
def maxErrors : Nat := 20

/-- What a run of the front end has to say. Errors and warnings are counted in natural numbers unless
another type is given. -/
structure Log (κ : Type := Nat) where
  errors : List Diagnostic
  warnings : List Diagnostic
  totalErrors : κ
  totalWarnings : κ
deriving DecidableEq

namespace Log
variable {κ : Type} [Counter κ]

/-- Nothing said yet. -/
def empty : Log κ := ⟨[], [], Counter.ofNat 0, Counter.ofNat 0⟩

def hasErrors (l : Log κ) : Bool :=
  0 < Counter.toNat l.totalErrors

/-- Count an error, and store it while there is room. -/
def pushError (l : Log κ) (d : Diagnostic) : Log κ :=
  { l with
    errors := if l.errors.length < maxErrors then l.errors ++ [d] else l.errors
    totalErrors := Counter.add l.totalErrors 1 }

def pushWarning (l : Log κ) (d : Diagnostic) : Log κ :=
  { l with warnings := l.warnings ++ [d], totalWarnings := Counter.add l.totalWarnings 1 }

/-- Append another log. Errors that it counted and did not store are counted here too. -/
def extend (l other : Log κ) : Log κ :=
  let counted := other.errors.foldl pushError l
  let unstored := Counter.toNat other.totalErrors - other.errors.length
  let total := Counter.add counted.totalErrors unstored
  other.warnings.foldl pushWarning { counted with totalErrors := total }

end Log
end CarvFront
