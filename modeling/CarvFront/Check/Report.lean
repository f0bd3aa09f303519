import CarvFront.Json
import CarvFront.Check.Cause

/-! What checking a program has to say, as it is shown and stored. -/
namespace CarvFront

/-- A finding as it is shown: where it starts, how grave it is, its code and its message. -/
structure Issue where
  line : Nat
  column : Nat
  severity : Severity
  code : Code
  message : String
deriving DecidableEq

namespace Issue

def ofFinding (f : Finding) : Issue where
  line := f.span.start.line
  column := f.span.start.column
  severity := f.cause.severity
  code := f.cause.code
  message := f.cause.message

/-- One line: place, severity, code, message. -/
def text (i : Issue) : String :=
  toString i.line ++ ":" ++ toString i.column ++ ": " ++ i.severity.text ++ "[" ++ i.code.text
    ++ "]: " ++ i.message

/-- How the severity is stored. -/
def kindName : Severity → String
  | .error => "type_error"
  | .warning => "warning"

/-- The severity stored under a name. -/
def ofKindName? : String → Option Severity
  | "type_error" => some .error
  | "warning" => some .warning
  | _ => none

def toJson (i : Issue) : Json :=
  .object
    [("line", .nat i.line),
     ("column", .nat i.column),
     ("kind", .string (kindName i.severity)),
     ("code", .nat i.code.number),
     ("message", .string i.message)]

/-- The issue that a record describes. Lines and columns have 32 bits, codes 16; other members are
ignored. -/
def ofJson? (j : Json) : Option Issue := do
  let line ← (← j.field? "line").below? (Nat.pow 2 32)
  let column ← (← j.field? "column").below? (Nat.pow 2 32)
  let severity ← ofKindName? (← (← j.field? "kind").text?)
  let code ← (← j.field? "code").below? (Nat.pow 2 16)
  let message ← (← j.field? "message").text?
  pure ⟨line, column, severity, ⟨code⟩, message⟩

end Issue

/-- How to check. -/
structure Options where
  fileName : String := "main.carv"
  /-- Whether the report holds the types of expressions. -/
  recordTypes : Bool := false
deriving DecidableEq

/-- The options that a record describes. Members that are missing have their usual value. -/
def Options.ofJson? : Json → Option Options
  | .object ms => do
    let record := Json.object ms
    let usual : Options := {}
    let fileName ← match record.field? "file_name" with
      | some v => v.text?
      | none => some usual.fileName
    let recordTypes ← match record.field? "record_expr_types" with
      | some v => v.bool?
      | none => some usual.recordTypes
    pure ⟨fileName, recordTypes⟩
  | _ => none

/-- Everything found in a program. -/
structure Report where
  errors : List Issue
  warnings : List Issue
  /-- The types of expressions, the latest first. -/
  types : List (Span × Ty)

namespace Report

/-- Errors, then warnings. -/
def issues (r : Report) : List Issue :=
  r.errors ++ r.warnings

def hasCode (r : Report) (c : Code) : Bool :=
  r.issues.any fun i => i.code = c

/-- The type found last for an expression of that span. -/
def type? (r : Report) (s : Span) : Option Ty :=
  (r.types.find? fun e => e.1 = s).map (·.2)

/-- Spans in the order of their four numbers. -/
def spanLe (a b : Span) : Bool :=
  if a.start = b.start then a.stop ≤ b.stop else a.start ≤ b.start

/-- The type of each span, by span; of several the one found last. -/
def typesBySpan (r : Report) : List (Span × Ty) :=
  let spans := (r.types.map (·.1)).eraseDups.mergeSort spanLe
  spans.filterMap fun s => (r.type? s).map (s, ·)

/-- The errors and warnings as a record. -/
def toJson (r : Report) : Json :=
  .object
    [("errors", .array (r.errors.map Issue.toJson)),
     ("warnings", .array (r.warnings.map Issue.toJson))]

end Report
end CarvFront
