import CarvFront.Check.Program
import CarvFront.Grammar.Program

/-! From the text of a program to everything there is to say about it. -/
namespace CarvFront

/-- A text that is not a program, so that there is nothing to check. -/
structure SyntaxFailure where
  file : String
  log : Log

def SyntaxFailure.message (f : SyntaxFailure) : String :=
  f.file ++ ": " ++ toString f.log.totalErrors ++ " syntax error(s)"

namespace Source

/-- Read and check a program. -/
def check (s : Source) : Except SyntaxFailure Report :=
  let (program, log) := Program.ofSource s
  if log.hasErrors then .error ⟨s.name, log⟩
  else .ok (program.check { fileName := s.name })

/-- Read and check a program; the report as a text. -/
def checkJson (s : Source) : Except SyntaxFailure String :=
  s.check.map fun r => r.toJson.pretty

/-- An issue with the line it is about. -/
def diagnostic (s : Source) (i : Issue) : Diagnostic where
  file := s.name
  code := i.code
  severity := .error
  message := i.message
  span := .point ⟨i.line, i.column⟩
  sourceLine := (s.line? i.line).getD ""
  suggestion := none

/-- Everything found wrong: mistakes of form, or else what checking finds. -/
def diagnose (s : Source) : Log :=
  let (program, log) := Program.ofSource s
  if log.hasErrors then log
  else
    let report := program.check { fileName := s.name }
    let log := report.errors.foldl (fun log i => log.pushError (s.diagnostic i)) log
    report.warnings.foldl (fun log i => log.pushWarning (s.diagnostic i).toWarning) log

end Source
end CarvFront
