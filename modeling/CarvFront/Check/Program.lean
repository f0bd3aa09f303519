import CarvFront.Check.Walk
import CarvFront.Check.Report

/-! Checking a whole program. -/
namespace CarvFront
namespace Check
variable {τ : Type} [Tracking τ]

/-- The functions of a program are known before its code is checked, so that they can call each
other in any order. -/
def hoist : Stmt → Check τ Unit
  | .fn span name sig _ => do
    let f ← signature sig
    modify (·.keepSignature span f)
    bind name.name f.toTy
  | _ => pure ()

/-- Check a program: its types, then its functions, then statement by statement. -/
def program (p : Program) : Check τ Unit := do
  declareTypes p.stmts
  p.stmts.forM hoist
  stmts p.stmts

end Check

/-- What is known at the end of a program. -/
def Program.finalState (τ : Type) [Tracking τ] (p : Program) : State τ :=
  ((Check.program p).run .start).2

/-- What a state has to say. -/
def State.report {τ : Type} (s : State τ) (o : Options) : Report :=
  let issues (severity : Severity) :=
    (s.findings.reverse.filter fun f => f.cause.severity = severity).map Issue.ofFinding
  { errors := issues .error
    warnings := issues .warning
    types := if o.recordTypes then s.types else [] }

/-- Everything found in a program. -/
def Program.check (p : Program) (o : Options) : Report :=
  (p.finalState Custody).report o

end CarvFront
