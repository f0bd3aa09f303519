/-! Diagnostic codes, their categories and severities. -/
namespace CarvFront

/-- What part of the language a diagnostic is about. -/
inductive Category where
  | syntactic
  | type
  | ownership
  | borrow
  | interface
  | async
deriving DecidableEq

/-- The name a category is shown under. -/
def Category.text : Category → String
  | .syntactic => "syntax"
  | .type => "type"
  | .ownership => "ownership"
  | .borrow => "borrow"
  | .interface => "interface"
  | .async => "async"

/-- Errors stop a program from running; warnings are advice. -/
inductive Severity where
  | error
  | warning
deriving DecidableEq

/-- The name a severity is shown under. -/
def Severity.text : Severity → String
  | .error => "error"
  | .warning => "warning"

/-- The number that identifies a kind of diagnostic. -/
structure Code where
  number : Nat
deriving DecidableEq

namespace Code

/-- Codes are written with a leading `E`. -/
def text (c : Code) : String :=
  s!"E{c.number}"

/-- The hundreds of a code give its category; codes outside 100 to 699 count as syntax. -/
def category (c : Code) : Category :=
  match c.number / 100 with
  | 2 => .type
  | 3 => .ownership
  | 4 => .borrow
  | 5 => .interface
  | 6 => .async
  | _ => .syntactic

def unexpectedToken : Code := ⟨100⟩
def unterminatedLiteral : Code := ⟨101⟩
def nestingLimit : Code := ⟨102⟩

def unknownType : Code := ⟨200⟩
def typeMismatch : Code := ⟨201⟩
def wrongArgumentCount : Code := ⟨202⟩
def undefinedName : Code := ⟨203⟩
def unknownMember : Code := ⟨204⟩
def unknownModuleMember : Code := ⟨205⟩
def invalidAssignTarget : Code := ⟨206⟩
def controlOutsideLoop : Code := ⟨207⟩

def useAfterMove : Code := ⟨300⟩

def borrowConflict : Code := ⟨400⟩
def assignWhileBorrowed : Code := ⟨401⟩
def borrowOfMoved : Code := ⟨402⟩
def invalidDeref : Code := ⟨403⟩
def referenceEscapes : Code := ⟨404⟩
def mutationThroughShared : Code := ⟨405⟩

def missingMethod : Code := ⟨500⟩
def methodArity : Code := ⟨501⟩
def returnMismatch : Code := ⟨502⟩
def parameterMismatch : Code := ⟨503⟩
def receiverMismatch : Code := ⟨504⟩
def mutMethodThroughShared : Code := ⟨505⟩
def unknownImplTarget : Code := ⟨506⟩

def awaitOutsideAsync : Code := ⟨600⟩
def awaitNonFuture : Code := ⟨601⟩
def borrowAcrossAwait : Code := ⟨602⟩

end Code
end CarvFront
