import CarvFront.Syntax.Tree

/-! The statements inside other code, and the classes, interfaces and implementations among them. -/
namespace CarvFront

/-- Classes, interfaces and implementations. -/
def Stmt.declaresType : Stmt → Bool
  | .classDecl _ _ _ _ | .interfaceDecl _ _ _ | .implDecl _ _ _ _ => true
  | _ => false

/-- Functions, classes, interfaces and implementations. -/
def Stmt.isDeclaration : Stmt → Bool
  | .fn _ _ _ _ | .classDecl _ _ _ _ | .interfaceDecl _ _ _ | .implDecl _ _ _ _ => true
  | _ => false

/-- The functions and methods that a statement declares, with their spans. -/
def Stmt.signed : Stmt → List (Span × Signature)
  | .fn span _ sig _ => [(span, sig)]
  | .classDecl _ _ _ ms | .implDecl _ _ _ ms => ms.map fun m => (m.span, m.sig)
  | _ => []

/-- What a statement imports from a module, if it does. -/
def Stmt.imports? : Stmt → Option (String × Import)
  | .require _ path imports => some (path, imports)
  | _ => none

section Inner
variable (pick : Stmt → Bool)

mutual

/-- The statements of some kind inside an expression. -/
def Expr.inner : Expr → List Stmt
  | .interp _ ps => innerParts ps
  | .array _ es => innerExprs es
  | .map _ es => innerEntries es
  | .call _ callee args => callee.inner ++ innerExprs args
  | .member _ e _ | .unary _ _ e | .borrow _ _ e | .deref _ e | .await _ e | .paren _ e => e.inner
  | .index _ e f | .binary _ _ e f | .pipe _ e f | .assign _ _ e f => e.inner ++ f.inner
  | .new _ _ fields => innerInits fields
  | .lambda _ _ b => b.inner
  | .int _ _ | .float _ _ | .string _ _ | .char _ _ | .bool _ _ | .nil _ | .ident _ _ => []

def innerExprs : List Expr → List Stmt
  | [] => []
  | e :: es => e.inner ++ innerExprs es

def innerEntries : List (Expr × Expr) → List Stmt
  | [] => []
  | (k, v) :: es => k.inner ++ v.inner ++ innerEntries es

def innerInits : List (Ident × Expr) → List Stmt
  | [] => []
  | (_, e) :: fields => e.inner ++ innerInits fields

def innerParts : List Part → List Stmt
  | [] => []
  | .text _ :: ps => innerParts ps
  | .hole e :: ps => e.inner ++ innerParts ps

/-- The statements of some kind inside a statement, without the statement itself. -/
def Stmt.inner : Stmt → List Stmt
  | .bind _ _ _ _ e | .expr _ e => e.inner
  | .fn _ _ _ b | .loop _ b | .block b => b.inner
  | .ret _ e => innerOption e
  | .cond c => c.inner
  | .forLoop _ init test post b =>
    innerStart init ++ innerOption test ++ b.inner ++ innerOption post
  | .forIn _ _ e b | .whileLoop _ e b => e.inner ++ b.inner
  | .classDecl _ _ fields ms => innerFields fields ++ innerMethods ms
  | .implDecl _ _ _ ms => innerMethods ms
  | .brk _ | .cont _ | .interfaceDecl _ _ _ | .require _ _ _ => []

def innerOption : Option Expr → List Stmt
  | none => []
  | some e => e.inner

def innerStart : Option Stmt → List Stmt
  | none => []
  | some s => (if pick s then [s] else []) ++ s.inner

def innerStmts : List Stmt → List Stmt
  | [] => []
  | s :: ss => (if pick s then [s] else []) ++ s.inner ++ innerStmts ss

def Block.inner : Block → List Stmt
  | ⟨_, ss⟩ => innerStmts ss

def Conditional.inner : Conditional → List Stmt
  | ⟨_, test, b, rest⟩ => test.inner ++ b.inner ++ rest.inner

def Otherwise.inner : Otherwise → List Stmt
  | .none => []
  | .block b => b.inner
  | .elseIf c => c.inner

def innerFields : List Field → List Stmt
  | [] => []
  | ⟨_, _, e, _⟩ :: fields => innerOption e ++ innerFields fields

def innerMethods : List Method → List Stmt
  | [] => []
  | ⟨_, _, _, b, _⟩ :: ms => b.inner ++ innerMethods ms

end
end Inner

/-- The declarations of types inside a statement, without the statement itself. -/
abbrev Stmt.innerTypes (s : Stmt) : List Stmt :=
  s.inner Stmt.declaresType

abbrev methodTypes (ms : List Method) : List Stmt :=
  innerMethods Stmt.declaresType ms

/-- Whether classes, interfaces and implementations are declared only at the top of a program. -/
def Program.typesOnTop (p : Program) : Bool :=
  p.stmts.all fun s => s.innerTypes.isEmpty

end CarvFront
