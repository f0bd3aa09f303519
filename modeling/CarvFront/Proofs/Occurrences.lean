import CarvFront.Syntax.Tree

/-! Where code stands. Every expression and every statement of a program is listed in source order,
each with the loops and functions around it. -/
namespace CarvFront

/-- A construct that decides what the code inside it may do. -/
inductive Enclosure where
  /-- A loop, header and body. -/
  | loop
  /-- The body of a function, method or lambda. -/
  | function (async : Bool)
deriving DecidableEq

def Enclosure.isFunction : Enclosure → Bool
  | .loop => false
  | .function _ => true

/-- An expression or a statement. -/
inductive Node where
  | expr (e : Expr)
  | stmt (s : Stmt)

def Node.span : Node → Span
  | .expr e => e.span
  | .stmt s => s.span

/-- A node of a program and the constructs around it, the innermost first. -/
structure Occurrence where
  node : Node
  around : List Enclosure

mutual

/-- An expression and all code inside it. -/
def Expr.placed (around : List Enclosure) (e : Expr) : List Occurrence :=
  ⟨.expr e, around⟩ :: match e with
    | .int _ _ | .float _ _ | .string _ _ | .char _ _ | .bool _ _ | .nil _ | .ident _ _ => []
    | .interp _ ps => placedParts around ps
    | .array _ es => placedExprs around es
    | .map _ es => placedEntries around es
    | .call _ callee args => callee.placed around ++ placedExprs around args
    | .member _ e _ | .unary _ _ e | .borrow _ _ e | .deref _ e | .await _ e | .paren _ e =>
      e.placed around
    | .index _ e f | .binary _ _ e f | .pipe _ e f | .assign _ _ e f =>
      e.placed around ++ f.placed around
    | .new _ _ fields => placedInits around fields
    | .lambda _ sig b => b.placed (.function sig.async :: around)

def placedExprs (around : List Enclosure) : List Expr → List Occurrence
  | [] => []
  | e :: es => e.placed around ++ placedExprs around es

def placedEntries (around : List Enclosure) : List (Expr × Expr) → List Occurrence
  | [] => []
  | (k, v) :: es => k.placed around ++ v.placed around ++ placedEntries around es

def placedInits (around : List Enclosure) : List (Ident × Expr) → List Occurrence
  | [] => []
  | (_, e) :: fields => e.placed around ++ placedInits around fields

def placedParts (around : List Enclosure) : List Part → List Occurrence
  | [] => []
  | .text _ :: ps => placedParts around ps
  | .hole e :: ps => e.placed around ++ placedParts around ps

/-- A statement and all code inside it. The header of a loop is inside the loop. -/
def Stmt.placed (around : List Enclosure) (s : Stmt) : List Occurrence :=
  ⟨.stmt s, around⟩ :: match s with
    | .bind _ _ _ _ e | .expr _ e => e.placed around
    | .fn _ _ sig b => b.placed (.function sig.async :: around)
    | .ret _ e => placedOption around e
    | .cond c => c.placed around
    | .forLoop _ init test post b =>
      placedStart (.loop :: around) init ++ placedOption (.loop :: around) test
        ++ placedOption (.loop :: around) post ++ b.placed (.loop :: around)
    | .forIn _ _ e b | .whileLoop _ e b =>
      e.placed (.loop :: around) ++ b.placed (.loop :: around)
    | .loop _ b => b.placed (.loop :: around)
    | .block b => b.placed around
    | .classDecl _ _ fields ms => placedFields around fields ++ placedMethods around ms
    | .implDecl _ _ _ ms => placedMethods around ms
    | .brk _ | .cont _ | .interfaceDecl _ _ _ | .require _ _ _ => []

def placedOption (around : List Enclosure) : Option Expr → List Occurrence
  | none => []
  | some e => e.placed around

def placedStart (around : List Enclosure) : Option Stmt → List Occurrence
  | none => []
  | some s => s.placed around

def placedStmts (around : List Enclosure) : List Stmt → List Occurrence
  | [] => []
  | s :: ss => s.placed around ++ placedStmts around ss

def Block.placed (around : List Enclosure) : Block → List Occurrence
  | ⟨_, ss⟩ => placedStmts around ss

def Conditional.placed (around : List Enclosure) : Conditional → List Occurrence
  | ⟨_, test, b, rest⟩ => test.placed around ++ b.placed around ++ rest.placed around

def Otherwise.placed (around : List Enclosure) : Otherwise → List Occurrence
  | .none => []
  | .block b => b.placed around
  | .elseIf c => c.placed around

def placedFields (around : List Enclosure) : List Field → List Occurrence
  | [] => []
  | ⟨_, _, e, _⟩ :: fields => placedOption around e ++ placedFields around fields

def placedMethods (around : List Enclosure) : List Method → List Occurrence
  | [] => []
  | ⟨_, _, sig, b, _⟩ :: ms =>
    b.placed (.function sig.async :: around) ++ placedMethods around ms

end

/-- All expressions and statements of a program. -/
def Program.occurrences (p : Program) : List Occurrence :=
  placedStmts [] p.stmts

end CarvFront
