import CarvFront.Span
import CarvFront.Double.Basic
import CarvFront.Syntax.Operator

/-! The syntax tree. Every node has the span it was read from; lists are in source order. -/
namespace CarvFront

/-- A name and where it stands. -/
structure Ident where
  name : String
  span : Span
deriving DecidableEq

/-- Types that are words of their own. -/
inductive BasicType where
  | int | float | bool | string | char | void | any | nil
deriving DecidableEq

/-- A type as written. -/
inductive TypeExpr where
  | basic (span : Span) (t : BasicType)
  /-- `[T]` -/
  | array (span : Span) (elem : TypeExpr)
  /-- `{K: V}` -/
  | map (span : Span) (key value : TypeExpr)
  /-- `fn(T1, T2) -> R` -/
  | fn (span : Span) (params : List TypeExpr) (ret : TypeExpr)
  /-- `chan<T>` -/
  | chan (span : Span) (elem : TypeExpr)
  /-- `Future<T>` -/
  | future (span : Span) (output : TypeExpr)
  /-- `T?` -/
  | optional (span : Span) (inner : TypeExpr)
  /-- `&T` or `&mut T` -/
  | ref (span : Span) (mutable : Bool) (inner : TypeExpr)
  /-- The name of a class or an interface. -/
  | named (span : Span) (name : String)

def TypeExpr.span : TypeExpr → Span
  | .basic s _ | .array s _ | .map s _ _ | .fn s _ _ | .chan s _ | .future s _ | .optional s _
  | .ref s _ _ | .named s _ => s

/-- A parameter. Without a type it takes anything. -/
structure Param where
  name : Ident
  type : Option TypeExpr
  span : Span

/-- What functions, methods and lambdas have in common. Without a return type they return
nothing. -/
structure Signature where
  async : Bool
  params : List Param
  ret : Option TypeExpr

/-- How a method takes the object it is called on. -/
inductive Receiver where
  | none
  | value
  | ref
  | refMut
deriving DecidableEq

def Receiver.text : Receiver → String
  | .none => "no receiver"
  | .value => "self"
  | .ref => "&self"
  | .refMut => "&mut self"

/-- A method of an interface: a signature without a body. -/
structure MethodHead where
  name : Ident
  receiver : Receiver
  sig : Signature
  span : Span

/-- What a `require` makes visible. -/
inductive Import where
  /-- The module, under its own name or another. -/
  | module (newName : Option Ident)
  /-- Some of its members. -/
  | named (names : List Ident)
  /-- All of its members. -/
  | wildcard

mutual

inductive Expr where
  | int (span : Span) (value : Int)
  | float (span : Span) (value : Double)
  | string (span : Span) (text : String)
  | char (span : Span) (value : Char)
  | bool (span : Span) (value : Bool)
  | nil (span : Span)
  /-- `"a ${x} b"` -/
  | interp (span : Span) (parts : List Part)
  | array (span : Span) (elems : List Expr)
  | map (span : Span) (entries : List (Expr × Expr))
  | ident (span : Span) (name : String)
  | call (span : Span) (callee : Expr) (args : List Expr)
  | member (span : Span) (object : Expr) (name : Ident)
  | index (span : Span) (object index : Expr)
  | binary (span : Span) (op : BinOp) (left right : Expr)
  | unary (span : Span) (op : UnaryOp) (operand : Expr)
  /-- `&x` or `&mut x` -/
  | borrow (span : Span) (mutable : Bool) (operand : Expr)
  /-- `*x` -/
  | deref (span : Span) (operand : Expr)
  | await (span : Span) (operand : Expr)
  /-- `x |> f` -/
  | pipe (span : Span) (left right : Expr)
  | assign (span : Span) (op : AssignOp) (target value : Expr)
  /-- `new C { x: 1 }` -/
  | new (span : Span) (cls : Ident) (fields : List (Ident × Expr))
  | lambda (span : Span) (sig : Signature) (body : Block)
  | paren (span : Span) (inner : Expr)

/-- A piece of a string with holes. -/
inductive Part where
  | text (text : String)
  | hole (expr : Expr)

structure Block where
  span : Span
  stmts : List Stmt

inductive Stmt where
  /-- `let x: T = e;` or `const x: T = e;` -/
  | bind (span : Span) (const : Bool) (name : Ident) (type : Option TypeExpr) (value : Expr)
  | fn (span : Span) (name : Ident) (sig : Signature) (body : Block)
  | ret (span : Span) (value : Option Expr)
  | brk (span : Span)
  | cont (span : Span)
  | cond (c : Conditional)
  /-- `for (init; test; post) { … }` -/
  | forLoop (span : Span) (init : Option Stmt) (test post : Option Expr) (body : Block)
  /-- `for x in xs { … }` -/
  | forIn (span : Span) (item : Ident) (iterable : Expr) (body : Block)
  | whileLoop (span : Span) (test : Expr) (body : Block)
  | loop (span : Span) (body : Block)
  | block (body : Block)
  | classDecl (span : Span) (name : Ident) (fields : List Field) (methods : List Method)
  | interfaceDecl (span : Span) (name : Ident) (methods : List MethodHead)
  | implDecl (span : Span) (interface target : Ident) (methods : List Method)
  | require (span : Span) (path : String) (imports : Import)
  | expr (span : Span) (expr : Expr)

/-- `if test { … } else …` -/
structure Conditional where
  span : Span
  test : Expr
  body : Block
  otherwise : Otherwise

/-- What follows the block of a conditional. -/
inductive Otherwise where
  | none
  | block (body : Block)
  | elseIf (c : Conditional)

/-- A field of a class. -/
structure Field where
  name : Ident
  type : TypeExpr
  default : Option Expr
  span : Span

/-- A method with its body. -/
structure Method where
  name : Ident
  receiver : Receiver
  sig : Signature
  body : Block
  span : Span

end

def Expr.span : Expr → Span
  | .int s _ | .float s _ | .string s _ | .char s _ | .bool s _ | .nil s | .interp s _
  | .array s _ | .map s _ | .ident s _ | .call s _ _ | .member s _ _ | .index s _ _
  | .binary s _ _ _ | .unary s _ _ | .borrow s _ _ | .deref s _ | .await s _ | .pipe s _ _
  | .assign s _ _ _ | .new s _ _ | .lambda s _ _ | .paren s _ => s

/-- The name, if the expression is nothing but one. -/
def Expr.ident? : Expr → Option String
  | .ident _ name => some name
  | _ => none

def Stmt.span : Stmt → Span
  | .bind s _ _ _ _ | .fn s _ _ _ | .ret s _ | .brk s | .cont s | .forLoop s _ _ _ _
  | .forIn s _ _ _ | .whileLoop s _ _ | .loop s _ | .classDecl s _ _ _ | .interfaceDecl s _ _
  | .implDecl s _ _ _ | .require s _ _ | .expr s _ => s
  | .cond c => c.span
  | .block b => b.span

/-- A whole program. -/
structure Program where
  stmts : List Stmt
  span : Span

end CarvFront
