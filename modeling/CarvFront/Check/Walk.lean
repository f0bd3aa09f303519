import CarvFront.Check.Call
import CarvFront.Check.Import
import CarvFront.Check.Function
import CarvFront.Check.Conformance
import CarvFront.Check.Declaration

/-! The walk through a program. Nothing stops it: whatever is wrong is reported, and what is around
and beside it is checked all the same. -/
namespace CarvFront.Check
variable {τ : Type} [Tracking τ]

/-- Types that are declared inside other code are declared when they are come to. -/
def declareHere (s : Stmt) : Check τ Unit := do
  if !(← get).scopes.atGlobal then declareTypes [s]

/-- What is wrong with an implementation: it names what is not there, or does not do what the
interface asks for. -/
def implementation (interface target : Ident) (methods : List Method) (span : Span) :
    Check τ Unit := do
  let s ← get
  let required := s.interfaces.find? interface.name
  let cls := s.classes.find? target.name
  demand required.isSome (.implOfUnknownInterface interface.name) interface.span
  demand cls.isSome (.implForUnknownClass target.name) target.span
  match required, cls with
  | some required, some cls =>
    report (Conformance.findings
      ⟨interface.name, target.name, required, cls.methods, methods, span⟩ s.implements)
  | _, _ => pure ()

/-- The type of the objects of a class, if it is there. -/
def ownerTy (c : Option ClassDef) (name : String) : Ty :=
  if c.isSome then .cls name else .unknown

/-- The type that a field was declared with. -/
def fieldTy (c : Option ClassDef) (name : String) : Ty :=
  (c.bind (·.fields.find? name)).getD .unknown

mutual

/-- The type of an expression. -/
def expr : Expr → Check τ Ty
  | .int span _ => recorded span (pure .int)
  | .float span _ => recorded span (pure .float)
  | .string span _ => recorded span (pure .string)
  | .char span _ => recorded span (pure .char)
  | .bool span _ => recorded span (pure .bool)
  | .nil span => recorded span (pure .nil)
  | .interp span ps => recorded span do
    parts ps
    pure .string
  | .array span es => recorded span do
    let tys ← exprs es
    pure (.array (tys.head?.getD .any))
  | .map span es => recorded span do
    let tys ← entries es
    let (key, value) := tys.head?.getD (.any, .any)
    pure (.map key value)
  | .ident span name => recorded span (use name span)
  | .call span callee args => recorded span do
    let ty ← expr callee
    let call ← openCall callee ty args.length span
    arguments call 0 args
    pure call.ret
  | .member span object name => recorded span do
    let ty ← expr object
    readMember ty name
  | .index span object i => recorded span do
    let ty ← expr object
    let index ← expr i
    readElement ty index i.span span
  | .binary span op l r => recorded span do
    let left ← expr l
    let right ← expr r
    accept (op.result left right span)
  | .unary span op e => recorded span do
    let ty ← expr e
    accept (op.result ty span)
  | .borrow span mutable (.ident place name) => recorded span do
    let ty ← recorded place (lookup name place)
    borrow name mutable place
    pure (.ref mutable ty)
  | .borrow span mutable e => recorded span do
    let ty ← expr e
    pure (.ref mutable ty)
  | .deref span e => recorded span do
    let ty ← expr e
    accept (ty.deref span)
  | .await span e => recorded span do
    let ty ← expr e
    await ty e.span span
  | .pipe span e (.call _ callee args) => recorded span do
    let ty ← expr callee
    let call ← openCall callee ty (args.length + 1) span
    let first ← expr e
    pass call 0 e first
    arguments call 1 args
    pure call.ret
  | .pipe span e callee => recorded span do
    let ty ← expr callee
    let call ← openCall callee ty 1 span
    let first ← expr e
    pass call 0 e first
    pure call.ret
  | .assign span op (.ident place name) e => recorded span do
    let value ← expr e
    assignName name place op value span
    pure .void
  | .assign span op (.member place object name) e => recorded span do
    let value ← expr e
    let ty ← expr object
    assignField ty name place op value span
    pure .void
  | .assign span op (.index place object i) e => recorded span do
    let value ← expr e
    let ty ← expr object
    let index ← expr i
    let target ← readElement ty index i.span place
    assign target op value span
    pure .void
  | .assign span _ target e => recorded span do
    let _ ← expr e
    let _ ← expr target
    report [⟨.invalidTarget, target.span⟩]
    pure .void
  | .new span cls fields => recorded span do
    match (← get).classes.find? cls.name with
    | some c => do
      initialisers cls.name (some c) fields
      pure (.cls cls.name)
    | none => do
      report [⟨.unknownClass cls.name, cls.span⟩]
      initialisers cls.name none fields
      pure .unknown
  | .lambda span sig b => recorded span do
    let f ← signature sig
    function sig f none (body b)
    pure f.toTy
  | .paren span e => recorded span (expr e)

/-- The types of expressions. -/
def exprs : List Expr → Check τ (List Ty)
  | [] => pure []
  | e :: es => do
    let ty ← expr e
    let tys ← exprs es
    pure (ty :: tys)

/-- The types of keys and values. -/
def entries : List (Expr × Expr) → Check τ (List (Ty × Ty))
  | [] => pure []
  | (k, v) :: es => do
    let key ← expr k
    let value ← expr v
    let tys ← entries es
    pure ((key, value) :: tys)

/-- The arguments of a call from the `i`-th on. -/
def arguments (call : OpenCall) (i : Nat) : List Expr → Check τ Unit
  | [] => pure ()
  | e :: es => do
    let ty ← expr e
    pass call i e ty
    arguments call (i + 1) es

/-- The values for the fields of a new object, whose class may not be known. -/
def initialisers (name : String) (c : Option ClassDef) : List (Ident × Expr) → Check τ Unit
  | [] => pure ()
  | (field, e) :: rest => do
    let value ← expr e
    match c with
    | some c => initialise name c field value e.span
    | none => pure ()
    initialisers name c rest

/-- The holes of a text. -/
def parts : List Part → Check τ Unit
  | [] => pure ()
  | .text _ :: ps => parts ps
  | .hole e :: ps => do
    let _ ← expr e
    parts ps

def stmt : Stmt → Check τ Unit
  | .bind span _ name type e => do
    let value ← expr e
    let ty ← bindingTy type value e.span
    give e value ⟨span.start.line, name.name⟩
    bind name.name ty
  | .fn span name sig b => do
    let f ← declaredSignature span sig
    bind name.name f.toTy
    function sig f none (body b)
  | .ret span (some e) => do
    let ty ← expr e
    ret span (some e) ty
  | .ret span none => ret span none .void
  | .brk span => jump .breakKw span
  | .cont span => jump .continueKw span
  | .cond c => conditional c
  | .forLoop _ init test post b =>
    inFrame .loop do
      loopInit init
      loopTest test
      block b
      loopPost post
  | .forIn _ item e b =>
    inFrame .loop do
      let ty ← expr e
      bind item.name (match ty.target.1 with
        | .array elem => elem
        | _ => .any)
      block b
  | .whileLoop _ e b =>
    inFrame .loop do
      let ty ← expr e
      condition .whileStmt ty e.span
      block b
  | .loop _ b => inFrame .loop (block b)
  | .block b => block b
  | .classDecl span name fields ms => do
    declareHere (.classDecl span name fields ms)
    let c := (← get).classes.find? name.name
    defaults c fields
    methods (ownerTy c name.name) ms
  | .interfaceDecl span name heads => declareHere (.interfaceDecl span name heads)
  | .implDecl span interface target ms => do
    declareHere (.implDecl span interface target ms)
    implementation interface target ms span
    let c := (← get).classes.find? target.name
    methods (ownerTy c target.name) ms
  | .require _ path imports => require path imports
  | .expr _ e => do
    let _ ← expr e
    pure ()

/-- What a loop starts with. -/
def loopInit : Option Stmt → Check τ Unit
  | some s => stmt s
  | none => pure ()

/-- What has to hold for a loop to go on. -/
def loopTest : Option Expr → Check τ Unit
  | some e => do
    let ty ← expr e
    condition .forStmt ty e.span
  | none => pure ()

/-- What a loop does after each turn. -/
def loopPost : Option Expr → Check τ Unit
  | some e => do
    let _ ← expr e
    pure ()
  | none => pure ()

def stmts : List Stmt → Check τ Unit
  | [] => pure ()
  | s :: ss => do
    stmt s
    stmts ss

/-- A block with a scope of its own. -/
def block : Block → Check τ Unit
  | ⟨_, ss⟩ => inBlock (stmts ss)

/-- The body of a function, whose scope also has the parameters. -/
def body : Block → Check τ Unit
  | ⟨_, ss⟩ => stmts ss

def conditional : Conditional → Check τ Unit
  | ⟨_, test, b, rest⟩ => do
    let ty ← expr test
    condition .ifStmt ty test.span
    block b
    otherwise rest

def otherwise : Otherwise → Check τ Unit
  | .none => pure ()
  | .block b => block b
  | .elseIf c => conditional c

/-- The values that fields have unless others are given. -/
def defaults (c : Option ClassDef) : List Field → Check τ Unit
  | [] => pure ()
  | ⟨name, _, some e, _⟩ :: fields => do
    let value ← expr e
    let ty := fieldTy c name.name
    demandAssignable value ty (.fieldDefault name.name value ty) e.span
    defaults c fields
  | ⟨_, _, none, _⟩ :: fields => defaults c fields

/-- The bodies of the methods of `owner`. -/
def methods (owner : Ty) : List Method → Check τ Unit
  | [] => pure ()
  | ⟨_, receiver, sig, b, span⟩ :: ms => do
    let f ← declaredSignature span sig
    function sig f (receiver.self? owner) (body b)
    methods owner ms

end
end CarvFront.Check
