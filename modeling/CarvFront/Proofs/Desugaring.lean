import CarvFront.Proofs.Congruence
import CarvFront.Proofs.Occurrences

/-! Pipes are another way to write calls. A program in which every pipe is written as a call has the
same errors, warnings and types. -/
namespace CarvFront

mutual

/-- An expression with every pipe in it written as a call. What is piped into a call becomes its
first argument; anything else is called with it. -/
def Expr.desugar : Expr → Expr
  | .pipe span e (.call _ callee args) =>
    .call span callee.desugar (e.desugar :: desugarExprs args)
  | .pipe span e callee => .call span callee.desugar [e.desugar]
  | .interp span ps => .interp span (desugarParts ps)
  | .array span es => .array span (desugarExprs es)
  | .map span es => .map span (desugarEntries es)
  | .call span callee args => .call span callee.desugar (desugarExprs args)
  | .member span e name => .member span e.desugar name
  | .index span e i => .index span e.desugar i.desugar
  | .binary span op l r => .binary span op l.desugar r.desugar
  | .unary span op e => .unary span op e.desugar
  | .borrow span mutable e => .borrow span mutable e.desugar
  | .deref span e => .deref span e.desugar
  | .await span e => .await span e.desugar
  | .assign span op target e => .assign span op target.desugar e.desugar
  | .new span cls fields => .new span cls (desugarInits fields)
  | .lambda span sig b => .lambda span sig b.desugar
  | .paren span e => .paren span e.desugar
  | .int span n => .int span n
  | .float span d => .float span d
  | .string span s => .string span s
  | .char span c => .char span c
  | .bool span b => .bool span b
  | .nil span => .nil span
  | .ident span name => .ident span name

def desugarExprs : List Expr → List Expr
  | [] => []
  | e :: es => e.desugar :: desugarExprs es

def desugarEntries : List (Expr × Expr) → List (Expr × Expr)
  | [] => []
  | (k, v) :: es => (k.desugar, v.desugar) :: desugarEntries es

def desugarInits : List (Ident × Expr) → List (Ident × Expr)
  | [] => []
  | (field, e) :: fields => (field, e.desugar) :: desugarInits fields

def desugarParts : List Part → List Part
  | [] => []
  | .text s :: ps => .text s :: desugarParts ps
  | .hole e :: ps => .hole e.desugar :: desugarParts ps

def Stmt.desugar : Stmt → Stmt
  | .bind span const name type e => .bind span const name type e.desugar
  | .fn span name sig b => .fn span name sig b.desugar
  | .ret span e => .ret span (desugarOption e)
  | .brk span => .brk span
  | .cont span => .cont span
  | .cond c => .cond c.desugar
  | .forLoop span init test post b =>
    .forLoop span (desugarStart init) (desugarOption test) (desugarOption post) b.desugar
  | .forIn span item e b => .forIn span item e.desugar b.desugar
  | .whileLoop span e b => .whileLoop span e.desugar b.desugar
  | .loop span b => .loop span b.desugar
  | .block b => .block b.desugar
  | .classDecl span name fields ms => .classDecl span name (desugarFields fields) (desugarMethods ms)
  | .interfaceDecl span name heads => .interfaceDecl span name heads
  | .implDecl span interface target ms => .implDecl span interface target (desugarMethods ms)
  | .require span path imports => .require span path imports
  | .expr span e => .expr span e.desugar

def desugarOption : Option Expr → Option Expr
  | none => none
  | some e => some e.desugar

def desugarStart : Option Stmt → Option Stmt
  | none => none
  | some s => some s.desugar

def desugarStmts : List Stmt → List Stmt
  | [] => []
  | s :: ss => s.desugar :: desugarStmts ss

def Block.desugar : Block → Block
  | ⟨span, ss⟩ => ⟨span, desugarStmts ss⟩

def Conditional.desugar : Conditional → Conditional
  | ⟨span, test, b, rest⟩ => ⟨span, test.desugar, b.desugar, rest.desugar⟩

def Otherwise.desugar : Otherwise → Otherwise
  | .none => .none
  | .block b => .block b.desugar
  | .elseIf c => .elseIf c.desugar

def desugarFields : List Field → List Field
  | [] => []
  | ⟨name, type, e, span⟩ :: fields => ⟨name, type, desugarOption e, span⟩ :: desugarFields fields

def desugarMethods : List Method → List Method
  | [] => []
  | ⟨name, receiver, sig, b, span⟩ :: ms => ⟨name, receiver, sig, b.desugar, span⟩ :: desugarMethods ms

end

/-- A program with every pipe written as a call. -/
def Program.desugar (p : Program) : Program :=
  ⟨desugarStmts p.stmts, p.span⟩

/-! ### What the rules see of an expression stays -/

namespace Expr

/-- A pipe into something that is not a call. -/
theorem desugar_pipe_other {span : Span} {e callee : Expr} (hn : ∀ s f as, callee ≠ .call s f as) :
    (pipe span e callee).desugar = .call span callee.desugar [e.desugar] := by
  cases callee with
  | call s f as => exact absurd rfl (hn s f as)
  | _ => rfl

@[simp] theorem span_desugar (e : Expr) : e.desugar.span = e.span := by
  cases e with
  | pipe span e callee => cases callee <;> rfl
  | _ => rfl

@[simp] theorem ident?_desugar (e : Expr) : e.desugar.ident? = e.ident? := by
  cases e with
  | pipe span e callee => cases callee <;> rfl
  | _ => rfl

@[simp] theorem callee_desugar (e : Expr) : e.desugar.callee = e.callee := by
  cases e with
  | pipe span e callee => cases callee <;> rfl
  | _ => rfl

@[simp] theorem isPlace_desugar (e : Expr) : e.desugar.isPlace = e.isPlace := by
  cases e with
  | pipe span e callee => cases callee <;> rfl
  | _ => rfl

end Expr

@[simp] theorem length_desugarExprs (es : List Expr) : (desugarExprs es).length = es.length := by
  induction es with
  | nil => rfl
  | cons e es ih => rw [desugarExprs, List.length_cons, List.length_cons, ih]

/-! ### Declarations say nothing about code -/

theorem Conformance.parameters_congr (c c' : Conformance) (h : c.interface = c'.interface)
    (impls : Implements) (name : String) (span : Span) (i : Nat) (wants gots : List Ty) :
    c.parameters impls name span i wants gots = c'.parameters impls name span i wants gots := by
  induction wants generalizing i gots with
  | nil => rfl
  | cons want wants ih =>
    cases gots with
    | nil => rfl
    | cons got gots => rw [parameters, parameters, h, ih]

/-- Of the methods written in an implementation only their spans matter. -/
theorem Conformance.findings_congr {c : Conformance} {methods : List Method}
    (h : ∀ name, { c with methods }.methodSpan name = c.methodSpan name) (impls : Implements) :
    { c with methods }.findings impls = c.findings impls := by
  have hparams := parameters_congr { c with methods } c rfl impls
  unfold findings one method
  simp only [h, hparams]

theorem methodSpan_desugar (c : Conformance) (name : String) :
    { c with methods := desugarMethods c.methods }.methodSpan name = c.methodSpan name := by
  obtain ⟨interface, cls, required, provided, methods, span⟩ := c
  induction methods with
  | nil => rfl
  | cons m ms ih =>
    obtain ⟨id, receiver, sig, b, place⟩ := m
    unfold Conformance.methodSpan at ih ⊢
    rw [desugarMethods, List.find?_cons, List.find?_cons]
    cases decide (id.name = name) with
    | true => rfl
    | false => exact ih

namespace Check
variable {τ : Type}

theorem addMethods_desugar (t : Table MethodTy) (ms : List Method) :
    (addMethods t (desugarMethods ms) : Check τ (Table MethodTy)) = addMethods t ms := by
  unfold addMethods
  induction ms generalizing t with
  | nil => rfl
  | cons m ms ih =>
    obtain ⟨name, receiver, sig, b, span⟩ := m
    rw [desugarMethods, List.foldlM_cons, List.foldlM_cons]
    simp only [ih]

theorem classFields_desugar (fields : List Field) :
    (classFields (desugarFields fields) : Check τ (Table Ty)) = classFields fields := by
  unfold classFields
  generalize (∅ : Table Ty) = t
  induction fields generalizing t with
  | nil => rfl
  | cons f fields ih =>
    obtain ⟨name, type, e, span⟩ := f
    rw [desugarFields, List.foldlM_cons, List.foldlM_cons]
    simp only [ih]

theorem reserve_desugar (ss : List Stmt) (s : State τ) :
    (desugarStmts ss).foldl State.reserve s = ss.foldl State.reserve s := by
  induction ss generalizing s with
  | nil => rfl
  | cons t ss ih =>
    have ht : s.reserve t.desugar = s.reserve t := by
      cases t <;> rfl
    rw [desugarStmts, List.foldl_cons, List.foldl_cons, ht, ih]

theorem declareInterface_desugar (s : Stmt) :
    (declareInterface s.desugar : Check τ Unit) = declareInterface s := by
  cases s <;> rfl

theorem declareClass_desugar (s : Stmt) :
    (declareClass s.desugar : Check τ Unit) = declareClass s := by
  cases s with
  | classDecl span name fields ms =>
    rw [Stmt.desugar, declareClass, declareClass, classFields_desugar]
    simp only [addMethods_desugar]
  | _ => rfl

theorem declareImpl_desugar (s : Stmt) :
    (declareImpl s.desugar : Check τ Unit) = declareImpl s := by
  cases s with
  | implDecl span interface target ms =>
    rw [Stmt.desugar, declareImpl, declareImpl]
    simp only [addMethods_desugar]
  | _ => rfl

/-- A step for every statement that takes no notice of pipes. -/
theorem forM_desugar {k : Stmt → Check τ Unit} (hk : ∀ s : Stmt, k s.desugar = k s)
    (ss : List Stmt) : (desugarStmts ss).forM k = ss.forM k := by
  induction ss with
  | nil => rfl
  | cons s ss ih => rw [desugarStmts, List.forM, List.forM, hk, ih]

theorem declareTypes_desugar (ss : List Stmt) :
    (declareTypes (desugarStmts ss) : Check τ Unit) = declareTypes ss := by
  unfold declareTypes
  simp only [reserve_desugar, forM_desugar declareInterface_desugar,
    forM_desugar declareClass_desugar, forM_desugar declareImpl_desugar]

theorem declareHere_desugar (s : Stmt) :
    (declareHere s.desugar : Check τ Unit) = declareHere s := by
  unfold declareHere
  rw [show [s.desugar] = desugarStmts [s] from rfl, declareTypes_desugar]

theorem implementation_desugar (interface target : Ident) (ms : List Method) (span : Span) :
    (implementation interface target (desugarMethods ms) span : Check τ Unit) =
      implementation interface target ms span := by
  unfold implementation
  simp only [Conformance.findings_congr (methodSpan_desugar ⟨_, _, _, _, ms, _⟩)]

/-! ### Steps that look at an expression -/

theorem openCall_desugar (callee : Expr) (ty : Ty) (count : Nat) (span : Span) :
    (openCall callee.desugar ty count span : Check τ OpenCall) = openCall callee ty count span := by
  unfold openCall
  simp only [Expr.ident?_desugar, Expr.callee_desugar]

variable [Tracking τ]

theorem give_desugar (e : Expr) (ty : Ty) (site : MoveSite) :
    (give e.desugar ty site : Check τ Unit) = give e ty site := by
  rw [give, give, Expr.ident?_desugar]

theorem pass_desugar (call : OpenCall) (i : Nat) (arg : Expr) (ty : Ty) :
    (pass call i arg.desugar ty : Check τ Unit) = pass call i arg ty := by
  unfold pass
  simp only [Expr.span_desugar, give_desugar]

theorem ret_desugar (span : Span) (value : Option Expr) (ty : Ty) :
    (ret span (desugarOption value) ty : Check τ Unit) = ret span value ty := by
  cases value with
  | none => rfl
  | some e =>
    rw [desugarOption, ret, ret]
    simp only [give_desugar]

theorem hoist_desugar (s : Stmt) : (hoist s.desugar : Check τ Unit) = hoist s := by
  cases s <;> rfl

/-! ### The walk -/

theorem pipe_desugar_other {span : Span} {e callee : Expr} (hn : ∀ s f as, callee ≠ .call s f as)
    (he : (expr e.desugar : Check τ Ty) = expr e)
    (hc : (expr callee.desugar : Check τ Ty) = expr callee) :
    (expr (Expr.pipe span e callee).desugar : Check τ Ty) = expr (.pipe span e callee) := by
  rw [Expr.desugar_pipe_other hn, expr, expr_pipe_other hn, hc]
  simp only [arguments, bind_assoc, openCall_desugar, List.length_singleton, he, pass_desugar,
    pure_bind]

mutual

/-- An expression is checked in the same way when its pipes are written as calls. -/
theorem expr_desugar : ∀ e : Expr, (expr e.desugar : Check τ Ty) = expr e
  | .int _ _ | .float _ _ | .string _ _ | .char _ _ | .bool _ _ | .nil _ | .ident _ _ => rfl
  | .interp span ps => by
    rw [Expr.desugar, expr, expr, parts_desugar ps]
  | .array span es => by
    rw [Expr.desugar, expr, expr, exprs_desugar es]
  | .map span es => by
    rw [Expr.desugar, expr, expr, entries_desugar es]
  | .call span callee args => by
    have hargs := fun call => arguments_desugar call 0 args
    rw [Expr.desugar, expr, expr, expr_desugar callee]
    simp only [openCall_desugar, length_desugarExprs, hargs]
  | .member span object name => by
    rw [Expr.desugar, expr, expr, expr_desugar object]
  | .index span object i => by
    rw [Expr.desugar, expr, expr, expr_desugar object]
    simp only [expr_desugar i, Expr.span_desugar]
  | .binary span op l r => by
    rw [Expr.desugar, expr, expr, expr_desugar l]
    simp only [expr_desugar r]
  | .unary span op e | .deref span e => by
    rw [Expr.desugar, expr, expr, expr_desugar e]
  | .borrow span mutable e => by
    cases e with
    | ident place name => rfl
    | _ =>
      rw [Expr.desugar, expr_borrow_other ((Expr.ident?_desugar _).trans rfl),
        expr_borrow_other rfl, expr_desugar]
  | .await span e => by
    rw [Expr.desugar, expr, expr, expr_desugar e]
    simp only [Expr.span_desugar]
  | .pipe span e right => by
    cases right with
    | call inner callee args =>
      have hargs := fun call => arguments_desugar call 1 args
      rw [Expr.desugar, expr, expr, expr_desugar callee]
      simp only [arguments, bind_assoc, openCall_desugar, List.length_cons, length_desugarExprs,
        expr_desugar e, pass_desugar, hargs, Nat.zero_add]
    | _ => exact pipe_desugar_other (fun _ _ _ => nofun) (expr_desugar e) (expr_desugar _)
  | .assign span op target e => by
    cases target with
    | ident place name =>
      rw [Expr.desugar, Expr.desugar, expr, expr, expr_desugar e]
    | member place object name =>
      rw [Expr.desugar, Expr.desugar, expr, expr, expr_desugar e]
      simp only [expr_desugar object]
    | index place object i =>
      rw [Expr.desugar, Expr.desugar, expr, expr, expr_desugar e]
      simp only [expr_desugar object, expr_desugar i, Expr.span_desugar]
    | _ =>
      rw [Expr.desugar, expr_assign_other ((Expr.isPlace_desugar _).trans rfl),
        expr_assign_other rfl, expr_desugar e, expr_desugar, Expr.span_desugar]
  | .new span cls fields => by
    rw [Expr.desugar, expr, expr]
    simp only [initialisers_desugar]
  | .lambda span sig b => by
    rw [Expr.desugar, expr, expr, body_desugar b]
  | .paren span e => by
    rw [Expr.desugar, expr, expr, expr_desugar e]

theorem exprs_desugar : ∀ es : List Expr, (exprs (desugarExprs es) : Check τ (List Ty)) = exprs es
  | [] => rfl
  | e :: es => by
    rw [desugarExprs, exprs, exprs, expr_desugar e, exprs_desugar es]

theorem entries_desugar : ∀ es : List (Expr × Expr),
    (entries (desugarEntries es) : Check τ (List (Ty × Ty))) = entries es
  | [] => rfl
  | (k, v) :: es => by
    rw [desugarEntries, entries, entries, expr_desugar k, expr_desugar v, entries_desugar es]

theorem arguments_desugar (call : OpenCall) (i : Nat) : ∀ es : List Expr,
    (arguments call i (desugarExprs es) : Check τ Unit) = arguments call i es
  | [] => rfl
  | e :: es => by
    rw [desugarExprs, arguments, arguments, expr_desugar e]
    simp only [pass_desugar, arguments_desugar call (i + 1) es]

theorem initialisers_desugar (name : String) (c : Option ClassDef) :
    ∀ fields : List (Ident × Expr),
      (initialisers name c (desugarInits fields) : Check τ Unit) = initialisers name c fields
  | [] => rfl
  | (field, e) :: rest => by
    rw [desugarInits, initialisers, initialisers, expr_desugar e, Expr.span_desugar,
      initialisers_desugar name c rest]

theorem parts_desugar : ∀ ps : List Part, (parts (desugarParts ps) : Check τ Unit) = parts ps
  | [] => rfl
  | .text _ :: ps => by
    rw [desugarParts, parts, parts, parts_desugar ps]
  | .hole e :: ps => by
    rw [desugarParts, parts, parts, expr_desugar e, parts_desugar ps]

/-- A statement is checked in the same way when its pipes are written as calls. -/
theorem stmt_desugar : ∀ s : Stmt, (stmt s.desugar : Check τ Unit) = stmt s
  | .bind span _ name type e => by
    rw [Stmt.desugar, stmt, stmt, expr_desugar e]
    simp only [Expr.span_desugar, give_desugar]
  | .fn span name sig b => by
    rw [Stmt.desugar, stmt, stmt, body_desugar b]
  | .ret span (some e) => by
    rw [Stmt.desugar, desugarOption, stmt, stmt, expr_desugar e]
    simp only [← ret_desugar span (some e), desugarOption]
  | .ret span none | .brk span | .cont span => rfl
  | .cond c => by
    rw [Stmt.desugar, stmt, stmt, conditional_desugar c]
  | .forLoop _ init test post b => by
    rw [Stmt.desugar, stmt, stmt, loopInit_desugar init, loopTest_desugar test,
      loopPost_desugar post, block_desugar b]
  | .forIn _ item e b => by
    rw [Stmt.desugar, stmt, stmt, expr_desugar e, block_desugar b]
  | .whileLoop _ e b => by
    rw [Stmt.desugar, stmt, stmt, expr_desugar e, Expr.span_desugar, block_desugar b]
  | .loop _ b | .block b => by
    rw [Stmt.desugar, stmt, stmt, block_desugar b]
  | .classDecl span name fields ms => by
    have hdecl := declareHere_desugar (τ := τ) (.classDecl span name fields ms)
    rw [Stmt.desugar] at hdecl ⊢
    rw [stmt, stmt, hdecl]
    simp only [defaults_desugar, methods_desugar]
  | .interfaceDecl _ _ _ | .require _ _ _ => rfl
  | .implDecl span interface target ms => by
    have hdecl := declareHere_desugar (τ := τ) (.implDecl span interface target ms)
    rw [Stmt.desugar] at hdecl ⊢
    rw [stmt, stmt, hdecl, implementation_desugar]
    simp only [methods_desugar]
  | .expr _ e => by
    rw [Stmt.desugar, stmt, stmt, expr_desugar e]

theorem loopInit_desugar : ∀ init : Option Stmt,
    (loopInit (desugarStart init) : Check τ Unit) = loopInit init
  | none => rfl
  | some s => by
    rw [desugarStart, loopInit, loopInit, stmt_desugar s]

theorem loopTest_desugar : ∀ test : Option Expr,
    (loopTest (desugarOption test) : Check τ Unit) = loopTest test
  | none => rfl
  | some e => by
    rw [desugarOption, loopTest, loopTest, expr_desugar e, Expr.span_desugar]

theorem loopPost_desugar : ∀ post : Option Expr,
    (loopPost (desugarOption post) : Check τ Unit) = loopPost post
  | none => rfl
  | some e => by
    rw [desugarOption, loopPost, loopPost, expr_desugar e]

theorem stmts_desugar : ∀ ss : List Stmt, (stmts (desugarStmts ss) : Check τ Unit) = stmts ss
  | [] => rfl
  | s :: ss => by
    rw [desugarStmts, stmts, stmts, stmt_desugar s, stmts_desugar ss]

theorem block_desugar : ∀ b : Block, (block b.desugar : Check τ Unit) = block b
  | ⟨_, ss⟩ => by
    rw [Block.desugar, block, block, stmts_desugar ss]

theorem body_desugar : ∀ b : Block, (body b.desugar : Check τ Unit) = body b
  | ⟨_, ss⟩ => by
    rw [Block.desugar, body, body, stmts_desugar ss]

theorem conditional_desugar : ∀ c : Conditional,
    (conditional c.desugar : Check τ Unit) = conditional c
  | ⟨_, test, b, rest⟩ => by
    rw [Conditional.desugar, conditional, conditional, expr_desugar test, Expr.span_desugar,
      block_desugar b, otherwise_desugar rest]

theorem otherwise_desugar : ∀ o : Otherwise, (otherwise o.desugar : Check τ Unit) = otherwise o
  | .none => rfl
  | .block b => by
    rw [Otherwise.desugar, otherwise, otherwise, block_desugar b]
  | .elseIf c => by
    rw [Otherwise.desugar, otherwise, otherwise, conditional_desugar c]

theorem defaults_desugar (c : Option ClassDef) : ∀ fields : List Field,
    (defaults c (desugarFields fields) : Check τ Unit) = defaults c fields
  | [] => rfl
  | ⟨name, _, some e, _⟩ :: fields => by
    rw [desugarFields, desugarOption, defaults, defaults, expr_desugar e, Expr.span_desugar,
      defaults_desugar c fields]
  | ⟨_, _, none, _⟩ :: fields => by
    rw [desugarFields, desugarOption, defaults, defaults, defaults_desugar c fields]

theorem methods_desugar (owner : Ty) : ∀ ms : List Method,
    (methods owner (desugarMethods ms) : Check τ Unit) = methods owner ms
  | [] => rfl
  | ⟨_, receiver, sig, b, span⟩ :: ms => by
    rw [desugarMethods, methods, methods, body_desugar b, methods_desugar owner ms]

end

theorem program_desugar (p : Program) : (program p.desugar : Check τ Unit) = program p := by
  unfold program Program.desugar
  rw [declareTypes_desugar, forM_desugar hoist_desugar, stmts_desugar]

end Check

/-! ### No pipe is left -/

def Node.isPipe : Node → Bool
  | .expr (.pipe _ _ _) => true
  | _ => false

/-- There is no pipe among some nodes. -/
def PipeFree (os : List Occurrence) : Prop :=
  ∀ o ∈ os, o.node.isPipe = false

theorem pipeFree_nil : PipeFree [] := by
  intro o ho
  cases ho

theorem PipeFree.append {os os' : List Occurrence} (h : PipeFree os) (h' : PipeFree os') :
    PipeFree (os ++ os') :=
  List.forall_mem_append.mpr ⟨h, h'⟩

theorem PipeFree.cons {n : Node} {around : List Enclosure} {os : List Occurrence}
    (hn : n.isPipe = false) (h : PipeFree os) : PipeFree (⟨n, around⟩ :: os) :=
  List.forall_mem_cons.mpr ⟨hn, h⟩

mutual

theorem pipeFree_expr : ∀ (e : Expr) (a : List Enclosure), PipeFree (e.desugar.placed a)
  | .int _ _, _ | .float _ _, _ | .string _ _, _ | .char _ _, _ | .bool _ _, _ | .nil _, _
  | .ident _ _, _ => .cons rfl pipeFree_nil
  | .interp _ ps, a => .cons rfl (pipeFree_parts ps a)
  | .array _ es, a => .cons rfl (pipeFree_exprs es a)
  | .map _ es, a => .cons rfl (pipeFree_entries es a)
  | .call _ callee args, a => .cons rfl ((pipeFree_expr callee a).append (pipeFree_exprs args a))
  | .member _ e _, a | .unary _ _ e, a | .borrow _ _ e, a | .deref _ e, a | .await _ e, a
  | .paren _ e, a => .cons rfl (pipeFree_expr e a)
  | .index _ e f, a | .binary _ _ e f, a | .assign _ _ e f, a =>
    .cons rfl ((pipeFree_expr e a).append (pipeFree_expr f a))
  | .pipe span e right, a => by
    cases right with
    | call _ callee args =>
      exact .cons rfl ((pipeFree_expr callee a).append
        ((pipeFree_expr e a).append (pipeFree_exprs args a)))
    | _ =>
      exact .cons rfl ((pipeFree_expr _ a).append ((pipeFree_expr e a).append pipeFree_nil))
  | .new _ _ fields, a => .cons rfl (pipeFree_inits fields a)
  | .lambda _ _ b, a => .cons rfl (pipeFree_block b _)

theorem pipeFree_exprs : ∀ (es : List Expr) (a : List Enclosure),
    PipeFree (placedExprs a (desugarExprs es))
  | [], _ => pipeFree_nil
  | e :: es, a => (pipeFree_expr e a).append (pipeFree_exprs es a)

theorem pipeFree_entries : ∀ (es : List (Expr × Expr)) (a : List Enclosure),
    PipeFree (placedEntries a (desugarEntries es))
  | [], _ => pipeFree_nil
  | (k, v) :: es, a =>
    ((pipeFree_expr k a).append (pipeFree_expr v a)).append (pipeFree_entries es a)

theorem pipeFree_inits : ∀ (fields : List (Ident × Expr)) (a : List Enclosure),
    PipeFree (placedInits a (desugarInits fields))
  | [], _ => pipeFree_nil
  | (_, e) :: fields, a => (pipeFree_expr e a).append (pipeFree_inits fields a)

theorem pipeFree_parts : ∀ (ps : List Part) (a : List Enclosure),
    PipeFree (placedParts a (desugarParts ps))
  | [], _ => pipeFree_nil
  | .text _ :: ps, a => pipeFree_parts ps a
  | .hole e :: ps, a => (pipeFree_expr e a).append (pipeFree_parts ps a)

theorem pipeFree_stmt : ∀ (s : Stmt) (a : List Enclosure), PipeFree (s.desugar.placed a)
  | .bind _ _ _ _ e, a | .expr _ e, a => .cons rfl (pipeFree_expr e a)
  | .fn _ _ _ b, _ | .loop _ b, _ | .block b, _ => .cons rfl (pipeFree_block b _)
  | .ret _ e, a => .cons rfl (pipeFree_option e a)
  | .cond c, a => .cons rfl (pipeFree_conditional c a)
  | .forLoop _ init test post b, _ =>
    .cons rfl ((((pipeFree_start init _).append (pipeFree_option test _)).append
      (pipeFree_option post _)).append (pipeFree_block b _))
  | .forIn _ _ e b, _ | .whileLoop _ e b, _ =>
    .cons rfl ((pipeFree_expr e _).append (pipeFree_block b _))
  | .classDecl _ _ fields ms, a =>
    .cons rfl ((pipeFree_fields fields a).append (pipeFree_methods ms a))
  | .implDecl _ _ _ ms, a => .cons rfl (pipeFree_methods ms a)
  | .brk _, _ | .cont _, _ | .interfaceDecl _ _ _, _ | .require _ _ _, _ =>
    .cons rfl pipeFree_nil

theorem pipeFree_option : ∀ (e : Option Expr) (a : List Enclosure),
    PipeFree (placedOption a (desugarOption e))
  | none, _ => pipeFree_nil
  | some e, a => pipeFree_expr e a

theorem pipeFree_start : ∀ (init : Option Stmt) (a : List Enclosure),
    PipeFree (placedStart a (desugarStart init))
  | none, _ => pipeFree_nil
  | some s, a => pipeFree_stmt s a

theorem pipeFree_stmts : ∀ (ss : List Stmt) (a : List Enclosure),
    PipeFree (placedStmts a (desugarStmts ss))
  | [], _ => pipeFree_nil
  | s :: ss, a => (pipeFree_stmt s a).append (pipeFree_stmts ss a)

theorem pipeFree_block : ∀ (b : Block) (a : List Enclosure), PipeFree (b.desugar.placed a)
  | ⟨_, ss⟩, a => pipeFree_stmts ss a

theorem pipeFree_conditional : ∀ (c : Conditional) (a : List Enclosure),
    PipeFree (c.desugar.placed a)
  | ⟨_, test, b, rest⟩, a =>
    ((pipeFree_expr test a).append (pipeFree_block b a)).append (pipeFree_otherwise rest a)

theorem pipeFree_otherwise : ∀ (o : Otherwise) (a : List Enclosure), PipeFree (o.desugar.placed a)
  | .none, _ => pipeFree_nil
  | .block b, a => pipeFree_block b a
  | .elseIf c, a => pipeFree_conditional c a

theorem pipeFree_fields : ∀ (fields : List Field) (a : List Enclosure),
    PipeFree (placedFields a (desugarFields fields))
  | [], _ => pipeFree_nil
  | ⟨_, _, e, _⟩ :: fields, a => (pipeFree_option e a).append (pipeFree_fields fields a)

theorem pipeFree_methods : ∀ (ms : List Method) (a : List Enclosure),
    PipeFree (placedMethods a (desugarMethods ms))
  | [], _ => pipeFree_nil
  | ⟨_, _, _, b, _⟩ :: ms, a => (pipeFree_block b _).append (pipeFree_methods ms a)

end

/-- With every pipe written as a call, a program has no pipe and the same report: the same errors
and warnings in order, and the same types for the same spans. -/
theorem Program.check_desugar (p : Program) (o : Options) :
    PipeFree p.desugar.occurrences ∧ p.desugar.check o = p.check o := by
  refine ⟨pipeFree_stmts p.stmts [], ?_⟩
  rw [Program.check, Program.check, Program.finalState, Program.finalState, Check.program_desugar]

end CarvFront
