import CarvFront.Proofs.Reporting
import CarvFront.Proofs.Occurrences

/-! Accounts of what checking leaves behind, node by node. Checking comes to every expression and
every statement of a program once; an account that the elementary steps balance is balanced by the
whole walk. -/
namespace CarvFront

/-- The construct that a scope belongs to, if it matters. -/
def ScopeKind.enclosure? : ScopeKind → Option Enclosure
  | .loop => some .loop
  | .function async => some (.function async)
  | .global | .block => none

theorem Scopes.kinds_pop {s s' : Scopes} {kind : ScopeKind} (h : s'.kinds = kind :: s.kinds) :
    s'.pop.kinds = s.kinds := by
  obtain ⟨inner, outer⟩ := s'
  have houter : outer.map Scope.kind = s.kinds := (List.cons.inj h).2
  cases outer with
  | nil => cases houter
  | cons scope outer => exact houter

/-- The operands that are looked into but not at: the call that a value is piped into, and the place
that is assigned to. -/
def Expr.passedOver : Expr → List Expr
  | .pipe _ _ (.call span callee args) => [.call span callee args]
  | .assign _ _ target _ => if target.isPlace then [target] else []
  | _ => []

/-- Expressions that neither wait for anything nor have a signature. -/
def Expr.isCommon : Expr → Bool
  | .await _ _ | .lambda _ _ _ => false
  | _ => true

/-- What is passed over is common, and itself passes nothing over. -/
theorem Expr.common_of_passedOver {e t : Expr} (h : t ∈ e.passedOver) :
    t.isCommon = true ∧ t.passedOver = [] := by
  cases e with
  | pipe span value callee =>
    cases callee with
    | call inner callee args =>
      cases List.mem_singleton.mp h
      exact ⟨rfl, rfl⟩
    | _ => cases h
  | assign span op target value =>
    rw [passedOver] at h
    split at h
    · next hplace =>
      cases List.mem_singleton.mp h
      cases t with
      | ident | member | index => exact ⟨rfl, rfl⟩
      | _ => cases hplace
    · cases h
  | _ => cases h

/-- Statements that neither bind or declare anything nor jump. -/
def Stmt.isCommon : Stmt → Bool
  | .bind _ _ _ _ _ | .brk _ | .cont _ => false
  | s => !s.isDeclaration

namespace Check
variable {τ α β : Type}

/-! ### Quiet steps -/

/-- A step that leaves what is declared as it is. -/
def Undeclaring ⦃α : Type⦄ (m _ : Check τ α) : Prop :=
  ∀ s : State τ, (m.after s).declared = s.declared

/-- A step that declares nothing, notes no type, and reports ordinary causes at most. -/
structure Quiet (m : Check τ α) : Prop where
  reports : Reports Cause.isOrdinary m
  declared : Undeclaring m m

theorem allows_ordinary : Allows Cause.isOrdinary :=
  fun _ hc => hc

theorem quiet_pure (a : α) : Quiet (pure a : Check τ α) :=
  ⟨reports_pure a, fun _ => rfl⟩

theorem Quiet.seq {m : Check τ α} {k : α → Check τ β} (hm : Quiet m) (hk : ∀ a, Quiet (k a)) :
    Quiet (m >>= k) :=
  ⟨hm.reports.seq fun a => (hk a).reports, fun s => ((hk _).declared _).trans (hm.declared s)⟩

section Tracking
variable [Tracking τ]

theorem undeclaring_core : Core (Undeclaring (τ := τ)) where
  toCalm := calm_of_states (R := fun s s' => s'.declared = s.declared) (fun _ => rfl)
    (fun h h' => h'.trans h) (fun _ _ _ => rfl) (fun _ _ _ => rfl) fun _ _ _ => rfl
  bind _ _ _ := rfl
  inFrame kind _ _ hm s := hm (s.enterFrame kind)
  inBlock hm s := hm s.enterBlock
  returning expected _ _ hm s := hm { s with returns := expected :: s.returns }

theorem undeclaring_require (path : String) (imports : Import) :
    Undeclaring (τ := τ) (require path imports) (require path imports) := by
  have h := undeclaring_core (τ := τ)
  cases imports with
  | wildcard =>
    rw [require]
    split
    · exact h.forM _ fun e => h.bind e.1 e.2.toTy
    · exact fun _ => rfl
  | _ => exact h.require path fun heq => by cases heq

theorem quiet_bind (name : String) (ty : Ty) : Quiet (Check.bind name ty : Check τ Unit) :=
  ⟨reports_bind _ _, undeclaring_core.bind _ _⟩

theorem quiet_plain : Plain fun ⦃α⦄ (m _ : Check τ α) => Quiet m where
  pure := quiet_pure
  seq hm hk := hm.seq hk
  get hk := ⟨reports_get fun s => (hk s s (.refl s)).reports, fun s => (hk s s (.refl s)).declared s⟩
  ordinary fs h := ⟨reports_report h, undeclaring_core.report fs⟩
  move name site := ⟨(reports_plain allows_ordinary).move name site, undeclaring_core.move name site⟩
  warnIfMoved name span :=
    ⟨(reports_plain allows_ordinary).warnIfMoved name span, undeclaring_core.warnIfMoved name span⟩
  borrow name mutable span :=
    ⟨(reports_plain allows_ordinary).borrow name mutable span,
      undeclaring_core.borrow name mutable span⟩
  demandFree name span :=
    ⟨(reports_plain allows_ordinary).demandFree name span, undeclaring_core.demandFree name span⟩
  demandNoBorrows span :=
    ⟨(reports_plain allows_ordinary).demandNoBorrows span, undeclaring_core.demandNoBorrows span⟩

/-! ### Accounts -/

/-- An account `P top a m os` of what a step leaves behind for the nodes `os`, in code with `a`
around it. `top` is for code that may stand at the top of a program. -/
structure Tally (P : Bool → List Enclosure → ∀ ⦃α : Type⦄, Check τ α → List Occurrence → Prop) :
    Prop where
  perm {top a} {α : Type} {m : Check τ α} {os os' : List Occurrence}
    (h : P top a m os) (hp : os.Perm os') : P top a m os'
  seq {top a} {α β : Type} {m : Check τ α} {k : α → Check τ β}
    {os os' : List Occurrence} (hm : P top a m os) (hk : ∀ x, P top a (k x) os') :
    P top a (m >>= k) (os ++ os')
  get {top a} {α : Type} {k : State τ → Check τ α}
    {os : List Occurrence} (hk : ∀ s, P top a (k s) os) : P top a (get >>= k) os
  quiet {top a} {α : Type} {m : Check τ α} (h : Quiet m) : P top a m []
  inFrame {top a} {kind : ScopeKind} {e : Enclosure}
    (he : kind.enclosure? = some e) {m : Check τ Unit} {os : List Occurrence}
    (hm : P false (e :: a) m os) : P top a (inFrame kind m) os
  inBlock {top a} {m : Check τ Unit} {os : List Occurrence}
    (hm : P false a m os) : P top a (inBlock m) os
  returning {top a} (expected : Option Ty) {m : Check τ Unit}
    {os : List Occurrence} (hm : P top a m os) : P top a (returning expected m) os
  exprNode {top a} (e : Expr) (he : e.isCommon = true) {m : Check τ Ty}
    {os : List Occurrence} (hm : P top a m os) :
    P top a (recorded e.span m) (⟨.expr e, a⟩ :: (e.passedOver.map (⟨.expr ·, a⟩) ++ os))
  awaitNode {top a} (span : Span) (e : Expr) {m : Check τ Ty}
    {os : List Occurrence} (hm : P top a m os) :
    P top a (recorded span (do let ty ← m; await ty e.span span))
      (⟨.expr (.await span e), a⟩ :: os)
  lambdaNode {top a} (span : Span) (sig : Signature) (b : Block)
    {k : FnTy → Check τ Ty} {os : List Occurrence} (hk : ∀ f, P top a (k f) os) :
    P top a (recorded span (signature sig >>= k)) (⟨.expr (.lambda span sig b), a⟩ :: os)
  stmtNode {top a} (s : Stmt) (hs : s.isCommon = true) {m : Check τ Unit}
    {os : List Occurrence} (hm : P top a m os) : P top a m (⟨.stmt s, a⟩ :: os)
  binding {top a} (span : Span) (mutable : Bool) (name : Ident)
    (type : Option TypeExpr) (e : Expr) (value : Ty) :
    P top a (bindingTy type value e.span) [⟨.stmt (.bind span mutable name type e), a⟩]
  brk {top a} (span : Span) :
    P top a (jump .breakKw span) [⟨.stmt (.brk span), a⟩]
  cont {top a} (span : Span) :
    P top a (jump .continueKw span) [⟨.stmt (.cont span), a⟩]

variable {P : Bool → List Enclosure → ∀ ⦃α : Type⦄, Check τ α → List Occurrence → Prop}

/-- The bodies of methods are accounted for. -/
def Bodies (P : Bool → List Enclosure → ∀ ⦃α : Type⦄, Check τ α → List Occurrence → Prop)
    (a : List Enclosure) (ms : List Method) : Prop :=
  ∀ m ∈ ms, P false (.function m.sig.async :: a) (body m.body)
    (m.body.placed (.function m.sig.async :: a))

/-- Declarations are accounted for, if the code inside them is. -/
structure Declarations (P : Bool → List Enclosure → ∀ ⦃α : Type⦄, Check τ α → List Occurrence → Prop)
    (top : Bool) : Prop where
  fn {a : List Enclosure} (span : Span) (name : Ident) (sig : Signature) (b : Block)
    (hb : P false (.function sig.async :: a) (body b) (b.placed (.function sig.async :: a))) :
    P top a (stmt (.fn span name sig b)) ((Stmt.fn span name sig b).placed a)
  classDecl {a : List Enclosure} (span : Span) (name : Ident) (fields : List Field)
    (ms : List Method) (hfields : ∀ c, P top a (defaults c fields) (placedFields a fields))
    (hms : Bodies P a ms) :
    P top a (stmt (.classDecl span name fields ms)) ((Stmt.classDecl span name fields ms).placed a)
  interfaceDecl {a : List Enclosure} (span : Span) (name : Ident) (heads : List MethodHead) :
    P top a (stmt (.interfaceDecl span name heads)) ((Stmt.interfaceDecl span name heads).placed a)
  implDecl {a : List Enclosure} (span : Span) (interface target : Ident) (ms : List Method)
    (hms : Bodies P a ms) :
    P top a (stmt (.implDecl span interface target ms))
      ((Stmt.implDecl span interface target ms).placed a)

namespace Tally
variable {top : Bool} {a : List Enclosure} {os os' : List Occurrence}
variable {m : Check τ α} {k : α → Check τ β}

theorem then_quiet (h : Tally P) (hm : P top a m os) (hk : ∀ x, Quiet (k x)) :
    P top a (m >>= k) os := by
  have hseq := h.seq hm fun x => h.quiet (hk x)
  rwa [List.append_nil] at hseq

theorem free_then (h : Tally P) (hm : P top a m []) (hk : ∀ x, P top a (k x) os) :
    P top a (m >>= k) os :=
  h.seq hm hk

theorem quiet_then (h : Tally P) (hm : Quiet m) (hk : ∀ x, P top a (k x) os) :
    P top a (m >>= k) os :=
  h.free_then (h.quiet hm) hk

theorem function (h : Tally P) (sig : Signature) (f : FnTy) (self? : Option Ty) {m : Check τ Unit}
    (hm : P false (.function sig.async :: a) m os) : P top a (function sig f self? m) os := by
  have hcore := undeclaring_core (τ := τ)
  have hrest : P false (.function sig.async :: a)
      (do bindAll sig.params f.params; Check.returning (f.expected? sig) m) os :=
    h.quiet_then ⟨reports_bindAll _ _, hcore.bindAll _ _⟩ fun _ => h.returning _ hm
  refine h.inFrame rfl ?_
  dsimp only
  split
  · exact h.quiet_then (quiet_bind _ _) fun _ => hrest
  · exact hrest

section Silent
variable (h : Tally P)
  (hsig : ∀ {top a} (span : Span) (sig : Signature),
    P top a (declaredSignature span sig) [])
include h hsig

theorem methods (owner : Ty) {ms : List Method} (hms : Bodies P a ms) :
    P top a (Check.methods owner ms) (placedMethods a ms) := by
  induction ms with
  | nil =>
    rw [Check.methods]
    exact h.quiet (quiet_pure _)
  | cons m ms ih =>
    obtain ⟨hm, hrest⟩ := List.forall_mem_cons.mp hms
    obtain ⟨name, receiver, sig, b, span⟩ := m
    rw [Check.methods]
    refine h.free_then (hsig _ _) fun f => ?_
    exact h.seq (h.function sig f _ hm) fun _ => ih hrest

/-- Declarations balance an account in which they do not count. -/
theorem declares
    (hhere : ∀ {top a} (s : Stmt), P top a (declareHere s) [])
    (hnode : ∀ {top a} {s : Stmt} (_ : s.isDeclaration = true)
      {m : Check τ Unit} {os : List Occurrence}, P top a m os → P top a m (⟨.stmt s, a⟩ :: os))
    (top : Bool) :
    Declarations P top where
  fn span name sig b hb := by
    rw [Check.stmt]
    refine hnode rfl (h.free_then (hsig span sig) fun f => ?_)
    exact h.quiet_then (quiet_bind _ _) fun _ => h.function sig f none hb
  classDecl span name fields ms hfields hms := by
    rw [Check.stmt]
    refine hnode rfl (h.free_then (hhere _) fun _ => h.get fun s => ?_)
    exact h.seq (hfields _) fun _ => h.methods hsig _ hms
  interfaceDecl span name heads := by
    rw [Check.stmt]
    exact hnode rfl (hhere _)
  implDecl span interface target ms hms := by
    rw [Check.stmt]
    refine hnode rfl (h.free_then (hhere _) fun _ => ?_)
    refine h.quiet_then (quiet_plain.implementation _ _ _ _) fun _ => ?_
    exact h.get fun s => h.methods hsig _ hms

end Silent

/-! ### The walk -/

theorem pipe_other (h : Tally P) {span : Span} {e callee : Expr}
    (hn : ∀ s f as, callee ≠ .call s f as) (he : P top a (Check.expr e) (e.placed a))
    (hc : P top a (Check.expr callee) (callee.placed a)) :
    P top a (Check.expr (.pipe span e callee)) ((Expr.pipe span e callee).placed a) := by
  have hnone : (Expr.pipe span e callee).passedOver = [] := by
    cases callee with
    | call s f as => exact absurd rfl (hn s f as)
    | _ => rfl
  have hparts : P top a (do
      let ty ← Check.expr callee
      let call ← openCall callee ty 1 span
      let first ← Check.expr e
      pass call 0 e first
      pure call.ret) (callee.placed a ++ e.placed a) := by
    refine h.seq hc fun ty => ?_
    refine h.quiet_then (quiet_plain.openCall _ _ _ _) fun call => ?_
    refine h.then_quiet he fun first => ?_
    exact (quiet_plain.pass _ _ _ _).seq fun _ => quiet_pure _
  have hnode := h.exprNode (.pipe span e callee) rfl (h.perm hparts List.perm_append_comm)
  rw [hnone] at hnode
  rw [expr_pipe_other hn]
  exact hnode

theorem assign_other (h : Tally P) {span : Span} {op : AssignOp} {target e : Expr}
    (hn : target.isPlace = false) (he : P top a (Check.expr e) (e.placed a))
    (ht : P top a (Check.expr target) (target.placed a)) :
    P top a (Check.expr (.assign span op target e)) ((Expr.assign span op target e).placed a) := by
  have hnone : (Expr.assign span op target e).passedOver = [] := by
    rw [Expr.passedOver, hn]
    rfl
  have hparts : P top a (do
      let _ ← Check.expr e
      let _ ← Check.expr target
      report [⟨.invalidTarget, target.span⟩]
      pure Ty.void) (e.placed a ++ target.placed a) := by
    refine h.seq he fun _ => h.then_quiet ht fun _ => .seq ⟨?_, ?_⟩ fun _ => quiet_pure _
    · exact reports_report (ordinary_singleton rfl _)
    · exact undeclaring_core.report _
  have hnode := h.exprNode (.assign span op target e) rfl (h.perm hparts List.perm_append_comm)
  rw [hnone] at hnode
  rw [expr_assign_other hn]
  exact hnode

end Tally

/-- An account that declarations inside other code balance too. -/
structure Reckoning (P : Bool → List Enclosure → ∀ ⦃α : Type⦄, Check τ α → List Occurrence → Prop) :
    Prop extends Tally P where
  inner : Declarations P false

namespace Reckoning

/-- What a loop does after each turn is written before its body. -/
private theorem perm_turn (init test body post : List Occurrence) :
    (init ++ (test ++ (body ++ post))).Perm (init ++ test ++ post ++ body) := by
  rw [List.append_assoc, List.append_assoc]
  exact (List.perm_append_comm.append_left _).append_left _

mutual

theorem expr (h : Reckoning P) : ∀ (e : Expr) (top : Bool) (a : List Enclosure),
    P top a (Check.expr e) (e.placed a)
  | .int span n, _, _ => by
    rw [Check.expr]
    exact h.exprNode (.int span n) rfl (h.quiet (quiet_pure _))
  | .float span x, _, _ => by
    rw [Check.expr]
    exact h.exprNode (.float span x) rfl (h.quiet (quiet_pure _))
  | .string span text, _, _ => by
    rw [Check.expr]
    exact h.exprNode (.string span text) rfl (h.quiet (quiet_pure _))
  | .char span c, _, _ => by
    rw [Check.expr]
    exact h.exprNode (.char span c) rfl (h.quiet (quiet_pure _))
  | .bool span b, _, _ => by
    rw [Check.expr]
    exact h.exprNode (.bool span b) rfl (h.quiet (quiet_pure _))
  | .nil span, _, _ => by
    rw [Check.expr]
    exact h.exprNode (.nil span) rfl (h.quiet (quiet_pure _))
  | .interp span ps, top, a => by
    rw [Check.expr]
    exact h.exprNode (.interp span ps) rfl (h.then_quiet (h.parts ps top a) fun _ => quiet_pure _)
  | .array span es, top, a => by
    rw [Check.expr]
    exact h.exprNode (.array span es) rfl (h.then_quiet (h.exprs es top a) fun _ => quiet_pure _)
  | .map span es, top, a => by
    rw [Check.expr]
    exact h.exprNode (.map span es) rfl (h.then_quiet (h.entries es top a) fun _ => quiet_pure _)
  | .ident span name, _, _ => by
    rw [Check.expr]
    exact h.exprNode (.ident span name) rfl (h.quiet (quiet_plain.use name span))
  | .call span callee args, top, a => by
    rw [Check.expr]
    refine h.exprNode (.call span callee args) rfl (h.seq (h.expr callee top a) fun ty => ?_)
    refine h.quiet_then (quiet_plain.openCall _ _ _ _) fun call => ?_
    exact h.then_quiet (h.arguments call 0 args top a) fun _ => quiet_pure _
  | .member span object name, top, a => by
    rw [Check.expr]
    refine h.exprNode (.member span object name) rfl (h.then_quiet (h.expr object top a) ?_)
    intro ty
    exact quiet_plain.readMember ty name
  | .index span object i, top, a => by
    rw [Check.expr]
    refine h.exprNode (.index span object i) rfl (h.seq (h.expr object top a) fun ty => ?_)
    exact h.then_quiet (h.expr i top a) fun _ => quiet_plain.readElement _ _ _ _
  | .binary span op l r, top, a => by
    rw [Check.expr]
    refine h.exprNode (.binary span op l r) rfl (h.seq (h.expr l top a) fun left => ?_)
    exact h.then_quiet (h.expr r top a) fun right =>
      quiet_plain.accept (op.ordinary_result left right span)
  | .unary span op e, top, a => by
    rw [Check.expr]
    refine h.exprNode (.unary span op e) rfl (h.then_quiet (h.expr e top a) fun ty => ?_)
    exact quiet_plain.accept (op.ordinary_result ty span)
  | .borrow span mutable e, top, a => by
    cases e with
    | ident place name =>
      have hname : P top a (recorded place (lookup name place)) [⟨.expr (.ident place name), a⟩] :=
        h.exprNode (.ident place name) rfl (h.quiet (quiet_plain.lookup name place))
      rw [Check.expr]
      refine h.exprNode (.borrow span mutable (.ident place name)) rfl (h.then_quiet hname ?_)
      intro ty
      exact .seq (quiet_plain.borrow _ _ _) fun _ => quiet_pure _
    | _ =>
      rw [expr_borrow_other rfl]
      exact h.exprNode (.borrow span mutable _) rfl
        (h.then_quiet (h.expr _ top a) fun _ => quiet_pure _)
  | .deref span e, top, a => by
    rw [Check.expr]
    refine h.exprNode (.deref span e) rfl (h.then_quiet (h.expr e top a) fun ty => ?_)
    exact quiet_plain.accept (ty.ordinary_deref span)
  | .await span e, top, a => by
    rw [Check.expr]
    exact h.awaitNode span e (h.expr e top a)
  | .pipe span e right, top, a => by
    cases right with
    | call inner callee args =>
      have hparts : P top a (do
          let ty ← Check.expr callee
          let call ← openCall callee ty (args.length + 1) span
          let first ← Check.expr e
          pass call 0 e first
          Check.arguments call 1 args
          pure call.ret) (callee.placed a ++ (e.placed a ++ placedExprs a args)) := by
        refine h.seq (h.expr callee top a) fun ty => ?_
        refine h.quiet_then (quiet_plain.openCall _ _ _ _) fun call => ?_
        refine h.seq (h.expr e top a) fun first => ?_
        refine h.quiet_then (quiet_plain.pass _ _ _ _) fun _ => ?_
        exact h.then_quiet (h.arguments call 1 args top a) fun _ => quiet_pure _
      have hnode := h.exprNode (.pipe span e (.call inner callee args)) rfl hparts
      rw [Check.expr]
      refine h.perm hnode (.cons _ ?_)
      exact (List.Perm.cons _ (List.perm_append_comm_assoc (callee.placed a) _ _)).trans
        List.perm_middle.symm
    | _ => exact h.pipe_other (fun _ _ _ => nofun) (h.expr e top a) (h.expr _ top a)
  | .assign span op target e, top, a => by
    cases target with
    | ident place name =>
      rw [Check.expr]
      refine h.exprNode (.assign span op (.ident place name) e) rfl ?_
      refine h.then_quiet (h.expr e top a) fun value => ?_
      exact .seq (quiet_plain.assignName _ _ _ _ _) fun _ => quiet_pure _
    | member place object name =>
      have hparts : P top a (do
          let value ← Check.expr e
          let ty ← Check.expr object
          assignField ty name place op value span
          pure Ty.void) (e.placed a ++ object.placed a) := by
        refine h.seq (h.expr e top a) fun value => h.then_quiet (h.expr object top a) fun ty => ?_
        exact .seq (quiet_plain.assignField _ _ _ _ _ _) fun _ => quiet_pure _
      rw [Check.expr]
      exact h.exprNode (.assign span op (.member place object name) e) rfl
        (h.perm hparts List.perm_append_comm)
    | index place object i =>
      have hparts : P top a (do
          let value ← Check.expr e
          let ty ← Check.expr object
          let index ← Check.expr i
          let target ← readElement ty index i.span place
          Check.assign target op value span
          pure Ty.void) (e.placed a ++ (object.placed a ++ i.placed a)) := by
        refine h.seq (h.expr e top a) fun value => h.seq (h.expr object top a) fun ty => ?_
        refine h.then_quiet (h.expr i top a) fun index => ?_
        refine .seq (quiet_plain.readElement _ _ _ _) fun target => ?_
        exact .seq (quiet_plain.assign _ _ _ _) fun _ => quiet_pure _
      rw [Check.expr]
      exact h.exprNode (.assign span op (.index place object i) e) rfl
        (h.perm hparts List.perm_append_comm)
    | _ => exact h.assign_other rfl (h.expr e top a) (h.expr _ top a)
  | .new span cls fields, top, a => by
    rw [Check.expr]
    refine h.exprNode (.new span cls fields) rfl (h.get fun s => ?_)
    split
    · exact h.then_quiet (h.initialisers cls.name _ fields top a) fun _ => quiet_pure _
    · refine h.quiet_then (quiet_plain.ordinary _ (ordinary_singleton rfl _)) fun _ => ?_
      exact h.then_quiet (h.initialisers cls.name none fields top a) fun _ => quiet_pure _
  | .lambda span sig b, top, a => by
    rw [Check.expr]
    refine h.lambdaNode span sig b fun f => ?_
    exact h.then_quiet (h.function sig f none (h.body b _)) fun _ => quiet_pure _
  | .paren span e, top, a => by
    rw [Check.expr]
    exact h.exprNode (.paren span e) rfl (h.expr e top a)

theorem exprs (h : Reckoning P) : ∀ (es : List Expr) (top : Bool) (a : List Enclosure),
    P top a (Check.exprs es) (placedExprs a es)
  | [], _, _ => by
    rw [Check.exprs]
    exact h.quiet (quiet_pure _)
  | e :: es, top, a => by
    rw [Check.exprs]
    exact h.seq (h.expr e top a) fun _ => h.then_quiet (h.exprs es top a) fun _ => quiet_pure _

theorem entries (h : Reckoning P) : ∀ (es : List (Expr × Expr)) (top : Bool) (a : List Enclosure),
    P top a (Check.entries es) (placedEntries a es)
  | [], _, _ => by
    rw [Check.entries]
    exact h.quiet (quiet_pure _)
  | (k, v) :: es, top, a => by
    rw [Check.entries, placedEntries, List.append_assoc]
    refine h.seq (h.expr k top a) fun _ => h.seq (h.expr v top a) fun _ => ?_
    exact h.then_quiet (h.entries es top a) fun _ => quiet_pure _

theorem arguments (h : Reckoning P) (call : OpenCall) (i : Nat) : ∀ (es : List Expr) (top : Bool)
    (a : List Enclosure), P top a (Check.arguments call i es) (placedExprs a es)
  | [], _, _ => by
    rw [Check.arguments]
    exact h.quiet (quiet_pure _)
  | e :: es, top, a => by
    rw [Check.arguments]
    refine h.seq (h.expr e top a) fun ty => ?_
    refine h.quiet_then (quiet_plain.pass _ _ _ _) fun _ => ?_
    exact h.arguments call (i + 1) es top a

theorem initialisers (h : Reckoning P) (name : String) (c : Option ClassDef) :
    ∀ (fields : List (Ident × Expr)) (top : Bool) (a : List Enclosure),
    P top a (Check.initialisers name c fields) (placedInits a fields)
  | [], _, _ => by
    rw [Check.initialisers]
    exact h.quiet (quiet_pure _)
  | (field, e) :: rest, top, a => by
    rw [Check.initialisers]
    refine h.seq (h.expr e top a) fun value => ?_
    dsimp only
    split
    · refine h.quiet_then (quiet_plain.initialise _ _ _ _ _) fun _ => ?_
      exact h.initialisers name _ rest top a
    · exact h.initialisers name _ rest top a

theorem parts (h : Reckoning P) : ∀ (ps : List Part) (top : Bool) (a : List Enclosure),
    P top a (Check.parts ps) (placedParts a ps)
  | [], _, _ => by
    rw [Check.parts]
    exact h.quiet (quiet_pure _)
  | .text _ :: ps, top, a => by
    rw [Check.parts]
    exact h.parts ps top a
  | .hole e :: ps, top, a => by
    rw [Check.parts]
    exact h.seq (h.expr e top a) fun _ => h.parts ps top a

theorem stmt (h : Reckoning P) : ∀ (s : Stmt) (top : Bool) (a : List Enclosure)
    (_ : s.isDeclaration = true → Declarations P top), P top a (Check.stmt s) (s.placed a)
  | .bind span mutable name type e, top, a, _ => by
    rw [Check.stmt]
    have hbinding : P top a (do
        let value ← Check.expr e
        let ty ← bindingTy type value e.span
        give e value ⟨span.start.line, name.name⟩
        Check.bind name.name ty)
        (e.placed a ++ [⟨.stmt (.bind span mutable name type e), a⟩]) := by
      refine h.seq (h.expr e top a) fun value => ?_
      refine h.then_quiet (h.binding span mutable name type e value) fun ty => ?_
      exact .seq (quiet_plain.give _ _ _) fun _ => quiet_bind _ _
    exact h.perm hbinding (List.perm_append_singleton _ _)
  | .fn span name sig b, top, a, hdecl => (hdecl rfl).fn span name sig b (h.body b _)
  | .ret span (some e), top, a, _ => by
    rw [Check.stmt]
    exact h.stmtNode (.ret span (some e)) rfl (h.then_quiet (h.expr e top a) fun ty =>
      (quiet_plain.ret _ _ _))
  | .ret span none, top, a, _ => by
    rw [Check.stmt]
    exact h.stmtNode (.ret span none) rfl
      (h.quiet (quiet_plain.ret _ _ _))
  | .brk span, _, _, _ => by
    rw [Check.stmt]
    exact h.brk span
  | .cont span, _, _, _ => by
    rw [Check.stmt]
    exact h.cont span
  | .cond c, top, a, _ => by
    rw [Check.stmt]
    exact h.stmtNode (.cond c) rfl (h.conditional c top a)
  | .forLoop span init test post b, top, a, _ => by
    rw [Check.stmt]
    refine h.stmtNode (.forLoop span init test post b) rfl (h.inFrame rfl ?_)
    refine h.perm ?_ (perm_turn _ _ _ _)
    refine h.seq (h.loopInit init _) fun _ => h.seq (h.loopTest test false _) fun _ => ?_
    exact h.seq (h.block b false _) fun _ => h.loopPost post false _
  | .forIn span item e b, top, a, _ => by
    rw [Check.stmt]
    refine h.stmtNode (.forIn span item e b) rfl (h.inFrame rfl ?_)
    refine h.seq (h.expr e false _) fun ty => ?_
    exact h.quiet_then (quiet_bind _ _) fun _ => h.block b false _
  | .whileLoop span e b, top, a, _ => by
    rw [Check.stmt]
    refine h.stmtNode (.whileLoop span e b) rfl (h.inFrame rfl ?_)
    refine h.seq (h.expr e false _) fun ty => ?_
    exact h.quiet_then (quiet_plain.demand rfl _ _)
      fun _ => h.block b false _
  | .loop span b, top, a, _ => by
    rw [Check.stmt]
    exact h.stmtNode (.loop span b) rfl (h.inFrame rfl (h.block b false _))
  | .block b, top, a, _ => by
    rw [Check.stmt]
    exact h.stmtNode (.block b) rfl (h.block b top a)
  | .classDecl span name fields ms, top, a, hdecl =>
    (hdecl rfl).classDecl span name fields ms (fun c => h.defaults c fields top a) (h.bodies ms a)
  | .interfaceDecl span name heads, _, _, hdecl => (hdecl rfl).interfaceDecl span name heads
  | .implDecl span interface target ms, _, a, hdecl =>
    (hdecl rfl).implDecl span interface target ms (h.bodies ms a)
  | .require span path imports, _, _, _ => by
    rw [Check.stmt]
    exact h.stmtNode (.require span path imports) rfl
      (h.quiet ⟨reports_require allows_ordinary path imports, undeclaring_require path imports⟩)
  | .expr span e, top, a, _ => by
    rw [Check.stmt]
    exact h.stmtNode (.expr span e) rfl (h.then_quiet (h.expr e top a) fun _ => quiet_pure _)

theorem loopInit (h : Reckoning P) : ∀ (init : Option Stmt) (a : List Enclosure),
    P false a (Check.loopInit init) (placedStart a init)
  | some s, a => by
    rw [Check.loopInit]
    exact h.stmt s false a fun _ => h.inner
  | none, _ => by
    rw [Check.loopInit]
    exact h.quiet (quiet_pure _)

theorem loopTest (h : Reckoning P) : ∀ (test : Option Expr) (top : Bool) (a : List Enclosure),
    P top a (Check.loopTest test) (placedOption a test)
  | some e, top, a => by
    rw [Check.loopTest]
    exact h.then_quiet (h.expr e top a) fun ty =>
      quiet_plain.demand rfl _ _
  | none, _, _ => by
    rw [Check.loopTest]
    exact h.quiet (quiet_pure _)

theorem loopPost (h : Reckoning P) : ∀ (post : Option Expr) (top : Bool) (a : List Enclosure),
    P top a (Check.loopPost post) (placedOption a post)
  | some e, top, a => by
    rw [Check.loopPost]
    exact h.then_quiet (h.expr e top a) fun _ => quiet_pure _
  | none, _, _ => by
    rw [Check.loopPost]
    exact h.quiet (quiet_pure _)

theorem stmts (h : Reckoning P) : ∀ (ss : List Stmt) (top : Bool) (a : List Enclosure)
    (_ : Declarations P top), P top a (Check.stmts ss) (placedStmts a ss)
  | [], _, _, _ => by
    rw [Check.stmts]
    exact h.quiet (quiet_pure _)
  | s :: ss, top, a, hdecl => by
    rw [Check.stmts]
    exact h.seq (h.stmt s top a fun _ => hdecl) fun _ => h.stmts ss top a hdecl

theorem block (h : Reckoning P) : ∀ (b : Block) (top : Bool) (a : List Enclosure),
    P top a (Check.block b) (b.placed a)
  | ⟨_, ss⟩, _, a => by
    rw [Check.block]
    exact h.inBlock (h.stmts ss false a h.inner)

theorem body (h : Reckoning P) : ∀ (b : Block) (a : List Enclosure),
    P false a (Check.body b) (b.placed a)
  | ⟨_, ss⟩, a => by
    rw [Check.body]
    exact h.stmts ss false a h.inner

theorem conditional (h : Reckoning P) : ∀ (c : Conditional) (top : Bool) (a : List Enclosure),
    P top a (Check.conditional c) (c.placed a)
  | ⟨_, test, b, rest⟩, top, a => by
    rw [Check.conditional, Conditional.placed, List.append_assoc]
    refine h.seq (h.expr test top a) fun ty => ?_
    refine h.quiet_then (quiet_plain.demand rfl _ _) fun _ => ?_
    exact h.seq (h.block b top a) fun _ => h.otherwise rest top a

theorem otherwise (h : Reckoning P) : ∀ (o : Otherwise) (top : Bool) (a : List Enclosure),
    P top a (Check.otherwise o) (o.placed a)
  | .none, _, _ => by
    rw [Check.otherwise]
    exact h.quiet (quiet_pure _)
  | .block b, top, a => by
    rw [Check.otherwise]
    exact h.block b top a
  | .elseIf c, top, a => by
    rw [Check.otherwise]
    exact h.conditional c top a

theorem defaults (h : Reckoning P) (c : Option ClassDef) : ∀ (fields : List Field) (top : Bool)
    (a : List Enclosure), P top a (Check.defaults c fields) (placedFields a fields)
  | [], _, _ => by
    rw [Check.defaults]
    exact h.quiet (quiet_pure _)
  | ⟨name, _, some e, _⟩ :: fields, top, a => by
    rw [Check.defaults]
    refine h.seq (h.expr e top a) fun value => ?_
    refine h.quiet_then (quiet_plain.demandAssignable _ _ rfl _) fun _ => ?_
    exact h.defaults c fields top a
  | ⟨_, _, none, _⟩ :: fields, top, a => by
    rw [Check.defaults]
    exact h.defaults c fields top a

theorem bodies (h : Reckoning P) : ∀ (ms : List Method) (a : List Enclosure), Bodies P a ms
  | [], _ => List.forall_mem_nil _
  | ⟨_, _, sig, b, _⟩ :: ms, a =>
    List.forall_mem_cons.mpr ⟨h.body b (.function sig.async :: a), h.bodies ms a⟩

end

end Reckoning
end Tracking
end Check
end CarvFront
