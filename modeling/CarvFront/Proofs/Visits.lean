import CarvFront.Proofs.Frames

/-! The points of a walk: the pieces of code that are come to, and what is known there. What holds at
the start of a program and outlasts every step holds at all of them. -/
namespace CarvFront

/-- A piece of code that is checked as a whole. -/
inductive Piece where
  | expr (e : Expr)
  | stmt (s : Stmt)
  | cond (c : Conditional)
  /-- A block with a scope of its own. -/
  | block (b : Block)
  /-- A program or the body of a function, whose names go into the scope that is there. -/
  | body (b : Block)

/-- The type of what a loop takes out of a collection. -/
def Ty.items (ty : Ty) : Ty :=
  match ty.target.1 with
  | .array elem => elem
  | _ => .any

namespace Check
variable {τ : Type} [Tracking τ]

/-- Check a piece of code. -/
def piece : Piece → Check τ Unit
  | .expr e => do
    let _ ← expr e
    pure ()
  | .stmt s => stmt s
  | .cond c => conditional c
  | .block b => block b
  | .body b => body b

/-- What a function does before its body is checked. -/
def openFunction (sig : Signature) (f : FnTy) (self? : Option Ty) : Check τ Unit := do
  modify (·.enterFrame (.function sig.async))
  match self? with
  | some ty => bind "self" ty
  | none => pure ()
  bindAll sig.params f.params
  modify fun s => { s with returns := f.expected? sig :: s.returns }

theorem function_eq (sig : Signature) (f : FnTy) (self? : Option Ty) (m : Check τ Unit) :
    function sig f self? m = (do
      openFunction sig f self?
      m
      modify fun s => { s with returns := s.returns.tail }
      modify (·.leaveFrame)) := by
  cases self? <;> rfl

/-- Before the body of a function or method that was declared. -/
def openDeclared (span : Span) (sig : Signature) (self? : Option Ty) : Check τ Unit := do
  let f ← declaredSignature span sig
  openFunction sig f self?

/-- Checking a piece of code at `s` comes to one of its parts, where more is known: each rule says
what is checked before the part. -/
inductive Calls (s : State τ) : Piece → Piece → State τ → Prop where
  | hole {span pre e post} :
    Calls s (.expr (.interp span (pre ++ .hole e :: post))) (.expr e) ((parts pre).after s)
  | element {span pre e post} :
    Calls s (.expr (.array span (pre ++ e :: post))) (.expr e) ((exprs pre).after s)
  | key {span pre k v post} :
    Calls s (.expr (.map span (pre ++ (k, v) :: post))) (.expr k) ((entries pre).after s)
  | value {span pre k v post} :
    Calls s (.expr (.map span (pre ++ (k, v) :: post))) (.expr v)
      (after (do let _ ← entries pre; expr k) s)
  | callee {span callee args} : Calls s (.expr (.call span callee args)) (.expr callee) s
  | argument {span callee pre e post} :
    Calls s (.expr (.call span callee (pre ++ e :: post))) (.expr e)
      (after (do
        let ty ← expr callee
        let call ← openCall callee ty (pre ++ e :: post).length span
        arguments call 0 pre) s)
  | object {span object name} : Calls s (.expr (.member span object name)) (.expr object) s
  | collection {span object i} : Calls s (.expr (.index span object i)) (.expr object) s
  | index {span object i} :
    Calls s (.expr (.index span object i)) (.expr i) ((expr object).after s)
  | left {span op l r} : Calls s (.expr (.binary span op l r)) (.expr l) s
  | right {span op l r} : Calls s (.expr (.binary span op l r)) (.expr r) ((expr l).after s)
  | operand {span op e} : Calls s (.expr (.unary span op e)) (.expr e) s
  | borrowed {span mutable e} (h : e.ident? = none) :
    Calls s (.expr (.borrow span mutable e)) (.expr e) s
  | reference {span e} : Calls s (.expr (.deref span e)) (.expr e) s
  | future {span e} : Calls s (.expr (.await span e)) (.expr e) s
  | pipeCallee {span e inner callee args} :
    Calls s (.expr (.pipe span e (.call inner callee args))) (.expr callee) s
  | piped {span e inner callee args} :
    Calls s (.expr (.pipe span e (.call inner callee args))) (.expr e)
      (after (do
        let ty ← expr callee
        openCall callee ty (args.length + 1) span) s)
  | pipeArgument {span e inner callee pre arg post} :
    Calls s (.expr (.pipe span e (.call inner callee (pre ++ arg :: post)))) (.expr arg)
      (after (do
        let ty ← expr callee
        let call ← openCall callee ty ((pre ++ arg :: post).length + 1) span
        let first ← expr e
        pass call 0 e first
        arguments call 1 pre) s)
  | pipeOther {span e callee} (h : ∀ s f as, callee ≠ .call s f as) :
    Calls s (.expr (.pipe span e callee)) (.expr callee) s
  | pipedOther {span e callee} (h : ∀ s f as, callee ≠ .call s f as) :
    Calls s (.expr (.pipe span e callee)) (.expr e)
      (after (do
        let ty ← expr callee
        openCall callee ty 1 span) s)
  | assigned {span op target e} : Calls s (.expr (.assign span op target e)) (.expr e) s
  | targetObject {span op place object name e} :
    Calls s (.expr (.assign span op (.member place object name) e)) (.expr object)
      ((expr e).after s)
  | targetCollection {span op place object i e} :
    Calls s (.expr (.assign span op (.index place object i) e)) (.expr object) ((expr e).after s)
  | targetIndex {span op place object i e} :
    Calls s (.expr (.assign span op (.index place object i) e)) (.expr i)
      (after (do let _ ← expr e; expr object) s)
  | targetOther {span op target e} (h : target.isPlace = false) :
    Calls s (.expr (.assign span op target e)) (.expr target) ((expr e).after s)
  | field {span cls pre name e post} :
    Calls s (.expr (.new span cls (pre ++ (name, e) :: post))) (.expr e)
      (after (do
        let c := (← get).classes.find? cls.name
        demand c.isSome (.unknownClass cls.name) cls.span
        initialisers cls.name c pre) s)
  | lambda {span sig b} :
    Calls s (.expr (.lambda span sig b)) (.body b)
      (after (do
        let f ← signature sig
        openFunction sig f none) s)
  | paren {span e} : Calls s (.expr (.paren span e)) (.expr e) s
  | bound {span const name type e} : Calls s (.stmt (.bind span const name type e)) (.expr e) s
  | function {span name sig b} :
    Calls s (.stmt (.fn span name sig b)) (.body b)
      (after (do
        let f ← declaredSignature span sig
        bind name.name f.toTy
        openFunction sig f none) s)
  | returned {span e} : Calls s (.stmt (.ret span (some e))) (.expr e) s
  | conditional {c} : Calls s (.stmt (.cond c)) (.cond c) s
  | init {span t test post b} :
    Calls s (.stmt (.forLoop span (some t) test post b)) (.stmt t) (s.enterFrame .loop)
  | test {span init e post b} :
    Calls s (.stmt (.forLoop span init (some e) post b)) (.expr e)
      ((loopInit init).after (s.enterFrame .loop))
  | turn {span init test post b} :
    Calls s (.stmt (.forLoop span init test post b)) (.block b)
      (after (do loopInit init; loopTest test) (s.enterFrame .loop))
  | post {span init test e b} :
    Calls s (.stmt (.forLoop span init test (some e) b)) (.expr e)
      (after (do loopInit init; loopTest test; block b) (s.enterFrame .loop))
  | items {span item e b} :
    Calls s (.stmt (.forIn span item e b)) (.expr e) (s.enterFrame .loop)
  | itemTurn {span item e b} :
    Calls s (.stmt (.forIn span item e b)) (.block b)
      (after (do
        let ty ← expr e
        bind item.name ty.items) (s.enterFrame .loop))
  | whileTest {span e b} : Calls s (.stmt (.whileLoop span e b)) (.expr e) (s.enterFrame .loop)
  | whileTurn {span e b} :
    Calls s (.stmt (.whileLoop span e b)) (.block b)
      (after (do
        let ty ← expr e
        condition .whileStmt ty e.span) (s.enterFrame .loop))
  | loopTurn {span b} : Calls s (.stmt (.loop span b)) (.block b) (s.enterFrame .loop)
  | block {b} : Calls s (.stmt (.block b)) (.block b) s
  | fieldDefault {span name pre field type e place post ms} :
    Calls s (.stmt (.classDecl span name (pre ++ ⟨field, type, some e, place⟩ :: post) ms)) (.expr e)
      (after (do
        declareHere (.classDecl span name (pre ++ ⟨field, type, some e, place⟩ :: post) ms)
        defaults ((← get).classes.find? name.name) pre) s)
  | method {span name fields pre m post} :
    Calls s (.stmt (.classDecl span name fields (pre ++ m :: post))) (.body m.body)
      (after (do
        declareHere (.classDecl span name fields (pre ++ m :: post))
        let c := (← get).classes.find? name.name
        defaults c fields
        methods (ownerTy c name.name) pre
        openDeclared m.span m.sig (m.receiver.self? (ownerTy c name.name))) s)
  | implMethod {span interface target pre m post} :
    Calls s (.stmt (.implDecl span interface target (pre ++ m :: post))) (.body m.body)
      (after (do
        declareHere (.implDecl span interface target (pre ++ m :: post))
        implementation interface target (pre ++ m :: post) span
        let c := (← get).classes.find? target.name
        methods (ownerTy c target.name) pre
        openDeclared m.span m.sig (m.receiver.self? (ownerTy c target.name))) s)
  | expression {span e} : Calls s (.stmt (.expr span e)) (.expr e) s
  | choice {span test b rest} : Calls s (.cond ⟨span, test, b, rest⟩) (.expr test) s
  | chosen {span test b rest} :
    Calls s (.cond ⟨span, test, b, rest⟩) (.block b)
      (after (do
        let ty ← expr test
        condition .ifStmt ty test.span) s)
  | otherwise {span test b b'} :
    Calls s (.cond ⟨span, test, b, .block b'⟩) (.block b')
      (after (do
        let ty ← expr test
        condition .ifStmt ty test.span
        block b) s)
  | elseIf {span test b c} :
    Calls s (.cond ⟨span, test, b, .elseIf c⟩) (.cond c)
      (after (do
        let ty ← expr test
        condition .ifStmt ty test.span
        block b) s)
  | inBlock {span pre t post} :
    Calls s (.block ⟨span, pre ++ t :: post⟩) (.stmt t) ((stmts pre).after s.enterBlock)
  | inBody {span pre t post} :
    Calls s (.body ⟨span, pre ++ t :: post⟩) (.stmt t) ((stmts pre).after s)

/-- What holds of a state holds of the state after a step. -/
def Keeps (I : State τ → Prop) {α : Type} (m : Check τ α) : Prop :=
  ∀ s, I s → I (m.after s)

omit [Tracking τ] in
theorem Keeps.seq {α β : Type} {I : State τ → Prop} {m : Check τ α} {k : α → Check τ β}
    (hm : Keeps I m) (hk : ∀ a, Keeps I (k a)) : Keeps I (m >>= k) :=
  fun s hs => hk _ _ (hm s hs)

/-! ### Up to a part -/

/-- What leads from some code to one of its parts: whole steps, of which a relation `P` of two walks
holds, and steps that enter code, for which `Q` has to do. -/
structure Leading {τ₁ τ₂ : Type} [Tracking τ₁] [Tracking τ₂]
    (P Q : ∀ ⦃α : Type⦄, Check τ₁ α → Check τ₂ α → Prop) : Prop extends Steps P where
  handled (ss : List Stmt) : Handled P ss
  whole {α : Type} {m₁ : Check τ₁ α} {m₂ : Check τ₂ α} (hm : P m₁ m₂) : Q m₁ m₂
  next {α β : Type} {m₁ : Check τ₁ α} {m₂ : Check τ₂ α} {k₁ : α → Check τ₁ β}
    {k₂ : α → Check τ₂ β} (hm : Q m₁ m₂) (hk : ∀ a, Q (k₁ a) (k₂ a)) : Q (m₁ >>= k₁) (m₂ >>= k₂)
  look {α : Type} {k₁ : State τ₁ → Check τ₁ α} {k₂ : State τ₂ → Check τ₂ α}
    (hk : ∀ s₁ s₂, s₁.Akin s₂ → Q (k₁ s₁) (k₂ s₂)) : Q (MonadState.get >>= k₁) (MonadState.get >>= k₂)
  enterFrame (kind : ScopeKind) (hkind : kind ≠ .global) :
    Q (modify (·.enterFrame kind)) (modify (·.enterFrame kind))
  enterBlock : Q (modify (·.enterBlock)) (modify (·.enterBlock))
  expecting (expected : Option Ty) :
    Q (modify fun s => { s with returns := expected :: s.returns })
      (modify fun s => { s with returns := expected :: s.returns })

namespace Leading
variable {τ₁ τ₂ : Type} [Tracking τ₁] [Tracking τ₂]
  {P Q : ∀ ⦃α : Type⦄, Check τ₁ α → Check τ₂ α → Prop}

section
variable (h : Leading P Q)
include h

theorem expr (e : Expr) : P (Check.expr e) (Check.expr e) :=
  h.walk.expr e (h.handled _)

theorem block (b : Block) : P (Check.block b) (Check.block b) :=
  h.walk.block b (h.handled _)

theorem methods (owner : Ty) (ms : List Method) :
    P (Check.methods owner ms) (Check.methods owner ms) :=
  h.walk.methods owner ms (fun d _ => h.declaredSignature d.1 d.2) (h.handled _)

theorem declareHere {s : Stmt} (hs : s.declaresType) :
    P (Check.declareHere s) (Check.declareHere s) :=
  (h.handled [s] s List.mem_cons_self).type hs

theorem piece (q : Piece) : P (Check.piece q) (Check.piece q) := by
  cases q with
  | expr e => exact h.seq (h.expr e) fun _ => h.pure ()
  | stmt s => exact h.walk.stmt s (h.handled [s] s List.mem_cons_self) (h.handled _)
  | cond c => exact h.walk.conditional c (h.handled _)
  | block b => exact h.block b
  | body b => exact h.walk.body b (h.handled _)

theorem inLoop {α : Type} {m₁ : Check τ₁ α} {m₂ : Check τ₂ α} (hm : P m₁ m₂) :
    Q (modify (·.enterFrame .loop) >>= fun _ => m₁) (modify (·.enterFrame .loop) >>= fun _ => m₂) :=
  h.next (h.enterFrame .loop (by decide)) fun _ => h.whole hm

theorem openFunction (sig : Signature) (f : FnTy) (self? : Option Ty) :
    Q (Check.openFunction sig f self?) (Check.openFunction sig f self?) := by
  have hframe := h.enterFrame (.function sig.async) (fun heq => by cases heq)
  have hrest := h.next (h.whole (h.bindAll sig.params f.params)) fun _ =>
    h.expecting (f.expected? sig)
  refine h.next hframe fun _ => ?_
  cases self? with
  | some ty => exact h.next (h.whole (h.bind "self" ty)) fun _ => hrest
  | none => exact hrest

theorem openDeclared (span : Span) (sig : Signature) (self? : Option Ty) :
    Q (Check.openDeclared span sig self?) (Check.openDeclared span sig self?) :=
  h.next (h.whole (h.declaredSignature span sig)) fun f => h.openFunction sig f self?

/-- Where one walk comes to a part of some code, so does any other, by steps that lead there. -/
theorem calls {s s' : State τ₁} {q q' : Piece} (hc : Calls s q q' s') :
    ∃ (α : Type) (m₁ : Check τ₁ α) (m₂ : Check τ₂ α), Q m₁ m₂ ∧ s' = m₁.after s ∧
      ∀ t : State τ₂, Calls t q q' (m₂.after t) := by
  cases hc with
  | hole => exact ⟨_, _, _, h.whole (h.walk.parts _ (h.handled _)), rfl, fun _ => .hole⟩
  | element => exact ⟨_, _, _, h.whole (h.walk.exprs _ (h.handled _)), rfl, fun _ => .element⟩
  | key => exact ⟨_, _, _, h.whole (h.walk.entries _ (h.handled _)), rfl, fun _ => .key⟩
  | value =>
    exact ⟨_, _, _, h.whole (h.seq (h.walk.entries _ (h.handled _)) fun _ => h.expr _), rfl,
      fun _ => .value⟩
  | argument =>
    refine ⟨_, _, _, h.whole (h.seq (h.expr _) fun ty => ?_), rfl, fun _ => .argument⟩
    exact h.seq (h.openCall _ ty _ _) fun call => h.walk.arguments call 0 _ (h.handled _)
  | index => exact ⟨_, _, _, h.whole (h.expr _), rfl, fun _ => .index⟩
  | right => exact ⟨_, _, _, h.whole (h.expr _), rfl, fun _ => .right⟩
  | piped =>
    exact ⟨_, _, _, h.whole (h.seq (h.expr _) fun ty => h.openCall _ ty _ _), rfl, fun _ => .piped⟩
  | pipeArgument =>
    refine ⟨_, _, _, h.whole (h.seq (h.expr _) fun ty => ?_), rfl, fun _ => .pipeArgument⟩
    refine h.seq (h.openCall _ ty _ _) fun call => h.seq (h.expr _) fun first => ?_
    exact h.seq (h.pass call 0 _ first) fun _ => h.walk.arguments call 1 _ (h.handled _)
  | pipedOther hn =>
    exact ⟨_, _, _, h.whole (h.seq (h.expr _) fun ty => h.openCall _ ty _ _), rfl,
      fun _ => .pipedOther hn⟩
  | targetObject => exact ⟨_, _, _, h.whole (h.expr _), rfl, fun _ => .targetObject⟩
  | targetCollection => exact ⟨_, _, _, h.whole (h.expr _), rfl, fun _ => .targetCollection⟩
  | targetIndex =>
    exact ⟨_, _, _, h.whole (h.seq (h.expr _) fun _ => h.expr _), rfl, fun _ => .targetIndex⟩
  | targetOther hn => exact ⟨_, _, _, h.whole (h.expr _), rfl, fun _ => .targetOther hn⟩
  | field =>
    refine ⟨_, _, _, h.whole (h.get fun s₁ s₂ hs => ?_), rfl, fun _ => .field⟩
    rw [hs.classes]
    exact h.seq (h.demand _ _ _) fun _ => h.walk.initialisers _ _ _ (h.handled _)
  | lambda =>
    exact ⟨_, _, _, h.next (h.whole (h.signature _)) fun f => h.openFunction _ f none, rfl,
      fun _ => .lambda⟩
  | function =>
    refine ⟨_, _, _, h.next (h.whole (h.declaredSignature _ _)) fun f => ?_, rfl, fun _ => .function⟩
    exact h.next (h.whole (h.bind _ _)) fun _ => h.openFunction _ f none
  | init => exact ⟨_, _, _, h.enterFrame .loop (by decide), rfl, fun _ => .init⟩
  | test => exact ⟨_, _, _, h.inLoop (h.walk.loopInit _ (h.handled _)), rfl, fun _ => .test⟩
  | @turn _ init test _ _ =>
    have hturn := h.seq (h.walk.loopInit init (h.handled _)) fun _ =>
      h.walk.loopTest test (h.handled _)
    exact ⟨_, _, _, h.inLoop hturn, rfl, fun _ => .turn⟩
  | @post _ init test _ b =>
    have hpost := h.seq (h.walk.loopInit init (h.handled _)) fun _ =>
      h.seq (h.walk.loopTest test (h.handled _)) fun _ => h.block b
    exact ⟨_, _, _, h.inLoop hpost, rfl, fun _ => .post⟩
  | items => exact ⟨_, _, _, h.enterFrame .loop (by decide), rfl, fun _ => .items⟩
  | itemTurn =>
    exact ⟨_, _, _, h.inLoop (h.seq (h.expr _) fun ty => h.bind _ ty.items), rfl, fun _ => .itemTurn⟩
  | whileTest => exact ⟨_, _, _, h.enterFrame .loop (by decide), rfl, fun _ => .whileTest⟩
  | @whileTurn _ e _ =>
    have hturn := h.seq (h.expr e) fun ty =>
      h.demand (ty.fits .bool) (.conditionNotBool .whileStmt ty) e.span
    exact ⟨_, _, _, h.inLoop hturn, rfl, fun _ => .whileTurn⟩
  | loopTurn => exact ⟨_, _, _, h.enterFrame .loop (by decide), rfl, fun _ => .loopTurn⟩
  | fieldDefault =>
    refine ⟨_, _, _, h.whole (h.seq (h.declareHere rfl) fun _ => h.get fun s₁ s₂ hs => ?_), rfl,
      fun _ => .fieldDefault⟩
    rw [hs.classes]
    exact h.walk.defaults _ _ (h.handled _)
  | method =>
    refine ⟨_, _, _, h.next (h.whole (h.declareHere rfl)) fun _ => h.look fun s₁ s₂ hs => ?_, rfl,
      fun _ => .method⟩
    rw [hs.classes]
    refine h.next (h.whole (h.walk.defaults _ _ (h.handled _))) fun _ => ?_
    exact h.next (h.whole (h.methods _ _)) fun _ => h.openDeclared _ _ _
  | implMethod =>
    refine ⟨_, _, _, h.next (h.whole (h.declareHere rfl)) fun _ => ?_, rfl, fun _ => .implMethod⟩
    refine h.next (h.whole (h.implementation _ _ _ _)) fun _ => h.look fun s₁ s₂ hs => ?_
    rw [hs.classes]
    exact h.next (h.whole (h.methods _ _)) fun _ => h.openDeclared _ _ _
  | chosen =>
    refine ⟨_, _, _, h.whole (h.seq (h.expr _) fun ty => ?_), rfl, fun _ => .chosen⟩
    exact h.demand (ty.fits .bool) _ _
  | otherwise =>
    refine ⟨_, _, _, h.whole (h.seq (h.expr _) fun ty => ?_), rfl, fun _ => .otherwise⟩
    exact h.seq (h.demand (ty.fits .bool) _ _) fun _ => h.block _
  | elseIf =>
    refine ⟨_, _, _, h.whole (h.seq (h.expr _) fun ty => ?_), rfl, fun _ => .elseIf⟩
    exact h.seq (h.demand (ty.fits .bool) _ _) fun _ => h.block _
  | inBlock =>
    exact ⟨_, _, _, h.next h.enterBlock fun _ => h.whole (h.walk.stmts _ (h.handled _)), rfl,
      fun _ => .inBlock⟩
  | inBody => exact ⟨_, _, _, h.whole (h.walk.stmts _ (h.handled _)), rfl, fun _ => .inBody⟩
  -- The other parts are the first ones that are checked.
  | borrowed hn => exact ⟨_, _, _, h.whole (h.pure ()), rfl, fun _ => .borrowed hn⟩
  | pipeOther hn => exact ⟨_, _, _, h.whole (h.pure ()), rfl, fun _ => .pipeOther hn⟩
  | _ => exact ⟨_, _, _, h.whole (h.pure ()), rfl, fun _ => by constructor⟩

end

end Leading

/-! ### Invariants -/

/-- What has to be known of a property for it to hold at all points of a walk: it outlasts the steps,
by way of some relation `P` that all walks are in, and entering a piece of code. -/
structure Invariant (P : ∀ ⦃α : Type⦄, Check τ α → Check τ α → Prop) (I : State τ → Prop) : Prop
    extends Congruence P where
  keeps {α : Type} {m m' : Check τ α} (hm : P m m') : Keeps I m
  enterFrame (kind : ScopeKind) (hkind : kind ≠ .global) : Keeps I (modify (·.enterFrame kind))
  enterBlock : Keeps I (modify (·.enterBlock))
  expecting (expected : Option Ty) :
    Keeps I (modify fun s => { s with returns := expected :: s.returns })

namespace Invariant
variable {P : ∀ ⦃α : Type⦄, Check τ α → Check τ α → Prop} {I : State τ → Prop}

theorem leading (h : Invariant P I) : Leading P fun ⦃_⦄ m _ => Keeps I m where
  toSteps := h.toSteps
  handled := h.handled
  whole := h.keeps
  next := Keeps.seq
  look hk s hs := hk s s (.refl s) s hs
  enterFrame := h.enterFrame
  enterBlock := h.enterBlock
  expecting := h.expecting

theorem piece (h : Invariant P I) (q : Piece) : Keeps I (piece q) :=
  h.keeps (h.leading.piece q)

/-- What is kept holds wherever a piece of code comes to one of its parts. -/
theorem calls (h : Invariant P I) {s s' : State τ} {q q' : Piece} (hc : Calls s q q' s') (hs : I s) :
    I s' := by
  obtain ⟨α, m, -, hm, rfl, -⟩ := h.leading.calls hc
  exact hm s hs

end Invariant
end Check

namespace Program
variable {τ : Type} [Tracking τ]

/-- What is known when the types and functions of a program are declared. -/
def hoisted (p : Program) : State τ :=
  Check.after (do
    Check.declareTypes p.stmts
    p.stmts.forM Check.hoist) .start

/-- The pieces of code that checking a program comes to, with what is known there. -/
inductive Visits (p : Program) : Piece → State τ → Prop where
  | whole : Visits p (.body ⟨p.span, p.stmts⟩) p.hoisted
  | part {q q' : Piece} {s s' : State τ} (h : Visits p q s) (hc : Check.Calls s q q' s') :
    Visits p q' s'

theorem finalState_eq (p : Program) :
    p.finalState τ = (Check.piece (.body ⟨p.span, p.stmts⟩)).after p.hoisted := by
  rw [Check.piece, Check.body]
  rfl

/-- What is kept and holds at the start holds at all points of a program. -/
theorem Visits.keeps {P : ∀ ⦃α : Type⦄, Check τ α → Check τ α → Prop} {I : State τ → Prop}
    (h : Check.Invariant P I) (hstart : I .start) {p : Program} {q : Piece} {s : State τ}
    (hv : p.Visits q s) : I s := by
  induction hv with
  | whole =>
    exact h.keeps (h.seq (h.declareTypes p.stmts) fun _ => h.forM p.stmts h.hoist) _ hstart
  | part _ hc ih => exact h.calls hc ih

/-- The states in which some piece of code is entered or left. -/
def Passes (p : Program) (s : State τ) : Prop :=
  ∃ q s₀, p.Visits q s₀ ∧ (s = s₀ ∨ s = (Check.piece q).after s₀)

theorem Passes.keeps {P : ∀ ⦃α : Type⦄, Check τ α → Check τ α → Prop} {I : State τ → Prop}
    (h : Check.Invariant P I) (hstart : I .start) {p : Program} {s : State τ} (hp : p.Passes s) :
    I s := by
  obtain ⟨q, s₀, hv, rfl | rfl⟩ := hp
  · exact hv.keeps h hstart
  · exact h.piece q s₀ (hv.keeps h hstart)

end Program
end CarvFront
