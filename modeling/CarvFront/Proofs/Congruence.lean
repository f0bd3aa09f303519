import CarvFront.Proofs.Causes
import CarvFront.Proofs.InnerTypes

/-! What holds of the elementary steps of checking holds of the whole walk. The steps are compared in
pairs, one for each of two ways to keep track of moves and borrows; a statement about one way alone
ignores the other side. -/
namespace CarvFront

/-- The types that a program declares and the signatures that wait for their bodies. -/
structure Declared where
  classes : Table ClassDef
  interfaces : Table (Table MethodTy)
  impls : List (String × String)
  signatures : List (Span × FnTy)

/-- What the rules look at, apart from moves and borrows. Findings are only added to. -/
structure Knowledge where
  scopes : Scopes
  declared : Declared
  returns : List (Option Ty)
  replaced : List String
  openNames : Bool

namespace State
variable {τ : Type}

def declared (s : State τ) : Declared :=
  ⟨s.classes, s.interfaces, s.impls, s.signatures⟩

def withDeclared (s : State τ) (d : Declared) : State τ :=
  { s with
    classes := d.classes, interfaces := d.interfaces, impls := d.impls
    signatures := d.signatures }

def knowledge (s : State τ) : Knowledge :=
  ⟨s.scopes, s.declared, s.returns, s.replaced, s.openNames⟩

/-- Two states look the same to the rules, moves and borrows apart. -/
def Alike {τ₁ τ₂ : Type} (s₁ : State τ₁) (s₂ : State τ₂) : Prop :=
  s₁.knowledge = s₂.knowledge

namespace Alike
variable {τ₁ τ₂ : Type} {s₁ : State τ₁} {s₂ : State τ₂} (h : s₁.Alike s₂)
include h

theorem scopes : s₁.scopes = s₂.scopes := congrArg Knowledge.scopes h
theorem classes : s₁.classes = s₂.classes := congrArg (·.declared.classes) h
theorem interfaces : s₁.interfaces = s₂.interfaces := congrArg (·.declared.interfaces) h
theorem impls : s₁.impls = s₂.impls := congrArg (·.declared.impls) h
theorem signatures : s₁.signatures = s₂.signatures := congrArg (·.declared.signatures) h
theorem returns : s₁.returns = s₂.returns := congrArg Knowledge.returns h
theorem replaced : s₁.replaced = s₂.replaced := congrArg Knowledge.replaced h
theorem openNames : s₁.openNames = s₂.openNames := congrArg Knowledge.openNames h

theorem implements : s₁.implements = s₂.implements := by
  unfold State.implements
  rw [Alike.impls h]

end Alike

/-- What the rules ask about a state apart from moves, borrows and signatures that wait: the order in
which implementations were declared and names were given away does not matter. -/
structure Akin {τ₁ τ₂ : Type} (s₁ : State τ₁) (s₂ : State τ₂) : Prop where
  scopes : s₁.scopes = s₂.scopes
  classes : s₁.classes = s₂.classes
  interfaces : s₁.interfaces = s₂.interfaces
  implements : s₁.implements = s₂.implements
  returns : s₁.returns = s₂.returns
  replaced : ∀ name, s₁.replaced.contains name = s₂.replaced.contains name
  openNames : s₁.openNames = s₂.openNames

namespace Akin
variable {τ₁ τ₂ : Type} {s₁ : State τ₁} {s₂ : State τ₂}

theorem refl (s : State τ) : s.Akin s :=
  ⟨rfl, rfl, rfl, rfl, rfl, fun _ => rfl, rfl⟩

theorem symm (h : s₁.Akin s₂) : s₂.Akin s₁ :=
  ⟨h.scopes.symm, h.classes.symm, h.interfaces.symm, h.implements.symm, h.returns.symm,
    fun name => (h.replaced name).symm, h.openNames.symm⟩

theorem trans {τ₃ : Type} {s₃ : State τ₃} (h : s₁.Akin s₂) (h' : s₂.Akin s₃) : s₁.Akin s₃ :=
  ⟨h.scopes.trans h'.scopes, h.classes.trans h'.classes, h.interfaces.trans h'.interfaces,
    h.implements.trans h'.implements, h.returns.trans h'.returns,
    fun name => (h.replaced name).trans (h'.replaced name), h.openNames.trans h'.openNames⟩

theorem known (h : s₁.Akin s₂) : s₁.known = s₂.known := by
  funext name
  unfold State.known
  rw [h.classes, h.interfaces]

theorem isVariadic (h : s₁.Akin s₂) : s₁.isVariadic = s₂.isVariadic := by
  funext name
  unfold State.isVariadic
  rw [h.replaced, h.scopes]

end Akin

theorem Alike.akin {τ₁ τ₂ : Type} {s₁ : State τ₁} {s₂ : State τ₂} (h : s₁.Alike s₂) : s₁.Akin s₂ :=
  ⟨h.scopes, h.classes, h.interfaces, h.implements, h.returns,
    fun name => congrArg (List.contains · name) h.replaced, h.openNames⟩

end State

/-- Make the name of a class or an interface known. -/
def Declared.reserve (d : Declared) : Stmt → Declared
  | .classDecl _ name _ _ =>
    if d.classes.contains name.name then d
    else { d with classes := d.classes.insert name.name ⟨∅, ∅⟩ }
  | .interfaceDecl _ name _ =>
    if d.interfaces.contains name.name then d
    else { d with interfaces := d.interfaces.insert name.name ∅ }
  | _ => d

/-- Whether an expression names a place that can be assigned to. -/
def Expr.isPlace : Expr → Bool
  | .ident _ _ | .member _ _ _ | .index _ _ _ => true
  | _ => false

namespace Check
variable {τ τ₁ τ₂ α β : Type}
variable {span : Span} {e : Expr}

/-- Change what is declared. -/
def declare (f : Declared → Declared) : Check τ Unit :=
  modify fun s => s.withDeclared (f s.declared)

theorem demand_eq_report (ok : Bool) (cause : Cause) (span : Span) :
    (demand ok cause span : Check τ Unit) = report (if ok then [] else [⟨cause, span⟩]) := by
  cases ok <;> rfl

section Tracking
variable [Tracking τ]

theorem run_warnIfMoved (name : String) (span : Span) (s : State τ) :
    (warnIfMoved name span).run s =
      (report ((Tracking.movedAt? s.tracking name).toList.map fun site =>
        ⟨.useAfterMove name site.line, span⟩)).run s := by
  rw [warnIfMoved, StateT.run_bind, StateT.run_get, pure_bind]
  dsimp only
  cases Tracking.movedAt? s.tracking name <;> rfl

theorem run_borrow (name : String) (mutable : Bool) (span : Span) (s : State τ) :
    (borrow name mutable span).run s =
      if (Tracking.movedAt? s.tracking name).isSome then
        (report [⟨.borrowOfMoved name, span⟩]).run s
      else
        (report ((Tracking.borrow name mutable s.tracking).1.map fun c =>
          ⟨.borrowConflict c, span⟩)).run
            { s with tracking := (Tracking.borrow name mutable s.tracking).2 } := by
  change (if (Tracking.movedAt? s.tracking name).isSome then report [⟨.borrowOfMoved name, span⟩]
    else do
      set { s with tracking := (Tracking.borrow name mutable s.tracking).2 }
      report ((Tracking.borrow name mutable s.tracking).1.map fun c => ⟨.borrowConflict c, span⟩)
      : Check τ Unit) s = _
  split <;> rfl

theorem run_demandFree (name : String) (span : Span) (s : State τ) :
    (demandFree name span).run s =
      (demand (!Tracking.isBorrowed s.tracking name) (.assignWhileBorrowed name) span).run s :=
  rfl

theorem run_demandNoBorrows (span : Span) (s : State τ) :
    (demandNoBorrows span).run s =
      (demand (Tracking.borrowed s.tracking).isEmpty
        (.borrowAcrossAwait (Tracking.borrowed s.tracking)) span).run s :=
  rfl

end Tracking

/-- A relation between checks that the steps respect which look at the state, report ordinary causes and
keep track of moves and borrows. -/
structure Plain [Tracking τ₁] [Tracking τ₂]
    (P : ∀ ⦃α : Type⦄, Check τ₁ α → Check τ₂ α → Prop) : Prop where
  pure {α : Type} (a : α) : P (pure a) (pure a)
  seq {α β : Type} {m₁ : Check τ₁ α} {m₂ : Check τ₂ α} {k₁ : α → Check τ₁ β}
    {k₂ : α → Check τ₂ β} (hm : P m₁ m₂) (hk : ∀ a, P (k₁ a) (k₂ a)) : P (m₁ >>= k₁) (m₂ >>= k₂)
  get {α : Type} {k₁ : State τ₁ → Check τ₁ α} {k₂ : State τ₂ → Check τ₂ α}
    (hk : ∀ s₁ s₂, s₁.Akin s₂ → P (k₁ s₁) (k₂ s₂)) : P (get >>= k₁) (get >>= k₂)
  ordinary (fs : List Finding) (h : Ordinary fs) : P (report fs) (report fs)
  move (name : String) (site : MoveSite) :
    P (modify fun s => { s with tracking := Tracking.move name site s.tracking })
      (modify fun s => { s with tracking := Tracking.move name site s.tracking })
  warnIfMoved (name : String) (span : Span) : P (warnIfMoved name span) (warnIfMoved name span)
  borrow (name : String) (mutable : Bool) (span : Span) :
    P (borrow name mutable span) (borrow name mutable span)
  demandFree (name : String) (span : Span) : P (demandFree name span) (demandFree name span)
  demandNoBorrows (span : Span) : P (demandNoBorrows span) (demandNoBorrows span)

/-- A relation between checks that the steps respect which look at the state, report and keep track of
moves and borrows. -/
structure Mute [Tracking τ₁] [Tracking τ₂]
    (P : ∀ ⦃α : Type⦄, Check τ₁ α → Check τ₂ α → Prop) : Prop extends Plain P where
  report (fs : List Finding) : P (report fs) (report fs)
  ordinary fs _ := report fs

/-- A relation between checks that the elementary steps of expressions respect: they bind no name and
open no scope. -/
structure Calm [Tracking τ₁] [Tracking τ₂]
    (P : ∀ ⦃α : Type⦄, Check τ₁ α → Check τ₂ α → Prop) : Prop extends Mute P where
  note (span : Span) (ty : Ty) :
    P (modify fun s => { s with types := (span, ty) :: s.types })
      (modify fun s => { s with types := (span, ty) :: s.types })

/-- A relation between checks that the elementary steps respect, but for those that declare something
beyond the scopes: types, signatures and names from elsewhere. -/
structure Core [Tracking τ₁] [Tracking τ₂]
    (P : ∀ ⦃α : Type⦄, Check τ₁ α → Check τ₂ α → Prop) : Prop extends Calm P where
  bind (name : String) (ty : Ty) : P (Check.bind name ty) (Check.bind name ty)
  inFrame (kind : ScopeKind) {m₁ : Check τ₁ Unit} {m₂ : Check τ₂ Unit} (hm : P m₁ m₂) :
    P (inFrame kind m₁) (inFrame kind m₂)
  inBlock {m₁ : Check τ₁ Unit} {m₂ : Check τ₂ Unit} (hm : P m₁ m₂) : P (inBlock m₁) (inBlock m₂)
  returning (expected : Option Ty) {m₁ : Check τ₁ Unit} {m₂ : Check τ₂ Unit} (hm : P m₁ m₂) :
    P (returning expected m₁) (returning expected m₂)

/-- A relation between checks that the elementary steps respect, but for those that declare types. -/
structure Steps [Tracking τ₁] [Tracking τ₂]
    (P : ∀ ⦃α : Type⦄, Check τ₁ α → Check τ₂ α → Prop) : Prop extends Core P where
  kept {α : Type} (span : Span) {k₁ : State τ₁ → Check τ₁ α} {k₂ : State τ₂ → Check τ₂ α}
    (hk : ∀ s₁ s₂, s₁.Akin s₂ → s₁.signature? span = s₂.signature? span → P (k₁ s₁) (k₂ s₂)) :
    P (MonadState.get >>= k₁) (MonadState.get >>= k₂)
  signatures (f : List (Span × FnTy) → List (Span × FnTy)) :
    P (modify fun s => { s with signatures := f s.signatures })
      (modify fun s => { s with signatures := f s.signatures })
  openNames :
    P (modify fun s => { s with openNames := true }) (modify fun s => { s with openNames := true })

/-- A relation between checks that all elementary steps respect. -/
structure Congruence [Tracking τ₁] [Tracking τ₂]
    (P : ∀ ⦃α : Type⦄, Check τ₁ α → Check τ₂ α → Prop) : Prop extends Steps P where
  declare (f : Declared → Declared) : P (declare f) (declare f)

variable [Tracking τ₁] [Tracking τ₂] {P : ∀ ⦃α : Type⦄, Check τ₁ α → Check τ₂ α → Prop}

/-! ### Steps without code inside -/

theorem Plain.forM (h : Plain P) (as : List α) {k₁ : α → Check τ₁ Unit}
    {k₂ : α → Check τ₂ Unit} (hk : ∀ a, P (k₁ a) (k₂ a)) : P (as.forM k₁) (as.forM k₂) := by
  induction as with
  | nil => exact h.pure ()
  | cons a as ih => exact h.seq (hk a) fun _ => ih

theorem Plain.foldlM (h : Plain P) (as : List α) {k₁ : β → α → Check τ₁ β}
    {k₂ : β → α → Check τ₂ β} (hk : ∀ b a, P (k₁ b a) (k₂ b a)) (b : β) :
    P (as.foldlM k₁ b) (as.foldlM k₂ b) := by
  induction as generalizing b with
  | nil => exact h.pure b
  | cons a as ih => exact h.seq (hk b a) fun b => ih b

theorem Plain.demand (h : Plain P) {cause : Cause} (hc : cause.isOrdinary = true) (ok : Bool)
    (span : Span) : P (demand ok cause span) (demand ok cause span) := by
  unfold Check.demand
  split
  · exact h.pure ()
  · exact h.ordinary _ (ordinary_singleton hc span)

theorem Mute.demand (h : Mute P) (ok : Bool) (cause : Cause) (span : Span) :
    P (demand ok cause span) (demand ok cause span) := by
  rw [demand_eq_report, demand_eq_report]
  exact h.report _

theorem Plain.accept (h : Plain P) {j : Judgement} (hj : Ordinary j.findings) :
    P (accept j) (accept j) :=
  h.seq (h.ordinary _ hj) fun _ => h.pure _

theorem Mute.accept (h : Mute P) (j : Judgement) : P (accept j) (accept j) :=
  h.seq (h.report _) fun _ => h.pure _

theorem Plain.demandAssignable (h : Plain P) (a b : Ty) {cause : Cause}
    (hc : cause.isOrdinary = true) (span : Span) :
    P (demandAssignable a b cause span) (demandAssignable a b cause span) := by
  refine h.get fun s₁ s₂ hs => ?_
  have ha : s₁.assignable a b = s₂.assignable a b := by
    simp only [State.assignable, hs.implements]
  rw [ha]
  exact h.demand hc _ span

theorem Calm.recorded (h : Calm P) (span : Span) {m₁ : Check τ₁ Ty}
    {m₂ : Check τ₂ Ty} (hm : P m₁ m₂) : P (recorded span m₁) (recorded span m₂) :=
  h.seq hm fun ty => h.seq (h.note span ty) fun _ => h.pure ty

theorem Plain.lookup (h : Plain P) (name : String) (span : Span) :
    P (lookup name span) (lookup name span) := by
  refine h.get fun s₁ s₂ hs => ?_
  rw [hs.scopes, hs.openNames]
  split
  · exact h.pure _
  · split
    · exact h.pure _
    · exact h.accept (ordinary_singleton rfl span)

theorem Plain.use (h : Plain P) (name : String) (span : Span) :
    P (use name span) (use name span) :=
  h.seq (h.lookup name span) fun ty => h.seq (h.warnIfMoved name span) fun _ => h.pure ty

theorem Plain.give (h : Plain P) (value : Expr) (ty : Ty) (site : MoveSite) :
    P (give value ty site) (give value ty site) := by
  unfold Check.give
  split
  · split
    · exact h.move _ site
    · exact h.pure ()
  · exact h.pure ()

/-! ### Annotations and declarations -/

theorem Mute.resolve (h : Mute P) (t : TypeExpr) : P (resolve t) (resolve t) := by
  refine h.get fun s₁ s₂ hs => ?_
  rw [hs.known]
  exact h.seq (h.report _) fun _ => h.pure _

theorem Mute.signature (h : Mute P) (sig : Signature) :
    P (signature sig) (signature sig) := by
  refine h.get fun s₁ s₂ hs => ?_
  rw [hs.known]
  exact h.seq (h.report _) fun _ => h.pure _

theorem Steps.declaredSignature (h : Steps P) (span : Span) (sig : Signature) :
    P (declaredSignature span sig) (declaredSignature span sig) := by
  refine h.kept span fun s₁ s₂ _ hkept => ?_
  rw [hkept]
  split
  · refine h.seq ?_ fun _ => h.pure _
    exact h.signatures fun l => l.filter (·.1 ≠ span)
  · exact h.signature sig

theorem Steps.keepSignature (h : Steps P) (span : Span) (f : FnTy) :
    P (modify (·.keepSignature span f)) (modify (·.keepSignature span f)) :=
  h.signatures fun l => (span, f) :: l.filter (·.1 ≠ span)

private theorem reserve_one (s : State τ) (stmt : Stmt) :
    s.reserve stmt = s.withDeclared (s.declared.reserve stmt) := by
  cases stmt with
  | classDecl span name fields methods =>
    by_cases h : s.classes.contains name.name <;>
      simp [State.reserve, Declared.reserve, State.declared, State.withDeclared, h]
  | interfaceDecl span name heads =>
    by_cases h : s.interfaces.contains name.name <;>
      simp [State.reserve, Declared.reserve, State.declared, State.withDeclared, h]
  | _ => rfl

theorem reserve_eq (stmts : List Stmt) (s : State τ) :
    stmts.foldl State.reserve s = s.withDeclared (stmts.foldl Declared.reserve s.declared) := by
  induction stmts generalizing s with
  | nil => rfl
  | cons stmt stmts ih =>
    rw [List.foldl_cons, ih, reserve_one]
    rfl

theorem Steps.addMethods (h : Steps P) (t : Table MethodTy) (methods : List Method) :
    P (addMethods t methods) (addMethods t methods) :=
  h.foldlM methods (fun _ m => h.seq (h.signature m.sig) fun f =>
    h.seq (h.keepSignature m.span f) fun _ => h.pure _) t

theorem Mute.interfaceMethods (h : Mute P) (heads : List MethodHead) :
    P (interfaceMethods heads) (interfaceMethods heads) :=
  h.foldlM heads (fun _ m => h.seq (h.signature m.sig) fun _ => h.pure _) ∅

theorem Mute.classFields (h : Mute P) (fields : List Field) :
    P (classFields fields) (classFields fields) :=
  h.foldlM fields (fun _ f => h.seq (h.resolve f.type) fun _ => h.pure _) ∅

section
variable (h : Congruence P)
include h

theorem Congruence.declareInterface (stmt : Stmt) :
    P (declareInterface stmt) (declareInterface stmt) := by
  unfold Check.declareInterface
  split
  · next name heads =>
    refine h.seq (h.interfaceMethods heads) fun methods => ?_
    exact h.declare fun d => { d with interfaces := d.interfaces.insert name.name methods }
  · exact h.pure ()

theorem Congruence.declareClass (stmt : Stmt) : P (declareClass stmt) (declareClass stmt) := by
  unfold Check.declareClass
  split
  · next name fields methods =>
    refine h.seq (h.classFields fields) fun fields => h.seq (h.addMethods ∅ methods) fun methods => ?_
    exact h.declare fun d => { d with classes := d.classes.insert name.name ⟨fields, methods⟩ }
  · exact h.pure ()

theorem Congruence.declareImpl (stmt : Stmt) : P (declareImpl stmt) (declareImpl stmt) := by
  unfold Check.declareImpl
  split
  · next interface target methods =>
    refine h.get fun s₁ s₂ hs => ?_
    rw [hs.classes]
    split
    · exact h.pure ()
    · next cls _ =>
      refine h.seq (h.addMethods cls.methods methods) fun methods => ?_
      exact h.declare fun d =>
        { d with
          classes := d.classes.insert target.name { cls with methods }
          impls :=
            if d.interfaces.contains interface.name then (target.name, interface.name) :: d.impls
            else d.impls }
  · exact h.pure ()

theorem Congruence.reserve (stmts : List Stmt) :
    P (modify fun s => stmts.foldl State.reserve s) (modify fun s => stmts.foldl State.reserve s) := by
  simp only [reserve_eq]
  exact h.declare fun d => stmts.foldl Declared.reserve d

theorem Congruence.declareTypes (stmts : List Stmt) :
    P (declareTypes stmts) (declareTypes stmts) := by
  refine h.seq (h.reserve stmts) fun _ => ?_
  refine h.seq (h.forM stmts h.declareInterface) fun _ => ?_
  exact h.seq (h.forM stmts h.declareClass) fun _ => h.forM stmts h.declareImpl

theorem Congruence.declareHere (stmt : Stmt) : P (declareHere stmt) (declareHere stmt) := by
  refine h.get fun s₁ s₂ hs => ?_
  rw [hs.scopes]
  split
  · exact h.declareTypes [stmt]
  · exact h.pure ()

end

theorem Plain.implementation (h : Plain P) (interface target : Ident)
    (methods : List Method) (span : Span) :
    P (implementation interface target methods span)
      (implementation interface target methods span) := by
  refine h.get fun s₁ s₂ hs => ?_
  rw [hs.interfaces, hs.classes, hs.implements]
  refine h.seq (h.demand rfl _ _) fun _ => h.seq (h.demand rfl _ _) fun _ => ?_
  split
  · exact h.ordinary _ (Conformance.ordinary_findings _ _)
  · exact h.pure ()

/-! ### Members, calls and assignments -/

theorem Plain.readMember (h : Plain P) (ty : Ty) (name : Ident) :
    P (readMember ty name) (readMember ty name) := by
  refine h.get fun s₁ s₂ hs => ?_
  have hm : s₁.member ty name = s₂.member ty name := by
    unfold State.member State.classMember State.interfaceMember
    rw [hs.classes, hs.interfaces]
  rw [hm]
  exact h.accept (s₂.ordinary_member ty name)

theorem Plain.readElement (h : Plain P) (ty index : Ty) (place span : Span) :
    P (readElement ty index place span) (readElement ty index place span) := by
  refine h.get fun s₁ s₂ hs => ?_
  have he : s₁.element ty index place span = s₂.element ty index place span := by
    unfold State.element State.assignable
    rw [hs.implements]
  rw [he]
  exact h.accept (s₂.ordinary_element ty index place span)

theorem Plain.openCall (h : Plain P) (callee : Expr) (ty : Ty) (count : Nat)
    (span : Span) : P (openCall callee ty count span) (openCall callee ty count span) := by
  refine h.get fun s₁ s₂ hs => ?_
  rw [hs.isVariadic]
  split
  · exact h.seq (h.demand rfl _ _) fun _ => h.pure _
  · exact h.pure _

theorem Plain.pass (h : Plain P) (call : OpenCall) (i : Nat) (arg : Expr) (ty : Ty) :
    P (pass call i arg ty) (pass call i arg ty) := by
  have hgive : P (if call.takes then Check.give arg ty ⟨arg.span.start.line, "function call"⟩
        else Pure.pure ())
      (if call.takes then Check.give arg ty ⟨arg.span.start.line, "function call"⟩
        else Pure.pure ()) := by
    split
    · exact h.give _ _ _
    · exact h.pure ()
  unfold Check.pass
  dsimp only
  split
  · exact h.seq (h.demandAssignable _ _ rfl _) fun _ => hgive
  · exact hgive

theorem Mute.await (h : Mute P) (ty : Ty) (operand span : Span) :
    P (await ty operand span) (await ty operand span) := by
  refine h.get fun s₁ s₂ hs => ?_
  rw [hs.scopes]
  exact h.seq (h.demand _ _ _) fun _ => h.seq (h.demandNoBorrows span) fun _ => h.accept _

theorem Plain.assign (h : Plain P) (target : Ty) (op : AssignOp) (value : Ty)
    (span : Span) : P (assign target op value span) (assign target op value span) := by
  unfold Check.assign
  dsimp only
  split
  · exact h.seq (h.accept (BinOp.ordinary_result _ _ _ _)) fun _ => h.demandAssignable _ _ rfl _
  · exact h.seq (h.pure _) fun _ => h.demandAssignable _ _ rfl _

theorem Plain.assignName (h : Plain P) (name : String) (place : Span) (op : AssignOp)
    (value : Ty) (span : Span) :
    P (assignName name place op value span) (assignName name place op value span) := by
  refine h.seq (h.lookup name place) fun target => ?_
  have hrest : P (do Check.demandFree name place; Check.assign target op value span)
      (do Check.demandFree name place; Check.assign target op value span) :=
    h.seq (h.demandFree name place) fun _ => h.assign _ _ _ _
  dsimp only
  split
  · exact h.seq (h.warnIfMoved name place) fun _ => hrest
  · exact hrest

theorem Plain.assignField (h : Plain P) (object : Ty) (member : Ident) (place : Span)
    (op : AssignOp) (value : Ty) (span : Span) :
    P (assignField object member place op value span)
      (assignField object member place op value span) := by
  refine h.get fun s₁ s₂ hs => ?_
  have hf : s₁.assignedField object member place = s₂.assignedField object member place := by
    unfold State.assignedField
    rw [hs.classes]
  rw [hf]
  refine h.seq (h.ordinary _ (s₂.ordinary_assignedField object member place)) fun _ => ?_
  split
  · exact h.assign _ _ _ _
  · exact h.pure ()

theorem Plain.initialise (h : Plain P) (cls : String) (c : ClassDef) (field : Ident)
    (value : Ty) (span : Span) :
    P (initialise cls c field value span) (initialise cls c field value span) := by
  unfold Check.initialise
  split
  · exact h.demandAssignable _ _ rfl _
  · exact h.ordinary _ (ordinary_singleton rfl _)

/-! ### Bodies, jumps and imports -/

theorem Core.bindAll (h : Core P) (params : List Param) (tys : List Ty) :
    P (bindAll params tys) (bindAll params tys) :=
  h.forM _ fun (p, ty) => h.bind p.name.name ty

theorem Core.function (h : Core P) (sig : Signature) (f : FnTy) (self? : Option Ty)
    {m₁ : Check τ₁ Unit} {m₂ : Check τ₂ Unit} (hm : P m₁ m₂) :
    P (function sig f self? m₁) (function sig f self? m₂) := by
  have hrest : P (do Check.bindAll sig.params f.params; Check.returning (f.expected? sig) m₁)
      (do Check.bindAll sig.params f.params; Check.returning (f.expected? sig) m₂) :=
    h.seq (h.bindAll _ _) fun _ => h.returning _ hm
  refine h.inFrame _ ?_
  dsimp only
  split
  · exact h.seq (h.bind _ _) fun _ => hrest
  · exact hrest

theorem Plain.warnIfEscapes (h : Plain P) (ty : Ty) (span : Span) :
    P (warnIfEscapes ty span) (warnIfEscapes ty span) := by
  unfold Check.warnIfEscapes
  split
  · exact h.ordinary _ (ordinary_singleton rfl span)
  · exact h.pure ()

theorem Plain.demandReturn (h : Plain P) (ty : Ty) (span : Span) :
    P (demandReturn ty span) (demandReturn ty span) := by
  refine h.get fun s₁ s₂ hs => ?_
  rw [hs.returns]
  split
  · exact h.demandAssignable _ _ rfl _
  · exact h.pure ()

theorem Plain.ret (h : Plain P) (span : Span) (value : Option Expr) (ty : Ty) :
    P (ret span value ty) (ret span value ty) := by
  have hrest : P (do Check.warnIfEscapes ty span; Check.demandReturn ty span)
      (do Check.warnIfEscapes ty span; Check.demandReturn ty span) :=
    h.seq (h.warnIfEscapes ty span) fun _ => h.demandReturn ty span
  unfold Check.ret
  dsimp only
  split
  · exact h.seq (h.give _ _ _) fun _ => hrest
  · exact hrest

theorem Mute.jump (h : Mute P) (word : Keyword) (span : Span) :
    P (jump word span) (jump word span) := by
  refine h.get fun s₁ s₂ hs => ?_
  rw [hs.scopes]
  exact h.demand _ _ _

theorem Mute.bindingTy (h : Mute P) (type : Option TypeExpr) (value : Ty)
    (span : Span) : P (bindingTy type value span) (bindingTy type value span) := by
  unfold Check.bindingTy
  split
  · exact h.seq (h.resolve _) fun _ => h.seq (h.demandAssignable _ _ rfl _) fun _ => h.pure _
  · exact h.pure _

theorem Core.require (h : Core P) (path : String) {imports : Import} (hw : imports ≠ .wildcard) :
    P (require path imports) (require path imports) := by
  cases imports with
  | module newName =>
    cases newName with
    | some newName => exact h.bind _ _
    | none => exact h.bind _ _
  | named names =>
    refine h.forM names fun member => ?_
    unfold Check.importMember
    dsimp only
    split
    · exact h.seq (h.accept _) fun _ => h.bind _ _
    · exact h.seq (h.pure _) fun _ => h.bind _ _
  | wildcard => exact absurd rfl hw

theorem Steps.require (h : Steps P) (path : String) (imports : Import) :
    P (require path imports) (require path imports) := by
  cases imports with
  | wildcard =>
    rw [Check.require, Check.require]
    split
    · exact h.forM _ fun e => h.bind e.1 e.2.toTy
    · exact h.seq h.openNames fun _ => h.bind _ _
  | _ => exact h.toCore.require path fun heq => by cases heq

/-! ### The walk -/

section Others
variable [Tracking τ]
variable {span : Span} {e : Expr}

/-- A borrow of something that has no name. -/
theorem expr_borrow_other {mutable : Bool} (hn : e.ident? = none) :
    (Check.expr (.borrow span mutable e) : Check τ Ty) =
      Check.recorded span (do let ty ← Check.expr e; Pure.pure (.ref mutable ty)) := by
  cases e with
  | ident place name => cases hn
  | _ => rfl

/-- A pipe into something that is not a call. -/
theorem expr_pipe_other {callee : Expr} (hn : ∀ s f as, callee ≠ .call s f as) :
    (Check.expr (.pipe span e callee) : Check τ Ty) = Check.recorded span (do
      let ty ← Check.expr callee
      let call ← Check.openCall callee ty 1 span
      let first ← Check.expr e
      Check.pass call 0 e first
      Pure.pure call.ret) := by
  cases callee with
  | call s f as => exact absurd rfl (hn s f as)
  | _ => rfl

/-- An assignment to what is not a place. -/
theorem expr_assign_other {op : AssignOp} {target : Expr} (hn : target.isPlace = false) :
    (Check.expr (.assign span op target e) : Check τ Ty) = Check.recorded span (do
      let _ ← Check.expr e
      let _ ← Check.expr target
      Check.report [⟨.invalidTarget, target.span⟩]
      Pure.pure .void) := by
  cases target with
  | ident | member | index => cases hn
  | _ => rfl

end Others

theorem Calm.borrowOther (h : Calm P) {mutable : Bool} (hn : e.ident? = none)
    (he : P (expr e) (expr e)) :
    P (expr (.borrow span mutable e)) (expr (.borrow span mutable e)) := by
  rw [expr_borrow_other hn, expr_borrow_other hn]
  exact h.recorded span (h.seq he fun _ => h.pure _)

theorem Calm.pipeOther (h : Calm P) {callee : Expr} (hn : ∀ s f as, callee ≠ .call s f as)
    (he : P (expr e) (expr e)) (hc : P (expr callee) (expr callee)) :
    P (expr (.pipe span e callee)) (expr (.pipe span e callee)) := by
  rw [expr_pipe_other hn, expr_pipe_other hn]
  refine h.recorded span (h.seq hc fun ty => h.seq (h.openCall callee ty 1 span) fun call => ?_)
  exact h.seq he fun first => h.seq (h.pass call 0 e first) fun _ => h.pure _

theorem Calm.assignOther (h : Calm P) {op : AssignOp} {target : Expr} (hn : target.isPlace = false)
    (he : P (expr e) (expr e)) (ht : P (expr target) (expr target)) :
    P (expr (.assign span op target e)) (expr (.assign span op target e)) := by
  rw [expr_assign_other hn, expr_assign_other hn]
  refine h.recorded span (h.seq he fun _ => h.seq ht fun _ => ?_)
  exact h.seq (h.report _) fun _ => h.pure _

/-- The relation holds wherever something beyond the scopes is declared by a statement: a type, the
signatures of functions and methods, or names from elsewhere. -/
structure Handles (P : ∀ ⦃α : Type⦄, Check τ₁ α → Check τ₂ α → Prop) (s : Stmt) : Prop where
  type (h : s.declaresType) : P (declareHere s) (declareHere s)
  signed (d : Span × Signature) (h : d ∈ s.signed) :
    P (declaredSignature d.1 d.2) (declaredSignature d.1 d.2)
  imports (r : String × Import) (h : s.imports? = some r) : P (require r.1 r.2) (require r.1 r.2)

/-- The relation holds wherever some statements declare something. -/
def Handled (P : ∀ ⦃α : Type⦄, Check τ₁ α → Check τ₂ α → Prop) (ss : List Stmt) : Prop :=
  ∀ s ∈ ss, Handles P s

theorem handled_append {ss ts : List Stmt} :
    Handled P (ss ++ ts) ↔ Handled P ss ∧ Handled P ts :=
  List.forall_mem_append

/-- A walk for which `P` holds of statements and `Q` of expressions: these bind nothing outside the
functions in them. Where `P` holds for all statements but some, those are to be looked for in the
code. -/
structure Walk (P Q : ∀ ⦃α : Type⦄, Check τ₁ α → Check τ₂ α → Prop) (pick : Stmt → Bool) : Prop
    extends Core P where
  calm : Calm Q
  whole {α : Type} {m₁ : Check τ₁ α} {m₂ : Check τ₂ α} (hm : Q m₁ m₂) : P m₁ m₂
  lambda (sig : Signature) (f : FnTy) {m₁ : Check τ₁ Unit} {m₂ : Check τ₂ Unit} (hm : P m₁ m₂) :
    Q (Check.function sig f none m₁) (Check.function sig f none m₂)
  others (s : Stmt) (h : pick s = false) : Handles P s

variable {Q : ∀ ⦃α : Type⦄, Check τ₁ α → Check τ₂ α → Prop} {pick : Stmt → Bool}

/-- One relation for all code. -/
theorem Core.walk (h : Core P) (others : ∀ s, pick s = false → Handles P s) : Walk P P pick where
  toCore := h
  calm := h.toCalm
  whole hm := hm
  lambda sig f _ _ hm := h.function sig f none hm
  others := others

theorem Walk.handles (h : Walk P Q pick) {s : Stmt} (hs : Handled P (if pick s then [s] else [])) :
    Handles P s := by
  cases hp : pick s with
  | false => exact h.others s hp
  | true =>
    rw [hp] at hs
    exact hs s List.mem_cons_self

-- The statements inside a piece of code are those inside its parts, so that what is asked of them is
-- passed on part by part.
mutual

theorem Walk.expr (h : Walk P Q pick) : ∀ e : Expr, Handled P (e.inner pick) → Q (expr e) (expr e)
  | .int span _, _ | .float span _, _ | .string span _, _ | .char span _, _ | .bool span _, _
  | .nil span, _ => by
    rw [Check.expr, Check.expr]
    exact h.calm.recorded span (h.calm.pure _)
  | .interp span ps, hd => by
    rw [Check.expr, Check.expr]
    exact h.calm.recorded span (h.calm.seq (h.parts ps hd) fun _ => h.calm.pure _)
  | .array span es, hd => by
    rw [Check.expr, Check.expr]
    exact h.calm.recorded span (h.calm.seq (h.exprs es hd) fun _ => h.calm.pure _)
  | .map span es, hd => by
    rw [Check.expr, Check.expr]
    exact h.calm.recorded span (h.calm.seq (h.entries es hd) fun _ => h.calm.pure _)
  | .ident span name, _ => by
    rw [Check.expr, Check.expr]
    exact h.calm.recorded span (h.calm.use name span)
  | .call span callee args, hd => by
    obtain ⟨hcallee, hargs⟩ := handled_append.mp hd
    rw [Check.expr, Check.expr]
    refine h.calm.recorded span (h.calm.seq (h.expr callee hcallee) fun ty => ?_)
    refine h.calm.seq (h.calm.openCall callee ty args.length span) fun call => ?_
    exact h.calm.seq (h.arguments call 0 args hargs) fun _ => h.calm.pure _
  | .member span object name, hd => by
    rw [Check.expr, Check.expr]
    exact h.calm.recorded span (h.calm.seq (h.expr object hd) fun ty => h.calm.readMember ty name)
  | .index span object i, hd => by
    obtain ⟨hobject, hi⟩ := handled_append.mp hd
    rw [Check.expr, Check.expr]
    refine h.calm.recorded span (h.calm.seq (h.expr object hobject) fun ty => ?_)
    exact h.calm.seq (h.expr i hi) fun index => h.calm.readElement ty index i.span span
  | .binary span op l r, hd => by
    obtain ⟨hl, hr⟩ := handled_append.mp hd
    rw [Check.expr, Check.expr]
    refine h.calm.recorded span (h.calm.seq (h.expr l hl) fun left => ?_)
    exact h.calm.seq (h.expr r hr) fun right => h.calm.accept _
  | .unary span op e, hd | .deref span e, hd => by
    rw [Check.expr, Check.expr]
    exact h.calm.recorded span (h.calm.seq (h.expr e hd) fun ty => h.calm.accept _)
  | .borrow span mutable e, hd => by
    cases e with
    | ident place name =>
      rw [Check.expr, Check.expr]
      refine h.calm.recorded span ?_
      refine h.calm.seq (h.calm.recorded place (h.calm.lookup name place)) fun ty => ?_
      exact h.calm.seq (h.calm.borrow name mutable place) fun _ => h.calm.pure _
    | _ =>
      exact h.calm.borrowOther rfl (h.expr _ hd)
  | .await span e, hd => by
    rw [Check.expr, Check.expr]
    exact h.calm.recorded span (h.calm.seq (h.expr e hd) fun ty => h.calm.await ty e.span span)
  | .pipe span e right, hd => by
    obtain ⟨he, hright⟩ := handled_append.mp hd
    cases right with
    | call inner callee args =>
      obtain ⟨hcallee, hargs⟩ := handled_append.mp hright
      rw [Check.expr, Check.expr]
      refine h.calm.recorded span (h.calm.seq (h.expr callee hcallee) fun ty => ?_)
      refine h.calm.seq (h.calm.openCall callee ty (args.length + 1) span) fun call => ?_
      refine h.calm.seq (h.expr e he) fun first => ?_
      refine h.calm.seq (h.calm.pass call 0 e first) fun _ => ?_
      exact h.calm.seq (h.arguments call 1 args hargs) fun _ => h.calm.pure _
    | _ =>
      exact h.calm.pipeOther (fun _ _ _ => nofun) (h.expr e he) (h.expr _ hright)
  | .assign span op target e, hd => by
    obtain ⟨htarget, he⟩ := handled_append.mp hd
    cases target with
    | ident place name =>
      rw [Check.expr, Check.expr]
      refine h.calm.recorded span (h.calm.seq (h.expr e he) fun value => ?_)
      exact h.calm.seq (h.calm.assignName name place op value span) fun _ => h.calm.pure _
    | member place object name =>
      rw [Check.expr, Check.expr]
      refine h.calm.recorded span (h.calm.seq (h.expr e he) fun value => ?_)
      refine h.calm.seq (h.expr object htarget) fun ty => ?_
      exact h.calm.seq (h.calm.assignField ty name place op value span) fun _ => h.calm.pure _
    | index place object i =>
      obtain ⟨hobject, hi⟩ := handled_append.mp htarget
      rw [Check.expr, Check.expr]
      refine h.calm.recorded span (h.calm.seq (h.expr e he) fun value => ?_)
      refine h.calm.seq (h.expr object hobject) fun ty => h.calm.seq (h.expr i hi) fun index => ?_
      refine h.calm.seq (h.calm.readElement ty index i.span place) fun _ => ?_
      exact h.calm.seq (h.calm.assign _ op value span) fun _ => h.calm.pure _
    | _ =>
      exact h.calm.assignOther rfl (h.expr e he) (h.expr _ htarget)
  | .new span cls fields, hd => by
    rw [Check.expr, Check.expr]
    refine h.calm.recorded span (h.calm.get fun s₁ s₂ hs => ?_)
    rw [hs.classes]
    split
    · exact h.calm.seq (h.initialisers cls.name _ fields hd) fun _ => h.calm.pure _
    · refine h.calm.seq (h.calm.report _) fun _ => ?_
      exact h.calm.seq (h.initialisers cls.name none fields hd) fun _ => h.calm.pure _
  | .lambda span sig b, hd => by
    rw [Check.expr, Check.expr]
    refine h.calm.recorded span (h.calm.seq (h.calm.signature sig) fun f => ?_)
    exact h.calm.seq (h.lambda sig f (h.body b hd)) fun _ => h.calm.pure _
  | .paren span e, hd => by
    rw [Check.expr, Check.expr]
    exact h.calm.recorded span (h.expr e hd)

theorem Walk.exprs (h : Walk P Q pick) :
    ∀ es : List Expr, Handled P (innerExprs pick es) → Q (exprs es) (exprs es)
  | [], _ => by
    rw [Check.exprs, Check.exprs]
    exact h.calm.pure _
  | e :: es, hd => by
    obtain ⟨he, hes⟩ := handled_append.mp hd
    rw [Check.exprs, Check.exprs]
    exact h.calm.seq (h.expr e he) fun _ => h.calm.seq (h.exprs es hes) fun _ => h.calm.pure _

theorem Walk.entries (h : Walk P Q pick) :
    ∀ es : List (Expr × Expr), Handled P (innerEntries pick es) → Q (entries es) (entries es)
  | [], _ => by
    rw [Check.entries, Check.entries]
    exact h.calm.pure _
  | (k, v) :: es, hd => by
    obtain ⟨hkv, hes⟩ := handled_append.mp hd
    obtain ⟨hk, hv⟩ := handled_append.mp hkv
    rw [Check.entries, Check.entries]
    refine h.calm.seq (h.expr k hk) fun _ => h.calm.seq (h.expr v hv) fun _ => ?_
    exact h.calm.seq (h.entries es hes) fun _ => h.calm.pure _

theorem Walk.arguments (h : Walk P Q pick) (call : OpenCall) (i : Nat) :
    ∀ es : List Expr, Handled P (innerExprs pick es) → Q (arguments call i es) (arguments call i es)
  | [], _ => by
    rw [Check.arguments, Check.arguments]
    exact h.calm.pure _
  | e :: es, hd => by
    obtain ⟨he, hes⟩ := handled_append.mp hd
    rw [Check.arguments, Check.arguments]
    refine h.calm.seq (h.expr e he) fun ty => h.calm.seq (h.calm.pass call i e ty) fun _ => ?_
    exact h.arguments call (i + 1) es hes

theorem Walk.initialisers (h : Walk P Q pick) (name : String) (c : Option ClassDef) :
    ∀ fields : List (Ident × Expr), Handled P (innerInits pick fields) →
      Q (initialisers name c fields) (initialisers name c fields)
  | [], _ => by
    rw [Check.initialisers, Check.initialisers]
    exact h.calm.pure _
  | (field, e) :: rest, hd => by
    obtain ⟨he, hrest⟩ := handled_append.mp hd
    rw [Check.initialisers, Check.initialisers]
    refine h.calm.seq (h.expr e he) fun value => ?_
    dsimp only
    split
    · refine h.calm.seq (h.calm.initialise name _ field value e.span) fun _ => ?_
      exact h.initialisers name _ rest hrest
    · exact h.initialisers name _ rest hrest

theorem Walk.parts (h : Walk P Q pick) :
    ∀ ps : List Part, Handled P (innerParts pick ps) → Q (parts ps) (parts ps)
  | [], _ => by
    rw [Check.parts, Check.parts]
    exact h.calm.pure _
  | .text _ :: ps, hd => by
    rw [Check.parts, Check.parts]
    exact h.parts ps hd
  | .hole e :: ps, hd => by
    obtain ⟨he, hps⟩ := handled_append.mp hd
    rw [Check.parts, Check.parts]
    exact h.calm.seq (h.expr e he) fun _ => h.parts ps hps

theorem Walk.stmt (h : Walk P Q pick) :
    ∀ s : Stmt, Handles P s → Handled P (s.inner pick) → P (stmt s) (stmt s)
  | .bind span _ name type e, _, hd => by
    rw [Check.stmt, Check.stmt]
    refine h.seq (h.whole (h.expr e hd)) fun value => ?_
    refine h.seq (h.bindingTy type value e.span) fun ty => ?_
    exact h.seq (h.give e value _) fun _ => h.bind name.name ty
  | .fn span name sig b, hs, hd => by
    rw [Check.stmt, Check.stmt]
    refine h.seq (hs.signed _ List.mem_cons_self) fun f => h.seq (h.bind name.name _) fun _ => ?_
    exact h.function sig f none (h.body b hd)
  | .ret span (some e), _, hd => by
    rw [Check.stmt, Check.stmt]
    exact h.seq (h.whole (h.expr e hd)) fun ty => h.ret span (some e) ty
  | .ret span none, _, _ => by
    rw [Check.stmt, Check.stmt]
    exact h.ret span none .void
  | .brk span, _, _ | .cont span, _, _ => by
    rw [Check.stmt, Check.stmt]
    exact h.jump _ span
  | .cond c, _, hd => by
    rw [Check.stmt, Check.stmt]
    exact h.conditional c hd
  | .forLoop _ init test post b, _, hd => by
    obtain ⟨hd, hpost⟩ := handled_append.mp hd
    obtain ⟨hd, hb⟩ := handled_append.mp hd
    obtain ⟨hinit, htest⟩ := handled_append.mp hd
    rw [Check.stmt, Check.stmt]
    refine h.inFrame .loop (h.seq (h.loopInit init hinit) fun _ => ?_)
    refine h.seq (h.loopTest test htest) fun _ => h.seq (h.block b hb) fun _ => ?_
    exact h.loopPost post hpost
  | .forIn _ item e b, _, hd => by
    obtain ⟨he, hb⟩ := handled_append.mp hd
    rw [Check.stmt, Check.stmt]
    refine h.inFrame .loop (h.seq (h.whole (h.expr e he)) fun ty => ?_)
    exact h.seq (h.bind item.name _) fun _ => h.block b hb
  | .whileLoop _ e b, _, hd => by
    obtain ⟨he, hb⟩ := handled_append.mp hd
    rw [Check.stmt, Check.stmt]
    refine h.inFrame .loop (h.seq (h.whole (h.expr e he)) fun ty => ?_)
    exact h.seq (h.demand _ _ _) fun _ => h.block b hb
  | .loop _ b, _, hd => by
    rw [Check.stmt, Check.stmt]
    exact h.inFrame .loop (h.block b hd)
  | .block b, _, hd => by
    rw [Check.stmt, Check.stmt]
    exact h.block b hd
  | .classDecl span name fields ms, hs, hd => by
    obtain ⟨hfields, hms⟩ := handled_append.mp hd
    rw [Check.stmt, Check.stmt]
    refine h.seq (hs.type rfl) fun _ => h.get fun s₁ s₂ heq => ?_
    rw [heq.classes]
    exact h.seq (h.defaults _ fields hfields) fun _ => h.methods _ ms hs.signed hms
  | .interfaceDecl span name heads, hs, hd => by
    rw [Check.stmt, Check.stmt]
    exact hs.type rfl
  | .implDecl span interface target ms, hs, hd => by
    rw [Check.stmt, Check.stmt]
    refine h.seq (hs.type rfl) fun _ => ?_
    refine h.seq (h.implementation interface target ms span) fun _ => h.get fun s₁ s₂ heq => ?_
    rw [heq.classes]
    exact h.methods _ ms hs.signed hd
  | .require _ path imports, hs, _ => by
    rw [Check.stmt, Check.stmt]
    exact hs.imports _ rfl
  | .expr _ e, _, hd => by
    rw [Check.stmt, Check.stmt]
    exact h.seq (h.whole (h.expr e hd)) fun _ => h.pure _

theorem Walk.loopInit (h : Walk P Q pick) :
    ∀ init : Option Stmt, Handled P (innerStart pick init) → P (loopInit init) (loopInit init)
  | some s, hd => by
    obtain ⟨hs, hd⟩ := handled_append.mp hd
    rw [Check.loopInit, Check.loopInit]
    exact h.stmt s (h.handles hs) hd
  | none, _ => by
    rw [Check.loopInit, Check.loopInit]
    exact h.pure _

theorem Walk.loopTest (h : Walk P Q pick) :
    ∀ test : Option Expr, Handled P (innerOption pick test) → P (loopTest test) (loopTest test)
  | some e, hd => by
    rw [Check.loopTest, Check.loopTest]
    exact h.seq (h.whole (h.expr e hd)) fun _ => h.demand _ _ _
  | none, _ => by
    rw [Check.loopTest, Check.loopTest]
    exact h.pure _

theorem Walk.loopPost (h : Walk P Q pick) :
    ∀ post : Option Expr, Handled P (innerOption pick post) → P (loopPost post) (loopPost post)
  | some e, hd => by
    rw [Check.loopPost, Check.loopPost]
    exact h.seq (h.whole (h.expr e hd)) fun _ => h.pure _
  | none, _ => by
    rw [Check.loopPost, Check.loopPost]
    exact h.pure _

theorem Walk.stmts (h : Walk P Q pick) :
    ∀ ss : List Stmt, Handled P (innerStmts pick ss) → P (stmts ss) (stmts ss)
  | [], _ => by
    rw [Check.stmts, Check.stmts]
    exact h.pure _
  | s :: ss, hd => by
    obtain ⟨hd, hss⟩ := handled_append.mp hd
    obtain ⟨hs, hd⟩ := handled_append.mp hd
    rw [Check.stmts, Check.stmts]
    exact h.seq (h.stmt s (h.handles hs) hd) fun _ => h.stmts ss hss

theorem Walk.block (h : Walk P Q pick) :
    ∀ b : Block, Handled P (b.inner pick) → P (block b) (block b)
  | ⟨_, ss⟩, hd => by
    rw [Check.block, Check.block]
    exact h.inBlock (h.stmts ss hd)

theorem Walk.body (h : Walk P Q pick) : ∀ b : Block, Handled P (b.inner pick) → P (body b) (body b)
  | ⟨_, ss⟩, hd => by
    rw [Check.body, Check.body]
    exact h.stmts ss hd

theorem Walk.conditional (h : Walk P Q pick) :
    ∀ c : Conditional, Handled P (c.inner pick) → P (conditional c) (conditional c)
  | ⟨_, test, b, rest⟩, hd => by
    obtain ⟨hd, hrest⟩ := handled_append.mp hd
    obtain ⟨htest, hb⟩ := handled_append.mp hd
    rw [Check.conditional, Check.conditional]
    refine h.seq (h.whole (h.expr test htest)) fun ty => h.seq (h.demand _ _ _) fun _ => ?_
    exact h.seq (h.block b hb) fun _ => h.otherwise rest hrest

theorem Walk.otherwise (h : Walk P Q pick) :
    ∀ o : Otherwise, Handled P (o.inner pick) → P (otherwise o) (otherwise o)
  | .none, _ => by
    rw [Check.otherwise, Check.otherwise]
    exact h.pure _
  | .block b, hd => by
    rw [Check.otherwise, Check.otherwise]
    exact h.block b hd
  | .elseIf c, hd => by
    rw [Check.otherwise, Check.otherwise]
    exact h.conditional c hd

theorem Walk.defaults (h : Walk P Q pick) (c : Option ClassDef) :
    ∀ fields : List Field, Handled P (innerFields pick fields) → P (defaults c fields) (defaults c fields)
  | [], _ => by
    rw [Check.defaults, Check.defaults]
    exact h.pure _
  | ⟨name, _, some e, _⟩ :: fields, hd => by
    obtain ⟨he, hfields⟩ := handled_append.mp hd
    rw [Check.defaults, Check.defaults]
    refine h.seq (h.whole (h.expr e he)) fun value => h.seq (h.demandAssignable _ _ rfl _) fun _ => ?_
    exact h.defaults c fields hfields
  | ⟨_, _, none, _⟩ :: fields, hd => by
    rw [Check.defaults, Check.defaults]
    exact h.defaults c fields hd

theorem Walk.methods (h : Walk P Q pick) (owner : Ty) :
    ∀ ms : List Method, (∀ d ∈ ms.map fun m => (m.span, m.sig),
        P (declaredSignature d.1 d.2) (declaredSignature d.1 d.2)) →
      Handled P (innerMethods pick ms) → P (methods owner ms) (methods owner ms)
  | [], _, _ => by
    rw [Check.methods, Check.methods]
    exact h.pure _
  | ⟨_, receiver, sig, b, span⟩ :: ms, hs, hd => by
    obtain ⟨hself, hs⟩ := List.forall_mem_cons.mp hs
    obtain ⟨hb, hms⟩ := handled_append.mp hd
    rw [Check.methods, Check.methods]
    refine h.seq hself fun f => ?_
    refine h.seq (h.function sig f (receiver.self? owner) (h.body b hb)) fun _ => ?_
    exact h.methods owner ms hs hms

end

theorem Steps.hoist (h : Steps P) (s : Stmt) : P (hoist s) (hoist s) := by
  unfold Check.hoist
  split
  · refine h.seq (h.signature _) fun f => h.seq (h.keepSignature _ f) fun _ => ?_
    exact h.bind _ _
  · exact h.pure ()

/-- Where only declared types are left to look at. -/
theorem Steps.walk (h : Steps P) : Walk P P Stmt.declaresType :=
  h.toCore.walk fun _ hs =>
    { type := fun hd => absurd hd (hs ▸ Bool.false_ne_true)
      signed := fun d _ => h.declaredSignature d.1 d.2
      imports := fun r _ => h.require r.1 r.2 }

theorem Congruence.handled (h : Congruence P) (ss : List Stmt) : Handled P ss :=
  fun s _ =>
    { type := fun _ => h.declareHere s
      signed := fun d _ => h.declaredSignature d.1 d.2
      imports := fun r _ => h.require r.1 r.2 }

section Whole
variable (h : Congruence P)
include h

theorem Congruence.expr (e : Expr) : P (expr e) (expr e) :=
  h.walk.expr e (h.handled _)

theorem Congruence.stmt (s : Stmt) : P (stmt s) (stmt s) :=
  h.walk.stmt s (h.handled [s] s List.mem_cons_self) (h.handled _)

theorem Congruence.stmts (ss : List Stmt) : P (stmts ss) (stmts ss) :=
  h.walk.stmts ss (h.handled _)

theorem Congruence.block (b : Block) : P (block b) (block b) :=
  h.walk.block b (h.handled _)

theorem Congruence.body (b : Block) : P (body b) (body b) :=
  h.walk.body b (h.handled _)

theorem Congruence.loopInit (init : Option Stmt) : P (loopInit init) (loopInit init) :=
  h.walk.loopInit init (h.handled _)

theorem Congruence.loopTest (test : Option Expr) : P (loopTest test) (loopTest test) :=
  h.walk.loopTest test (h.handled _)

theorem Congruence.loopPost (post : Option Expr) : P (loopPost post) (loopPost post) :=
  h.walk.loopPost post (h.handled _)

/-- Checking a program is made of elementary steps. -/
theorem Congruence.program (p : Program) : P (program p) (program p) := by
  refine h.seq (h.declareTypes p.stmts) fun _ => h.seq (h.forM p.stmts h.hoist) fun _ => ?_
  exact h.stmts p.stmts

end Whole
end Check
end CarvFront
