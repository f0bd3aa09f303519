import CarvFront.Proofs.RegisteredTypes

/-! Nothing is taken back that was accepted. The more classes implement, the more types serve as
others; and on the way through a program the table of implementations only grows, so that what may
stand for something at one point may do so wherever the table is no smaller. -/
namespace CarvFront

/-! ### Types -/

namespace Ty
variable {impls : Implements}

-- The parameters of functions are compared the other way round, but under the same table.
mutual

theorem assignable_mono {impls' : Implements} (hle : ∀ c i, impls c i → impls' c i) {a b : Ty}
    (hab : a.assignable impls b) : a.assignable impls' b := by
  by_cases ha : a.isDynamic
  · exact assignable_of_isDynamic (.inl ha)
  by_cases hb : b.isDynamic
  · exact assignable_of_isDynamic (.inr hb)
  apply Serves.assignable
  cases serves_of_assignable hab ha hb with
  | same => exact .same _
  | widen => exact .widen
  | absent => exact .absent _
  | lift h => exact .lift (assignable_mono hle h)
  | present plain h => exact .present plain (assignable_mono hle h)
  | array h => exact .array (assignable_mono hle h)
  | future h => exact .future (assignable_mono hle h)
  | chan h => exact .chan (assignable_mono hle h)
  | map hk hv => exact .map (assignable_mono hle hk) (assignable_mono hle hv)
  | ref hm h => exact .ref hm (assignable_mono hle h)
  | cls h => exact .cls (hle _ _ h)
  | fn hp hr => exact .fn (assignableAll_mono hle hp) (assignable_mono hle hr)
termination_by sizeOf a + sizeOf b
decreasing_by all_goals (subst_vars; simp +arith)

theorem assignableAll_mono {impls' : Implements} (hle : ∀ c i, impls c i → impls' c i)
    {as bs : List Ty} (h : assignableAll impls as bs) : assignableAll impls' as bs := by
  match as, bs with
  | [], [] => simp [assignableAll]
  | a :: as, b :: bs =>
    rw [assignableAll, Bool.and_eq_true_iff] at h ⊢
    exact ⟨assignable_mono hle h.1, assignableAll_mono hle h.2⟩
  | [], _ :: _ | _ :: _, [] => simp [assignableAll] at h
termination_by sizeOf as + sizeOf bs
decreasing_by all_goals simp +arith

end

/-- The table decides about classes. -/
theorem implements_of_assignable {c i : String} (h : (Ty.cls c).assignable impls (.interface i)) :
    impls c i := by
  cases serves_of_assignable h Bool.false_ne_true Bool.false_ne_true with
  | cls h => exact h

end Ty

namespace State
variable {τ : Type} {s s' : State τ}

theorem implements_of_suffix (h : s.impls <:+ s'.impls) {c i : String} (hci : s.implements c i) :
    s'.implements c i := by
  unfold State.implements at hci ⊢
  rw [List.contains_iff_mem] at hci ⊢
  exact h.subset hci

theorem assignable_of_suffix (h : s.impls <:+ s'.impls) {a b : Ty} (hab : s.assignable a b) :
    s'.assignable a b :=
  Ty.assignable_mono (fun _ _ => implements_of_suffix h) hab

end State

/-! ### Steps -/

namespace Check
variable {τ α β : Type}

/-- A step that takes no implementation out of the table. -/
def Enlarges ⦃α : Type⦄ (m _ : Check τ α) : Prop :=
  ∀ s : State τ, s.impls <:+ (m.after s).impls

theorem enlarges_of_impls {m m' : Check τ α} (h : ∀ s, (m.after s).impls = s.impls) :
    Enlarges m m' := by
  intro s
  exact h s ▸ List.suffix_rfl

section Tracking
variable [Tracking τ]
variable {q : Piece} {s s' : State τ}

theorem enlarges_steps : Steps (Enlarges (τ := τ)) where
  toCalm := calm_of_states (R := fun s s' => s.impls <:+ s'.impls) (fun _ => List.suffix_rfl)
    List.IsSuffix.trans (fun _ _ _ => List.suffix_rfl) (fun _ _ _ => List.suffix_rfl)
    fun _ _ _ => List.suffix_rfl
  kept _ _ _ hk s := hk s s (.refl s) rfl s
  signatures _ _ := List.suffix_rfl
  openNames _ := List.suffix_rfl
  bind _ _ _ := List.suffix_rfl
  inFrame := fun kind _ _ hm s => hm (s.enterFrame kind)
  inBlock hm s := hm s.enterBlock
  returning := fun expected _ _ hm s => hm { s with returns := expected :: s.returns }

/-- An implementation adds one entry at most. -/
theorem enlarges_declareImpl (st : Stmt) :
    Enlarges (τ := τ) (declareImpl st) (declareImpl st) := by
  cases st with
  | implDecl span interface target ms =>
    intro s
    rw [declareImpl, after_get]
    split
    · exact List.suffix_rfl
    · next cls _ =>
      refine (enlarges_steps.addMethods cls.methods ms s).trans ?_
      rw [after_bind]
      change _ <:+ (if _ then _ :: _ else _ : List (String × String))
      split
      · exact List.suffix_cons _ _
      · exact List.suffix_rfl
  | _ => exact enlarges_steps.pure ()

omit [Tracking τ] in
theorem enlarges_reserve (ss : List Stmt) :
    Enlarges (τ := τ) (modify fun s => ss.foldl State.reserve s)
      (modify fun s => ss.foldl State.reserve s) := by
  apply enlarges_of_impls
  intro s
  change (ss.foldl State.reserve s).impls = s.impls
  induction ss generalizing s with
  | nil => rfl
  | cons st ss ih => exact (ih _).trans (impls_reserve st s)

theorem enlarges_declareInterface (st : Stmt) :
    Enlarges (τ := τ) (declareInterface st) (declareInterface st) :=
  enlarges_of_impls (impls_declareInterface st)

theorem enlarges_declareClass (st : Stmt) :
    Enlarges (τ := τ) (declareClass st) (declareClass st) :=
  enlarges_of_impls (impls_declareClass st)

theorem enlarges_declareTypes (ss : List Stmt) :
    Enlarges (τ := τ) (declareTypes ss) (declareTypes ss) := by
  have h := enlarges_steps (τ := τ)
  refine h.seq (enlarges_reserve ss) fun _ => ?_
  refine h.seq (h.forM ss enlarges_declareInterface) fun _ => ?_
  exact h.seq (h.forM ss enlarges_declareClass) fun _ => h.forM ss enlarges_declareImpl

theorem enlarges_declareHere (st : Stmt) :
    Enlarges (τ := τ) (declareHere st) (declareHere st) := by
  refine enlarges_steps.get fun s _ _ => ?_
  split
  · exact enlarges_declareTypes [st]
  · exact enlarges_steps.pure ()

theorem enlarges_handled (ss : List Stmt) : Handled (Enlarges (τ := τ)) ss :=
  fun st _ =>
    { type := fun _ => enlarges_declareHere st
      signed := fun d _ => enlarges_steps.declaredSignature d.1 d.2
      imports := fun r _ => enlarges_steps.require r.1 r.2 }

theorem enlarges_methods (owner : Ty) (ms : List Method) :
    Enlarges (τ := τ) (methods owner ms) (methods owner ms) :=
  enlarges_steps.walk.methods owner ms (fun d _ => enlarges_steps.declaredSignature d.1 d.2)
    (enlarges_handled _)

/-! ### Out of a part -/

/-- On its way from `s`, a step comes through `t`, and takes nothing out of the table from there on. -/
def Through (m : Check τ α) (s t : State τ) : Prop :=
  t.impls <:+ (m.after s).impls

namespace Through
variable {s t : State τ}
variable {m : Check τ Unit}

omit [Tracking τ] in
theorem first {m : Check τ α} {k : α → Check τ β} (hm : Through m s t)
    (hk : ∀ a, Enlarges (k a) (k a)) : Through (m >>= k) s t :=
  List.IsSuffix.trans hm (hk _ _)

omit [Tracking τ] in
theorem later {m : Check τ α} {k : α → Check τ β} (hk : Through (k (m.run s).1) (m.after s) t) :
    Through (m >>= k) s t :=
  hk

omit [Tracking τ] in
theorem look {k : State τ → Check τ α} (hk : Through (k s) s t) : Through (get >>= k) s t :=
  hk

omit [Tracking τ] in
theorem last (m : Check τ α) (s : State τ) : Through m s (m.after s) :=
  List.suffix_rfl

theorem forM {k : α → Check τ Unit} (hk : ∀ a, Enlarges (k a) (k a)) (pre post : List α)
    (s : State τ) : Through ((pre ++ post).forM k) s ((pre.forM k).after s) := by
  induction pre generalizing s with
  | nil => exact enlarges_steps.forM post hk s
  | cons a pre ih => exact .later (ih _)

theorem recorded {m : Check τ Ty} (span : Span) (hm : Through m s t) :
    Through (Check.recorded span m) s t :=
  hm.first fun ty => enlarges_steps.seq (enlarges_steps.note span ty) fun _ => enlarges_steps.pure ty

theorem inFrame {kind : ScopeKind} (hm : Through m (s.enterFrame kind) t) :
    Through (Check.inFrame kind m) s t :=
  hm

theorem inBlock (hm : Through m s.enterBlock t) : Through (Check.inBlock m) s t :=
  hm

theorem function {sig : Signature} {f : FnTy} {self? : Option Ty}
    (hm : Through m ((openFunction sig f self?).after s) t) :
    Through (Check.function sig f self? m) s t := by
  rw [function_eq]
  exact hm

/-! Lists of parts: what stands before the part is checked before, what stands behind it after it. -/

theorem parts (pre : List Part) (e : Expr) (post : List Part) (s : State τ) :
    Through (Check.parts (pre ++ .hole e :: post)) s ((expr e).after ((Check.parts pre).after s)) := by
  induction pre generalizing s with
  | nil =>
    rw [List.nil_append, Check.parts, Check.parts]
    exact .first (.last _ s) fun _ => enlarges_steps.walk.parts post (enlarges_handled _)
  | cons p pre ih =>
    cases p with
    | text _ =>
      rw [List.cons_append, Check.parts, Check.parts]
      exact ih s
    | hole _ =>
      rw [List.cons_append, Check.parts, Check.parts]
      exact .later (ih _)

theorem exprs (pre : List Expr) (e : Expr) (post : List Expr) (s : State τ) :
    Through (Check.exprs (pre ++ e :: post)) s ((expr e).after ((Check.exprs pre).after s)) := by
  induction pre generalizing s with
  | nil =>
    rw [List.nil_append, Check.exprs, Check.exprs]
    refine .first (.last _ s) fun _ => ?_
    exact enlarges_steps.seq (enlarges_steps.walk.exprs post (enlarges_handled _)) fun _ =>
      enlarges_steps.pure _
  | cons a pre ih =>
    rw [List.cons_append, Check.exprs, Check.exprs]
    exact .later (.first (ih _) fun _ => enlarges_steps.pure _)

theorem entries (pre : List (Expr × Expr)) (k v : Expr) (post : List (Expr × Expr)) (s : State τ) :
    Through (Check.entries (pre ++ (k, v) :: post)) s
        ((expr k).after ((Check.entries pre).after s)) ∧
      Through (Check.entries (pre ++ (k, v) :: post)) s
        ((expr v).after ((expr k).after ((Check.entries pre).after s))) := by
  have hpost (key value : Ty) : Enlarges (τ := τ)
      (do let tys ← Check.entries post; pure ((key, value) :: tys))
      (do let tys ← Check.entries post; pure ((key, value) :: tys)) :=
    enlarges_steps.seq (enlarges_steps.walk.entries post (enlarges_handled _)) fun _ =>
      enlarges_steps.pure _
  induction pre generalizing s with
  | nil =>
    rw [List.nil_append, Check.entries, Check.entries]
    constructor
    · refine .first (.last _ s) fun key => ?_
      exact enlarges_steps.seq (enlarges_steps.walk.expr v (enlarges_handled _)) (hpost key)
    · exact .later (.first (.last _ _) (hpost _))
  | cons a pre ih =>
    rw [List.cons_append, Check.entries, Check.entries]
    constructor
    · exact .later (.later (.first (ih _).1 fun _ => enlarges_steps.pure _))
    · exact .later (.later (.first (ih _).2 fun _ => enlarges_steps.pure _))

theorem arguments (call : OpenCall) (i : Nat) (pre : List Expr) (e : Expr) (post : List Expr)
    (s : State τ) :
    Through (Check.arguments call i (pre ++ e :: post)) s
      ((expr e).after ((Check.arguments call i pre).after s)) := by
  induction pre generalizing i s with
  | nil =>
    rw [List.nil_append, Check.arguments, Check.arguments]
    refine .first (.last _ s) fun ty => enlarges_steps.seq (enlarges_steps.pass call i e ty) fun _ => ?_
    exact enlarges_steps.walk.arguments call (i + 1) post (enlarges_handled _)
  | cons a pre ih =>
    rw [List.cons_append, Check.arguments, Check.arguments]
    exact .later (.later (ih _ _))

theorem initialisers (name : String) (c : Option ClassDef) (pre : List (Ident × Expr)) (field : Ident)
    (e : Expr) (post : List (Ident × Expr)) (s : State τ) :
    Through (Check.initialisers name c (pre ++ (field, e) :: post)) s
      ((expr e).after ((Check.initialisers name c pre).after s)) := by
  induction pre generalizing s with
  | nil =>
    rw [List.nil_append, Check.initialisers, Check.initialisers]
    refine .first (.last _ s) fun value => ?_
    have hpost : Enlarges (τ := τ) (Check.initialisers name c post) (Check.initialisers name c post) :=
      enlarges_steps.walk.initialisers name c post (enlarges_handled _)
    cases c with
    | some c => exact enlarges_steps.seq (enlarges_steps.initialise name c field value e.span) fun _ => hpost
    | none => exact hpost
  | cons a pre ih =>
    rw [List.cons_append, Check.initialisers, Check.initialisers]
    cases c with
    | some c => exact .later (.later (ih _))
    | none => exact .later (ih _)

theorem stmts (pre : List Stmt) (st : Stmt) (post : List Stmt) (s : State τ) :
    Through (Check.stmts (pre ++ st :: post)) s ((stmt st).after ((Check.stmts pre).after s)) := by
  induction pre generalizing s with
  | nil =>
    rw [List.nil_append, Check.stmts, Check.stmts]
    exact .first (.last _ s) fun _ => enlarges_steps.walk.stmts post (enlarges_handled _)
  | cons a pre ih =>
    rw [List.cons_append, Check.stmts, Check.stmts]
    exact .later (ih _)

theorem defaults (c : Option ClassDef) (pre : List Field) (name : Ident) (type : TypeExpr) (e : Expr)
    (place : Span) (post : List Field) (s : State τ) :
    Through (Check.defaults c (pre ++ ⟨name, type, some e, place⟩ :: post)) s
      ((expr e).after ((Check.defaults c pre).after s)) := by
  induction pre generalizing s with
  | nil =>
    rw [List.nil_append, Check.defaults, Check.defaults]
    refine .first (.last _ s) fun value => ?_
    exact enlarges_steps.seq (enlarges_steps.demandAssignable _ _ rfl _) fun _ =>
      enlarges_steps.walk.defaults c post (enlarges_handled _)
  | cons a pre ih =>
    obtain ⟨field, ty, value, span⟩ := a
    cases value with
    | some value =>
      rw [List.cons_append, Check.defaults, Check.defaults]
      exact .later (.later (ih _))
    | none =>
      rw [List.cons_append, Check.defaults, Check.defaults]
      exact ih s

theorem methods (owner : Ty) (pre : List Method) (m : Method) (post : List Method) (s : State τ) :
    Through (Check.methods owner (pre ++ m :: post)) s
      ((body m.body).after ((openDeclared m.span m.sig (m.receiver.self? owner)).after
        ((Check.methods owner pre).after s))) := by
  induction pre generalizing s with
  | nil =>
    obtain ⟨name, receiver, sig, b, span⟩ := m
    rw [List.nil_append, Check.methods, Check.methods]
    exact .later (.first (.function (.last _ _)) fun _ => enlarges_methods owner post)
  | cons a pre ih =>
    obtain ⟨name, receiver, sig, b, span⟩ := a
    rw [List.cons_append, Check.methods, Check.methods]
    exact .later (.later (ih _))

end Through

/-- Checking an expression comes through the point where one of its parts is left. -/
theorem through_expr {e : Expr} (hc : Calls s (.expr e) q s') :
    Through (expr e) s ((piece q).after s') := by
  have h := enlarges_steps (τ := τ)
  have hexpr (e : Expr) : Enlarges (τ := τ) (expr e) (expr e) := h.walk.expr e (enlarges_handled _)
  have hargs (call : OpenCall) (i : Nat) (as : List Expr) : Enlarges (τ := τ)
      (do arguments call i as; pure call.ret) (do arguments call i as; pure call.ret) :=
    h.seq (h.walk.arguments call i as (enlarges_handled _)) fun _ => h.pure _
  cases hc with
  | @hole span pre e post =>
    rw [expr]
    exact .recorded span (.first (.parts pre e post s) fun _ => h.pure _)
  | @element span pre e post =>
    rw [expr]
    exact .recorded span (.first (.exprs pre e post s) fun _ => h.pure _)
  | @key span pre k v post =>
    rw [expr]
    exact .recorded span (.first (Through.entries pre k v post s).1 fun _ => h.pure _)
  | @value span pre k v post =>
    rw [expr]
    exact .recorded span (.first (Through.entries pre k v post s).2 fun _ => h.pure _)
  | @callee span callee args =>
    rw [expr]
    refine .recorded span (.first (.last _ s) fun ty => ?_)
    exact h.seq (h.openCall callee ty args.length span) fun call => hargs call 0 args
  | @argument span callee pre e post =>
    rw [expr]
    exact .recorded span (.later (.later (.first (.arguments _ 0 pre e post _) fun _ => h.pure _)))
  | @object span object name =>
    rw [expr]
    exact .recorded span (.first (.last _ s) fun ty => h.readMember ty name)
  | @collection span object i =>
    rw [expr]
    refine .recorded span (.first (.last _ s) fun ty => ?_)
    exact h.seq (hexpr i) fun index => h.readElement ty index i.span span
  | @index span object i =>
    rw [expr]
    exact .recorded span (.later (.first (.last _ _) fun _ => h.readElement _ _ _ _))
  | @left span op l r =>
    rw [expr]
    refine .recorded span (.first (.last _ s) fun _ => ?_)
    exact h.seq (hexpr r) fun _ => h.accept _
  | @right span op l r =>
    rw [expr]
    exact .recorded span (.later (.first (.last _ _) fun _ => h.accept _))
  | @operand span op e =>
    rw [expr]
    exact .recorded span (.first (.last _ s) fun _ => h.accept _)
  | @borrowed span mutable e hn =>
    rw [expr_borrow_other hn]
    exact .recorded span (.first (.last _ s) fun _ => h.pure _)
  | @reference span e =>
    rw [expr]
    exact .recorded span (.first (.last _ s) fun _ => h.accept _)
  | @future span e =>
    rw [expr]
    exact .recorded span (.first (.last _ s) fun ty => h.await ty e.span span)
  | @pipeCallee span e inner callee args =>
    rw [expr]
    refine .recorded span (.first (.last _ s) fun ty => ?_)
    refine h.seq (h.openCall callee ty _ span) fun call => h.seq (hexpr e) fun first => ?_
    exact h.seq (h.pass call 0 e first) fun _ => hargs call 1 args
  | @piped span e inner callee args =>
    rw [expr]
    refine .recorded span (.later (.later (.first (.last _ _) fun first => ?_)))
    exact h.seq (h.pass _ 0 e first) fun _ => hargs _ 1 args
  | @pipeArgument span e inner callee pre arg post =>
    rw [expr]
    exact .recorded span
      (.later (.later (.later (.later (.first (.arguments _ 1 pre arg post _) fun _ => h.pure _)))))
  | @pipeOther span e callee hn =>
    rw [expr_pipe_other hn]
    refine .recorded span (.first (.last _ s) fun ty => h.seq (h.openCall callee ty 1 span) fun call => ?_)
    exact h.seq (hexpr e) fun first => h.seq (h.pass call 0 e first) fun _ => h.pure _
  | @pipedOther span e callee hn =>
    rw [expr_pipe_other hn]
    refine .recorded span (.later (.later (.first (.last _ _) fun first => ?_)))
    exact h.seq (h.pass _ 0 e first) fun _ => h.pure _
  | @assigned span op target e =>
    cases target with
    | ident place name =>
      rw [expr]
      refine .recorded span (.first (.last _ s) fun value => ?_)
      exact h.seq (h.assignName name place op value span) fun _ => h.pure _
    | member place object name =>
      rw [expr]
      refine .recorded span (.first (.last _ s) fun value => h.seq (hexpr object) fun ty => ?_)
      exact h.seq (h.assignField ty name place op value span) fun _ => h.pure _
    | index place object i =>
      rw [expr]
      refine .recorded span (.first (.last _ s) fun value => h.seq (hexpr object) fun ty => ?_)
      refine h.seq (hexpr i) fun index => h.seq (h.readElement ty index i.span place) fun _ => ?_
      exact h.seq (h.assign _ op value span) fun _ => h.pure _
    | _ =>
      rw [expr_assign_other rfl]
      refine .recorded span (.first (.last _ s) fun _ => h.seq (hexpr _) fun _ => ?_)
      exact h.seq (h.report _) fun _ => h.pure _
  | @targetObject span op place object name e =>
    rw [expr]
    refine .recorded span (.later (.first (.last _ _) fun ty => ?_))
    exact h.seq (h.assignField ty name place op _ span) fun _ => h.pure _
  | @targetCollection span op place object i e =>
    rw [expr]
    refine .recorded span (.later (.first (.last _ _) fun ty => h.seq (hexpr i) fun index => ?_))
    refine h.seq (h.readElement ty index i.span place) fun _ => ?_
    exact h.seq (h.assign _ op _ span) fun _ => h.pure _
  | @targetIndex span op place object i e =>
    rw [expr]
    refine .recorded span (.later (.later (.first (.last _ _) fun index => ?_)))
    refine h.seq (h.readElement _ index i.span place) fun _ => ?_
    exact h.seq (h.assign _ op _ span) fun _ => h.pure _
  | @targetOther span op target e hn =>
    rw [expr_assign_other hn]
    refine .recorded span (.later (.first (.last _ _) fun _ => ?_))
    exact h.seq (h.report _) fun _ => h.pure _
  | @field span cls pre name e post =>
    rw [expr]
    rw [after_get]
    refine .recorded span (.look ?_)
    cases s.classes.find? cls.name with
    | some c => exact .first (.initialisers cls.name (some c) pre name e post s) fun _ => h.pure _
    | none => exact .later (.first (.initialisers cls.name none pre name e post _) fun _ => h.pure _)
  | @lambda span sig b =>
    rw [expr]
    exact .recorded span (.later (.first (.function (.last _ _)) fun _ => h.pure _))
  | @paren span e =>
    rw [expr]
    exact .recorded span (.last _ s)

theorem through_block {b : Block} (hc : Calls s (.block b) q s') :
    Through (block b) s ((piece q).after s') := by
  cases hc with
  | inBlock =>
    rw [block]
    exact .inBlock (.stmts _ _ _ _)

theorem through_body {b : Block} (hc : Calls s (.body b) q s') :
    Through (body b) s ((piece q).after s') := by
  cases hc with
  | inBody =>
    rw [body]
    exact .stmts _ _ _ _

/-- Checking a statement comes through the point where one of its parts is left. -/
theorem through_stmt {st : Stmt} (hc : Calls s (.stmt st) q s') :
    Through (stmt st) s ((piece q).after s') := by
  have h := enlarges_steps (τ := τ)
  have hexpr (e : Expr) : Enlarges (τ := τ) (expr e) (expr e) := h.walk.expr e (enlarges_handled _)
  have hblock (b : Block) : Enlarges (τ := τ) (block b) (block b) :=
    h.walk.block b (enlarges_handled _)
  have hpost (post : Option Expr) : Enlarges (τ := τ) (loopPost post) (loopPost post) :=
    h.walk.loopPost post (enlarges_handled _)
  have htest (test : Option Expr) : Enlarges (τ := τ) (loopTest test) (loopTest test) :=
    h.walk.loopTest test (enlarges_handled _)
  cases hc with
  | @bound span const name type e =>
    rw [stmt]
    refine .first (.last _ s) fun value => h.seq (h.bindingTy type value e.span) fun ty => ?_
    exact h.seq (h.give e value _) fun _ => h.bind name.name ty
  | @function span name sig b =>
    rw [stmt]
    exact .later (.later (.function (.last _ _)))
  | @returned span e =>
    rw [stmt]
    exact .first (.last _ s) fun ty => h.ret span (some e) ty
  | @conditional c =>
    rw [stmt]
    exact .last _ s
  | @init span t test post b =>
    rw [stmt, loopInit]
    refine .inFrame (.first (.last _ _) fun _ => h.seq (htest test) fun _ => ?_)
    exact h.seq (hblock b) fun _ => hpost post
  | @test span init e post b =>
    rw [stmt, loopTest]
    refine .inFrame (.later (.first (.first (.last _ _) fun _ => h.demand _ _ _) fun _ => ?_))
    exact h.seq (hblock b) fun _ => hpost post
  | @turn span init test post b =>
    rw [stmt]
    exact .inFrame (.later (.later (.first (.last _ _) fun _ => hpost post)))
  | @post span init test e b =>
    rw [stmt, loopPost]
    exact .inFrame (.later (.later (.later (.first (.last _ _) fun _ => h.pure _))))
  | @items span item e b =>
    rw [stmt]
    refine .inFrame (.first (.last _ _) fun ty => h.seq (h.bind item.name _) fun _ => hblock b)
  | @itemTurn span item e b =>
    rw [stmt]
    exact .inFrame (.later (.later (.last _ _)))
  | @whileTest span e b =>
    rw [stmt]
    exact .inFrame (.first (.last _ _) fun ty => h.seq (h.demand _ _ _) fun _ => hblock b)
  | @whileTurn span e b =>
    rw [stmt]
    exact .inFrame (.later (.later (.last _ _)))
  | @loopTurn span b =>
    rw [stmt]
    exact .inFrame (.last _ _)
  | @block b =>
    rw [stmt]
    exact .last _ s
  | @fieldDefault span name pre field type e place post ms =>
    rw [stmt]
    refine .later (.look (.first ?_ fun _ => enlarges_methods _ ms))
    exact .defaults _ pre field type e place post _
  | @method span name fields pre m post =>
    rw [stmt]
    exact .later (.look (.later (.methods _ pre m post _)))
  | @implMethod span interface target pre m post =>
    rw [stmt]
    exact .later (.later (.look (.methods _ pre m post _)))
  | @expression span e =>
    rw [stmt]
    exact .last _ s

theorem through_conditional {c : Conditional} (hc : Calls s (.cond c) q s') :
    Through (conditional c) s ((piece q).after s') := by
  have h := enlarges_steps (τ := τ)
  have hblock (b : Block) : Enlarges (τ := τ) (block b) (block b) :=
    h.walk.block b (enlarges_handled _)
  have hotherwise (o : Otherwise) : Enlarges (τ := τ) (otherwise o) (otherwise o) :=
    h.walk.otherwise o (enlarges_handled _)
  cases hc with
  | @choice span test b rest =>
    rw [conditional]
    refine .first (.last _ s) fun ty => h.seq (h.demand _ _ _) fun _ => ?_
    exact h.seq (hblock b) fun _ => hotherwise rest
  | @chosen span test b rest =>
    rw [conditional]
    exact .later (.later (.first (.last _ _) fun _ => hotherwise rest))
  | @otherwise span test b b' =>
    rw [conditional, otherwise]
    exact .later (.later (.later (.last _ _)))
  | @elseIf span test b c =>
    rw [conditional, otherwise]
    exact .later (.later (.later (.last _ _)))

/-- Behind a part of some code the table is no smaller than where the part was left. -/
theorem Calls.impls_suffix {q' : Piece} (hc : Calls s q q' s') :
    ((piece q').after s').impls <:+ ((piece q).after s).impls := by
  cases q with
  | expr e => exact through_expr hc
  | stmt st => exact through_stmt hc
  | cond c => exact through_conditional hc
  | block b => exact through_block hc
  | body b => exact through_body hc

theorem enlarges_piece (q : Piece) : Enlarges (τ := τ) (piece q) (piece q) := by
  have h := enlarges_steps (τ := τ)
  cases q with
  | expr e => exact h.seq (h.walk.expr e (enlarges_handled _)) fun _ => h.pure ()
  | stmt st =>
    exact h.walk.stmt st (enlarges_handled [st] st List.mem_cons_self) (enlarges_handled _)
  | cond c => exact h.walk.conditional c (enlarges_handled _)
  | block b => exact h.walk.block b (enlarges_handled _)
  | body b => exact h.walk.body b (enlarges_handled _)

end Tracking
end Check

/-! ### Programs -/

namespace Program
variable {τ : Type} [Tracking τ] {p : Program}
variable {s : State τ}

theorem Visits.impls_suffix {q : Piece} (hv : p.Visits q s) :
    ((Check.piece q).after s).impls <:+ (p.finalState τ).impls := by
  induction hv with
  | whole => exact finalState_eq (τ := τ) p ▸ List.suffix_rfl
  | part _ hc ih => exact hc.impls_suffix.trans ih

theorem Passes.impls_suffix (hp : p.Passes s) : s.impls <:+ (p.finalState τ).impls := by
  obtain ⟨q, s₀, hv, rfl | rfl⟩ := hp
  · exact (Check.enlarges_piece q s).trans hv.impls_suffix
  · exact hv.impls_suffix

theorem hoisted_suffix : (p.hoisted : State τ).impls <:+ (p.finalState τ).impls :=
  Passes.impls_suffix ⟨_, _, .whole, .inl rfl⟩

/-- While a program is read ahead, the table only grows as well. -/
theorem ReadsAhead.impls_suffix (hr : p.ReadsAhead s) :
    s.impls <:+ (p.hoisted : State τ).impls := by
  have h := Check.enlarges_steps (τ := τ)
  have hinterfaces := h.forM p.stmts Check.enlarges_declareInterface
  have hclasses := h.forM p.stmts Check.enlarges_declareClass
  have himpls := h.forM p.stmts Check.enlarges_declareImpl
  have hhoist := h.forM p.stmts h.hoist
  suffices hread : Check.Through (do Check.declareTypes p.stmts; p.stmts.forM Check.hoist) .start s
    from hread
  cases hr with
  | @reserved pre post hp =>
    refine .first (.first ?_ fun _ => h.seq hinterfaces fun _ => h.seq hclasses fun _ => himpls)
      fun _ => hhoist
    rw [hp]
    change _ <:+ ((pre ++ post).foldl State.reserve .start).impls
    rw [List.foldl_append]
    exact Check.enlarges_reserve post _
  | @interfaces pre post hp =>
    refine .first (.later (.first ?_ fun _ => h.seq hclasses fun _ => himpls)) fun _ => hhoist
    rw [hp]
    exact .forM Check.enlarges_declareInterface pre post _
  | @classes pre post hp =>
    refine .first (.later (.later (.first ?_ fun _ => himpls))) fun _ => hhoist
    rw [hp]
    exact .forM Check.enlarges_declareClass pre post _
  | @implementations pre post hp =>
    refine .first (.later (.later (.later ?_))) fun _ => hhoist
    rw [hp]
    exact .forM Check.enlarges_declareImpl pre post _
  | @functions pre post hp =>
    refine .later ?_
    rw [hp]
    exact .forM h.hoist pre post _

theorem Reaches.impls_suffix (hr : p.Reaches s) : s.impls <:+ (p.finalState τ).impls := by
  obtain hr | hp := hr
  · exact hr.impls_suffix.trans hoisted_suffix
  · exact hp.impls_suffix

/-- What may stand for what grows with the table of implementations and, since that decides about
classes, only with it; what needs no implementation may do so under any table. No code takes an
implementation back. So what is accepted at one point of a program is accepted at every point with as
many implementations, and nothing is reported there. -/
theorem accepted_stays_accepted :
    (∀ impls impls' : Implements, (∀ c i, impls c i → impls' c i) ↔
      ∀ a b : Ty, a.assignable impls b → a.assignable impls' b) ∧
    (∀ (impls : Implements) (a b : Ty), a.assignable Ty.noImpls b → a.assignable impls b) ∧
    (∀ (q : Piece) (s : State Custody) (a b : Ty), s.assignable a b →
      ((Check.piece q).after s).assignable a b) ∧
    ∀ (p : Program) (s s' : State Custody), p.Reaches s → p.Reaches s' →
      s.impls.length ≤ s'.impls.length → ∀ a b : Ty, s.assignable a b →
        s'.assignable a b ∧
          ∀ cause span, (Check.demandAssignable a b cause span).after s' = s' := by
  refine ⟨fun impls impls' => ⟨fun hle a b => Ty.assignable_mono hle, fun hle c i hci => ?_⟩,
    fun impls a b => Ty.assignable_mono fun _ _ h => absurd h Bool.false_ne_true,
    fun q s a b => State.assignable_of_suffix (Check.enlarges_piece q s), ?_⟩
  · exact Ty.implements_of_assignable (hle _ _ (Ty.Serves.cls hci).assignable)
  · intro p s s' hs hs' hlen a b hab
    have hsuffix := List.suffix_of_suffix_length_le hs.impls_suffix hs'.impls_suffix hlen
    have hab' := State.assignable_of_suffix hsuffix hab
    refine ⟨hab', fun cause span => ?_⟩
    rw [Check.demandAssignable, Check.after_get, hab']
    rfl

/-- Two classes implement an interface, the second one from the body of the function on. -/
def lateImpl : Program :=
  (Program.ofSource
    ⟨"", "interface I \x7b fn m(&self); \x7d class C \x7b\x7d impl I for C \x7b fn m(&self) \x7b\x7d \x7d " ++
      "class D \x7b\x7d fn f() \x7b impl I for D \x7b fn m(&self) \x7b\x7d \x7d \x7d"⟩).1

theorem accepted_stays_accepted_lateImpl :
    (lateImpl.hoisted : State Custody).impls = [("C", "I")] ∧
    (lateImpl.finalState Custody).impls = [("D", "I"), ("C", "I")] ∧
    (lateImpl.finalState Custody).assignable (.fn [.interface "I"] .int) (.fn [.cls "C"] .float) ∧
    ∀ cause span, (Check.demandAssignable (.fn [.interface "I"] .int) (.fn [.cls "C"] .float) cause
      span).after (lateImpl.finalState Custody) = lateImpl.finalState Custody := by
  have hfacts : (lateImpl.hoisted : State Custody).impls = [("C", "I")] ∧
      (lateImpl.finalState Custody).impls = [("D", "I"), ("C", "I")] := by
    decide +kernel
  have hstart : lateImpl.Reaches (lateImpl.hoisted : State Custody) := .inr ⟨_, _, .whole, .inl rfl⟩
  have hend : lateImpl.Reaches (lateImpl.finalState Custody) :=
    .inr ⟨_, _, .whole, .inr lateImpl.finalState_eq⟩
  -- The states are those of a whole program: they must not be looked into.
  generalize (lateImpl.hoisted : State Custody) = s at *
  generalize lateImpl.finalState Custody = s' at *
  obtain ⟨hs, hs'⟩ := hfacts
  have hlen : s.impls.length ≤ s'.impls.length := by
    rw [hs, hs']
    decide
  have himpl : s.implements "C" "I" := by
    unfold State.implements
    rw [hs]
    rfl
  have hab : s.assignable (.fn [.interface "I"] .int) (.fn [.cls "C"] .float) := by
    apply (Ty.Serves.fn _ Ty.Serves.widen.assignable).assignable
    rw [Ty.assignableAll, Ty.assignableAll, Bool.and_true]
    exact (Ty.Serves.cls himpl).assignable
  exact ⟨hs, hs', accepted_stays_accepted.2.2.2 lateImpl s s' hstart hend hlen _ _ hab⟩

end Program
end CarvFront
