import CarvFront.Proofs.Refinement

/-! The static gradual guarantee: a program without errors stays so when any of its annotations are
replaced by `any`, but for borrows that are held while waiting. -/
namespace CarvFront
namespace Check
variable {τ : Type}
variable {span : Span} {e e' : Expr}

theorem loosens_self? (receiver : Receiver) {owner owner' : Ty} (h : owner.Loosens owner') :
    Option.Rel Ty.Loosens (receiver.self? owner) (receiver.self? owner') := by
  cases receiver with
  | none => exact .none
  | value => exact .some h
  | ref | refMut => exact .some (.inr ⟨owner', rfl, h⟩)

theorem loosens_ownerTy {c c' : Option ClassDef} (h : Option.Rel ClassDef.Loosens c c')
    (name : String) : (ownerTy c name).Loosens (ownerTy c' name) := by
  unfold ownerTy
  rw [isSome_eq_of_rel h]
  exact refl _

theorem loosens_fieldTy {c c' : Option ClassDef} (h : Option.Rel ClassDef.Loosens c c')
    (name : String) : (fieldTy c name).Loosens (fieldTy c' name) := by
  unfold fieldTy
  rcases rel_cases (rel_bind h fun _ _ hc => hc.fields name) with ⟨hn, hn'⟩ | ⟨t, t', ht, ht', htt⟩
  · rw [hn, hn']
    exact refl _
  · rw [ht, ht']
    exact htt

variable [Tracking τ]

/-! ### Forms that depend on what is inside -/

theorem loosens_ref (mutable : Bool) {t t' : Ty} (h : t.Loosens t') :
    (Ty.ref mutable t).Loosens (.ref mutable t') :=
  .inr ⟨t', rfl, h⟩

theorem refines_borrowName (span : Span) (mutable : Bool) (place : Span) (name : String) :
    Refines Ty.Loosens (expr (.borrow span mutable (.ident place name)) : Check τ Ty)
      (expr (.borrow span mutable (.ident place name))) := by
  rw [expr]
  refine refines_recorded span ?_
  refine refines_bind (refines_recorded place (refines_lookup name place)) fun _ _ ht => ?_
  have hb := remarks_borrow (τ := τ) name mutable place
  exact refines_bind (refines_warning hb hb) fun _ _ _ => refines_pure (loosens_ref mutable ht)

theorem refines_borrowOther {mutable : Bool} (hn : e.ident? = none) (h : e.Loosens e')
    (he : Refines Ty.Loosens (expr e : Check τ Ty) (expr e')) :
    Refines Ty.Loosens (expr (.borrow span mutable e) : Check τ Ty)
      (expr (.borrow span mutable e')) := by
  rw [expr_borrow_other hn, expr_borrow_other (h.ident?.trans hn)]
  exact refines_recorded span (refines_bind he fun _ _ ht => refines_pure (loosens_ref mutable ht))

theorem refines_pipeOther {callee callee' : Expr} (hn : ∀ s f as, callee ≠ .call s f as)
    (h : e.Loosens e') (hc : callee.Loosens callee')
    (he : Refines Ty.Loosens (expr e : Check τ Ty) (expr e'))
    (hcallee : Refines Ty.Loosens (expr callee : Check τ Ty) (expr callee')) :
    Refines Ty.Loosens (expr (.pipe span e callee) : Check τ Ty)
      (expr (.pipe span e' callee')) := by
  rw [expr_pipe_other hn, expr_pipe_other (hc.ne_call hn)]
  refine refines_recorded span (refines_bind hcallee fun _ _ ht => ?_)
  refine refines_bind (refines_openCall hc ht 1 span) fun _ _ hcall => ?_
  refine refines_bind he fun _ _ hfirst => ?_
  exact refines_bind (refines_pass hcall 0 h hfirst) fun _ _ _ => refines_pure hcall.ret

theorem refines_assignOther {op : AssignOp} {target target' : Expr} (hn : target.isPlace = false)
    (h : target.Loosens target') (he : Refines Ty.Loosens (expr e : Check τ Ty) (expr e'))
    (ht : Refines Ty.Loosens (expr target : Check τ Ty) (expr target')) :
    Refines Ty.Loosens (expr (.assign span op target e) : Check τ Ty)
      (expr (.assign span op target' e')) := by
  rw [expr_assign_other hn, expr_assign_other (h.isPlace.trans hn), h.span]
  refine refines_recorded span (refines_bind he fun _ _ _ => refines_bind ht fun _ _ _ => ?_)
  exact refines_bind (refines_report id) fun _ _ _ => refines_pure (refl _)

/-! ### The walk

By recursion on the tree that says more. The other has its shape, so a case is a step of both. -/

mutual

theorem refines_expr : ∀ (e : Expr) {e' : Expr}, e.Loosens e' →
    Refines Ty.Loosens (expr e : Check τ Ty) (expr e')
  | .int span _, _, h | .float span _, _, h | .string span _, _, h | .char span _, _, h
  | .bool span _, _, h | .nil span, _, h => by
    cases h
    rw [expr]
    exact refines_recorded span (refines_pure (refl _))
  | .interp span ps, _, h => by
    cases h with | interp h =>
    rw [expr, expr]
    exact refines_recorded span (refines_bind (refines_parts ps h) fun _ _ _ =>
      refines_pure (refl _))
  | .array span es, _, h => by
    cases h with | array h =>
    rw [expr, expr]
    refine refines_recorded span (refines_bind (refines_exprs es h) fun tys tys' htys => ?_)
    refine refines_pure (.inr ⟨_, rfl, ?_⟩)
    cases htys with
    | nil => exact refl _
    | cons ht _ => exact ht
  | .map span es, _, h => by
    cases h with | map h =>
    rw [expr, expr]
    refine refines_recorded span (refines_bind (refines_entries es h) fun tys tys' htys => ?_)
    cases htys with
    | nil => exact refines_pure (refl _)
    | cons ht _ => exact refines_pure (.inr ⟨_, _, rfl, ht.key, ht.value⟩)
  | .ident span name, _, h => by
    cases h
    rw [expr]
    exact refines_recorded span (refines_use name span)
  | .call span callee args, _, h => by
    cases h with | call hc ha =>
    rw [expr, expr, ← ha.length_eq]
    refine refines_recorded span (refines_bind (refines_expr callee hc) fun _ _ ht => ?_)
    refine refines_bind (refines_openCall hc ht _ span) fun _ _ hcall => ?_
    exact refines_bind (refines_arguments hcall 0 args ha) fun _ _ _ => refines_pure hcall.ret
  | .member span object name, _, h => by
    cases h with | member h =>
    rw [expr, expr]
    refine refines_recorded span (refines_bind (refines_expr object h) fun _ _ ht => ?_)
    exact refines_readMember ht name
  | .index span object i, _, h => by
    cases h with | index ho hi =>
    rw [expr, expr, hi.span]
    refine refines_recorded span (refines_bind (refines_expr object ho) fun _ _ ht => ?_)
    exact refines_bind (refines_expr i hi) fun _ _ hit => refines_readElement ht hit i.span span
  | .binary span op l r, _, h => by
    cases h with | binary _ hl hr =>
    rw [expr, expr]
    refine refines_recorded span (refines_bind (refines_expr l hl) fun _ _ hlt => ?_)
    exact refines_bind (refines_expr r hr) fun _ _ hrt =>
      refines_accept (op.loosens_result hlt hrt span)
  | .unary span op e, _, h => by
    cases h with | unary _ h =>
    rw [expr, expr]
    exact refines_recorded span (refines_bind (refines_expr e h) fun _ _ ht =>
      refines_accept (op.loosens_result ht span))
  | .deref span e, _, h => by
    cases h with | deref h =>
    rw [expr, expr]
    exact refines_recorded span (refines_bind (refines_expr e h) fun _ _ ht =>
      refines_accept (ht.deref span))
  | .borrow span mutable e, _, h => by
    cases h with | borrow _ h =>
    cases e with
    | ident place name =>
      cases h
      exact refines_borrowName span mutable place name
    | _ => exact refines_borrowOther rfl h (refines_expr _ h)
  | .await span e, _, h => by
    cases h with | await h =>
    rw [expr, expr, h.span]
    exact refines_recorded span (refines_bind (refines_expr e h) fun _ _ ht =>
      refines_await ht e.span span)
  | .pipe span e right, _, h => by
    cases h with | pipe he hr =>
    cases right with
    | call inner callee args =>
      cases hr with | call hc ha =>
      rw [expr, expr, ← ha.length_eq]
      refine refines_recorded span (refines_bind (refines_expr callee hc) fun _ _ ht => ?_)
      refine refines_bind (refines_openCall hc ht _ span) fun _ _ hcall => ?_
      refine refines_bind (refines_expr e he) fun _ _ hfirst => ?_
      refine refines_bind (refines_pass hcall 0 he hfirst) fun _ _ _ => ?_
      exact refines_bind (refines_arguments hcall 1 args ha) fun _ _ _ => refines_pure hcall.ret
    | _ =>
      exact refines_pipeOther (fun _ _ _ => nofun) he hr (refines_expr e he) (refines_expr _ hr)
  | .assign span op target e, _, h => by
    cases h with | assign _ ht he =>
    cases target with
    | ident place name =>
      cases ht
      rw [expr, expr]
      refine refines_recorded span (refines_bind (refines_expr e he) fun _ _ hv => ?_)
      exact refines_bind (refines_assignName name place op hv span) fun _ _ _ =>
        refines_pure (refl _)
    | member place object name =>
      cases ht with | member ho =>
      rw [expr, expr]
      refine refines_recorded span (refines_bind (refines_expr e he) fun _ _ hv => ?_)
      refine refines_bind (refines_expr object ho) fun _ _ hot => ?_
      exact refines_bind (refines_assignField hot name place op hv span) fun _ _ _ =>
        refines_pure (refl _)
    | index place object i =>
      cases ht with | index ho hi =>
      rw [expr, expr, hi.span]
      refine refines_recorded span (refines_bind (refines_expr e he) fun _ _ hv => ?_)
      refine refines_bind (refines_expr object ho) fun _ _ hot => ?_
      refine refines_bind (refines_expr i hi) fun _ _ hit => ?_
      refine refines_bind (refines_readElement hot hit i.span place) fun _ _ htarget => ?_
      exact refines_bind (refines_assign htarget hv op span) fun _ _ _ => refines_pure (refl _)
    | _ => exact refines_assignOther rfl ht (refines_expr e he) (refines_expr _ ht)
  | .new span cls fields, _, h => by
    cases h with | new _ h =>
    rw [expr, expr]
    refine refines_recorded span (refines_bind refines_get fun s s' hs => ?_)
    rcases rel_cases (hs.classes cls.name) with ⟨hc, hc'⟩ | ⟨c, c', hc, hc', hcls⟩
    · simp only [hc, hc']
      refine refines_bind (refines_report id) fun _ _ _ => ?_
      exact refines_bind (refines_initialisers cls.name .none fields h) fun _ _ _ =>
        refines_pure (refl _)
    · simp only [hc, hc']
      exact refines_bind (refines_initialisers cls.name (.some hcls) fields h) fun _ _ _ =>
        refines_pure (refl _)
  | .lambda span sig b, _, h => by
    cases h with | lambda hsig hb =>
    rw [expr, expr]
    refine refines_recorded span (refines_bind (refines_signature hsig) fun _ _ hf => ?_)
    exact refines_bind (refines_function hsig hf .none (refines_body b hb)) fun _ _ _ =>
      refines_pure hf.toTy
  | .paren span e, _, h => by
    cases h with | paren h =>
    rw [expr, expr]
    exact refines_recorded span (refines_expr e h)
termination_by structural e => e

theorem refines_exprs : ∀ (es : List Expr) {es' : List Expr}, List.Forall₂ Expr.Loosens es es' →
    Refines (List.Forall₂ Ty.Loosens) (exprs es : Check τ (List Ty)) (exprs es')
  | [], _, h => by
    cases h
    rw [exprs]
    exact refines_pure .nil
  | e :: es, _, h => by
    cases h with | cons he hes =>
    rw [exprs, exprs]
    refine refines_bind (refines_expr e he) fun _ _ ht => ?_
    exact refines_bind (refines_exprs es hes) fun _ _ hts => refines_pure (.cons ht hts)
termination_by structural es => es

theorem refines_entries : ∀ (es : List (Expr × Expr)) {es' : List (Expr × Expr)},
    List.Forall₂ Entry.Loosens es es' →
    Refines (List.Forall₂ Ty.LoosensBoth) (entries es : Check τ (List (Ty × Ty))) (entries es')
  | [], _, h => by
    cases h
    rw [entries]
    exact refines_pure .nil
  | (k, v) :: es, _, h => by
    cases h with | cons he hes =>
    cases he with | mk hk hv =>
    rw [entries, entries]
    refine refines_bind (refines_expr k hk) fun _ _ hkt => ?_
    refine refines_bind (refines_expr v hv) fun _ _ hvt => ?_
    exact refines_bind (refines_entries es hes) fun _ _ hts => refines_pure (.cons ⟨hkt, hvt⟩ hts)
termination_by structural es => es

theorem refines_arguments {call call' : OpenCall} (hcall : call.Loosens call') (i : Nat) :
    ∀ (es : List Expr) {es' : List Expr}, List.Forall₂ Expr.Loosens es es' →
      Refines Eq (arguments call i es : Check τ Unit) (arguments call' i es')
  | [], _, h => by
    cases h
    rw [arguments, arguments]
    exact refines_pure rfl
  | e :: es, _, h => by
    cases h with | cons he hes =>
    rw [arguments, arguments]
    refine refines_bind (refines_expr e he) fun _ _ ht => ?_
    refine refines_bind (refines_pass hcall i he ht) fun _ _ _ => ?_
    exact refines_arguments hcall (i + 1) es hes
termination_by structural es => es

theorem refines_initialisers (name : String) {c c' : Option ClassDef}
    (hc : Option.Rel ClassDef.Loosens c c') :
    ∀ (fields : List (Ident × Expr)) {fields' : List (Ident × Expr)},
      List.Forall₂ Initialiser.Loosens fields fields' →
      Refines Eq (initialisers name c fields : Check τ Unit) (initialisers name c' fields')
  | [], _, h => by
    cases h
    rw [initialisers, initialisers]
    exact refines_pure rfl
  | (field, e) :: rest, _, h => by
    cases h with | cons he hrest =>
    cases he with | mk _ he =>
    rw [initialisers, initialisers, he.span]
    refine refines_bind (refines_expr e he) fun _ _ hv => ?_
    cases hc with
    | none => exact refines_initialisers name .none rest hrest
    | some hcls =>
      refine refines_bind (refines_initialise name hcls field hv e.span) fun _ _ _ => ?_
      exact refines_initialisers name (.some hcls) rest hrest
termination_by structural fields => fields

theorem refines_parts : ∀ (ps : List Part) {ps' : List Part}, List.Forall₂ Part.Loosens ps ps' →
    Refines Eq (parts ps : Check τ Unit) (parts ps')
  | [], _, h => by
    cases h
    rw [parts]
    exact refines_pure rfl
  | .text _ :: ps, _, h => by
    cases h with | cons hp hps =>
    cases hp
    rw [parts, parts]
    exact refines_parts ps hps
  | .hole e :: ps, _, h => by
    cases h with | cons hp hps =>
    cases hp with | hole he =>
    rw [parts, parts]
    exact refines_bind (refines_expr e he) fun _ _ _ => refines_parts ps hps
termination_by structural ps => ps

theorem refines_stmt : ∀ (s : Stmt) {s' : Stmt}, s.Loosens s' →
    Refines Eq (stmt s : Check τ Unit) (stmt s')
  | .bind span _ name type e, _, h => by
    cases h with | bind _ _ _ ht he =>
    rw [stmt, stmt, he.span]
    refine refines_bind (refines_expr e he) fun _ _ hv => ?_
    refine refines_bind (refines_bindingTy ht hv e.span) fun _ _ hty => ?_
    refine refines_bind (refines_warning (remarks_give _ _ _) (remarks_give _ _ _)) fun _ _ _ => ?_
    exact refines_name name.name hty
  | .fn span name sig b, _, h => by
    cases h with | fn _ _ hsig hb =>
    rw [stmt, stmt]
    refine refines_bind (refines_declaredSignature span hsig) fun _ _ hf => ?_
    refine refines_bind (refines_name name.name hf.toTy) fun _ _ _ => ?_
    exact refines_function hsig hf .none (refines_body b hb)
  | .ret span (some e), _, h => by
    cases h with | ret _ h =>
    cases h with | some he =>
    rw [stmt, stmt]
    exact refines_bind (refines_expr e he) fun _ _ ht => refines_ret span (.some he) ht
  | .ret span none, _, h => by
    cases h with | ret _ h =>
    cases h
    rw [stmt]
    exact refines_ret span .none (refl _)
  | .brk span, _, h | .cont span, _, h => by
    cases h
    rw [stmt]
    exact refines_jump _ span
  | .cond c, _, h => by
    cases h with | cond h =>
    rw [stmt, stmt]
    exact refines_conditional c h
  | .forLoop _ init test post b, _, h => by
    cases h with | forLoop _ hi ht hp hb =>
    rw [stmt, stmt]
    refine refines_inFrame .loop (refines_bind (refines_loopInit init hi) fun _ _ _ => ?_)
    refine refines_bind (refines_loopTest test ht) fun _ _ _ => ?_
    exact refines_bind (refines_block b hb) fun _ _ _ => refines_loopPost post hp
  | .forIn _ item e b, _, h => by
    cases h with | forIn _ _ he hb =>
    rw [stmt, stmt]
    refine refines_inFrame .loop (refines_bind (refines_expr e he) fun t t' ht => ?_)
    refine refines_bind (refines_name item.name ?_) fun _ _ _ => refines_block b hb
    exact ht.item
  | .whileLoop _ e b, _, h => by
    cases h with | whileLoop _ he hb =>
    rw [stmt, stmt, he.span]
    refine refines_inFrame .loop (refines_bind (refines_expr e he) fun _ _ ht => ?_)
    exact refines_bind (refines_condition .whileStmt ht e.span) fun _ _ _ => refines_block b hb
  | .loop _ b, _, h => by
    cases h with | loop _ hb =>
    rw [stmt, stmt]
    exact refines_inFrame .loop (refines_block b hb)
  | .block b, _, h => by
    cases h with | block hb =>
    rw [stmt, stmt]
    exact refines_block b hb
  | .classDecl span name fields ms, _, h => by
    have hdecl := refines_declareHere (τ := τ) h
    cases h with | classDecl _ _ hf hm =>
    rw [stmt, stmt]
    refine refines_bind hdecl fun _ _ _ => refines_bind refines_get fun s s' hs => ?_
    have hc := hs.classes name.name
    refine refines_bind (refines_defaults hc fields hf) fun _ _ _ => ?_
    exact refines_methods (loosens_ownerTy hc name.name) ms hm
  | .interfaceDecl span name heads, _, h => by
    have hdecl := refines_declareHere (τ := τ) h
    cases h with | interfaceDecl _ _ _ =>
    rw [stmt, stmt]
    exact hdecl
  | .implDecl span interface target ms, _, h => by
    have hdecl := refines_declareHere (τ := τ) h
    cases h with | implDecl _ _ _ hm =>
    rw [stmt, stmt]
    refine refines_bind hdecl fun _ _ _ => ?_
    refine refines_bind (refines_implementation interface target ms _ span) fun _ _ _ => ?_
    refine refines_bind refines_get fun s s' hs => ?_
    exact refines_methods (loosens_ownerTy (hs.classes target.name) target.name) ms hm
  | .require _ path imports, _, h => by
    cases h
    rw [stmt]
    exact refines_require path imports
  | .expr _ e, _, h => by
    cases h with | expr _ he =>
    rw [stmt, stmt]
    exact refines_bind (refines_expr e he) fun _ _ _ => refines_pure rfl
termination_by structural s => s

theorem refines_loopInit : ∀ (init : Option Stmt) {init' : Option Stmt},
    Option.Rel Stmt.Loosens init init' →
    Refines Eq (loopInit init : Check τ Unit) (loopInit init')
  | some s, _, h => by
    cases h with | some hs =>
    rw [loopInit, loopInit]
    exact refines_stmt s hs
  | none, _, h => by
    cases h
    rw [loopInit]
    exact refines_pure rfl
termination_by structural init => init

theorem refines_loopTest : ∀ (test : Option Expr) {test' : Option Expr},
    Option.Rel Expr.Loosens test test' →
    Refines Eq (loopTest test : Check τ Unit) (loopTest test')
  | some e, _, h => by
    cases h with | some he =>
    rw [loopTest, loopTest, he.span]
    exact refines_bind (refines_expr e he) fun _ _ ht => refines_condition .forStmt ht e.span
  | none, _, h => by
    cases h
    rw [loopTest]
    exact refines_pure rfl
termination_by structural test => test

theorem refines_loopPost : ∀ (post : Option Expr) {post' : Option Expr},
    Option.Rel Expr.Loosens post post' →
    Refines Eq (loopPost post : Check τ Unit) (loopPost post')
  | some e, _, h => by
    cases h with | some he =>
    rw [loopPost, loopPost]
    exact refines_bind (refines_expr e he) fun _ _ _ => refines_pure rfl
  | none, _, h => by
    cases h
    rw [loopPost]
    exact refines_pure rfl
termination_by structural post => post

theorem refines_stmts : ∀ (ss : List Stmt) {ss' : List Stmt}, List.Forall₂ Stmt.Loosens ss ss' →
    Refines Eq (stmts ss : Check τ Unit) (stmts ss')
  | [], _, h => by
    cases h
    rw [stmts]
    exact refines_pure rfl
  | s :: ss, _, h => by
    cases h with | cons hs hss =>
    rw [stmts, stmts]
    exact refines_bind (refines_stmt s hs) fun _ _ _ => refines_stmts ss hss
termination_by structural ss => ss

theorem refines_block : ∀ (b : Block) {b' : Block}, b.Loosens b' →
    Refines Eq (block b : Check τ Unit) (block b')
  | ⟨_, ss⟩, _, h => by
    cases h with | mk _ h =>
    rw [block, block]
    exact refines_inBlock (refines_stmts ss h)
termination_by structural b => b

theorem refines_body : ∀ (b : Block) {b' : Block}, b.Loosens b' →
    Refines Eq (body b : Check τ Unit) (body b')
  | ⟨_, ss⟩, _, h => by
    cases h with | mk _ h =>
    rw [body, body]
    exact refines_stmts ss h
termination_by structural b => b

theorem refines_conditional : ∀ (c : Conditional) {c' : Conditional}, c.Loosens c' →
    Refines Eq (conditional c : Check τ Unit) (conditional c')
  | ⟨_, test, b, rest⟩, _, h => by
    cases h with | mk _ ht hb hr =>
    rw [conditional, conditional, ht.span]
    refine refines_bind (refines_expr test ht) fun _ _ hty => ?_
    refine refines_bind (refines_condition .ifStmt hty test.span) fun _ _ _ => ?_
    exact refines_bind (refines_block b hb) fun _ _ _ => refines_otherwise rest hr
termination_by structural c => c

theorem refines_otherwise : ∀ (o : Otherwise) {o' : Otherwise}, o.Loosens o' →
    Refines Eq (otherwise o : Check τ Unit) (otherwise o')
  | .none, _, h => by
    cases h
    rw [otherwise]
    exact refines_pure rfl
  | .block b, _, h => by
    cases h with | block hb =>
    rw [otherwise, otherwise]
    exact refines_block b hb
  | .elseIf c, _, h => by
    cases h with | elseIf hc =>
    rw [otherwise, otherwise]
    exact refines_conditional c hc
termination_by structural o => o

theorem refines_defaults {c c' : Option ClassDef} (hc : Option.Rel ClassDef.Loosens c c') :
    ∀ (fields : List Field) {fields' : List Field}, List.Forall₂ Field.Loosens fields fields' →
      Refines Eq (defaults c fields : Check τ Unit) (defaults c' fields')
  | [], _, h => by
    cases h
    rw [defaults, defaults]
    exact refines_pure rfl
  | ⟨name, _, some e, _⟩ :: fields, _, h => by
    cases h with | cons hf hfields =>
    cases hf with | mk _ _ _ he =>
    cases he with | some he =>
    rw [defaults, defaults, he.span]
    refine refines_bind (refines_expr e he) fun _ _ hv => ?_
    refine refines_bind (refines_demandAssignable rfl hv (loosens_fieldTy hc name.name))
      fun _ _ _ => ?_
    exact refines_defaults hc fields hfields
  | ⟨_, _, none, _⟩ :: fields, _, h => by
    cases h with | cons hf hfields =>
    cases hf with | mk _ _ _ he =>
    cases he
    rw [defaults, defaults]
    exact refines_defaults hc fields hfields
termination_by structural fields => fields

theorem refines_methods {owner owner' : Ty} (ho : owner.Loosens owner') :
    ∀ (ms : List Method) {ms' : List Method}, List.Forall₂ Method.Loosens ms ms' →
      Refines Eq (methods owner ms : Check τ Unit) (methods owner' ms')
  | [], _, h => by
    cases h
    rw [methods, methods]
    exact refines_pure rfl
  | ⟨_, receiver, sig, b, span⟩ :: ms, _, h => by
    cases h with | cons hm hms =>
    cases hm with | mk _ _ _ hsig hb =>
    rw [methods, methods]
    refine refines_bind (refines_declaredSignature span hsig) fun _ _ hf => ?_
    refine refines_bind
      (refines_function hsig hf (loosens_self? receiver ho) (refines_body b hb)) fun _ _ _ => ?_
    exact refines_methods ho ms hms
termination_by structural ms => ms

end

theorem refines_program {p p' : Program} (h : p.Loosens p') :
    Refines Eq (program p : Check τ Unit) (program p') := by
  refine refines_bind (refines_declareTypes h.stmts) fun _ _ _ => ?_
  refine refines_bind (refines_forM h.stmts fun _ _ => refines_hoist) fun _ _ _ => ?_
  exact refines_stmts p.stmts h.stmts

end Check

namespace Program

theorem noErrors_of_check {p : Program} {o : Options} (h : (p.check o).errors = []) :
    NoErrors (p.finalState Custody).findings := by
  intro f hf
  have hnone := List.filter_eq_nil_iff.mp (List.map_eq_nil_iff.mp h) f (List.mem_reverse.mpr hf)
  cases hs : f.cause.severity with
  | warning => rfl
  | error => simp [hs] at hnone

/-- The static gradual guarantee. If a program has no errors, then the only errors it can have once
any of its annotations, or parts of them, are replaced by `any` are borrows held while waiting. -/
theorem code_of_loosens {p p' : Program} (h : p.Loosens p') (o : Options)
    (hnone : (p.check o).errors = []) :
    ∀ i ∈ (p'.check o).errors, i.code = .borrowAcrossAwait := by
  intro i hi
  obtain ⟨f, hf, rfl⟩ := List.mem_map.mp hi
  obtain ⟨hf, hs⟩ := List.mem_filter.mp hf
  have hend := (Check.refines_program (τ := Custody) h).keeps (s := .start) (refl _) nofun
    (noErrors_of_check hnone)
  exact hend.2.2 f (List.mem_reverse.mp hf) (by simpa using hs)

/-- A function that gives its argument away, borrows it and waits. What is left of the argument to
borrow depends on its type. -/
def waiting (type : BasicType) : Program :=
  let line (n : Nat) : Span := ⟨⟨n, 1⟩, ⟨n, 1⟩⟩
  let named (name : String) : Ident := ⟨name, line 0⟩
  let pause : Stmt := .fn (line 1) (named "pause") ⟨true, [], none⟩ ⟨line 1, []⟩
  let arg : Param := ⟨named "arg", some (.basic (line 2) type), line 2⟩
  let moved : Stmt := .bind (line 3) false (named "taken") none (.ident (line 3) "arg")
  let held : Stmt :=
    .bind (line 4) false (named "held") none (.borrow (line 4) false (.ident (line 4) "arg"))
  let wait : Stmt := .expr (line 5) (.await (line 5) (.call (line 5) (.ident (line 5) "pause") []))
  ⟨[pause, .fn (line 2) (named "work") ⟨true, [arg], none⟩ ⟨line 2, [moved, held, wait]⟩], line 0⟩

theorem loosens_waiting (type : BasicType) : (waiting type).Loosens (waiting .any) where
  span := rfl
  stmts := by
    refine .cons (.fn _ _ ⟨rfl, .nil, .none⟩ (.mk _ .nil)) (.cons (.fn _ _ ?_ (.mk _ ?_)) .nil)
    · exact ⟨rfl, .cons ⟨rfl, .some (.any _ _), rfl⟩ .nil, .none⟩
    · exact .cons (.bind _ _ _ .none (.ident _ _))
        (.cons (.bind _ _ _ .none (.borrow _ (.ident _ _)))
          (.cons (.expr _ (.await (.call (.ident _ _) .nil))) .nil))

/-- A text that was given away cannot be borrowed, so nothing is held while waiting. What may be
anything is not given away, and the exception is needed. -/
theorem code_of_loosens_waiting :
    ((waiting .string).check {}).errors = [] ∧ ((waiting .any).check {}).errors ≠ [] ∧
      ∀ i ∈ ((waiting .any).check {}).errors, i.code = .borrowAcrossAwait := by
  have hnone : ((waiting .string).check {}).errors = [] := by decide +kernel
  exact ⟨hnone, by decide +kernel, code_of_loosens (loosens_waiting .string) {} hnone⟩

end Program
end CarvFront
