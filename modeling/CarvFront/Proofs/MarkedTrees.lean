import Mathlib.Tactic.Abel
import CarvFront.Proofs.Marks

/-! The marks of a tree are those of its parts, and every rule of the grammar reads a part after the
other. So a program has no more marks than its text has tokens for them. -/
namespace CarvFront

/-! ### The marks of a tree -/

section
variable (a : List Enclosure)

theorem marks_placedExprs (es : List Expr) :
    marks (placedExprs a es) = (es.map fun e => marks (e.placed a)).sum := by
  induction es with
  | nil => rfl
  | cons e es ih => simp [placedExprs, ih]

theorem marks_placedEntries (es : List (Expr × Expr)) : marks (placedEntries a es) =
      (es.map fun e => marks (e.1.placed a) + marks (e.2.placed a)).sum := by
  induction es with
  | nil => rfl
  | cons e es ih => simp [placedEntries, ih, add_assoc]

theorem marks_placedInits (fields : List (Ident × Expr)) :
    marks (placedInits a fields) = (fields.map fun f => marks (f.2.placed a)).sum := by
  induction fields with
  | nil => rfl
  | cons f fields ih => simp [placedInits, ih]

theorem marks_placedStmts (ss : List Stmt) :
    marks (placedStmts a ss) = (ss.map fun s => marks (s.placed a)).sum := by
  induction ss with
  | nil => rfl
  | cons s ss ih => simp [placedStmts, ih]

@[simp] theorem placedParts_textPart (text : String) (ps : List Part) :
    placedParts a (Grammar.textPart text ++ ps) = placedParts a ps := by
  unfold Grammar.textPart
  split <;> simp [placedParts]

end

/-- A field: its type and the value it has unless another is given. -/
def Field.marks (a : List Enclosure) (f : Field) : Multiset Position :=
  places f.type.names + CarvFront.marks (placedOption a f.default)

/-- A method: its head, its signature and its body. -/
def Method.marks (a : List Enclosure) (m : Method) : Multiset Position :=
  {m.span.start} + places m.sig.names +
    CarvFront.marks (m.body.placed (.function m.sig.async :: a))

theorem marks_placedFields (a : List Enclosure) (fields : List Field) :
    (fields.map fun f => places f.type.names).sum + marks (placedFields a fields) =
      (fields.map (Field.marks a)).sum := by
  induction fields with
  | nil => rfl
  | cons f fields ih =>
    obtain ⟨name, type, default, span⟩ := f
    simp only [List.map_cons, List.sum_cons, placedFields, marks_append, ← ih, Field.marks]
    exact add_add_add_comm _ _ _ _

theorem marks_placedMethods (a : List Enclosure) (ms : List Method) :
    (ms.map fun m => places m.sig.names).sum + ↑(ms.map (·.span.start)) +
      marks (placedMethods a ms) = (ms.map (Method.marks a)).sum := by
  induction ms with
  | nil => rfl
  | cons m ms ih =>
    obtain ⟨name, receiver, sig, body, span⟩ := m
    simp only [List.map_cons, List.sum_cons, placedMethods, marks_append, ← ih, Method.marks,
      ← Multiset.cons_coe, ← Multiset.singleton_add]
    abel

namespace Stmt
variable (a : List Enclosure) (span : Span) (name : Ident)

attribute [local simp] Stmt.placed Stmt.signed

theorem marks_fn (sig : Signature) (b : Block) :
    marks ((Stmt.fn span name sig b).placed a) =
      {span.start} + places sig.names + marks (b.placed (.function sig.async :: a)) := by
  simp [add_comm]

theorem marks_bind (const : Bool) (type : Option TypeExpr) (e : Expr) :
    marks ((Stmt.bind span const name type e).placed a) =
      places ((type.map TypeExpr.names).getD []) + marks (e.placed a) := by
  simp

theorem marks_classDecl (fields : List Field) (ms : List Method) :
    marks ((Stmt.classDecl span name fields ms).placed a) =
      (fields.map (Field.marks a)).sum + (ms.map (Method.marks a)).sum := by
  rw [← marks_placedFields, ← marks_placedMethods]
  simp only [Stmt.placed, marks_cons, Node.marks, Node.mentions, Node.signedSpans, Stmt.signed,
    marks_append, places_append, places_flatMap, List.map_map, Function.comp_def]
  abel

theorem marks_interfaceDecl (heads : List MethodHead) :
    marks ((Stmt.interfaceDecl span name heads).placed a) =
      (heads.map fun m => places m.sig.names).sum := by
  simp

theorem marks_implDecl (interface target : Ident) (ms : List Method) :
    marks ((Stmt.implDecl span interface target ms).placed a) =
      (ms.map (Method.marks a)).sum := by
  rw [← marks_placedMethods]
  simp [Function.comp_def]

end Stmt
end CarvFront

namespace CarvFront.Grammar
open CarvFront.Parser

variable {lo : Position}

/-! ### Types -/

section
variable {type : Parser TypeExpr} (ht : ∀ lo, Bears lo (fun _ t => places t.names) type)
include ht

attribute [local simp] TypeExpr.names

theorem bears_angled : Bears lo (fun _ t => places t.names) (angled type) := by
  have h := steady_steps
  refine .sym fun _ => .seq (ht lo) fun inner s hinner => .peek fun got => ?_
  have hdone : ∀ around : List Enclosure, places inner.names = s + 0 := by simpa using hinner
  split
  · exact .skip (h.become _ (by decide)) fun _ => .pure hdone
  · exact .skip (h.become _ (by decide)) fun _ => .pure hdone
  · exact .sym fun _ => .pure hdone

/-- A name by itself is a mark at the place where the type starts. -/
theorem owns_namedType (name : String) : Owns lo (namedType type name) fun s make =>
    (∀ span, places (make span).names = s) ∨
      ∀ span, places (make span).names = {span.start} + s := by
  unfold namedType
  split
  · exact .pure (.inl fun _ => rfl)
  refine .isAt fun generic => ?_
  split
  · refine .seq (bears_angled ht) fun inner s hinner => .pure (.inl fun span => ?_)
    simpa using hinner []
  split
  · refine .seq (bears_angled ht) fun inner s hinner => .pure (.inl fun span => ?_)
    simpa using hinner []
  · exact .pure (.inr fun _ => rfl)

theorem owns_functionType : Owns lo (functionType type) fun s make =>
    ∀ span, places (make span).names = s := by
  refine .sym fun _ => .seq (bears_items .rparen (ht lo)) fun params s hparams => ?_
  refine .before fun close => .eat fun arrow => ?_
  split
  · refine .seq (ht lo) fun ret s' hret => .pure fun span => ?_
    simp [TypeExpr.namesAll_eq_flatMap, hparams [], hret []]
  · refine .pure fun span => ?_
    simp [TypeExpr.namesAll_eq_flatMap, hparams []]

theorem opens_bareType : Opens (bareType type) fun place s make =>
    ∀ span : Span, span.start = place → places (make span).names = s := by
  refine .peek fun got => ?_
  split
  · exact .onlyAt _ (.next fun _ => .pure fun _ _ => rfl)
  · refine .onlyAt _ (.next fun first => .seq (ht _) fun elem s helem => ?_)
    exact .sym fun _ => .pure fun span _ => by simpa using helem []
  · refine .onlyAt _ (.next fun first => .seq (ht _) fun key s hkey => .sym fun _ => ?_)
    refine .seq (ht _) fun value s' hvalue => .sym fun _ => .pure fun span _ => ?_
    simp [hkey [], hvalue []]
  · refine .onlyAt _ (.next fun first => (owns_functionType ht).imp fun s make hmake span _ => ?_)
    exact hmake span
  · refine .onlyAt _ (.next fun first => .eat fun mutable => ?_)
    refine .seq (ht _) fun inner s hinner => .pure fun span _ => ?_
    simpa using hinner []
  · refine .mark rfl fun first => (owns_namedType ht _).imp fun s make hmake => ?_
    refine hmake.imp (fun hmake span _ => hmake span) fun hmake span hspan => ?_
    rw [hmake span, hspan]
  · exact .onlyAt _ (.fail _)

omit ht in
theorem owns_optionalWithin (start : Span) (m : Nat) (t : TypeExpr) :
    Owns lo (optionalWithin start m t) fun s t' => s = 0 ∧ t'.names = t.names := by
  induction m generalizing t with
  | zero => exact .pure ⟨rfl, rfl⟩
  | succ m ih =>
    refine .eat fun found => ?_
    split
    · refine .before fun stop => (ih _).imp fun s t' ht' => ?_
      exact ⟨ht'.1, ht'.2.trans (by rw [TypeExpr.names])⟩
    · exact .pure ⟨rfl, rfl⟩

theorem bears_typeExpr : Bears lo (fun _ t => places t.names) (typeExpr type) := by
  refine Owns.opens (opens_bareType ht) fun start make s _ hmake => Owns.stop fun stop hstop => ?_
  refine .remaining fun m => ?_
  refine (owns_optionalWithin start m _).imp fun s' t ht around => ?_
  change places t.names = _
  have hstart : (start.merge stop).start = start.start := if_pos hstop
  obtain ⟨rfl, hnames⟩ := ht
  rw [hnames, add_zero]
  exact hmake _ hstart

end

/-- An expression is read with the marks that are passed. -/
abbrev BearsExpr (lo : Position) (p : Parser Expr) : Prop :=
  Bears lo (fun a e => marks (e.placed a)) p

/-- A statement is read with the marks that are passed. -/
abbrev BearsStmt (lo : Position) (p : Parser Stmt) : Prop :=
  Bears lo (fun a s => marks (s.placed a)) p

/-- What the rules for one level deeper read has the marks that they pass. -/
structure Rules.Marked (r : Rules) : Prop where
  steady : r.All (Parser.Alone Steady)
  type (lo : Position) : Bears lo (fun _ t => places t.names) r.type
  expr (lo : Position) : BearsExpr lo r.expr
  operand (lo : Position) : BearsExpr lo r.operand
  stmts (lo : Position) : Bears lo (fun a ss => marks (placedStmts a ss)) r.stmts

section
variable {r : Rules} (hr : r.Marked)
include hr

attribute [local simp] Expr.placed

/-! ### Expressions -/

theorem owns_block : Owns lo (block r) fun s b =>
    lo ≤ b.span.start ∧ ∀ around, marks (b.placed around) = s := by
  refine Owns.start fun start hstart => .sym fun _ => .seq (hr.stmts lo) fun stmts s hs => ?_
  refine .sym fun _ => Owns.stop fun stop hstop => .pure ?_
  exact ⟨Span.le_merge_start hstart hstop, fun around => by simp [Block.placed, hs]⟩

/-- The type behind a sign, or nothing. -/
theorem bears_typeBehind (sign : Symbol) :
    Bears lo (fun _ t => places ((t.map TypeExpr.names).getD [])) (do
      if ← eat (.sym sign) then
        let t ← r.type
        pure (some t)
      else pure none) := by
  refine .eat fun found => ?_
  split
  · exact .seq (hr.type lo) fun t s ht => .pure fun around => by simp [ht around]
  · exact .pure fun _ => rfl

theorem bears_param :
    Bears lo (fun _ p => places ((p.type.map TypeExpr.names).getD [])) (param r) := by
  refine .ident fun name => .seq (bears_typeBehind hr .colon) fun type s ht => ?_
  exact .before fun stop => .pure fun around => by simp [ht around]

theorem bears_signature (async : Bool) :
    Bears lo (fun _ sig => places sig.names) (signature r async) := by
  refine .seq (bears_items .rparen (bears_param hr)) fun params s hps => ?_
  refine .seq (bears_typeBehind hr .arrow) fun ret s' hret => .pure fun around => ?_
  simp [Signature.names, hps around, hret around]

theorem bears_lambda : BearsExpr lo (lambda r) := by
  refine .here fun start => .eat fun async => ?_
  refine .word fun _ => .sym fun _ => ?_
  refine .seq (bears_signature hr async) fun sig s hsig => ?_
  refine .seq (owns_block hr) fun body s' hbody => .pure fun around => ?_
  simp [hsig around, hbody.2]

theorem bears_holesWithin (m : Nat) :
    Bears lo (fun a ps => marks (placedParts a ps)) (holesWithin r m) := by
  have h := steady_steps
  have hexpect (k : Kind) : Steady (expect k) := h.paired.expect_of_fail steady_fail k
  induction m with
  | zero => exact .peek fun _ => .fail _
  | succ m ih =>
    refine .skip (hexpect _) fun _ => .seq (hr.expr lo) fun e s he => .skip (hexpect _) fun _ => ?_
    refine .peek fun got => ?_
    split
    · refine .next fun _ => .seq ih fun parts s' hparts => .pure fun around => ?_
      simp [placedParts, he, hparts]
    · next text =>
      refine .next fun _ => .pure fun around => ?_
      have htext : placedParts around (textPart text) = [] := by
        simpa [placedParts] using placedParts_textPart around text []
      simp [placedParts, he, htext]
    · exact .fail _

theorem bears_entry :
    Bears lo (fun a e => marks (e.1.placed a) + marks (e.2.placed a)) (entry r) := by
  refine .seq (hr.expr lo) fun key s hkey => .sym fun _ => ?_
  exact .seq (hr.expr lo) fun value s' hvalue => .pure fun around => by simp [hkey, hvalue]

theorem bears_fieldInit : Bears lo (fun a f => marks (f.2.placed a)) (fieldInit r) := by
  refine .ident fun name => .sym fun _ => ?_
  exact .seq (hr.expr lo) fun value s hvalue => .pure fun around => by simp [hvalue]

omit hr in
theorem marks_of_literal? {k : Kind} {make : Span → Expr} (h : literal? k = some make)
    (span : Span) (a : List Enclosure) : marks ((make span).placed a) = 0 := by
  cases k with
  | int n | float d | string s | char c | ident name =>
    cases h
    rfl
  | word w =>
    cases w with
    | trueKw | falseKw | nilKw | selfKw =>
      cases h
      rfl
    | _ => cases h
  | _ => cases h

theorem owns_atom (got : Kind) : Owns lo (atom r got) fun s make =>
    ∀ span around, marks ((make span).placed around) = s := by
  unfold atom
  split
  · next make hmake => exact .next fun _ => .pure (marks_of_literal? hmake)
  · refine .next fun _ => .remaining fun m => ?_
    refine .seq (bears_holesWithin hr m) fun parts s hparts => .pure fun span around => ?_
    simp [hparts]
  · refine .next fun _ => .seq (bears_items .rbracket (hr.expr lo)) fun elems s helems => ?_
    refine .pure fun span around => ?_
    simp [marks_placedExprs, helems]
  · refine .next fun _ => .seq (bears_items .rbrace (bears_entry hr)) fun es s hes => ?_
    refine .pure fun span around => ?_
    simp [marks_placedEntries, hes]
  · refine .next fun _ => .ident fun cls => .sym fun _ => ?_
    refine .seq (bears_items .rbrace (bears_fieldInit hr)) fun fields s hfields => ?_
    refine .pure fun span around => ?_
    simp [marks_placedInits, hfields]
  · refine .next fun _ => .seq (hr.expr lo) fun inner s hinner => .sym fun _ => ?_
    refine .pure fun span around => ?_
    simp [hinner]
  · exact .fail _

theorem bears_primary : BearsExpr lo (primary r) := by
  refine .peek fun got => ?_
  split
  · exact bears_lambda hr
  · exact bears_lambda hr
  · refine .here fun start => .seq (owns_atom hr _) fun make s hmake => ?_
    exact .before fun stop => .pure fun around => by simp [hmake]

theorem owns_postfixWithin (m : Nat) (e : Expr) : Owns lo (postfixWithin r m e) fun s e' =>
    ∀ around, marks (e'.placed around) = marks (e.placed around) + s := by
  have h := steady_steps
  induction m generalizing e with
  | zero => exact .pure fun around => by simp
  | succ m ih =>
    refine .peek fun got => ?_
    split
    · refine Owns.nested (.next fun _ => ?_)
      refine .seq (bears_items .rparen (hr.expr lo)) fun args s hargs => ?_
      refine .before fun stop => ?_
      refine (ih _).imp fun s' e' he' around => ?_
      simp [he', marks_placedExprs, hargs, add_assoc]
    · refine Owns.nested (.next fun _ => .skip h.memberName fun name => ?_)
      refine (ih _).imp fun s' e' he' around => ?_
      simp [he']
    · refine Owns.nested (.next fun _ => .seq (hr.expr lo) fun index s hindex => ?_)
      refine .sym fun _ => .before fun stop => ?_
      refine (ih _).imp fun s' e' he' around => ?_
      simp [he', hindex, add_assoc]
    · exact .pure fun around => by simp

theorem bears_postfixed : BearsExpr lo (postfixed r) := by
  refine .seq (bears_primary hr) fun e s he => .remaining fun m => ?_
  exact (owns_postfixWithin hr m e).imp fun s' e' he' around => by simp [he', he]

omit hr in
theorem marks_of_prefixed? {k : Kind} {make : Span → Expr → Expr} (h : prefixed? k = some make)
    (span : Span) (e : Expr) (a : List Enclosure) :
    marks ((make span e).placed a) = marks (e.placed a) := by
  unfold prefixed? at h
  split at h <;> cases h <;> simp

theorem bears_unary : BearsExpr lo (unary r) := by
  refine .here fun start => .peek fun got => ?_
  split
  · refine .next fun _ => .eat fun mutable => ?_
    refine .seq (hr.operand lo) fun operand s he => .pure fun around => ?_
    simp [he]
  split
  · next make hmake =>
    refine .next fun _ => .seq (hr.operand lo) fun operand s he => .pure fun around => ?_
    simp [marks_of_prefixed? hmake, he]
  · exact bears_postfixed hr

omit hr in
theorem bears_binaryWithin (ops : List (Symbol × BinOp)) {operand : Parser Expr}
    (hoperand : BearsExpr lo operand) (m : Nat) (e : Expr) :
    Owns lo (binaryWithin ops operand m e) fun s e' =>
      ∀ around, marks (e'.placed around) = marks (e.placed around) + s := by
  induction m generalizing e with
  | zero => exact .pure fun around => by simp
  | succ m ih =>
    refine .peek fun got => ?_
    split
    · refine Owns.nested (.next fun _ => .seq hoperand fun right s hright => ?_)
      refine (ih _).imp fun s' e' he' around => ?_
      simp [he', hright, add_assoc]
    · exact .pure fun around => by simp

theorem bears_binary (ls : List (List (Symbol × BinOp))) : BearsExpr lo (binary r ls) := by
  induction ls with
  | nil => exact bears_unary hr
  | cons ops tighter ih =>
    refine .seq ih fun e s he => .remaining fun m => ?_
    exact (bears_binaryWithin ops ih m e).imp fun s' e' he' around => by simp [he', he]

theorem owns_pipeWithin (m : Nat) (e : Expr) : Owns lo (pipeWithin r m e) fun s e' =>
    ∀ around, marks (e'.placed around) = marks (e.placed around) + s := by
  induction m generalizing e with
  | zero => exact .pure fun around => by simp
  | succ m ih =>
    refine .eat fun found => ?_
    split
    · refine Owns.nested (.seq (bears_binary hr levels) fun right s hright => ?_)
      refine (ih _).imp fun s' e' he' around => ?_
      simp [he', hright, add_assoc]
    · exact .pure fun around => by simp

theorem bears_pipe : BearsExpr lo (pipe r) := by
  refine .seq (bears_binary hr levels) fun e s he => .remaining fun m => ?_
  exact (owns_pipeWithin hr m e).imp fun s' e' he' around => by simp [he', he]

theorem bears_expression : BearsExpr lo (expression r) := by
  refine .seq (bears_pipe hr) fun target s htarget => .peek fun got => ?_
  split
  · refine .next fun _ => .seq (hr.expr lo) fun value s' hvalue => .pure fun around => ?_
    simp [htarget, hvalue]
  · exact .pure fun around => by simp [htarget]

/-! ### Declarations -/

theorem bears_functionDecl : BearsStmt lo (functionDecl r) := by
  refine Owns.head fun start async hlo => .ident fun name => .sym fun _ => ?_
  refine .seq (bears_signature hr async) fun sig s hsig => ?_
  refine .seq (owns_block hr) fun body s' hbody => .pure fun around => ?_
  have hstart : (start.merge body.span).start = start.start := if_pos hbody.1
  simp [Stmt.marks_fn, hstart, hsig around, hbody.2]

theorem bears_method : Bears lo Method.marks (method r) := by
  refine Owns.head fun start async hlo => .ident fun name => .sym fun _ => ?_
  refine .skip (closed_receiver steady_closed) fun who => ?_
  refine .seq (bears_signature hr async) fun sig s hsig => ?_
  refine .seq (owns_block hr) fun body s' hbody => .pure fun around => ?_
  have hstart : (start.merge body.span).start = start.start := if_pos hbody.1
  simp [Method.marks, hstart, hsig around, hbody.2]

theorem bears_methodHead : Bears lo (fun _ m => places m.sig.names) (methodHead r) := by
  refine .here fun start => .word fun _ => .ident fun name => ?_
  refine .sym fun _ => .skip (closed_receiver steady_closed) fun who => ?_
  refine .seq (bears_signature hr false) fun sig s hsig => .before fun stop => ?_
  exact .semicolon fun _ => .pure fun around => by simp [hsig around]

theorem bears_field : Bears lo Field.marks (field r) := by
  refine .ident fun name => .sym fun _ => .seq (hr.type lo) fun type s htype => ?_
  have hlast (make : Span → Field) {Q : Multiset Position → Field → Prop}
      (hmake : ∀ stop, Q 0 (make stop)) : Owns lo (do
        let stop ← before
        if ← eat (.sym .comma) then pure ()
        else
          let _ ← eat (.sym .semicolon)
        pure (make stop)) Q := by
    refine .before fun stop => .eat fun comma => ?_
    split
    · exact .pure (hmake stop)
    · exact .eat fun _ => .pure (hmake stop)
  refine .eat fun eq => ?_
  split
  · refine .seq (hr.expr lo) fun e s' he => ?_
    rw [pure_bind]
    refine hlast _ fun stop around => ?_
    simp [Field.marks, placedOption, htype around, he]
  · rw [pure_bind]
    refine hlast _ fun stop around => ?_
    simp [Field.marks, placedOption, htype around]

/-- The marks of an item are those of its field or method. -/
def ClassItem.marks (a : List Enclosure) : ClassItem → Multiset Position
  | .field f => f.marks a
  | .method m => m.marks a

omit hr in
theorem ClassItem.marks_split (a : List Enclosure) (items : List ClassItem) :
    ((items.filterMap ClassItem.field?).map (Field.marks a)).sum +
      ((items.filterMap ClassItem.method?).map (Method.marks a)).sum =
      (items.map (ClassItem.marks a)).sum := by
  induction items with
  | nil => rfl
  | cons item items ih =>
    simp only [List.map_cons, List.sum_cons, ← ih]
    cases item with
    | field f => exact add_assoc _ _ _
    | method m => exact add_left_comm _ _ _

theorem bears_classItem : Bears lo ClassItem.marks (classItem r) := by
  refine .peek fun got => ?_
  split
  · exact .seq (bears_method hr) fun m s hm => .pure fun a => by simp [ClassItem.marks, hm]
  · exact .seq (bears_method hr) fun m s hm => .pure fun a => by simp [ClassItem.marks, hm]
  · exact .seq (bears_field hr) fun f s hf => .pure fun a => by simp [ClassItem.marks, hf]
  · exact .fail _

theorem bears_classDecl : BearsStmt lo (classDecl r) := by
  have hitem := closed_classItem steady_closed hr.steady
  refine .next fun start => .ident fun name => .sym fun _ => ?_
  refine .seq (bears_all _ (bears_classItem hr) hitem) fun items s hitems => ?_
  refine .sym fun _ => .before fun stop => .pure fun around => ?_
  simp [Stmt.marks_classDecl, ClassItem.marks_split, hitems]

theorem bears_interfaceDecl : BearsStmt lo (interfaceDecl r) := by
  have hitem := closed_methodHead steady_closed hr.steady
  refine .next fun start => .ident fun name => .sym fun _ => ?_
  refine .seq (bears_all _ (bears_methodHead hr) hitem) fun heads s hheads => ?_
  refine .sym fun _ => .before fun stop => .pure fun around => ?_
  simp [Stmt.marks_interfaceDecl, hheads around]

theorem bears_implDecl : BearsStmt lo (implDecl r) := by
  have hitem := closed_method steady_closed hr.steady
  refine .next fun start => .ident fun interface => .word fun _ => ?_
  refine .ident fun target => .sym fun _ => ?_
  refine .seq (bears_all _ (bears_method hr) hitem) fun methods s hmethods => ?_
  refine .sym fun _ => .before fun stop => .pure fun around => ?_
  simp [Stmt.marks_implDecl, hmethods]

omit hr in
theorem bears_require : BearsStmt lo require := by
  refine .next fun start => .skip (closed_required steady_closed) fun what => ?_
  exact .before fun stop => .semicolon fun _ => .pure fun _ => rfl

/-! ### Statements -/

theorem bears_binding : BearsStmt lo (binding r) := by
  refine .isAt fun const => .next fun start => .ident fun name => ?_
  refine .seq (bears_typeBehind hr .colon) fun type s htype => .sym fun _ => ?_
  refine .seq (hr.expr lo) fun value s' hvalue => .before fun stop => ?_
  refine .semicolon fun _ => .pure fun around => ?_
  simp [Stmt.marks_bind, htype around, hvalue]

theorem bears_expressionUnless (stops : List Kind) :
    Bears lo (fun a e => marks (placedOption a e)) (expressionUnless r stops) := by
  refine .peek fun got => ?_
  split
  · exact .pure fun _ => rfl
  · exact .seq (hr.expr lo) fun e s he => .pure fun around => by simp [placedOption, he]

theorem bears_returnStmt : BearsStmt lo (returnStmt r) := by
  refine .next fun start => .seq (bears_expressionUnless hr _) fun value s hvalue => ?_
  refine .before fun stop => .semicolon fun _ => .pure fun around => ?_
  simp [Stmt.placed, Stmt.signed, hvalue]

omit hr in
theorem bears_jump {make : Span → Stmt} (hmake : ∀ span a, marks ((make span).placed a) = 0) :
    BearsStmt lo (jump make) :=
  .next fun span => .semicolon fun _ => .pure (hmake span)

theorem bears_conditionalWithin (m : Nat) :
    Bears lo (fun a c => marks (c.placed a)) (conditionalWithin r m) := by
  have h := steady_steps
  induction m with
  | zero => exact .peek fun _ => .fail _
  | succ m ih =>
    refine .skip (h.paired.expect _ nofun) fun start => .seq (hr.expr lo) fun test s htest => ?_
    refine .seq (owns_block hr) fun body s' hbody => ?_
    have hlast (otherwise : Otherwise) {u : Multiset Position}
        (ho : ∀ around, marks (otherwise.placed around) = u) :
        Owns lo (before >>= fun stop =>
          (pure ⟨start.merge stop, test, body, otherwise⟩ : Parser Conditional))
        fun t c => t = 0 ∧ ∀ around, marks (c.placed around) = s + (s' + u) := by
      refine .before fun stop => .pure ⟨rfl, fun around => ?_⟩
      simp [Conditional.placed, htest, hbody.2, ho]
    refine .eat fun found => ?_
    split
    · refine .isAt fun again => ?_
      split
      · refine .seq ih fun c s'' hc => ?_
        rw [pure_bind]
        refine (hlast (.elseIf c) fun around => hc around).imp fun t c' hc' around => ?_
        simp [hc'.1, hc'.2]
      · refine .seq (owns_block hr) fun b s'' hb => ?_
        rw [pure_bind]
        refine (hlast (.block b) fun around => hb.2 around).imp fun t c' hc' around => ?_
        simp [hc'.1, hc'.2]
    · rw [pure_bind]
      refine (hlast (u := 0) .none fun around => rfl).imp fun t c' hc' around => ?_
      simp [hc'.1, hc'.2]

theorem bears_conditional : BearsStmt lo (conditional r) := by
  refine .remaining fun m => ?_
  refine .seq (bears_conditionalWithin hr m) fun c s hc => .pure fun around => ?_
  simp [Stmt.placed, Stmt.signed, hc]

theorem bears_loopInit : Bears lo (fun a s => marks (placedStart a s)) (loopInit r) := by
  refine .peek fun got => ?_
  split
  · exact .next fun _ => .pure fun _ => rfl
  · exact .seq (bears_binding hr) fun init s hinit => .pure fun a => by simp [placedStart, hinit]
  · exact .seq (bears_binding hr) fun init s hinit => .pure fun a => by simp [placedStart, hinit]
  · refine .seq (hr.expr lo) fun e s he => .sym fun _ => .pure fun around => ?_
    simp [placedStart, Stmt.placed, Stmt.signed, he]

theorem bears_forStmt : BearsStmt lo (forStmt r) := by
  refine .next fun start => .eat fun found => ?_
  split
  · refine .seq (bears_loopInit hr) fun init s hinit => ?_
    refine .seq (bears_expressionUnless hr _) fun test s₁ htest => .sym fun _ => ?_
    refine .seq (bears_expressionUnless hr _) fun post s₂ hpost => .sym fun _ => ?_
    refine .seq (owns_block hr) fun body s₃ hbody => .pure fun around => ?_
    simp [Stmt.placed, Stmt.signed, hinit, htest, hpost, hbody.2]
  · refine .ident fun item => .word fun _ => .seq (hr.expr lo) fun e s he => ?_
    refine .seq (owns_block hr) fun body s' hbody => .pure fun around => ?_
    simp [Stmt.placed, Stmt.signed, he, hbody.2]

theorem bears_whileStmt : BearsStmt lo (whileStmt r) := by
  refine .next fun start => .seq (hr.expr lo) fun test s htest => ?_
  refine .seq (owns_block hr) fun body s' hbody => .pure fun around => ?_
  simp [Stmt.placed, Stmt.signed, htest, hbody.2]

theorem bears_loopStmt : BearsStmt lo (loopStmt r) := by
  refine .next fun start => ?_
  refine .seq (owns_block hr) fun body s hbody => .pure fun around => ?_
  simp [Stmt.placed, Stmt.signed, hbody.2]

theorem bears_expressionStmt : BearsStmt lo (expressionStmt r) := by
  refine .seq (hr.expr lo) fun e s he => .semicolon fun _ => .pure fun a => ?_
  simp [Stmt.placed, Stmt.signed, he]

theorem bears_statement : BearsStmt lo (statement r) := by
  refine .peek fun got => ?_
  split
  · exact bears_binding hr
  · exact bears_binding hr
  · refine .lookAhead fun k => ?_
    split
    · exact bears_functionDecl hr
    · exact bears_expressionStmt hr
  · refine .lookAhead fun k => .lookAhead fun k' => ?_
    split
    · exact bears_functionDecl hr
    · exact bears_expressionStmt hr
  · exact bears_returnStmt hr
  · exact bears_jump fun _ _ => rfl
  · exact bears_jump fun _ _ => rfl
  · exact bears_conditional hr
  · exact bears_forStmt hr
  · exact bears_whileStmt hr
  · exact bears_loopStmt hr
  · refine .seq (owns_block hr) fun b s hb => .pure fun around => ?_
    simp [Stmt.placed, Stmt.signed, hb.2]
  · exact bears_classDecl hr
  · exact bears_interfaceDecl hr
  · exact bears_implDecl hr
  · exact bears_require
  · exact bears_expressionStmt hr

theorem bears_stmts (stop : Kind → Bool) :
    Bears lo (fun a ss => marks (placedStmts a ss)) (all stop (statement r)) := by
  have hstmt := closed_statement steady_closed hr.steady
  refine (bears_all stop (bears_statement hr) hstmt).imp fun s ss hss around => ?_
  exact (marks_placedStmts around ss).trans (hss around)

theorem marked_outside : (Rules.outside r).Marked := by
  have htype (lo : Position) :
      Bears lo (fun _ t => places t.names) (nested (typeExpr r.type)) :=
    Owns.nested (bears_typeExpr hr.type)
  have hexpr (lo : Position) :
      BearsExpr lo (nested (expression r)) :=
    Owns.nested (bears_expression hr)
  have hoperand (lo : Position) :
      BearsExpr lo (nested (unary r)) :=
    Owns.nested (bears_unary hr)
  have hstmts (lo : Position) :
      Bears lo (fun a ss => marks (placedStmts a ss)) (nested (allInBraces (statement r))) :=
    Owns.nested (bears_stmts hr _)
  exact ⟨closed_outside steady_closed hr.steady, htype, hexpr, hoperand, hstmts⟩

end

theorem marked_levels (n : Nat) : (Rules.levels n).Marked := by
  induction n with
  | zero =>
    exact ⟨closed_levels steady_closed 0, fun _ => .fail _, fun _ => .fail _, fun _ => .fail _,
      fun _ => .fail _⟩
  | succ n ih => exact marked_outside ih

theorem bears_program : Bears lo (fun a p => marks (placedStmts a p.stmts)) program := by
  refine .here fun start => ?_
  refine .seq (bears_stmts (marked_levels (maxNesting + 1)) _) fun stmts s hstmts => ?_
  exact .before fun stop => .pure fun around => by simp [hstmts]

end CarvFront.Grammar

namespace CarvFront

/-! ### Whole texts -/

theorem Kind.continuesText_of_isMark {k : Kind} (h : k.isMark = true) :
    k.continuesText = false := by
  cases k with
  | ident name => rfl
  | word w => rfl
  | _ => cases h

namespace Scanner
variable {text before : List Char} {s : Scanner}

/-- Tokens for names and functions have characters, also where there are faults, so that each starts
behind the one before. -/
theorem At.marks_run (h : s.At text before) :
    (∀ t ∈ s.run.1, t.kind.isMark = true → s.reader.pos ≤ t.span.start) ∧
      s.run.1.Pairwise fun t u =>
        t.kind.isMark = true → u.kind.isMark = true → t.span.start < u.span.start := by
  induction s using run_induction generalizing before with
  | finish s t last hstep =>
    obtain ⟨gap, hends⟩ := h.of_finish hstep
    have hmark : t.kind.isMark = false := by rw [hends.kind]; rfl
    rw [run_of_finish hstep]
    simp [hmark]
  | emit s t next hstep ih =>
    rw [run_of_emit hstep]
    rcases h.of_emit hstep with ⟨ts, hts, rfl⟩ | ⟨gap, cs, htakes⟩
    · obtain ⟨hkind, -⟩ := h.pending t (hts ▸ List.mem_cons_self)
      have hmark : t.kind.isMark = false := by rw [hkind]; rfl
      simpa [hmark] using ih (h.drop_pending hts)
    · obtain ⟨hleast, hsorted⟩ := ih htakes.moves
      have hstart := htakes.stands.start
      have hpos : s.reader.pos ≤ t.span.start := by
        rw [hstart, h.pos]
        exact Position.behind_le_append before gap
      have hnext : t.span.start ≤ next.reader.pos := by
        rw [hstart, htakes.moves.pos]
        exact Position.behind_le_append _ cs
      constructor
      · intro u hu hmark
        rcases List.mem_cons.mp hu with rfl | hu
        · exact hpos
        · exact hpos.trans (hnext.trans (hleast u hu hmark))
      · refine List.pairwise_cons.mpr ⟨fun u hu hmark hmark' => ?_, hsorted⟩
        have hne := htakes.ne_nil (Kind.continuesText_of_isMark hmark)
        have hlt : t.span.start < next.reader.pos := by
          rw [hstart, htakes.moves.pos]
          exact lt_of_le_of_lt (Position.behind_le_append _ _) (behind_dropLast_lt hne)
        exact lt_of_lt_of_le hlt (hleast u hu hmark')

end Scanner

namespace Program

theorem marks_ofTokens {ts : List Token}
    (h : ts.Pairwise fun t u => t.span.start ≤ u.span.start) :
    marks (ofTokens ts).1.occurrences ≤ (Cursor.start ts).marks := by
  have hsorted : (Cursor.start ts).Sorted ⟨0, 0⟩ := by
    refine ⟨List.pairwise_map.mpr h, fun s _ => ?_⟩
    rw [Position.le_iff]
    dsimp only
    omega
  rcases hres : Grammar.program (.start ts) with ⟨_ | p, c⟩
  · have hnone : (ofTokens ts).1 = ⟨[], c.span⟩ := by rw [ofTokens, hres]
    rw [hnone]
    exact Multiset.zero_le _
  · have hsome : (ofTokens ts).1 = p := by rw [ofTokens, hres]
    obtain ⟨-, s, hs, hmarks⟩ := Grammar.bears_program _ hsorted p c hres
    have hp : marks p.occurrences = s := hmarks []
    rw [hsome, hp]
    exact le_trans (Multiset.le_add_right s c.marks) hs

/-- In a program that is read from a text, right or not, every name in an annotation and every
function or method starts at a place of its own. -/
theorem nodup_marks (source : Source) : (marks (ofSource source).1.occurrences).Nodup := by
  have hat := Scanner.at_start source.text
  refine Multiset.nodup_of_le (marks_ofTokens hat.sorted_run.2) ?_
  have hmarks := List.pairwise_filter.mpr hat.marks_run.2
  exact Multiset.coe_nodup.mpr (hmarks.map _ fun t u hlt => ne_of_lt hlt)

end Program
end CarvFront
