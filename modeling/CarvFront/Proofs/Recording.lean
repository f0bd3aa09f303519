import CarvFront.Proofs.Tally
import CarvFront.Proofs.Spans

/-! Checking notes the types of expressions. Every expression of a program gets a type but those that
are passed over: the place that is assigned to, and the call that a value is piped into. -/
namespace CarvFront

/-! ### Expressions -/

def Node.expr? : Node → Option Expr
  | .expr e => some e
  | .stmt _ => none

/-- The expressions among some nodes. -/
def expressions (os : List Occurrence) : List Expr :=
  os.filterMap (·.node.expr?)

/-- The expressions among some nodes that are passed over. -/
def passedOver (os : List Occurrence) : List Expr :=
  (expressions os).flatMap Expr.passedOver

section Nodes
variable (a : List Enclosure) (os os' : List Occurrence)

@[simp] theorem expressions_nil : expressions [] = [] := rfl

@[simp] theorem expressions_expr (e : Expr) :
    expressions (⟨.expr e, a⟩ :: os) = e :: expressions os := rfl

@[simp] theorem expressions_stmt (s : Stmt) :
    expressions (⟨.stmt s, a⟩ :: os) = expressions os := rfl

@[simp] theorem expressions_append :
    expressions (os ++ os') = expressions os ++ expressions os' :=
  List.filterMap_append

theorem expressions_map_expr (es : List Expr) : expressions (es.map (⟨.expr ·, a⟩)) = es := by
  induction es with
  | nil => rfl
  | cons e es ih => rw [List.map_cons, expressions_expr, ih]

@[simp] theorem passedOver_append : passedOver (os ++ os') = passedOver os ++ passedOver os' := by
  rw [passedOver, expressions_append, List.flatMap_append]
  rfl

theorem passedOver_expr (e : Expr) :
    passedOver (⟨.expr e, a⟩ :: os) = e.passedOver ++ passedOver os :=
  List.flatMap_cons

/-- What is passed over with an expression passes nothing over itself. -/
theorem passedOver_node (e : Expr) :
    passedOver (⟨.expr e, a⟩ :: (e.passedOver.map (⟨.expr ·, a⟩) ++ os)) =
      e.passedOver ++ passedOver os := by
  have hnone : passedOver (e.passedOver.map (⟨.expr ·, a⟩)) = [] := by
    rw [passedOver, expressions_map_expr, List.flatMap_eq_nil_iff]
    exact fun t ht => (Expr.common_of_passedOver ht).2
  rw [passedOver_expr, passedOver_append, hnone, List.nil_append]

end Nodes

/-! ### Spans of expressions -/

namespace Outline

@[simp] theorem spansAll_append (k : Role) (os ps : List Outline) :
    spansAll k (os ++ ps) = spansAll k os ++ spansAll k ps := by
  induction os with
  | nil => rfl
  | cons o os ih => simp [spansAll, ih]

@[simp] theorem spans_ident (i : Ident) : i.outline.spans .expr = [] := rfl

mutual

@[simp] theorem spans_type : ∀ t : TypeExpr, t.outline.spans .expr = []
  | .basic _ _ | .named _ _ => rfl
  | .array _ t | .chan _ t | .future _ t | .optional _ t | .ref _ _ t => by
    simp [TypeExpr.outline, spans, spansAll, spans_type t]
  | .map _ k v => by simp [TypeExpr.outline, spans, spansAll, spans_type k, spans_type v]
  | .fn _ ps r => by simp [TypeExpr.outline, spans, spansAll, spans_types ps, spans_type r]

theorem spans_types : ∀ ts : List TypeExpr, spansAll .expr (typeOutlines ts) = []
  | [] => rfl
  | t :: ts => by simp [typeOutlines, spansAll, spans_type t, spans_types ts]

end

@[simp] theorem spans_typeIfAny (t : Option TypeExpr) :
    spansAll .expr (outlineIfAny TypeExpr.outline t) = [] := by
  cases t <;> simp [outlineIfAny, spansAll]

@[simp] theorem spans_signature (sig : Signature) : spansAll .expr sig.outlines = [] := by
  have hparams (ps : List Param) : spansAll .expr (ps.map Param.outline) = [] := by
    induction ps with
    | nil => rfl
    | cons p ps ih => simp [spansAll, Param.outline, spans, ih]
  simp [Signature.outlines, hparams]

@[simp] theorem spans_heads (heads : List MethodHead) :
    spansAll .expr (heads.map MethodHead.outline) = [] := by
  induction heads with
  | nil => rfl
  | cons m heads ih => simp [spansAll, MethodHead.outline, spans, ih]

@[simp] theorem spans_imports (imports : Import) : spansAll .expr imports.outlines = [] := by
  have hnames (names : List Ident) : spansAll .expr (names.map Ident.outline) = [] := by
    induction names with
    | nil => rfl
    | cons name names ih => simp [spansAll, ih]
  cases imports with
  | module newName => cases newName <;> rfl
  | named names => exact hnames names
  | wildcard => rfl

end Outline

section
open Outline

attribute [local simp] Expr.outline Expr.placed spans spansAll Expr.span Stmt.outline Stmt.placed
  Block.outline Block.placed Conditional.outline Conditional.placed Otherwise.outlines
  Otherwise.placed exprOutlines placedExprs entryOutlines placedEntries initOutlines placedInits
  partOutlines placedParts optionOutlines placedOption startOutlines placedStart stmtOutlines
  placedStmts fieldOutlines Field.outline placedFields methodOutlines Method.outline placedMethods

mutual

/-- The expressions of an outline are those of the tree, in the same order. -/
theorem Expr.spans_outline : ∀ (e : Expr) (a : List Enclosure),
    e.outline.spans .expr = (expressions (e.placed a)).map Expr.span
  | .int _ _, _ | .float _ _, _ | .string _ _, _ | .char _ _, _ | .bool _ _, _ | .nil _, _
  | .ident _ _, _ => rfl
  | .interp _ ps, a => by simp [spans_parts ps a]
  | .array _ es, a => by simp [spans_exprs es a]
  | .map _ es, a => by simp [spans_entries es a]
  | .call _ callee args, a => by simp [callee.spans_outline a, spans_exprs args a]
  | .member _ e _, a | .unary _ _ e, a | .borrow _ _ e, a | .deref _ e, a | .await _ e, a
  | .paren _ e, a => by simp [e.spans_outline a]
  | .index _ e f, a | .binary _ _ e f, a | .pipe _ e f, a | .assign _ _ e f, a => by
    simp [e.spans_outline a, f.spans_outline a]
  | .new _ _ fields, a => by simp [spans_inits fields a]
  | .lambda _ sig b, a => by simp [b.spans_outline (.function sig.async :: a)]

theorem spans_exprs : ∀ (es : List Expr) (a : List Enclosure),
    spansAll .expr (exprOutlines es) = (expressions (placedExprs a es)).map Expr.span
  | [], _ => rfl
  | e :: es, a => by simp [e.spans_outline a, spans_exprs es a]

theorem spans_entries : ∀ (es : List (Expr × Expr)) (a : List Enclosure),
    spansAll .expr (entryOutlines es) = (expressions (placedEntries a es)).map Expr.span
  | [], _ => rfl
  | (k, v) :: es, a => by simp [k.spans_outline a, v.spans_outline a, spans_entries es a]

theorem spans_inits : ∀ (fields : List (Ident × Expr)) (a : List Enclosure),
    spansAll .expr (initOutlines fields) = (expressions (placedInits a fields)).map Expr.span
  | [], _ => rfl
  | (_, e) :: fields, a => by simp [e.spans_outline a, spans_inits fields a]

theorem spans_parts : ∀ (ps : List Part) (a : List Enclosure),
    spansAll .expr (partOutlines ps) = (expressions (placedParts a ps)).map Expr.span
  | [], _ => rfl
  | .text _ :: ps, a => by simp [spans_parts ps a]
  | .hole e :: ps, a => by simp [e.spans_outline a, spans_parts ps a]

theorem Stmt.spans_outline : ∀ (s : Stmt) (a : List Enclosure),
    s.outline.spans .expr = (expressions (s.placed a)).map Expr.span
  | .bind _ _ _ _ e, a | .expr _ e, a => by simp [e.spans_outline a]
  | .fn _ _ sig b, a => by simp [b.spans_outline (.function sig.async :: a)]
  | .ret _ e, a => by simp [spans_option e a]
  | .brk _, _ | .cont _, _ => rfl
  | .cond c, a => by simp [c.spans_outline a]
  | .forLoop _ init test post b, a => by
    simp [spans_start init (.loop :: a), spans_option test (.loop :: a),
      spans_option post (.loop :: a), b.spans_outline (.loop :: a)]
  | .forIn _ _ e b, a | .whileLoop _ e b, a => by
    simp [e.spans_outline (.loop :: a), b.spans_outline (.loop :: a)]
  | .loop _ b, a => by simp [b.spans_outline (.loop :: a)]
  | .block b, a => by simp [b.spans_outline a]
  | .classDecl _ _ fields ms, a => by simp [spans_fields fields a, spans_methods ms a]
  | .interfaceDecl _ _ _, _ | .require _ _ _, _ => by
    simp
  | .implDecl _ _ _ ms, a => by simp [spans_methods ms a]

theorem spans_option : ∀ (e : Option Expr) (a : List Enclosure),
    spansAll .expr (optionOutlines e) = (expressions (placedOption a e)).map Expr.span
  | none, _ => rfl
  | some e, a => by simp [e.spans_outline a]

theorem spans_start : ∀ (s : Option Stmt) (a : List Enclosure),
    spansAll .expr (startOutlines s) = (expressions (placedStart a s)).map Expr.span
  | none, _ => rfl
  | some s, a => by simp [s.spans_outline a]

theorem spans_stmts : ∀ (ss : List Stmt) (a : List Enclosure),
    spansAll .expr (stmtOutlines ss) = (expressions (placedStmts a ss)).map Expr.span
  | [], _ => rfl
  | s :: ss, a => by simp [s.spans_outline a, spans_stmts ss a]

theorem Block.spans_outline : ∀ (b : Block) (a : List Enclosure),
    b.outline.spans .expr = (expressions (b.placed a)).map Expr.span
  | ⟨_, ss⟩, a => by simp [spans_stmts ss a]

theorem Conditional.spans_outline : ∀ (c : Conditional) (a : List Enclosure),
    c.outline.spans .expr = (expressions (c.placed a)).map Expr.span
  | ⟨_, test, b, rest⟩, a => by
    simp [test.spans_outline a, b.spans_outline a, rest.spans_outlines a]

theorem Otherwise.spans_outlines : ∀ (o : Otherwise) (a : List Enclosure),
    spansAll .expr o.outlines = (expressions (o.placed a)).map Expr.span
  | .none, _ => rfl
  | .block b, a => by simp [b.spans_outline a]
  | .elseIf c, a => by simp [c.spans_outline a]

theorem spans_fields : ∀ (fields : List Field) (a : List Enclosure),
    spansAll .expr (fieldOutlines fields) = (expressions (placedFields a fields)).map Expr.span
  | [], _ => rfl
  | ⟨_, _, e, _⟩ :: fields, a => by simp [spans_option e a, spans_fields fields a]

theorem spans_methods : ∀ (ms : List Method) (a : List Enclosure),
    spansAll .expr (methodOutlines ms) = (expressions (placedMethods a ms)).map Expr.span
  | [], _ => rfl
  | ⟨_, _, sig, b, _⟩ :: ms, a => by
    simp [b.spans_outline (.function sig.async :: a), spans_methods ms a]

end

end

/-! ### Types that are noted -/

namespace Check
variable {τ α β : Type} {os os' : List Occurrence}
variable {m : Check τ α}

/-- A step notes types for just these expressions, but for those that are passed over. -/
def Notes (m : Check τ α) (os : List Occurrence) : Prop :=
  ∀ s : State τ, ∃ noted : List (Expr × Ty),
    (m.after s).types = noted.map (fun n => (n.1.span, n.2)) ++ s.types ∧
      (noted.map Prod.fst ++ passedOver os).Perm (expressions os)

theorem Reports.notes {A : Cause → Bool} (h : Reports A m) : Notes m [] :=
  fun s => ⟨[], (h s).2.1, .refl _⟩

theorem Notes.perm (h : Notes m os) (hp : os.Perm os') : Notes m os' := by
  intro s
  obtain ⟨noted, htypes, hperm⟩ := h s
  have hexprs : (expressions os).Perm (expressions os') := hp.filterMap _
  have hpassed : (passedOver os).Perm (passedOver os') := hexprs.flatMap_right _
  exact ⟨noted, htypes, (hpassed.symm.append_left _).trans (hperm.trans hexprs)⟩

theorem Notes.seq {k : α → Check τ β} (hm : Notes m os) (hk : ∀ x, Notes (k x) os') :
    Notes (m >>= k) (os ++ os') := by
  intro s
  obtain ⟨noted, htypes, hperm⟩ := hm s
  obtain ⟨noted', htypes', hperm'⟩ := hk (m.run s).1 (m.after s)
  refine ⟨noted' ++ noted, ?_, ?_⟩
  · rw [List.map_append, List.append_assoc, ← htypes]
    exact htypes'
  · rw [List.map_append, passedOver_append, expressions_append, List.append_assoc,
      ← List.append_assoc (noted.map Prod.fst)]
    exact (List.perm_append_comm_assoc _ _ _).trans (hperm.append hperm')

/-- The type of an expression is noted when what is inside it has been looked at. -/
theorem Notes.recorded {m : Check τ Ty} (hm : Notes m os) (e : Expr) {a : List Enclosure} :
    Notes (recorded e.span m) (⟨.expr e, a⟩ :: (e.passedOver.map (⟨.expr ·, a⟩) ++ os)) := by
  intro s
  obtain ⟨noted, htypes, hperm⟩ := hm s
  refine ⟨(e, (m.run s).1) :: noted, congrArg (_ :: ·) htypes, ?_⟩
  rw [passedOver_node, expressions_expr, expressions_append, expressions_map_expr]
  exact .cons e ((List.perm_append_comm_assoc _ _ _).trans (hperm.append_left _))

section Tracking
variable [Tracking τ]

/-- Whatever is reported, no type is noted. -/
abbrev Unnoted (m : Check τ α) : Prop :=
  Reports (fun _ => true) m

omit [Tracking τ] in
theorem allows_all : Allows fun _ => true :=
  fun _ _ => rfl

theorem notes_tally : Tally fun _ _ _ (m : Check τ _) os => Notes m os where
  perm := Notes.perm
  seq := Notes.seq
  get hk s := hk s s
  quiet hm := hm.reports.notes
  inFrame _ _ _ hm s := hm (s.enterFrame _)
  inBlock hm s := hm s.enterBlock
  returning expected _ _ hm s := hm { s with returns := expected :: s.returns }
  exprNode e _ _ _ hm := hm.recorded e
  awaitNode span e m os hm := by
    have hawait (ty : Ty) : Unnoted (await ty e.span span : Check τ Ty) :=
      reports_await allows_all rfl ty e.span span
    have hboth := hm.seq fun ty => (hawait ty).notes
    rw [List.append_nil] at hboth
    exact hboth.recorded (.await span e)
  lambdaNode span sig b k os hk := by
    have hsig : Unnoted (signature sig : Check τ FnTy) := reports_signature (fun _ => rfl) sig
    exact (hsig.notes.seq hk).recorded (.lambda span sig b)
  stmtNode _ _ _ _ hm := hm
  binding _ _ _ type e value := by
    have hbinding : Unnoted (bindingTy type value e.span : Check τ Ty) :=
      reports_bindingTy allows_all (fun _ => rfl) type value e.span
    exact hbinding.notes
  brk span := by
    have hjump : Unnoted (jump .breakKw span : Check τ Unit) := reports_jump rfl span
    exact hjump.notes
  cont span := by
    have hjump : Unnoted (jump .continueKw span : Check τ Unit) := reports_jump rfl span
    exact hjump.notes

theorem notes_declares (top : Bool) :
    Declarations (fun _ _ _ (m : Check τ _) os => Notes m os) top := by
  refine notes_tally.declares (fun span sig => ?_) (fun s => ?_) (fun _ _ _ hm => hm) top
  · have hsig : Unnoted (declaredSignature span sig : Check τ FnTy) :=
      reports_declaredSignature (fun _ => rfl) span sig
    exact hsig.notes
  · have hhere : Unnoted (declareHere s : Check τ Unit) := reports_declareHere (fun _ => rfl) s
    exact hhere.notes

theorem notes_program (p : Program) : Notes (program p : Check τ Unit) p.occurrences := by
  have htypes : Unnoted (declareTypes p.stmts : Check τ Unit) :=
    reports_declareTypes (fun _ => rfl) p.stmts
  have hhoist : Unnoted (p.stmts.forM hoist : Check τ Unit) :=
    reports_forM p.stmts (reports_hoist fun _ => rfl)
  have hwalk : Reckoning fun _ _ _ (m : Check τ _) os => Notes m os :=
    ⟨notes_tally, notes_declares false⟩
  refine htypes.notes.seq fun _ => hhoist.notes.seq fun _ => ?_
  exact hwalk.stmts p.stmts true [] (notes_declares true)

end Tracking
end Check

theorem Report.type?_isSome_iff {r : Report} {span : Span} :
    (r.type? span).isSome ↔ span ∈ r.types.map Prod.fst := by
  simp [type?]

namespace Program

/-- All expressions of a program. -/
def expressions (p : Program) : List Expr :=
  CarvFront.expressions p.occurrences

/-- The expressions of a program that are looked into but not at. -/
def passedOver (p : Program) : List Expr :=
  CarvFront.passedOver p.occurrences

theorem spans_outline (p : Program) :
    p.outline.spans .expr = p.expressions.map Expr.span := by
  simp [outline, expressions, occurrences, Outline.spans, Outline.spansAll, spans_stmts p.stmts []]

/-- The report has a type for each expression that is not passed over, and no others. -/
theorem noted_check (p : Program) {o : Options} (ho : o.recordTypes = true) :
    ∃ noted : List Expr, (p.check o).types.map Prod.fst = noted.map Expr.span ∧
      (noted ++ p.passedOver).Perm p.expressions := by
  obtain ⟨noted, htypes, hperm⟩ := Check.notes_program (τ := Custody) p .start
  refine ⟨noted.map Prod.fst, ?_, hperm⟩
  have hreport : (p.check o).types = (p.finalState Custody).types := by
    rw [check, State.report, ho]
    rfl
  have hfinal : (p.finalState Custody).types = noted.map (fun n => (n.1.span, n.2)) ++ [] := htypes
  rw [hreport, hfinal, List.append_nil, List.map_map, List.map_map]
  rfl

/-- Whatever the text, an expression that is not passed over has a type. -/
theorem typed_of_not_passedOver (p : Program) {o : Options} (ho : o.recordTypes = true) {e : Expr}
    (he : e ∈ p.expressions) (hpassed : e ∉ p.passedOver) :
    ((p.check o).type? e.span).isSome := by
  obtain ⟨noted, hspans, hperm⟩ := p.noted_check ho
  rw [Report.type?_isSome_iff, hspans]
  have hnoted := (List.mem_append.mp (hperm.mem_iff.mpr he)).resolve_right hpassed
  exact List.mem_map_of_mem hnoted

theorem nodup_spans_expressions {source : Source} (h : (Token.scan source.text).2 = []) :
    ((ofSource source).1.expressions.map Expr.span).Nodup := by
  have hlaid : Token.Laid ⟨0, 0⟩ (Token.scan source.text).1 := by
    apply (Scanner.at_start source.text).laid_run _ _ h
    · exact Position.lt_iff.mpr (.inl Nat.one_pos)
    · intro t ht
      cases ht
  rw [← spans_outline]
  exact (nested_ofTokens hlaid).nodup_spans Role.noConfusion

/-- In a program read from a text whose tokens are right, an expression has a type exactly if it is
neither a place that is assigned to nor a call that a value is piped into. -/
theorem typed_iff_not_passedOver (source : Source) (h : (Token.scan source.text).2 = [])
    (o : Options) (ho : o.recordTypes = true) (e : Expr)
    (he : e ∈ (ofSource source).1.expressions) :
    (((ofSource source).1.check o).type? e.span).isSome ↔ e ∉ (ofSource source).1.passedOver := by
  constructor
  · intro hsome hpassed
    obtain ⟨noted, hspans, hperm⟩ := (ofSource source).1.noted_check ho
    rw [Report.type?_isSome_iff, hspans] at hsome
    have hnodup := (hperm.map Expr.span).nodup_iff.mpr (nodup_spans_expressions h)
    rw [List.map_append, List.nodup_append] at hnodup
    exact hnodup.2.2 _ hsome _ (List.mem_map_of_mem hpassed) rfl
  · exact typed_of_not_passedOver _ ho he

/-- A name that is assigned to. -/
def assignedSource : Source where
  name := "main.carv"
  text := "let x = 1;\nx = 2;\n"

theorem typed_iff_assignedSource :
    (Token.scan assignedSource.text).2 = [] ∧
    ∃ e ∈ (ofSource assignedSource).1.expressions, e.span = ⟨⟨2, 1⟩, ⟨2, 5⟩⟩ ∧
      ((((ofSource assignedSource).1.check { recordTypes := true }).type? e.span).isSome ↔
        e ∉ (ofSource assignedSource).1.passedOver) := by
  have hlex : (Token.scan assignedSource.text).2 = [] := by decide +kernel
  have hspan : ⟨⟨2, 1⟩, ⟨2, 5⟩⟩ ∈ (ofSource assignedSource).1.expressions.map Expr.span := by
    decide +kernel
  obtain ⟨e, he, hspan⟩ := List.mem_map.mp hspan
  exact ⟨hlex, e, he, hspan, typed_iff_not_passedOver assignedSource hlex _ rfl e he⟩

/-- The program is read without faults, and the name in its second line has no type. -/
theorem untyped_assignedSource :
    (ofSource assignedSource).2.totalErrors = 0 ∧
    (∃ e ∈ (ofSource assignedSource).1.expressions, e.span = ⟨⟨2, 1⟩, ⟨2, 1⟩⟩) ∧
    ((ofSource assignedSource).1.check { recordTypes := true }).type? ⟨⟨2, 1⟩, ⟨2, 1⟩⟩ = none := by
  have hspan : ⟨⟨2, 1⟩, ⟨2, 1⟩⟩ ∈ (ofSource assignedSource).1.expressions.map Expr.span := by
    decide +kernel
  exact ⟨by decide +kernel, List.mem_map.mp hspan, by decide +kernel⟩

end Program
end CarvFront
