import CarvFront.Proofs.ExpressionSpans

/-! The spans of a program nest: every node covers its children, and children stand one behind the
other. So the span of an expression or a function stands for it. -/
namespace CarvFront.Grammar
open CarvFront.Parser

/-- What a parser of statements gives has its outline, if a token is there that it starts with. -/
abbrev DrawsStmt (s : Span) (p : Parser Stmt) : Prop :=
  Draws s true (Drawn fun s => [s.outline]) p

variable {s : Span}

section
variable {r : Rules} (hr : r.Outlined)
include hr

/-! ### Declarations -/

theorem outlined_functionDecl : Outlined (fun s => [s.outline]) (functionDecl r) := by
  refine .of_draws fun s => .functionHead fun async => .outlined outlined_ident fun name => .sym ?_
  refine .outlined (outlined_signature hr async) fun sig => .outlined (outlined_block hr) fun body => ?_
  exact .upTo body.span_outline (.row rfl)

omit hr in
theorem spread_receiver : Spread (fun _ => []) receiver := by
  have hcomma : Spread (fun _ => []) (eat (.sym .comma)) := (trailing_eat rfl).spread
  refine .of_rest (.peek fun k => .look fun k₁ => .look fun k₂ => ?_)
  split
  · exact .spread spread_next fun _ => .spread hcomma fun _ => .rows rfl
  · refine .spread spread_next fun _ => .spread spread_next fun _ => ?_
    exact .spread hcomma fun _ => .rows rfl
  · refine .spread spread_next fun _ => .spread spread_next fun _ => .spread spread_next fun _ => ?_
    exact .spread hcomma fun _ => .rows rfl
  · exact .rows rfl

theorem outlined_method : Outlined (fun m => [m.outline]) (method r) := by
  refine .of_draws fun s => .functionHead fun async => .outlined outlined_ident fun name => .sym ?_
  refine .spread spread_receiver fun receiver => .outlined (outlined_signature hr async) fun sig => ?_
  exact .outlined (outlined_block hr) fun body => .upTo body.span_outline (.row rfl)

theorem outlined_methodHead : Outlined (fun m => [m.outline]) (methodHead r) := by
  refine .of_draws fun s => .here (.word (.outlined outlined_ident fun name => .sym ?_))
  refine .spread spread_receiver fun receiver => .outlined (outlined_signature hr false) fun sig => ?_
  exact .around fun stop => .skip trailing_semicolon fun _ => .row rfl

theorem outlined_field : Outlined (fun f => [f.outline]) (field r) := by
  refine .of_rest (.outlined outlined_ident fun name => .sym (.outlined hr.type fun type => ?_))
  -- behind the field there may be a comma or a semicolon
  have hlast (default : Option Expr) : ReadsRest .none true false
      ([name.outline] ++ [type.outline] ++ optionOutlines default) (Drawn fun f => [f.outline]) (do
        let stop ← Parser.before
        if ← Parser.eat (.sym .comma) then pure ()
        else
          let _ ← Parser.eat (.sym .semicolon)
        pure (⟨name, type, default, name.span.merge stop⟩ : Field)) := by
    refine .fromFirst rfl fun stop => .eat rfl fun found => ?_
    split
    · exact .row rfl
    · exact .eat rfl fun _ => .row rfl
  refine .eat rfl fun found => ?_
  split
  · exact .outlined hr.expr fun e => hlast (some e)
  · exact hlast none

omit hr in
def ClassItem.outline : ClassItem → Outline
  | .field f => f.outline
  | .method m => m.outline

theorem outlined_classItem : Outlined (fun i => [i.outline]) (classItem r) := by
  refine .of_rest (.peek fun k => ?_)
  split
  · exact .outlined (outlined_method hr) fun m => .row rfl
  · exact .outlined (outlined_method hr) fun m => .row rfl
  · exact .outlined (outlined_field hr) fun f => .row rfl
  · exact .fail _

section
omit hr

theorem sublist_fields (items : List ClassItem) :
    ((items.filterMap ClassItem.field?).map Field.outline).Sublist (items.map ClassItem.outline) := by
  induction items with
  | nil => exact List.Sublist.refl _
  | cons i items ih =>
    cases i with
    | field f => exact ih.cons_cons f.outline
    | method m => exact ih.cons m.outline

theorem sublist_methods (items : List ClassItem) :
    ((items.filterMap ClassItem.method?).map Method.outline).Sublist
      (items.map ClassItem.outline) := by
  induction items with
  | nil => exact List.Sublist.refl _
  | cons i items ih =>
    cases i with
    | field f => exact ih.cons f.outline
    | method m => exact ih.cons_cons m.outline

/-- A field and a method of a class do not overlap. -/
theorem apart_classItems {items : List ClassItem}
    (h : (items.map ClassItem.outline).Pairwise fun o p => o.span.Before p.span) :
    ∀ o ∈ (items.filterMap ClassItem.field?).map Field.outline,
      ∀ p ∈ (items.filterMap ClassItem.method?).map Method.outline,
        o.span.Before p.span ∨ p.span.Before o.span := by
  induction items with
  | nil =>
    intro o ho
    cases ho
  | cons i items ih =>
    obtain ⟨hfirst, hrest⟩ := List.pairwise_cons.mp h
    intro o ho p hp
    cases i with
    | field f =>
      rcases List.mem_cons.mp ho with rfl | ho
      · exact .inl (hfirst p ((sublist_methods items).mem hp))
      · exact ih hrest o ho p hp
    | method m =>
      rcases List.mem_cons.mp hp with rfl | hp
      · exact .inr (hfirst o ((sublist_fields items).mem ho))
      · exact ih hrest o ho p hp

end

theorem draws_classDecl : DrawsStmt s (classDecl r) := by
  have hitems := (spread_all (· = .sym .rbrace) (outlined_classItem hr).spread).congr
    fun _ => List.map_eq_flatMap
  refine .next (.outlined outlined_ident fun name => .sym (.spread hitems fun items => .sym ?_))
  intro lo a hi c h
  have hs : s.Opens lo a := h.placed
  obtain ⟨hstart, hordered, hopen⟩ := hs
  have hstop := h.ends.stop
  have hle := h.le
  have hleft := Span.merge_start_le_left s c.prev
  have hright := Span.right_le_merge_stop s c.prev
  obtain ⟨hname, hall⟩ := List.pairwise_cons.mp h.row.sorted
  refine .look rfl (.pure h.laid ⟨.single ?_ ?_ ?_, h.ends⟩)
  · exact Span.lt_merge_start hstart h.ends.start
  · exact Span.merge_stop_le (le_trans hopen hle) (le_of_eq hstop)
  · change (Outline.node .other _ (name.outline :: fieldOutlines _) (methodOutlines _)).Nested
    rw [fieldOutlines_eq, methodOutlines_eq]
    have hfields := h.row.of_sublist ((sublist_fields items).cons_cons name.outline)
    apply hfields.node_methods (h.row.of_sublist ((sublist_methods items).cons name.outline))
    · intro o ho p hp
      rcases List.mem_cons.mp ho with rfl | ho
      · exact .inl (hname p ((sublist_methods items).mem hp))
      · exact apart_classItems hall o ho p hp
    · order
    · order
    · order

theorem draws_interfaceDecl : DrawsStmt s (interfaceDecl r) := by
  have hmethods := (spread_all (· = .sym .rbrace) (outlined_methodHead hr).spread).congr
    fun _ => List.map_eq_flatMap
  refine .next (.outlined outlined_ident fun name => .sym (.spread hmethods fun methods => .sym ?_))
  exact .around fun stop => .row rfl

theorem draws_implDecl : DrawsStmt s (implDecl r) := by
  have hmethods := (spread_all (· = .sym .rbrace) (outlined_method hr).spread).congr
    fun ms => (methodOutlines_eq ms).trans List.map_eq_flatMap
  refine .next (.outlined outlined_ident fun interface => .word ?_)
  refine .outlined outlined_ident fun target => .sym (.spread hmethods fun methods => .sym ?_)
  exact .around fun stop => .row rfl

section
omit hr

theorem outlined_required : Outlined (fun what => what.2.outlines) required := by
  refine .of_rest (.peek fun k => ?_)
  split
  · exact .next fun _ => .word (.outlined outlined_stringLiteral fun path => .row rfl)
  · have hnames := (outlined_items .rbrace outlined_ident).congr fun _ => List.map_eq_flatMap
    refine .next fun _ => .outlined hnames fun names => .word ?_
    exact .outlined outlined_stringLiteral fun path => .row (List.append_nil _).symm
  · refine .outlined outlined_stringLiteral fun path => .eat rfl fun found => ?_
    split
    · exact .outlined outlined_ident fun newName => .row rfl
    · exact .row rfl

theorem draws_require : DrawsStmt s require := by
  refine .next (.outlined outlined_required fun what => ?_)
  exact .around fun stop => .skip trailing_semicolon fun _ => .row rfl

end

/-! ### Statements -/

theorem draws_binding : DrawsStmt s (binding r) := by
  refine .look fun const => .next (.outlined outlined_ident fun name => ?_)
  refine .trailing (trailing_typeBehind hr .colon) fun type => .sym (.outlined hr.expr fun value => ?_)
  exact .around fun stop => .skip trailing_semicolon fun _ => .row rfl

theorem trailing_expressionUnless (stops : List Kind) :
    Trailing optionOutlines (expressionUnless r stops) := by
  intro lo c h
  apply Yields.peek
  split
  · exact .pure h ⟨.nil _ _, .inl ⟨rfl, rfl⟩⟩
  · have hvalue : Outlined optionOutlines (r.expr >>= fun e => pure (some e)) :=
      .of_rest (.outlined hr.expr fun e => .row rfl)
    exact hvalue.trailing lo c h

theorem draws_returnStmt : DrawsStmt s (returnStmt r) := by
  refine .next (.trailing (trailing_expressionUnless hr _) fun value => ?_)
  exact .around fun stop => .skip trailing_semicolon fun _ => .row rfl

omit hr in
theorem draws_jump {make : Span → Stmt} (hmake : ∀ span, (make span).outline = .leaf .other span) :
    DrawsStmt s (jump make) :=
  .leaf (.skip trailing_semicolon fun _ => .row (congrArg (fun o => [o]) (hmake s)))

theorem outlined_conditionalWithin (n : Nat) :
    Outlined (fun c => [c.outline]) (conditionalWithin r n) := by
  induction n with
  | zero => exact .of_rest (.peek fun _ => .fail _)
  | succ n ih =>
    refine .of_draws fun s => .expect rfl (.outlined hr.expr fun test => ?_)
    refine .outlined (outlined_block hr) fun body => ?_
    have hlast (otherwise : Otherwise) : ReadsRest (.token s) true false
        ([test.outline] ++ [body.outline] ++ otherwise.outlines) (Drawn fun c => [c.outline])
        (pure otherwise >>= fun otherwise => before >>= fun stop =>
          (pure ⟨s.merge stop, test, body, otherwise⟩ : Parser Conditional)) := by
      rw [pure_bind]
      exact .around fun stop => .row rfl
    refine .eat rfl fun found => ?_
    split
    · refine .look fun again => ?_
      split
      · exact .outlined ih fun next => hlast (.elseIf next)
      · exact .outlined (outlined_block hr) fun b => hlast (.block b)
    · exact hlast .none

omit hr in
/-- An expression makes a statement of the same span. -/
theorem rest_expressionStmt {α : Type} {R : Position → α → Position → Span → Prop} {q : Parser α}
    {e : Expr} (hq : ReadsRest .none true false [(Stmt.expr e.span e).outline] R q) :
    ReadsRest .none true false [e.outline] R q := by
  intro lo a hi c h
  have hrow := h.row.mono (le_of_eq h.placed) le_rfl
  obtain ⟨hstart, hstop, -⟩ := hrow.lt_of_single
  have hordered := (hrow.nested _ List.mem_cons_self).ordered_span
  refine hq (h.join ?_)
  rw [Stmt.outline, ← Expr.span_outline]
  refine .single hstart hstop (hrow.node_cover ?_ hordered)
  rw [List.forall_mem_singleton]
  exact .refl _

theorem outlined_loopInit : Outlined startOutlines (loopInit r) := by
  refine .of_draws fun s => .peek fun k => ?_
  split
  · exact .of_rest (.next fun _ => .row rfl)
  · exact .seq (draws_binding hr) fun x => .row rfl
  · exact .seq (draws_binding hr) fun x => .row rfl
  · exact .of_rest (.outlined hr.expr fun e => .sym (rest_expressionStmt (.row rfl)))

theorem draws_forStmt : DrawsStmt s (forStmt r) := by
  refine .next (.eat rfl fun found => ?_)
  split
  · refine .outlined (outlined_loopInit hr) fun init => ?_
    refine .trailing (trailing_expressionUnless hr _) fun test => .sym ?_
    refine .trailing (trailing_expressionUnless hr _) fun post => .sym ?_
    exact .outlined (outlined_block hr) fun body => .upTo body.span_outline (.row rfl)
  · refine .outlined outlined_ident fun item => .word (.outlined hr.expr fun iterable => ?_)
    exact .outlined (outlined_block hr) fun body => .upTo body.span_outline (.row rfl)

theorem draws_whileStmt : DrawsStmt s (whileStmt r) := by
  refine .next (.outlined hr.expr fun test => .outlined (outlined_block hr) fun body => ?_)
  exact .upTo body.span_outline (.row rfl)

theorem draws_loopStmt : DrawsStmt s (loopStmt r) :=
  .next (.outlined (outlined_block hr) fun body => .upTo body.span_outline (.row rfl))

theorem outlined_expressionStmt : Outlined (fun s => [s.outline]) (expressionStmt r) := by
  refine .of_rest (.outlined hr.expr fun e => rest_expressionStmt ?_)
  exact .skip trailing_semicolon fun _ => .row rfl

theorem outlined_statement : Outlined (fun s => [s.outline]) (statement r) := by
  refine .of_draws fun s => .peek fun k => ?_
  split
  · exact draws_binding hr
  · exact draws_binding hr
  · refine .look fun k₁ => ?_
    split
    · exact .of_outlined (outlined_functionDecl hr)
    · exact .of_outlined (outlined_expressionStmt hr)
  · refine .look fun k₁ => .look fun k₂ => ?_
    split
    · exact .of_outlined (outlined_functionDecl hr)
    · exact .of_outlined (outlined_expressionStmt hr)
  · exact draws_returnStmt hr
  · exact draws_jump fun _ => rfl
  · exact draws_jump fun _ => rfl
  · refine .look fun n => .of_rest (.outlined (outlined_conditionalWithin hr n) fun cond => ?_)
    exact .row rfl
  · exact draws_forStmt hr
  · exact draws_whileStmt hr
  · exact draws_loopStmt hr
  · exact .of_rest (.outlined (outlined_block hr) fun b => .row rfl)
  · exact draws_classDecl hr
  · exact draws_interfaceDecl hr
  · exact draws_implDecl hr
  · exact draws_require
  · exact .of_outlined (outlined_expressionStmt hr)

theorem outlined_outside : (Rules.outside r).Outlined where
  type := (outlined_typeExpr hr.type).nested
  expr := (outlined_expression hr).nested
  operand := (outlined_unary hr).nested
  stmts := by
    have hstmts := spread_all (· = .sym .rbrace) (outlined_statement hr).spread
    exact (hstmts.congr stmtOutlines_eq).nested

end

theorem outlined_levels (n : Nat) : (Rules.levels n).Outlined := by
  induction n with
  | zero =>
    exact ⟨fun _ _ h => .fail h _, fun _ _ h => .fail h _, fun _ _ h => .fail h _, fun _ _ h => .fail h _⟩
  | succ n ih => exact outlined_outside ih

end CarvFront.Grammar

namespace CarvFront
variable {lo : Position} {ts : List Token}

/-- The statements of a program, and the cursor behind the last of them. -/
def Program.reading (ts : List Token) : List Stmt × Cursor :=
  Parser.allWithin (fun _ => false) (Grammar.statement Grammar.rules) ts.length (.start ts)

theorem Program.ofTokens_eq (ts : List Token) :
    (Program.ofTokens ts).1 =
      ⟨(reading ts).1, (Cursor.start ts).span.merge (reading ts).2.prev⟩ :=
  rfl

theorem Program.row_reading (h : Token.Laid lo ts) :
    ∃ hi, (Cursor.start ts).Goes lo hi (reading ts).2 ∧
      Outline.Row lo hi (stmtOutlines (reading ts).1) := by
  have hstatement := Grammar.outlined_statement (Grammar.outlined_levels (maxNesting + 1))
  obtain ⟨hi, hgoes, hrow⟩ := Parser.row_allWithin (c := .start ts) (fun _ => false)
    hstatement.spread ts.length h
  refine ⟨hi, hgoes, ?_⟩
  rw [stmtOutlines_eq]
  exact hrow

/-- No statement starts in front of the first token. -/
theorem Program.first_le_start (h : Token.Laid lo ts) {o : Outline}
    (ho : o ∈ stmtOutlines (reading ts).1) : (Cursor.start ts).span.start ≤ o.span.start := by
  cases h with
  | nil => cases ho
  | @token _ t ts hkind hstart hstop h =>
    -- otherwise the tokens would stand behind the start of the statement, and so would it
    by_contra hlt
    obtain ⟨hi, -, hrow⟩ := row_reading (.token hkind (lt_of_not_ge hlt) hstop h)
    exact lt_irrefl _ (hrow.within o ho).1
  | @hole t ts hkind hstop h =>
    obtain ⟨hi, -, hrow⟩ := row_reading (.hole hkind hstop h)
    have hstart := (hrow.within o ho).1
    change t.span.start ≤ o.span.start
    order

theorem Token.Laid.span_start (h : Token.Laid lo ts) :
    (Cursor.start ts).span.start ≤ (Cursor.start ts).span.stop := by
  cases h with
  | nil => exact le_rfl
  | token _ _ hstop => exact hstop
  | hole _ hstop => exact hstop

/-- A program that is read from tokens one behind the other has spans that nest. -/
theorem Program.nested_ofTokens (h : Token.Laid lo ts) :
    (Program.ofTokens ts).1.outline.Nested := by
  obtain ⟨hi, hgoes, hrow⟩ := row_reading h
  have hordered := h.span_start
  have hleft := Span.merge_start_le_left (Cursor.start ts).span (reading ts).2.prev
  have hleft' := Span.left_le_merge_stop (Cursor.start ts).span (reading ts).2.prev
  have hright := Span.right_le_merge_stop (Cursor.start ts).span (reading ts).2.prev
  rw [ofTokens_eq]
  apply hrow.node_cover
  · intro o ho
    obtain ⟨hstart, hstop⟩ := hrow.within o ho
    have hfirst := first_le_start h ho
    have ho := (hrow.nested o ho).ordered_span
    have hlast : (reading ts).2.prev.stop = hi := by
      rcases hgoes.edge with ⟨rfl, -⟩ | hstop
      · order
      · exact hstop
    exact ⟨by order, by order⟩
  · order

/-- Spans nest and stand for their nodes. In a program read from a text whose tokens are right, even
if their order is not, every node covers its children, the nodes of a list stand one behind the
other, whatever is inside an expression or a function is shorter than it, and no two expressions
and no two functions or methods have the same span. -/
theorem Program.spans_nest (source : Source) (h : (Token.scan source.text).2 = []) :
    (Program.ofSource source).1.outline.Nested ∧
    (∀ e : Outline, e.Inside (Program.ofSource source).1.outline → e.role ≠ .other →
      ∀ o : Outline, o.Inside e → e.span.Covers o.span ∧ e.span ≠ o.span) ∧
    ((Program.ofSource source).1.outline.spans .expr).Nodup ∧
    ((Program.ofSource source).1.outline.spans .decl).Nodup := by
  have hlaid : Token.Laid ⟨0, 0⟩ (Token.scan source.text).1 := by
    apply (Scanner.at_start source.text).laid_run _ _ h
    · exact Position.lt_iff.mpr (.inl Nat.one_pos)
    · intro t ht
      cases ht
  have hprogram : (Program.ofSource source).1 = (Program.ofTokens (Token.scan source.text).1).1 := rfl
  rw [hprogram]
  have hnested := nested_ofTokens hlaid
  refine ⟨hnested, ?_, ?_, ?_⟩
  · intro e he hrole o ho
    have he := (hnested.of_inside he).1
    exact ⟨(he.of_inside ho).2, he.ne_of_inside hrole ho⟩
  · exact hnested.nodup_spans Role.noConfusion
  · exact hnested.nodup_spans Role.noConfusion

/-- Fields and methods in turn, a function inside a function, a text with a hole and a statement that
is not complete. -/
def nestedSource : Source where
  name := ""
  text := "class A \x7b x: int = (1 + 2) * 3, fn m(self) \x7b\x7d y: chan<chan<int>> \x7d let = 1;\n" ++
    "fn f(a) \x7b fn g() \x7b \"x$\x7ba.b[0](a |> f)\x7dy\"; \x7d \x7d"

theorem Program.spans_nest_nestedSource :
    (Token.scan nestedSource.text).2 = [] ∧
    (Program.ofTokens (Token.scan nestedSource.text).1).2.length = 1 ∧
    ((Program.ofSource nestedSource).1.outline.spans .expr).length = 15 ∧
    ((Program.ofSource nestedSource).1.outline.spans .expr).Nodup ∧
    ((Program.ofSource nestedSource).1.outline.spans .decl).Nodup := by
  have hcounts : (Token.scan nestedSource.text).2 = [] ∧
      (Program.ofTokens (Token.scan nestedSource.text).1).2.length = 1 ∧
      ((Program.ofSource nestedSource).1.outline.spans .expr).length = 15 := by
    decide +kernel
  obtain ⟨hnone, hfaults, hexprs⟩ := hcounts
  exact ⟨hnone, hfaults, hexprs, (Program.spans_nest nestedSource hnone).2.2⟩

end CarvFront
