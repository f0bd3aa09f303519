import CarvFront.Proofs.Yielding

/-! Types and expressions are read into nodes that nest. -/
namespace CarvFront.Grammar
open CarvFront.Parser

variable {lo : Position} {c : Cursor} {s : Span} {solid : Bool}

/-! ### Types -/

section
variable {type : Parser TypeExpr} (ht : Outlined (fun t => [t.outline]) type)
include ht

theorem outlined_angled : Outlined (fun t => [t.outline]) (angled type) := by
  refine .of_rest (.sym (.outlined ht fun inner => .peek fun k => ?_))
  split
  · exact .become (.row rfl)
  · exact .become (.row rfl)
  · exact .sym (.row rfl)

theorem rest_namedType (name : String) :
    ReadsRest (.token s) true solid [] (Made TypeExpr.outline s) (namedType type name) := by
  unfold namedType
  split
  · exact .made fun _ => rfl
  refine .look fun generic => ?_
  split
  · exact .outlined (outlined_angled ht) fun inner => .made fun _ => rfl
  split
  · exact .outlined (outlined_angled ht) fun inner => .made fun _ => rfl
  · exact .made fun _ => rfl

theorem rest_functionType :
    ReadsRest (.token s) true solid [] (Made TypeExpr.outline s) (functionType type) := by
  have hmake (params : List TypeExpr) (ret : TypeExpr) (span : Span) :
      (TypeExpr.fn span params ret).outline =
        .node .other span ((params.flatMap fun t => [t.outline]) ++ [ret.outline]) [] := by
    rw [TypeExpr.outline, typeOutlines_eq]
  refine .sym fun lo a mid c h => ?_
  apply (yields_items .rparen ht h.laid).seq
  rintro params close c₁ hgoes ⟨last, hle, hrow, hends⟩
  have hrows := h.row.append hrow h.le le_rfl hle
  refine .look rfl (.eat hgoes.laid rfl (fun c₂ harrow => ?_) ?_)
  · have hlast := hends.lt
    have hclose := h.go hgoes.le (hrows.mono le_rfl (le_of_lt hlast)) hgoes.laid (hends.mono hle)
    exact (ReadsRest.outlined ht fun ret => .made (hmake params ret)) (hclose.pass harrow)
  · -- without a type behind it the parenthesis stands for the type
    have hret : Outline.Row last close [(TypeExpr.basic c₁.prev .void).outline] :=
      .single hends.start (le_of_eq hends.stop) (Outline.nested_leaf hends.ordered)
    have hall := hrows.append hret (le_trans h.le hle) le_rfl (le_of_lt hends.lt)
    exact (ReadsRest.made (hmake params _)) (h.go hgoes.le hall hgoes.laid (hends.mono hle))

theorem draws_bareType : Draws s solid (Made TypeExpr.outline s) (bareType type) := by
  refine .peek fun k => ?_
  split
  · exact .next (.made fun _ => rfl)
  · exact .next (.outlined ht fun elem => .sym (.made fun _ => rfl))
  · refine .next (.outlined ht fun key => .sym ?_)
    exact .outlined ht fun value => .sym (.made fun _ => rfl)
  · exact .next (rest_functionType ht)
  · exact .next (.eat rfl fun mutable => .outlined ht fun inner => .made fun _ => rfl)
  · exact .next (rest_namedType ht _)
  · exact .fail _

omit ht in
/-- Question marks make a type longer. -/
theorem yields_optionalWithin {t : TypeExpr} {mid : Position} (n : Nat)
    (h : Token.Laid mid c.rest) (hrow : Outline.Row lo mid [t.outline]) (hends : c.prev.Ends lo mid)
    (hs : s.Opens lo mid) (hstart : s.start ≤ t.outline.span.start) :
    Yields mid c (optionalWithin s n t) (Drawn (fun t => [t.outline]) lo) := by
  induction n generalizing t mid c with
  | zero => exact .pure h ⟨hrow, hends⟩
  | succ n ih =>
    apply Yields.eat h rfl
    · intro c' hquestion
      rw [if_pos rfl]
      refine .look rfl ?_
      rw [hquestion.prev]
      obtain ⟨hfirst, hlast, -⟩ := hrow.lt_of_single
      obtain ⟨hlo, hordered, hstop⟩ := hs
      have hmid := hquestion.start
      have hmid' := hquestion.ordered
      have hleft := Span.merge_start_le_left s c.span
      have hright := Span.right_le_merge_stop s c.span
      have hspan : (TypeExpr.optional (s.merge c.span) t).outline.span = s.merge c.span := rfl
      apply ih hquestion.laid
      · apply Outline.Row.single
        · rw [hspan]
          exact Span.lt_merge_start hlo (by order)
        · rw [hspan]
          exact Span.merge_stop_le (by order) le_rfl
        · apply hrow.node_cover
          · rw [List.forall_mem_singleton]
            exact ⟨by order, by order⟩
          · order
      · exact hquestion.ends.mono (by order)
      · exact ⟨hlo, hordered, by order⟩
      · rw [hspan]
        exact Span.le_merge_start le_rfl (by order)
    · exact .pure h ⟨hrow, hends⟩

theorem outlined_typeExpr : Outlined (fun t => [t.outline]) (typeExpr type) := by
  refine .of_draws fun s => .here fun lo c h hsolid hs => ?_
  apply (draws_bareType ht h hsolid hs).seq
  rintro make hi c₁ hgoes ⟨⟨hrow, hends⟩, hopens, hstart⟩
  exact .look rfl (.look rfl (yields_optionalWithin _ hgoes.laid hrow hends hopens hstart))

end

/-! ### Expressions -/

/-- The rules for one level deeper keep to the order of the tokens. -/
structure Rules.Outlined (r : Rules) : Prop where
  type : Parser.Outlined (fun t => [t.outline]) r.type
  expr : Parser.Outlined (fun e => [e.outline]) r.expr
  operand : Parser.Outlined (fun e => [e.outline]) r.operand
  stmts : Spread stmtOutlines r.stmts

section
variable {r : Rules} (hr : r.Outlined)
variable {k : Kind}
include hr

theorem outlined_block : Outlined (fun b => [b.outline]) (block r) := by
  refine .of_draws fun s => .here (.sym (.spread hr.stmts fun stmts => ?_))
  exact .sym (.around fun stop => .row rfl)

theorem trailing_typeBehind (k : Symbol) : Trailing (outlineIfAny TypeExpr.outline) (do
    if ← eat (.sym k) then pure (some (← r.type)) else pure none) := by
  intro lo c h
  apply Yields.eat h rfl
  · intro c' hsign
    rw [if_pos rfl]
    apply (hr.type _ c' hsign.laid).seq
    intro t hi c₂ hgoes ⟨hrow, hends⟩
    have hle := le_of_lt hsign.lt
    exact .pure hgoes.laid ⟨hrow.mono hle le_rfl, .inr (hends.mono hle)⟩
  · exact .pure h ⟨.nil _ _, .inl ⟨rfl, rfl⟩⟩

theorem outlined_param : Outlined (fun p => [p.outline]) (param r) := by
  refine .of_rest (.outlined outlined_ident fun name => ?_)
  exact .trailing (trailing_typeBehind hr .colon) fun type => .fromFirst rfl fun stop => .row rfl

theorem outlined_signature (async : Bool) :
    Outlined Signature.outlines (signature r async) := by
  refine .of_rest (.outlined (outlined_items _ (outlined_param hr)) fun params => ?_)
  refine .trailing (trailing_typeBehind hr .arrow) fun ret => .row ?_
  rw [List.nil_append, ← List.map_eq_flatMap]
  rfl

theorem outlined_lambda : Outlined (fun e => [e.outline]) (lambda r) := by
  refine .of_draws fun s => .functionHead fun async => .sym ?_
  refine .outlined (outlined_signature hr async) fun sig => .outlined (outlined_block hr) fun body => ?_
  exact .upTo body.span_outline (.row rfl)

theorem outlined_entry : Outlined (fun e => [e.1.outline, e.2.outline]) (entry r) :=
  .of_rest (.outlined hr.expr fun _ => .sym (.outlined hr.expr fun _ => .row rfl))

theorem outlined_fieldInit : Outlined (fun f => [f.1.outline, f.2.outline]) (fieldInit r) :=
  .of_rest (.outlined outlined_ident fun _ => .sym (.outlined hr.expr fun _ => .row rfl))

theorem outlined_holesWithin (n : Nat) : Outlined partOutlines (holesWithin r n) := by
  induction n with
  | zero => exact .of_rest (.peek fun _ => .fail _)
  | succ n ih =>
    refine .of_rest (.holeStart fun _ => .outlined hr.expr fun e => .expect rfl fun _ => ?_)
    refine .peek fun k => ?_
    split
    · refine .next fun _ => .outlined ih fun parts => .row ?_
      rw [List.cons_append, partOutlines, partOutlines_append, partOutlines_textPart, List.nil_append]
      rfl
    · refine .next fun _ => .row ?_
      rw [partOutlines, partOutlines_textPart]
      rfl
    · exact .fail _

omit hr in
theorem leaf_of_literal? {make : Span → Expr} (h : literal? k = some make) :
    k.isSolid = true ∧ ∀ span, (make span).outline = .leaf .expr span := by
  cases k with
  | int n | float d | string s | char c | ident name =>
    cases h
    exact ⟨rfl, fun _ => rfl⟩
  | word w =>
    cases w with
    | trueKw | falseKw | nilKw | selfKw =>
      cases h
      exact ⟨rfl, fun _ => rfl⟩
    | _ => cases h
  | _ => cases h

theorem draws_atom (k : Kind) : Draws s k.isSolid (Made Expr.outline s) (atom r k) := by
  unfold atom
  split
  · next make hliteral =>
    obtain ⟨hsolid, hleaf⟩ := leaf_of_literal? hliteral
    rw [hsolid]
    exact .next (.made hleaf)
  · next text _ =>
    have hmake (parts : List Part) (span : Span) :
        (Expr.interp span (textPart text ++ parts)).outline = .node .expr span (partOutlines parts) [] := by
      rw [Expr.outline, partOutlines_append, partOutlines_textPart, List.nil_append]
    refine .next (.look fun n => .outlined (outlined_holesWithin hr n) fun parts => ?_)
    exact .made (hmake parts)
  · have helems := (outlined_items .rbracket hr.expr).congr exprOutlines_eq
    exact .next (.outlined helems fun elems => .made fun _ => rfl)
  · have hentries := (outlined_items .rbrace (outlined_entry hr)).congr entryOutlines_eq
    exact .next (.outlined hentries fun entries => .made fun _ => rfl)
  · have hfields := (outlined_items .rbrace (outlined_fieldInit hr)).congr initOutlines_eq
    refine .next (.outlined outlined_ident fun cls => .sym ?_)
    exact .outlined hfields fun fields => .made fun _ => rfl
  · exact .next (.outlined hr.expr fun inner => .sym (.made fun _ => rfl))
  · exact .fail _

theorem outlined_primary : Outlined (fun e => [e.outline]) (primary r) := by
  refine .of_draws fun s => .peek fun k => ?_
  split
  · exact .of_outlined (outlined_lambda hr)
  · exact .of_outlined (outlined_lambda hr)
  · refine .here fun lo c h hsolid hs => ?_
    apply (draws_atom hr _ h hsolid hs).seq
    rintro make hi c₁ hgoes ⟨hdrawn, -⟩
    exact .look rfl (.pure hgoes.laid hdrawn)

/-- Calls, members and indices make an expression longer. -/
theorem rest_postfixWithin (n : Nat) (e : Expr) :
    ReadsRest .none true solid [e.outline] (Drawn fun e => [e.outline]) (postfixWithin r n e) := by
  induction n generalizing e solid with
  | zero => exact .row rfl
  | succ n ih =>
    have hargs := (outlined_items .rparen hr.expr).congr exprOutlines_eq
    refine .peek fun k => ?_
    split
    · refine .nested (.part (.next fun _ => .outlined hargs fun args => ?_))
      exact .behind e.span_outline fun stop => ih (.call (e.span.merge stop) e args)
    · refine .nested (.part (.next fun _ => .outlined outlined_memberName fun name => ?_))
      exact .operands e.span_outline rfl (ih (.member (e.span.merge name.span) e name))
    · refine .nested (.part (.next fun _ => .outlined hr.expr fun index => .sym ?_))
      exact .behind e.span_outline fun stop => ih (.index (e.span.merge stop) e index)
    · exact .row rfl

theorem outlined_postfixed : Outlined (fun e => [e.outline]) (postfixed r) :=
  .of_rest (.outlined (outlined_primary hr) fun e => .look fun n => rest_postfixWithin hr n e)

omit hr in
theorem outline_of_prefixed? {make : Span → Expr → Expr} (h : prefixed? k = some make) :
    k.isSolid = true ∧ ∀ span e, (make span e).outline = .node .expr span [e.outline] [] := by
  unfold prefixed? at h
  split at h
  all_goals cases h
  all_goals exact ⟨rfl, fun _ _ => rfl⟩

theorem outlined_unary : Outlined (fun e => [e.outline]) (unary r) := by
  refine .of_draws fun s => .here (.peek fun k => ?_)
  split
  · refine .next (.eat rfl fun mutable => .outlined hr.operand fun e => ?_)
    exact .upTo e.span_outline (.row rfl)
  · split
    · next make hmake =>
      obtain ⟨hsolid, houtline⟩ := outline_of_prefixed? hmake
      rw [hsolid]
      refine .next (.outlined hr.operand fun e => ?_)
      exact .upTo e.span_outline (.row (congrArg (fun o => [o]) (houtline _ e)))
    · exact .of_outlined (outlined_postfixed hr)

omit hr in
theorem isSolid_of_operator? {ops : List (Symbol × BinOp)} {op : BinOp}
    (h : operator? ops k = some op) : k.isSolid = true := by
  unfold operator? at h
  split at h
  · rfl
  · cases h

omit hr in
/-- An operator and its right operand make an expression longer. -/
theorem rest_binaryWithin (ops : List (Symbol × BinOp)) {operand : Parser Expr}
    (hoperand : Outlined (fun e => [e.outline]) operand) (n : Nat) (e : Expr) :
    ReadsRest .none true solid [e.outline] (Drawn fun e => [e.outline])
      (binaryWithin ops operand n e) := by
  induction n generalizing e solid with
  | zero => exact .row rfl
  | succ n ih =>
    refine .peek fun k => ?_
    split
    · next op hop =>
      rw [isSolid_of_operator? hop]
      refine .nested (.part (.next fun _ => .outlined hoperand fun right => ?_))
      exact .operands e.span_outline right.span_outline (ih (.binary _ op e right))
    · exact .row rfl

theorem outlined_binary (ls : List (List (Symbol × BinOp))) :
    Outlined (fun e => [e.outline]) (binary r ls) := by
  induction ls with
  | nil => exact outlined_unary hr
  | cons ops tighter ih =>
    exact .of_rest (.outlined ih fun e => .look fun n => rest_binaryWithin ops ih n e)

theorem rest_pipeWithin (n : Nat) (e : Expr) :
    ReadsRest .none true solid [e.outline] (Drawn fun e => [e.outline]) (pipeWithin r n e) := by
  induction n generalizing e solid with
  | zero => exact .row rfl
  | succ n ih =>
    refine .eat rfl fun found => ?_
    split
    · refine .nested (.part (.outlined (outlined_binary hr _) fun right => ?_))
      exact .operands e.span_outline right.span_outline (ih (.pipe _ e right))
    · exact .row rfl

theorem outlined_pipe : Outlined (fun e => [e.outline]) (pipe r) :=
  .of_rest (.outlined (outlined_binary hr _) fun e => .look fun n => rest_pipeWithin hr n e)

omit hr in
theorem isSolid_of_assignOp? {op : AssignOp} (h : assignOp? k = some op) : k.isSolid = true := by
  unfold assignOp? at h
  split at h
  all_goals cases h
  all_goals rfl

theorem outlined_expression : Outlined (fun e => [e.outline]) (expression r) := by
  refine .of_rest (.outlined (outlined_pipe hr) fun target => .peek fun k => ?_)
  split
  · next op hop =>
    rw [isSolid_of_assignOp? hop]
    refine .part (.next fun _ => .outlined hr.expr fun value => ?_)
    exact .operands target.span_outline value.span_outline (.row rfl)
  · exact .row rfl

end

end CarvFront.Grammar
