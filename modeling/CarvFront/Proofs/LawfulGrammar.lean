import CarvFront.Proofs.Laws

/-! A law of parsers holds of the whole grammar: what stands inside a statement has the stronger
property, statements the weaker one, and types, expressions and statements take a token. -/
namespace CarvFront.Grammar
open CarvFront.Parser
variable {P Q : ∀ ⦃α : Type⦄, Cursor → Parser α → Prop}

/-! ### Types -/

section
variable (h : Core P) {type : Parser TypeExpr} (ht : ∀ c, Taking P c type) {c : Cursor}
include h ht

theorem law_angled (c : Cursor) : P c (angled type) := by
  refine h.seq (h.sym rfl c) fun _ c => h.seq (ht c).law fun inner c => h.onKind fun got hgot => ?_
  split
  · exact h.seq (h.become (hgot ▸ .shr)) fun _ => h.pure inner
  · exact h.seq (h.become (hgot ▸ .greaterEq)) fun _ => h.pure inner
  · exact h.seq (h.sym rfl c) fun _ => h.pure inner

theorem law_namedType (name : String) (c : Cursor) : P c (namedType type name) := by
  unfold namedType
  split
  · exact h.pure _ c
  refine h.seq (h.isAt _ c) fun generic c => ?_
  split
  · exact h.seq (law_angled h ht c) fun _ => h.pure _
  split
  · exact h.seq (law_angled h ht c) fun _ => h.pure _
  · exact h.pure _ c

theorem law_functionType (c : Cursor) : P c (functionType type) := by
  refine h.seq (h.sym rfl c) fun _ c => ?_
  refine h.seq (h.items rfl (fun c => (ht c).law) c) fun params c => ?_
  refine h.seq (h.before c) fun close c => h.seq (h.eat rfl c) fun arrow c => ?_
  split
  · exact h.seq (ht c).law fun _ => h.pure _
  · exact h.pure _ c

theorem taking_bareType (c : Cursor) : Taking P c (bareType type) := by
  refine h.taking_onKind fun got hgot => ?_
  split
  · exact h.step (hgot ▸ rfl) fun _ => h.pure _
  · refine h.step (hgot ▸ rfl) fun _ c => h.seq (ht c).law fun _ c => ?_
    exact h.seq (h.sym rfl c) fun _ => h.pure _
  · refine h.step (hgot ▸ rfl) fun _ c => h.seq (ht c).law fun _ c => ?_
    refine h.seq (h.sym rfl c) fun _ c => h.seq (ht c).law fun _ c => ?_
    exact h.seq (h.sym rfl c) fun _ => h.pure _
  · exact h.step (hgot ▸ rfl) fun _ => law_functionType h ht
  · refine h.step (hgot ▸ rfl) fun _ c => h.seq (h.eat rfl c) fun _ c => ?_
    exact h.seq (ht c).law fun _ => h.pure _
  · exact h.step (hgot ▸ rfl) fun _ => law_namedType h ht _
  · exact h.taking_fail _ c

omit ht in
theorem law_optionalWithin (start : Span) (n : Nat) (t : TypeExpr) (c : Cursor) :
    P c (optionalWithin start n t) := by
  induction n generalizing t c with
  | zero => exact h.pure t c
  | succ n ih =>
    refine h.seq (h.eat rfl c) fun question c => ?_
    split
    · exact h.seq (h.before c) fun stop => ih _
    · exact h.pure t c

omit h ht in
theorem stable_optionalWithin (start : Span) (t : TypeExpr) :
    Stable fun n => optionalWithin start n t := by
  refine .of_succ fun n => ?_
  induction n generalizing t with
  | zero => exact atEnd fun _ _ _ => rfl
  | succ n ih =>
    intro c hc
    refine bind_congr_at fun question c₁ hquestion => ?_
    cases question with
    | false => rfl
    | true =>
      have hlt := length_of_eat hquestion nofun
      exact ih _ c₁ (by omega)

omit h ht in
/-- No type starts where a statement ends. -/
theorem bareType_of_ends (hc : c.kind.ends = true) :
    bareType type c = (none, c.report (.expected .type c.kind)) := by
  have hpeek : peek c = (some c.kind, c) := rfl
  rw [bareType, bind_of_some hpeek]
  rcases Kind.ends_iff.mp hc with hk | hk <;> rw [hk] <;> rfl

theorem taking_typeExpr (c : Cursor) : Taking P c (typeExpr type) := by
  refine h.taking_here (h.first (taking_bareType h ht c) fun make c _ => ?_)
    fun hend s s' c' hc' => ?_
  · refine h.seq (h.before c) fun stop c => ?_
    exact h.remaining (fun n => law_optionalWithin h _ n _ c) (stable_optionalWithin _ _)
  · exact bind_congr_of_none (bareType_of_ends (hc' ▸ hend))

end

/-- The rules for one level deeper obey a law. -/
structure Rules.Obey (P Q : ∀ ⦃α : Type⦄, Cursor → Parser α → Prop) (r : Rules) : Prop where
  type : ∀ c, Taking P c r.type
  expr : ∀ c, Taking P c r.expr
  operand : ∀ c, Taking P c r.operand
  stmts : ∀ c, Q c r.stmts

section
variable (h : Law P Q) {r : Rules} (hr : r.Obey P Q) {c : Cursor}
include h hr

/-! ### Expressions -/

theorem taking_block (c : Cursor) : Taking P c (block r) := by
  refine h.taking_here (h.taking_braces hr.stmts (fun _ c => ?_) c) fun hend s s' c' hc' => ?_
  · exact h.seq (h.before c) fun stop => h.pure _
  · have hnone : sym .lbrace c' = (none, _) := bind_of_none (expect_of_ends rfl (hc' ▸ hend)) _
    exact bind_congr_of_none hnone

theorem law_annotated (c : Cursor) : P c ( annotation r) := by
  refine h.seq (h.eat rfl c) fun colon c => ?_
  split
  · exact h.seq (hr.type c).law fun _ => h.pure _
  · exact h.pure none c

theorem law_param (c : Cursor) : P c (param r) := by
  refine h.seq (h.ident c) fun _ c => h.seq (law_annotated h hr c) fun _ c => ?_
  exact h.seq (h.before c) fun _ => h.pure _

theorem law_returnType (c : Cursor) : P c (returnType r) := by
  refine h.seq (h.eat rfl c) fun arrow c => ?_
  split
  · exact h.seq (hr.type c).law fun _ => h.pure _
  · exact h.pure none c

theorem law_signature (async : Bool) (c : Cursor) : P c (signature r async) := by
  refine h.seq (h.items rfl (law_param h hr) c) fun _ c => ?_
  exact h.seq (law_returnType h hr c) fun _ => h.pure _

omit hr in
/-- A function starts with `fn`, with or without `async` before it. -/
theorem taking_async {f : Span → Bool → Parser α} (hf : ∀ start async c, P c (f start async))
    (c : Cursor) : Taking P c (here >>= fun start => eat (.word .asyncKw) >>= fun async =>
      word .fnKw >>= fun _ => f start async) := by
  have hrest (start : Span) (async : Bool) (c : Cursor) :
      Taking P c (word .fnKw >>= fun _ => f start async) :=
    h.first (h.taking_word _ c) fun _ c _ => hf start async c
  refine h.taking_here
    (h.taking_eat rfl (fun c => (hrest _ true c).law) fun _ => hrest _ false c) ?_
  intro hend s s' c' hc'
  refine bind_congr_at fun async c₁ hasync => ?_
  have hkind : c'.kind ≠ .word .asyncKw := by
    intro heq
    rw [← hc', heq] at hend
    cases hend
  have heat : eat (.word .asyncKw) c' = (some false, c') := if_neg hkind
  cases heat.symm.trans hasync
  have hnone : word .fnKw c' = (none, _) := bind_of_none (expect_of_ends rfl (hc' ▸ hend)) _
  exact bind_congr_of_none hnone

theorem taking_lambda (c : Cursor) : Taking P c (lambda r) := by
  refine taking_async h (fun start async c => h.seq (h.sym rfl c) fun _ c => ?_) c
  refine h.seq (law_signature h hr async c) fun sig c => ?_
  exact h.seq (taking_block h hr c).law fun _ => h.pure _

theorem law_entry (c : Cursor) : P c (entry r) := by
  refine h.seq (hr.expr c).law fun _ c => h.seq (h.sym rfl c) fun _ c => ?_
  exact h.seq (hr.expr c).law fun _ => h.pure _

theorem law_fieldInit (c : Cursor) : P c (fieldInit r) := by
  refine h.seq (h.ident c) fun _ c => h.seq (h.sym rfl c) fun _ c => ?_
  exact h.seq (hr.expr c).law fun _ => h.pure _

theorem law_holesWithin (n : Nat) (c : Cursor) : P c (holesWithin r n) := by
  induction n generalizing c with
  | zero => exact h.seq (h.peek c) fun _ => h.fail _
  | succ n ih =>
    refine h.seq (h.expect rfl c) fun _ c => h.seq (hr.expr c).law fun e c => ?_
    refine h.seq (h.expect rfl c) fun _ c => h.onKind fun got hgot => ?_
    split
    · exact h.seq (h.next (hgot ▸ rfl)) fun _ c => h.seq (ih c) fun _ => h.pure _
    · exact h.seq (h.next (hgot ▸ rfl)) fun _ => h.pure _
    · exact h.fail _ c

theorem stable_holesWithin : Stable (holesWithin r) := by
  refine .of_succ fun n => ?_
  induction n with
  | zero => exact atEnd fun _ _ _ => rfl
  | succ n ih =>
    intro c hc
    refine bind_congr_at fun _ c₁ hstart => bind_congr_at fun e c₂ he => ?_
    refine bind_congr_at fun _ c₃ hend => peek_congr_at fun got _ => ?_
    have hlt := (h.taking_expect rfl c).takes hstart
    have hlt₁ := (hr.expr c₁).takes he
    have hlt₂ := (h.taking_expect rfl c₂).takes hend
    split
    · have hle := c₃.length_next_le
      exact bind_congr_left (ih c₃.next (by omega))
    · rfl
    · rfl

theorem taking_atom {k : Kind} (hc : c.kind = k) : Taking P c (atom r k) := by
  have hexpr (c : Cursor) : P c r.expr := (hr.expr c).law
  unfold atom
  split
  · next hlit =>
    exact h.step (hc ▸ Kind.ends_of_some rfl rfl hlit) fun _ => h.pure _
  · refine h.step (hc ▸ rfl) fun _ c => h.remaining (fun n => ?_) ?_
    · exact h.seq (law_holesWithin h hr n c) fun _ => h.pure _
    · exact (stable_holesWithin h hr).bind _
  · exact h.step (hc ▸ rfl) fun _ c => h.seq (h.items rfl hexpr c) fun _ => h.pure _
  · refine h.step (hc ▸ rfl) fun _ c => h.seq (h.items rfl (law_entry h hr) c) fun _ => ?_
    exact h.pure _
  · refine h.step (hc ▸ rfl) fun _ c => h.seq (h.ident c) fun cls c => ?_
    refine h.seq (h.sym rfl c) fun _ c => ?_
    exact h.seq (h.items rfl (law_fieldInit h hr) c) fun _ => h.pure _
  · refine h.step (hc ▸ rfl) fun _ c => h.seq (hexpr c) fun _ c => ?_
    exact h.seq (h.sym rfl c) fun _ => h.pure _
  · exact h.taking_fail _ c

omit h hr in
/-- No expression starts where a statement ends. -/
theorem atom_of_ends {k : Kind} (hk : k.ends = true) (c : Cursor) :
    atom r k c = (none, c.report (.expected .expression k)) := by
  rcases Kind.ends_iff.mp hk with rfl | rfl <;> rfl

theorem taking_primary (c : Cursor) : Taking P c (primary r) := by
  refine h.taking_onKind fun k hk => ?_
  split
  · exact taking_lambda h hr c
  · exact taking_lambda h hr c
  · refine h.taking_here (h.first (taking_atom h hr hk) fun make c _ => ?_) fun hend s s' c' _ => ?_
    · exact h.seq (h.before c) fun stop => h.pure _
    · exact bind_congr_of_none (atom_of_ends (hk ▸ hend) c')

theorem law_postfixWithin (n : Nat) (e : Expr) (c : Cursor) : P c (postfixWithin r n e) := by
  have hexpr (c : Cursor) : P c r.expr := (hr.expr c).law
  induction n generalizing e c with
  | zero => exact h.pure e c
  | succ n ih =>
    refine h.onKind fun got hgot => ?_
    split
    · refine h.nested (h.seq (h.next (hgot ▸ rfl)) fun _ c => ?_)
      refine h.seq (h.items rfl hexpr c) fun args c => ?_
      exact h.seq (h.before c) fun stop => ih _
    · refine h.nested (h.seq (h.next (hgot ▸ rfl)) fun _ c => ?_)
      exact h.seq (h.memberName c) fun name => ih _
    · refine h.nested (h.seq (h.next (hgot ▸ rfl)) fun _ c => ?_)
      refine h.seq (hexpr c) fun index c => ?_
      exact h.seq (h.sym rfl c) fun _ c => h.seq (h.before c) fun stop => ih _
    · exact h.pure e c

theorem stable_postfixWithin (e : Expr) : Stable fun n => postfixWithin r n e := by
  have hargs : Shrinks (items .rparen r.expr) :=
    h.shrinks' (h.items rfl fun c => (hr.expr c).law)
  have hexpr := h.shrinks' fun c => (hr.expr c).law
  refine .of_succ fun n => ?_
  induction n generalizing e with
  | zero => exact atEnd fun _ _ _ => rfl
  | succ n ih =>
    intro c hc
    refine peek_congr_at fun got hgot => ?_
    split
    · refine nested_next_congr hc (hgot ▸ nofun) fun c₁ h₁ => bind_congr_at fun _ c₂ h₂ => ?_
      exact ih _ c₂ (Nat.le_trans (hargs.of_eq h₂) h₁)
    · refine nested_next_congr hc (hgot ▸ nofun) fun c₁ h₁ => bind_congr_at fun _ c₂ h₂ => ?_
      exact ih _ c₂ (Nat.le_trans ((h.shrinks' h.memberName).of_eq h₂) h₁)
    · refine nested_next_congr hc (hgot ▸ nofun) fun c₁ h₁ => bind_congr_at fun _ c₂ h₂ => ?_
      refine bind_congr_at fun _ c₃ h₃ => ih _ c₃ ?_
      have hlt := (h.taking_sym rfl c₂).takes h₃
      exact Nat.le_trans (Nat.le_trans (Nat.le_of_lt hlt) (hexpr.of_eq h₂)) h₁
    · rfl

theorem taking_postfixed (c : Cursor) : Taking P c (postfixed r) := by
  refine h.first (taking_primary h hr c) fun e c _ => ?_
  exact h.remaining (fun n => law_postfixWithin h hr n e c) (stable_postfixWithin h hr e)

theorem taking_unary (c : Cursor) : Taking P c (unary r) := by
  refine h.taking_here (h.taking_onKind fun got hgot => ?_) fun hend s s' c' hc' => ?_
  · split
    · refine h.step (hgot ▸ rfl) fun _ c => h.seq (h.eat rfl c) fun _ c => ?_
      exact h.seq (hr.operand c).law fun _ => h.pure _
    split
    · next hprefix =>
      refine h.step (hgot ▸ Kind.ends_of_some rfl rfl hprefix) fun _ c => ?_
      exact h.seq (hr.operand c).law fun _ => h.pure _
    · exact taking_postfixed h hr c
  · refine peek_congr_at fun got hgot => ?_
    have hends : got.ends = true := by rw [← hgot, hc', hend]
    rcases Kind.ends_iff.mp hends with rfl | rfl <;> exact Eq.refl (postfixed r c')

omit h hr in
/-- A semicolon is no operator. -/
theorem lookup_levels {ops : List (Symbol × BinOp)} (hops : ops ∈ levels) :
    ops.lookup .semicolon = none := by
  revert ops
  decide

omit hr in
theorem law_binaryWithin {ops : List (Symbol × BinOp)} (hops : ops.lookup .semicolon = none)
    {operand : Parser Expr} (hoperand : ∀ c, P c operand) (n : Nat) (e : Expr) (c : Cursor) :
    P c (binaryWithin ops operand n e) := by
  induction n generalizing e c with
  | zero => exact h.pure e c
  | succ n ih =>
    refine h.onKind fun got hgot => ?_
    split
    · next hop =>
      have hends : c.kind.ends = false := hgot ▸ Kind.ends_of_some rfl hops hop
      exact h.nested (h.seq (h.next hends) fun _ c => h.seq (hoperand c) fun right => ih _)
    · exact h.pure e c

omit h hr in
theorem stable_binaryWithin (ops : List (Symbol × BinOp)) {operand : Parser Expr}
    (hoperand : Shrinks operand) (e : Expr) : Stable fun n => binaryWithin ops operand n e := by
  refine .of_succ fun n => ?_
  induction n generalizing e with
  | zero => exact atEnd fun _ _ _ => rfl
  | succ n ih =>
    intro c hc
    refine peek_congr_at fun got hgot => ?_
    cases hop : operator? ops got with
    | none => rfl
    | some op =>
      have hk : c.kind ≠ .eof := by
        rintro heof
        rw [← hgot, heof] at hop
        cases hop
      refine nested_next_congr hc hk fun c₁ h₁ => bind_congr_at fun _ c₂ h₂ => ?_
      exact ih _ c₂ (Nat.le_trans (hoperand.of_eq h₂) h₁)

theorem taking_binary {ls : List (List (Symbol × BinOp))}
    (hls : ∀ ops ∈ ls, ops.lookup .semicolon = none) (c : Cursor) : Taking P c (binary r ls) := by
  induction ls generalizing c with
  | nil => exact taking_unary h hr c
  | cons ops tighter ih =>
    have ih := ih fun ops hops => hls ops (.tail _ hops)
    have hoperand (c : Cursor) := (ih c).law
    refine h.first (ih c) fun e c _ => ?_
    exact h.remaining (fun n => law_binaryWithin h (hls ops (.head _)) hoperand n e c)
      (stable_binaryWithin ops (h.shrinks' hoperand) e)

theorem law_pipeWithin (n : Nat) (e : Expr) (c : Cursor) : P c (pipeWithin r n e) := by
  induction n generalizing e c with
  | zero => exact h.pure e c
  | succ n ih =>
    refine h.seq (h.eat rfl c) fun found c => ?_
    split
    · exact h.nested (h.seq (taking_binary h hr (fun _ => lookup_levels) _).law fun right => ih _)
    · exact h.pure e c

theorem stable_pipeWithin (e : Expr) : Stable fun n => pipeWithin r n e := by
  have hoperand := h.shrinks' fun c => (taking_binary h hr (fun _ => lookup_levels) c).law
  refine .of_succ fun n => ?_
  induction n generalizing e with
  | zero => exact atEnd fun _ _ _ => rfl
  | succ n ih =>
    intro c hc
    refine bind_congr_at fun found c₁ hfound => ?_
    cases found with
    | false => exact Eq.refl ((pure e : Parser Expr) c₁)
    | true =>
      have hlt := length_of_eat hfound nofun
      rw [if_pos rfl, if_pos rfl]
      refine nested_congr_at (bind_congr_at fun _ c₂ h₂ => ih _ c₂ ?_)
      have hle := hoperand.of_eq h₂
      exact Nat.le_of_lt_succ (Nat.lt_of_le_of_lt hle (Nat.lt_of_lt_of_le hlt hc))

theorem taking_pipe (c : Cursor) : Taking P c (pipe r) := by
  refine h.first (taking_binary h hr (fun _ => lookup_levels) c) fun e c _ => ?_
  exact h.remaining (fun n => law_pipeWithin h hr n e c) (stable_pipeWithin h hr e)

theorem taking_expression (c : Cursor) : Taking P c (expression r) := by
  refine h.first (taking_pipe h hr c) fun target c _ => h.onKind fun got hgot => ?_
  split
  · next hop =>
    refine h.seq (h.next (hgot ▸ Kind.ends_of_some rfl rfl hop)) fun _ c => ?_
    exact h.seq (hr.expr c).law fun _ => h.pure _
  · exact h.pure target c

/-! ### Declarations -/

theorem taking_functionDecl (c : Cursor) : Taking P c (functionDecl r) := by
  refine taking_async h (fun start async c => h.seq (h.ident c) fun name c => ?_) c
  refine h.seq (h.sym rfl c) fun _ c => h.seq (law_signature h hr async c) fun sig c => ?_
  exact h.seq (taking_block h hr c).law fun _ => h.pure _

omit h hr in
/-- Tokens are only looked at as far as those before them allow. -/
theorem receiver_eq : receiver = peek >>= fun k =>
    if k = .word .selfKw then next >>= fun _ => eat (.sym .comma) >>= fun _ => pure .value
    else if k = .sym .amp then lookAhead 1 >>= fun k₁ =>
      if k₁ = .word .selfKw then
        next >>= fun _ => next >>= fun _ => eat (.sym .comma) >>= fun _ => pure .ref
      else if k₁ = .word .mutKw then lookAhead 2 >>= fun k₂ =>
        if k₂ = .word .selfKw then next >>= fun _ => next >>= fun _ => next >>= fun _ =>
          eat (.sym .comma) >>= fun _ => pure .refMut
        else pure .none
      else pure .none
    else pure .none := by
  funext c
  have hpeek : peek c = (some c.kind, c) := rfl
  have hahead (n : Nat) : lookAhead n c = (some (c.lookAhead n), c) := rfl
  rw [receiver, bind_of_some hpeek, bind_of_some (hahead 1), bind_of_some (hahead 2),
    bind_of_some hpeek]
  split
  · next hk => simp only [hk]
  split
  · next hk =>
    rw [bind_of_some (hahead 1)]
    split
    · next hk₁ => simp only [hk, hk₁]
    split
    · next hk₁ =>
      rw [bind_of_some (hahead 2)]
      split
      · next hk₂ => simp only [hk, hk₁, hk₂]
      · generalize c.kind = k, c.lookAhead 1 = k₁, c.lookAhead 2 = k₂ at *
        split <;> simp_all
    · generalize c.kind = k, c.lookAhead 1 = k₁, c.lookAhead 2 = k₂ at *
      split <;> simp_all
  · generalize c.kind = k, c.lookAhead 1 = k₁, c.lookAhead 2 = k₂ at *
    split <;> simp_all

omit hr in
theorem law_receiver (c : Cursor) : P c receiver := by
  have hlast (who : Receiver) (c : Cursor) :
      P c (eat (.sym .comma) >>= fun _ => (pure who : Parser Receiver)) :=
    h.seq (h.eat rfl c) fun _ => h.pure who
  -- past a token that is known, the next one is the one seen ahead
  have hnext {c : Cursor} {f : Span → Parser Receiver} (hc : c.kind.ends = false)
      (hf : ∀ s, P c.next (f s)) : P c (next >>= f) :=
    h.bind (h.next hc) fun s c' heq => by cases heq; exact hf _
  rw [receiver_eq]
  refine h.onKind fun k hk => ?_
  split
  · next heq => exact hnext (by rw [hk, heq]; rfl) fun _ => hlast .value _
  split
  · next heq =>
    have hhere : c.kind.ends = false := by rw [hk, heq]; rfl
    refine h.bind (h.lookAhead (Cursor.sees_one hhere)) fun k₁ c' hk₁ => ?_
    cases hk₁
    split
    · next heq₁ =>
      have hone : c.next.kind.ends = false := by rw [c.kind_next, heq₁]; rfl
      exact hnext hhere fun _ => hnext hone fun _ => hlast .ref _
    split
    · next heq₁ =>
      have hone : (c.lookAhead 1).ends = false := by rw [heq₁]; rfl
      refine h.bind (h.lookAhead (Cursor.sees_two hhere hone)) fun k₂ c' hk₂ => ?_
      cases hk₂
      rw [← c.kind_next] at hone
      split
      · next heq₂ =>
        have htwo : c.next.next.kind.ends = false := by
          rw [c.next.kind_next, c.lookAhead_next, heq₂]
          rfl
        exact hnext hhere fun _ => hnext hone fun _ => hnext htwo fun _ => hlast .refMut _
      · exact h.pure _ c
    · exact h.pure _ c
  · exact h.pure _ c

theorem taking_method (c : Cursor) : Taking P c (method r) := by
  refine taking_async h (fun start async c => h.seq (h.ident c) fun name c => ?_) c
  refine h.seq (h.sym rfl c) fun _ c => h.seq (law_receiver h c) fun who c => ?_
  refine h.seq (law_signature h hr async c) fun sig c => ?_
  exact h.seq (taking_block h hr c).law fun _ => h.pure _

theorem taking_methodHead (c : Cursor) : Taking Q c (methodHead r) := by
  have ho := h.outer
  refine ho.taking_here (ho.first (ho.taking_word _ c) fun _ c _ => ?_) fun hend s s' c' hc' => ?_
  · refine ho.seq (ho.ident c) fun name c => ho.seq (ho.sym rfl c) fun _ c => ?_
    refine ho.seq (h.weaken (law_receiver h c)) fun who c => ?_
    refine ho.seq (h.weaken (law_signature h hr false c)) fun sig c => ?_
    exact ho.seq (ho.before c) fun stop c => ho.seq (h.semicolon c) fun _ => ho.pure _
  · have hnone : word .fnKw c' = (none, _) := bind_of_none (expect_of_ends rfl (hc' ▸ hend)) _
    exact bind_congr_of_none hnone

theorem taking_field (c : Cursor) : Taking Q c (field r) := by
  have ho := h.outer
  have hlast (make : Span → Field) (c : Cursor) : Q c (do
      let stop ← before
      if ← eat (.sym .comma) then pure ()
      else
        let _ ← eat (.sym .semicolon)
      pure (make stop)) := by
    refine ho.seq (ho.before c) fun stop c => ho.seq (ho.eat rfl c) fun comma c => ?_
    split
    · exact ho.pure _ c
    · exact ho.seq (ho.eat_of h.separator) fun _ => ho.pure _
  refine ho.first (ho.taking_ident c) fun name c _ => ho.seq (ho.sym rfl c) fun _ c => ?_
  refine ho.seq (h.weaken (hr.type c).law) fun type c => ho.seq (ho.eat rfl c) fun eq c => ?_
  split
  · refine ho.seq (h.weaken (hr.expr c).law) fun e c => ?_
    exact ho.seq (ho.pure (some e) c) fun _ => hlast _
  · exact ho.seq (ho.pure none c) fun _ => hlast _

theorem taking_classItem (c : Cursor) : Taking Q c (classItem r) := by
  have ho := h.outer
  have hmethod := ho.first (h.weaken_taking (taking_method h hr c)) fun m c _ =>
    ho.pure (ClassItem.method m) c
  refine ho.taking_onKind fun got hgot => ?_
  split
  · exact hmethod
  · exact hmethod
  · exact ho.first (taking_field h hr c) fun _ c _ => ho.pure _ c
  · exact ho.taking_fail _ c

theorem taking_classDecl (hc : c.kind.ends = false) : Taking P c (classDecl r) := by
  refine h.step hc fun start c => h.seq (h.ident c) fun name c => ?_
  refine (h.taking_braces (h.all _ (taking_classItem h hr)) (fun _ c => ?_) c).law
  exact h.seq (h.before c) fun stop => h.pure _

theorem taking_interfaceDecl (hc : c.kind.ends = false) : Taking P c (interfaceDecl r) := by
  refine h.step hc fun start c => h.seq (h.ident c) fun name c => ?_
  refine (h.taking_braces (h.all _ (taking_methodHead h hr)) (fun _ c => ?_) c).law
  exact h.seq (h.before c) fun stop => h.pure _

theorem taking_implDecl (hc : c.kind.ends = false) : Taking P c (implDecl r) := by
  refine h.step hc fun start c => h.seq (h.ident c) fun interface c => ?_
  refine h.seq (h.word _ c) fun _ c => h.seq (h.ident c) fun target c => ?_
  have hitem (c : Cursor) := h.weaken_taking (taking_method h hr c)
  refine (h.taking_braces (h.all _ hitem) (fun _ c => ?_) c).law
  exact h.seq (h.before c) fun stop => h.pure _

omit hr in
theorem law_required (c : Cursor) : P c required := by
  refine h.onKind fun got hgot => ?_
  split
  · refine h.seq (h.next (hgot ▸ rfl)) fun _ c => h.seq (h.word _ c) fun _ c => ?_
    exact h.seq (h.stringLiteral c) fun _ => h.pure _
  · refine h.seq (h.next (hgot ▸ rfl)) fun _ c => h.seq (h.items rfl h.ident c) fun names c => ?_
    exact h.seq (h.word _ c) fun _ c => h.seq (h.stringLiteral c) fun _ => h.pure _
  · refine h.seq (h.stringLiteral c) fun path c => h.seq (h.eat rfl c) fun renamed c => ?_
    split
    · exact h.seq (h.ident c) fun _ => h.pure _
    · exact h.pure _ c

/-! ### Statements -/

theorem law_expressionUnless (stops : List Kind) (c : Cursor) : P c (expressionUnless r stops) := by
  refine h.onKind fun got _ => ?_
  split
  · exact h.pure none c
  · exact h.seq (hr.expr c).law fun _ => h.pure _

theorem taking_conditionalWithin (n : Nat) (c : Cursor) : Taking P c (conditionalWithin r n) := by
  induction n generalizing c with
  | zero => exact h.taking_onKind fun _ _ => h.taking_fail _ c
  | succ n ih =>
    refine h.first (h.taking_expect rfl c) fun start c _ => h.seq (hr.expr c).law fun test c => ?_
    refine h.seq (taking_block h hr c).law fun body c => h.seq (h.eat rfl c) fun found c => ?_
    have hlast (otherwise : Otherwise) (c : Cursor) :
        P c (pure otherwise >>= fun otherwise => before >>= fun stop =>
          (pure ⟨start.merge stop, test, body, otherwise⟩ : Parser Conditional)) :=
      h.seq (h.pure otherwise c) fun _ c => h.seq (h.before c) fun _ => h.pure _
    split
    · refine h.seq (h.isAt _ c) fun again c => ?_
      split
      · exact h.seq (ih c).law fun c => hlast (.elseIf c)
      · exact h.seq (taking_block h hr c).law fun b => hlast (.block b)
    · exact hlast .none c

theorem stable_conditionalWithin : Stable (conditionalWithin r) := by
  refine .of_succ fun n => ?_
  induction n with
  | zero => exact atEnd fun _ _ _ => rfl
  | succ n ih =>
    intro c hc
    refine bind_congr_at fun start c₁ h₁ => bind_congr_at fun test c₂ h₂ => ?_
    refine bind_congr_at fun body c₃ h₃ => bind_congr_at fun found c₄ h₄ => ?_
    cases found with
    | false => rfl
    | true =>
      rw [if_pos rfl, if_pos rfl]
      refine bind_congr_at fun again c₅ h₅ => ?_
      cases h₅
      split
      · have hlt₁ := (h.taking_expect rfl c).takes h₁
        have hlt₂ := (hr.expr c₁).takes h₂
        have hlt₃ := (taking_block h hr c₂).takes h₃
        have hlt₄ := length_of_eat h₄ nofun
        exact bind_congr_left (ih c₄ (by omega))
      · rfl

theorem taking_conditional (c : Cursor) : Taking P c (conditional r) := by
  refine h.taking_remaining (fun n => ?_) ((stable_conditionalWithin h hr).bind _)
  exact h.first (taking_conditionalWithin h hr n c) fun _ c _ => h.pure _ c

theorem taking_whileStmt (hc : c.kind.ends = false) : Taking P c (whileStmt r) := by
  refine h.step hc fun _ c => h.seq (hr.expr c).law fun _ c => ?_
  exact h.seq (taking_block h hr c).law fun _ => h.pure _

theorem taking_loopStmt (hc : c.kind.ends = false) : Taking P c (loopStmt r) :=
  h.step hc fun _ c => h.seq (taking_block h hr c).law fun _ => h.pure _

end

section
variable (r : Rules)

/-- `let x: T = e` or `const x: T = e` -/
def bindingFront : Parser Stmt := do
  let const ← isAt (.word .constKw)
  let start ← next
  let name ← ident
  let type ← annotation r
  sym .eq
  let value ← r.expr
  let stop ← before
  pure (.bind (start.merge stop) const name type value)

/-- `return e` or `return` -/
def returnFront : Parser Stmt := do
  let start ← next
  let value ← expressionUnless r [.sym .semicolon, .sym .rbrace, .eof]
  let stop ← before
  pure (.ret (start.merge stop) value)

/-- `break` or `continue` -/
def jumpFront (make : Span → Stmt) : Parser Stmt := do
  let span ← next
  pure (make span)

/-- `require …` -/
def requireFront : Parser Stmt := do
  let start ← next
  let (path, imports) ← required
  let stop ← before
  pure (.require (start.merge stop) path imports)

/-- An expression as a statement. -/
def expressionFront : Parser Stmt := do
  let e ← r.expr
  pure (.expr e.span e)

/-- What stands before the body of a `for`. -/
def forHead : Parser (Span → Block → Stmt) := do
  if ← eat (.sym .lparen) then
    let init ← loopInit r
    let test ← expressionUnless r [.sym .semicolon]
    sym .semicolon
    let post ← expressionUnless r [.sym .rparen]
    sym .rparen
    pure fun span body => .forLoop span init test post body
  else
    let item ← ident
    word .inKw
    let iterable ← r.expr
    pure fun span body => .forIn span item iterable body

/-- A statement that a semicolon is due behind. -/
def due (front : Parser Stmt) : Parser (Stmt × Bool) := do
  let s ← front
  pure (s, true)

/-- A statement that ends with a brace. -/
def complete (p : Parser Stmt) : Parser (Stmt × Bool) := do
  let s ← p
  pure (s, false)

/-- A statement without the semicolon behind it, and whether one is due. -/
def unclosed : Parser (Stmt × Bool) := do
  match ← peek with
  | .word .constKw | .word .letKw => due (bindingFront r)
  | .word .fnKw => do
    if isIdent (← lookAhead 1) then complete (functionDecl r) else due (expressionFront r)
  | .word .asyncKw => do
    if (← lookAhead 1) = .word .fnKw then
      if isIdent (← lookAhead 2) then complete (functionDecl r) else due (expressionFront r)
    else due (expressionFront r)
  | .word .returnKw => due (returnFront r)
  | .word .breakKw => due (jumpFront .brk)
  | .word .continueKw => due (jumpFront .cont)
  | .word .ifKw => complete (conditional r)
  | .word .forKw => complete (forStmt r)
  | .word .whileKw => complete (whileStmt r)
  | .word .loopKw => complete (loopStmt r)
  | .sym .lbrace => complete do
    let b ← block r
    pure (.block b)
  | .word .classKw => complete (classDecl r)
  | .word .interfaceKw => complete (interfaceDecl r)
  | .word .implKw => complete (implDecl r)
  | .word .requireKw => due requireFront
  | _ => due (expressionFront r)

/-- The semicolon, if one is due. -/
def closeStmt (s : Stmt × Bool) : Parser Stmt := do
  if s.2 then semicolon
  pure s.1

theorem due_closeStmt (front : Parser Stmt) :
    due front >>= closeStmt = front >>= fun s => semicolon >>= fun _ => pure s := by
  simp [due, closeStmt]

theorem complete_closeStmt (p : Parser Stmt) : complete p >>= closeStmt = p := by
  simp [complete, closeStmt]

theorem binding_eq : binding r = due (bindingFront r) >>= closeStmt := by
  rw [due_closeStmt]
  simp [binding, bindingFront]

theorem returnStmt_eq : returnStmt r = due (returnFront r) >>= closeStmt := by
  rw [due_closeStmt]
  simp [returnStmt, returnFront]

theorem jump_eq (make : Span → Stmt) : jump make = due (jumpFront make) >>= closeStmt := by
  rw [due_closeStmt]
  simp [jump, jumpFront]

theorem require_eq : require = due requireFront >>= closeStmt := by
  rw [due_closeStmt]
  simp [require, requireFront]

theorem expressionStmt_eq : expressionStmt r = due (expressionFront r) >>= closeStmt := by
  rw [due_closeStmt]
  simp [expressionStmt, expressionFront]

theorem forStmt_eq : forStmt r = next >>= fun start => forHead r >>= fun make =>
    block r >>= fun body => pure (make (start.merge body.span) body) := by
  rw [forStmt]
  congr 1
  funext start
  rw [forHead, bind_assoc]
  congr 1
  funext found
  split <;> simp

theorem statement_eq : statement r = unclosed r >>= closeStmt := by
  rw [statement, unclosed, bind_assoc]
  congr 1
  funext got
  split
  · exact binding_eq r
  · exact binding_eq r
  · rw [bind_assoc]
    congr 1
    funext k
    split
    · exact (complete_closeStmt _).symm
    · exact expressionStmt_eq r
  · rw [bind_assoc]
    congr 1
    funext k c
    have hahead : lookAhead 2 c = (some (c.lookAhead 2), c) := rfl
    rw [bind_of_some hahead]
    by_cases hk : k = .word .fnKw
    · rw [if_pos hk, bind_assoc, bind_of_some hahead]
      by_cases hname : isIdent (c.lookAhead 2) = true
      · rw [if_pos ⟨hk, hname⟩, if_pos hname, complete_closeStmt]
      · rw [if_neg fun hand => hname hand.2, if_neg hname, expressionStmt_eq]
    · rw [if_neg fun hand => hk hand.1, if_neg hk, expressionStmt_eq]
  · exact returnStmt_eq r
  · exact jump_eq _
  · exact jump_eq _
  · exact (complete_closeStmt _).symm
  · exact (complete_closeStmt _).symm
  · exact (complete_closeStmt _).symm
  · exact (complete_closeStmt _).symm
  · exact (complete_closeStmt _).symm
  · exact (complete_closeStmt _).symm
  · exact (complete_closeStmt _).symm
  · exact (complete_closeStmt _).symm
  · exact require_eq
  · split <;> first | exact expressionStmt_eq r | simp_all

end

section
variable (h : Law P Q) {r : Rules} (hr : r.Obey P Q) {c : Cursor}
include h

theorem taking_due {front : Parser Stmt} (hfront : Taking P c front) : Taking P c (due front) :=
  h.first hfront fun _ c _ => h.pure _ c

theorem taking_complete {p : Parser Stmt} (hp : Taking P c p) : Taking P c (complete p) :=
  h.first hp fun _ c _ => h.pure _ c

theorem law_closeStmt (s : Stmt × Bool) (c : Cursor) : Q c (closeStmt s) := by
  unfold closeStmt
  split
  · exact h.outer.seq (h.semicolon c) fun _ => h.outer.pure _
  · exact h.outer.pure _ c

include hr

theorem taking_bindingFront (hc : c.kind.ends = false) : Taking P c (bindingFront r) := by
  refine h.taking_isAt _ fun const _ => h.step hc fun start c => h.seq (h.ident c) fun name c => ?_
  refine h.seq (law_annotated h hr c) fun type c => h.seq (h.sym rfl c) fun _ c => ?_
  exact h.seq (hr.expr c).law fun value c => h.seq (h.before c) fun stop => h.pure _

theorem taking_returnFront (hc : c.kind.ends = false) : Taking P c (returnFront r) := by
  refine h.step hc fun start c => h.seq (law_expressionUnless h hr _ c) fun value c => ?_
  exact h.seq (h.before c) fun stop => h.pure _

omit hr in
theorem taking_jumpFront (make : Span → Stmt) (hc : c.kind.ends = false) :
    Taking P c (jumpFront make) :=
  h.step hc fun _ => h.pure _

omit hr in
theorem taking_requireFront (hc : c.kind.ends = false) : Taking P c requireFront := by
  refine h.step hc fun start c => h.seq (law_required h c) fun what c => ?_
  exact h.seq (h.before c) fun stop => h.pure _

theorem taking_expressionFront (c : Cursor) : Taking P c (expressionFront r) :=
  h.first (hr.expr c) fun _ c _ => h.pure _ c

theorem law_loopInit (c : Cursor) : Q c (loopInit r) := by
  have ho := h.outer
  have hbinding (hc : c.kind.ends = false) : Q c (binding r) := by
    rw [binding_eq]
    exact ho.seq (h.weaken (taking_due h (taking_bindingFront h hr hc)).law) (law_closeStmt h)
  refine ho.onKind fun got hgot => ?_
  split
  · exact ho.seq (h.separator hgot) fun _ => ho.pure none
  · exact ho.seq (hbinding (hgot ▸ rfl)) fun _ => ho.pure _
  · exact ho.seq (hbinding (hgot ▸ rfl)) fun _ => ho.pure _
  · refine ho.seq (h.weaken (hr.expr c).law) fun _ c => ?_
    refine ho.seq (ho.seq (ho.expect_of h.separator) fun _ => ho.pure ()) fun _ => ho.pure _

theorem law_forHead (c : Cursor) : Q c (forHead r) := by
  have ho := h.outer
  have hunless (stops : List Kind) (c : Cursor) := h.weaken (law_expressionUnless h hr stops c)
  refine ho.seq (ho.eat rfl c) fun found c => ?_
  split
  · refine ho.seq (law_loopInit h hr c) fun init c => ho.seq (hunless _ c) fun test c => ?_
    refine ho.seq (ho.seq (ho.expect_of h.separator) fun _ => ho.pure ()) fun _ c => ?_
    exact ho.seq (hunless _ c) fun post c => ho.seq (ho.sym rfl c) fun _ => ho.pure _
  · refine ho.seq (ho.ident c) fun item c => ho.seq (ho.word _ c) fun _ c => ?_
    exact ho.seq (h.weaken (hr.expr c).law) fun iterable => ho.pure _

theorem taking_forStmt (hc : c.kind = .word .forKw) : Taking P c (forStmt r) := by
  rw [forStmt_eq]
  refine h.taking_framed (hc ▸ rfl) (fun _ => law_forHead h hr) fun start make c => ?_
  exact h.first (taking_block h hr c) fun _ c _ => h.pure _ c

/-- All of a statement but the semicolon behind it stands inside the statement. -/
theorem taking_unclosed (c : Cursor) : Taking P c (unclosed r) := by
  have hexpression := taking_due h (taking_expressionFront h hr c)
  have hfunction := taking_complete h (taking_functionDecl h hr c)
  have hbinding (hc : c.kind.ends = false) := taking_due h (taking_bindingFront h hr hc)
  refine h.taking_onKind fun got hgot => ?_
  split
  · exact hbinding (hgot ▸ rfl)
  · exact hbinding (hgot ▸ rfl)
  · refine h.taking_lookAhead (Cursor.sees_one (hgot ▸ rfl)) fun k hk => ?_
    split
    · exact hfunction
    · exact hexpression
  · refine h.taking_lookAhead (Cursor.sees_one (hgot ▸ rfl)) fun k hk => ?_
    split
    · next heq =>
      refine h.taking_lookAhead (Cursor.sees_two (hgot ▸ rfl) (by rw [hk, heq]; rfl)) fun k _ => ?_
      split
      · exact hfunction
      · exact hexpression
    · exact hexpression
  · exact taking_due h (taking_returnFront h hr (hgot ▸ rfl))
  · exact taking_due h (taking_jumpFront h _ (hgot ▸ rfl))
  · exact taking_due h (taking_jumpFront h _ (hgot ▸ rfl))
  · exact taking_complete h (taking_conditional h hr c)
  · exact taking_complete h (taking_forStmt h hr hgot)
  · exact taking_complete h (taking_whileStmt h hr (hgot ▸ rfl))
  · exact taking_complete h (taking_loopStmt h hr (hgot ▸ rfl))
  · exact taking_complete h (h.first (taking_block h hr c) fun _ c _ => h.pure _ c)
  · exact taking_complete h (taking_classDecl h hr (hgot ▸ rfl))
  · exact taking_complete h (taking_interfaceDecl h hr (hgot ▸ rfl))
  · exact taking_complete h (taking_implDecl h hr (hgot ▸ rfl))
  · exact taking_due h (taking_requireFront h (hgot ▸ rfl))
  · exact hexpression

theorem taking_statement (c : Cursor) : Taking Q c (statement r) := by
  rw [statement_eq]
  exact h.outer.first (h.weaken_taking (taking_unclosed h hr c)) fun s c _ => law_closeStmt h s c

theorem obey_outside : (Rules.outside r).Obey P Q := by
  have htype (c : Cursor) := h.taking_nested (c := c) (taking_typeExpr h.toCore hr.type _)
  have hexpr (c : Cursor) := h.taking_nested (c := c) (taking_expression h hr _)
  have hoperand (c : Cursor) := h.taking_nested (c := c) (taking_unary h hr _)
  have hstmts (c : Cursor) := h.all (· = .sym .rbrace) (taking_statement h hr) c
  exact ⟨htype, hexpr, hoperand, fun c => h.outer.nested (hstmts _)⟩

omit hr in
theorem obey_levels (n : Nat) : (Rules.levels n).Obey P Q := by
  induction n with
  | zero =>
    exact ⟨h.taking_fail _, h.taking_fail _, h.taking_fail _, h.outer.fail _⟩
  | succ n ih => exact obey_outside h ih

end
end CarvFront.Grammar
