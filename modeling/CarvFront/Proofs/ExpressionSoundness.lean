import CarvFront.Proofs.Deriving

/-! What the grammar of types and expressions reads without a fault is a phrase of the tree it
returns. -/
namespace CarvFront.Grammar
open CarvFront.Parser CarvFront.Phrases
variable {n : Nat}

/-! ### Types -/

theorem typePhrases_eq (ts : List TypeExpr) : typePhrases ts = ts.map TypeExpr.phrases := by
  induction ts with
  | nil => rfl
  | cons t ts ih => rw [typePhrases, ih, List.map_cons]

theorem kind_of_basicType? {name : String} {t : BasicType} (h : basicType? name = some t) :
    t.kind = .ident name := by
  unfold basicType? at h
  split at h <;> cases h <;> rfl

theorem kind_ne_of_basicType? {name : String} (h : basicType? name = none) (t : BasicType) :
    t.kind ≠ .ident name := by
  rintro hname
  cases t <;> cases hname <;> cases h

/-- A sign that only closes a generic type in its first half leaves the other. -/
theorem derives_become {c : Cursor} {s rest : Symbol} (hk : c.kind = .sym s)
    (hs : ∀ ks, Spelt [.close] (.sym s :: ks) (.sym rest :: ks)) :
    Derives 1 (fun _ _ => closing) c (become (.sym rest)) := by
  obtain ⟨_ | ⟨t, ts⟩, prev, depth, faults⟩ := c
  · cases hk
  · refine ⟨Nat.le_refl _, nofun, fun _ _ _ => ⟨[.close], (one_mul _).le, ?_⟩⟩
    have hspelt := hs (ts.map Token.kind)
    rwa [← show t.kind = .sym s from hk] at hspelt

theorem derives_closing (c : Cursor) : Derives 1 (fun _ _ => closing) c (sym .greater) := by
  obtain ⟨hgrows, hfails, hreads⟩ := derives_sym c .greater
  refine ⟨hgrows, hfails, fun a ha hlen => ?_⟩
  obtain ⟨ts, hts, hspelt⟩ := hreads a ha hlen
  rw [one_mul] at hts
  obtain rfl : ts = [.token (.sym .greater)] := hts rfl
  refine ⟨[.close], (one_mul _).le, ?_⟩
  generalize c.kinds = ks at hspelt
  cases hspelt with
  | token _ h => exact .close h

/-- What is written is a phrase wherever the tree is said to stand. -/
def anywhere (L : Span → Phrases) : Phrases := {w | ∀ s, w ∈ L s}

theorem le_anywhere {L : Phrases} {M : Span → Phrases} (h : ∀ s, L ≤ M s) : L ≤ anywhere M :=
  fun _ hw s => h s hw

theorem anywhere_le (M : Span → Phrases) (s : Span) : anywhere M ≤ M s := fun _ hw => hw s

section
variable {type : Parser TypeExpr} (ht : ∀ c, Derives 1 (fun t _ => t.phrases) c type) (c : Cursor)
include ht

theorem derives_angled :
    Derives 1 (fun t _ => sign .less * t.phrases * closing) c (angled type) := by
  refine .seq (derives_sym c .less) fun _ c₁ => .seq (ht c₁) fun inner c₂ => ?_
  refine .peek fun k hk => ?_
  have hlast : 1 * sign .less * inner.phrases * closing ≤ sign .less * inner.phrases * closing := by
    rw [one_mul]
  split
  · exact .seq (derives_become hk fun _ => .closeShr (.nil _)) fun _ _ => .pure hlast
  · exact .seq (derives_become hk fun _ => .closeEq (.nil _)) fun _ _ => .pure hlast
  · exact .seq (derives_closing c₂) fun _ _ => .pure hlast

theorem derives_namedType (name : String) :
    Derives (called name) (fun make _ => anywhere fun s => (make s).phrases) c
      (namedType type name) := by
  unfold namedType
  split
  · next t hbasic =>
    refine .pure (le_anywhere fun s => ?_)
    rw [TypeExpr.phrases, kind_of_basicType? hbasic]
  · next hbasic =>
    refine .look (fun c => decide (c.kind = .sym .less)) ?_
    split
    · next hchan =>
      refine .seq (derives_angled ht c) fun inner c₁ => .pure (le_anywhere fun s => ?_)
      rw [hchan.1, TypeExpr.phrases]
      simp only [mul_assoc, le_refl]
    split
    · next hfuture =>
      refine .seq (derives_angled ht c) fun inner c₁ => .pure (le_anywhere fun s => ?_)
      rw [hfuture.1, TypeExpr.phrases]
      simp only [mul_assoc, le_refl]
    · refine .pure (le_anywhere fun s => ?_)
      rw [TypeExpr.phrases, given_of (kind_ne_of_basicType? hbasic), one_mul]

theorem derives_functionType :
    Derives (key .fnKw) (fun make _ => anywhere fun s => (make s).phrases) c
      (functionType type) := by
  refine .seq (derives_sym c .lparen) fun _ c₁ => ?_
  refine .seq (derives_items c₁ ht .rparen) fun params c₂ => ?_
  refine .look Cursor.prev ?_
  refine .seq (derives_eat_sym c₂ .arrow) fun arrow c₃ => ?_
  rw [← typePhrases_eq]
  cases arrow with
  | true =>
    refine .seq (ht c₃) fun ret c₄ => .pure (le_anywhere fun s => ?_)
    rw [TypeExpr.phrases]
    simp only [mul_assoc, upon_true]
    gcongr
    exact le_self_add
  | false =>
    refine .pure (le_anywhere fun s => ?_)
    rw [TypeExpr.phrases, given_of ⟨_, rfl⟩]
    simp only [mul_assoc, upon_false]
    gcongr
    exact le_add_self

theorem derives_bareType :
    Derives 1 (fun make _ => anywhere fun s => (make s).phrases) c (bareType type) := by
  refine .peek fun k hk => ?_
  split
  · refine .seq (derives_next hk nofun) fun _ c₁ => .pure (le_anywhere fun s => ?_)
    rw [TypeExpr.phrases, one_mul]
    exact le_rfl
  · refine .seq (derives_next hk nofun) fun _ c₁ => .seq (ht c₁) fun elem c₂ => ?_
    refine .seq (derives_sym c₂ .rbracket) fun _ c₃ => .pure (le_anywhere fun s => ?_)
    rw [TypeExpr.phrases, one_mul]
  · refine .seq (derives_next hk nofun) fun _ c₁ => .seq (ht c₁) fun key c₂ => ?_
    refine .seq (derives_sym c₂ .colon) fun _ c₃ => .seq (ht c₃) fun value c₄ => ?_
    refine .seq (derives_sym c₄ .rbrace) fun _ c₅ => .pure (le_anywhere fun s => ?_)
    rw [TypeExpr.phrases, one_mul]
  · refine .seq (derives_next hk nofun) fun _ c₁ => ?_
    exact (derives_functionType ht c₁).le (one_mul _).le
  · refine .seq (derives_next hk nofun) fun _ c₁ => ?_
    refine .seq (derives_eat_word c₁ .mutKw) fun mutable c₂ => .seq (ht c₂) fun inner c₃ => ?_
    refine .pure (le_anywhere fun s => ?_)
    rw [TypeExpr.phrases, one_mul]
  · next name =>
    refine .seq (derives_next hk nofun) fun _ c₁ => ?_
    exact (derives_namedType ht c₁ name).le (one_mul _).le
  · exact .fail _

omit ht in
theorem derives_optionalWithin (start : Span) (n : Nat) {t : TypeExpr} {L : Phrases}
    (hL : L ≤ t.phrases) : Derives L (fun t _ => t.phrases) c (optionalWithin start n t) := by
  induction n generalizing t L c with
  | zero => exact .pure hL
  | succ n ih =>
    refine .seq (derives_eat_sym c .question) fun question c₁ => ?_
    cases question with
    | true =>
      refine .look Cursor.prev (ih c₁ ?_)
      rw [TypeExpr.phrases]
      exact mul_le_mul_left hL _
    | false => exact .pure ((mul_one L).le.trans hL)

theorem derives_typeExpr : Derives 1 (fun t _ => t.phrases) c (typeExpr type) := by
  refine .look Cursor.span (.seq (derives_bareType ht c) fun make c₁ => ?_)
  refine .look Cursor.prev (.look (·.rest.length) (derives_optionalWithin c₁ _ _ ?_))
  rw [one_mul]
  exact anywhere_le _ _

end

/-! ### Expressions -/

theorem phrasesAll_eq (es : List Expr) : phrasesAll es = es.map Expr.phrases := by
  induction es with
  | nil => rfl
  | cons e es ih => rw [phrasesAll, ih, List.map_cons]

theorem entryPhrases_eq (es : List (Expr × Expr)) :
    entryPhrases es = es.map fun e => e.1.phrases * sign .colon * e.2.phrases := by
  induction es with
  | nil => rfl
  | cons e es ih => rw [entryPhrases, ih, List.map_cons]

theorem initPhrases_eq (fs : List (Ident × Expr)) :
    initPhrases fs = fs.map fun f => called f.1.name * sign .colon * f.2.phrases := by
  induction fs with
  | nil => rfl
  | cons f fs ih => rw [initPhrases, ih, List.map_cons]

/-- The phrases of an expression where one is asked for that binds as tightly as a level says. -/
def exprAt (n : Nat) (e : Expr) (_ : Kind) : Phrases :=
  e.tight n e.phrases

theorem exprAt_of_le {e : Expr} (h : n ≤ e.level) (k : Kind) : exprAt n e k = e.phrases := by
  rw [exprAt, Expr.tight, given_of h, one_mul]

theorem le_exprAt {e : Expr} (h : n ≤ e.level) {L : Phrases} (hL : L ≤ e.phrases) {k : Kind} :
    L ≤ exprAt n e k :=
  hL.trans (exprAt_of_le h k).ge

theorem exprAt_mono {m : Nat} (h : m ≤ n) (e : Expr) (k : Kind) : exprAt n e k ≤ exprAt m e k := by
  by_cases hn : n ≤ e.level
  · rw [exprAt_of_le hn, exprAt_of_le (h.trans hn)]
  · rw [exprAt, Expr.tight, given_not hn, zero_mul]
    exact bot_le

/-- A word in front of a signature says whether it is async. -/
theorem given_async_le (sig : Signature) (async : Bool) (A B : Phrases) :
    upon async (key .asyncKw) * A * (given (sig.async = async) * sig.phrases) * B ≤
      sig.asyncWord * A * sig.phrases * B := by
  by_cases h : sig.async = async
  · rw [given_of h, Signature.asyncWord, h, one_mul]
  · rw [given_not h, zero_mul, mul_zero, zero_mul]
    exact bot_le

/-- The rules for one level deeper derive what they return. -/
structure Rules.Sound (r : Rules) : Prop where
  type (c : Cursor) : Derives 1 (fun t _ => t.phrases) c r.type
  expr (c : Cursor) : Derives 1 (fun e _ => e.phrases) c r.expr
  operand (c : Cursor) : Derives 1 (exprAt 12) c r.operand
  stmts (c : Cursor) : Derives 1 (fun ss _ => series (stmtPhrases ss)) c r.stmts

section
variable {r : Rules} (hr : r.Sound) (c : Cursor)
variable {k : Kind} {e : Expr} {L : Phrases} {i : Nat}
include hr

theorem derives_block : Derives 1 (fun b _ => b.phrases) c (block r) := by
  refine .look Cursor.span (.seq (derives_sym c .lbrace) fun _ c₁ => ?_)
  refine .seq (hr.stmts c₁) fun stmts c₂ => .seq (derives_sym c₂ .rbrace) fun _ c₃ => ?_
  refine .look Cursor.prev (.pure ?_)
  rw [Block.phrases, one_mul]

theorem derives_annotated : Derives 1 (fun t _ => annotated t) c ( annotation r) := by
  refine .seq (derives_eat_sym c .colon) fun colon c₁ => ?_
  cases colon with
  | true =>
    refine .seq (hr.type c₁) fun t c₂ => .pure ?_
    rw [annotated, one_mul, upon_true]
  | false => exact .pure (one_mul _).le

theorem derives_param : Derives 1 (fun p _ => p.phrases) c (param r) := by
  refine .seq (derives_ident c) fun name c₁ => .seq (derives_annotated hr c₁) fun type c₂ => ?_
  refine .look Cursor.prev (.pure ?_)
  rw [Param.phrases, one_mul]

theorem derives_returnType : Derives 1 (fun t _ => returned t) c (returnType r) := by
  refine .seq (derives_eat_sym c .arrow) fun arrow c₁ => ?_
  cases arrow with
  | true =>
    refine .seq (hr.type c₁) fun t c₂ => .pure ?_
    rw [returned, one_mul, upon_true]
  | false => exact .pure (one_mul _).le

theorem derives_signature (async : Bool) :
    Derives 1 (fun sig _ => given (sig.async = async) * sig.phrases) c (signature r async) := by
  refine .seq (derives_items c (derives_param hr) .rparen) fun params c₁ => ?_
  refine .seq (derives_returnType hr c₁) fun ret c₂ => .pure ?_
  rw [given_of rfl, Signature.phrases, one_mul, one_mul]

theorem derives_lambda : Derives 1 (exprAt 14) c (lambda r) := by
  refine .look Cursor.span (.seq (derives_eat_word c .asyncKw) fun async c₁ => ?_)
  refine .seq (derives_word c₁ .fnKw) fun _ c₂ => .seq (derives_sym c₂ .lparen) fun _ c₃ => ?_
  refine .seq (derives_signature hr c₃ async) fun sig c₄ => ?_
  refine .seq (derives_block hr c₄) fun body c₅ => .pure (le_exprAt (Nat.le_refl 14) ?_)
  have hle := given_async_le sig async (key .fnKw * sign .lparen) body.phrases
  rw [Expr.phrases, one_mul]
  simpa only [mul_assoc] using hle

theorem derives_entry :
    Derives 1 (fun e _ => e.1.phrases * sign .colon * e.2.phrases) c (entry r) := by
  refine .seq (hr.expr c) fun key c₁ => .seq (derives_sym c₁ .colon) fun _ c₂ => ?_
  refine .seq (hr.expr c₂) fun value c₃ => .pure ?_
  rw [one_mul]

theorem derives_fieldInit :
    Derives 1 (fun f _ => called f.1.name * sign .colon * f.2.phrases) c (fieldInit r) := by
  refine .seq (derives_ident c) fun name c₁ => .seq (derives_sym c₁ .colon) fun _ c₂ => ?_
  refine .seq (hr.expr c₂) fun value c₃ => .pure ?_
  rw [one_mul]

omit hr in
theorem partPhrases_hole (start : String → Kind) (s : String) (e : Expr) (ps : List Part) :
    partPhrases start "" (textPart s ++ .hole e :: ps) =
      tok (start s) * tok .holeStart * e.phrases * tok .holeEnd *
        partPhrases .stringPart "" ps := by
  by_cases hs : s = ""
  · subst hs
    rw [textPart, if_pos (by decide), List.nil_append, partPhrases]
  · rw [textPart, if_neg (by simpa using hs), List.singleton_append, partPhrases,
      given_of ⟨rfl, hs⟩, one_mul, partPhrases]

omit hr in
theorem partPhrases_end (start : String → Kind) (s : String) :
    partPhrases start "" (textPart s) = tok (.stringEnd s) := by
  by_cases hs : s = ""
  · subst hs
    rw [textPart, if_pos (by decide), partPhrases]
  · rw [textPart, if_neg (by simpa using hs), partPhrases, given_of ⟨rfl, hs⟩, one_mul, partPhrases]

/-- The holes behind a piece of text, up to the end of the string. -/
theorem derives_holesWithin (n : Nat) (start : String → Kind) (s : String) :
    Derives (tok (start s))
      (fun ps _ => given (ps.any Part.isHole = true) * partPhrases start "" (textPart s ++ ps)) c
      (holesWithin r n) := by
  induction n generalizing c start s with
  | zero => exact .peek fun _ _ => .fail _
  | succ n ih =>
    refine .seq (derives_expect (k := .holeStart) nofun c) fun _ c₁ => ?_
    refine .seq (hr.expr c₁) fun e c₂ => ?_
    refine .seq (derives_expect (k := .holeEnd) nofun c₂) fun _ c₃ => .peek fun k hk => ?_
    split
    · next s' =>
      refine .seq (derives_next hk nofun) fun _ c₄ => ?_
      refine .seqBehind (ih c₄ .stringPart s') fun parts c₅ _ => .pure ?_
      refine le_given_mul rfl ?_
      rw [List.cons_append, partPhrases_hole]
      gcongr
      exact given_mul_le _ _
    · refine .seq (derives_next hk nofun) fun _ c₄ => .pure (le_given_mul rfl ?_)
      rw [partPhrases_hole, partPhrases_end]
    · exact .fail _

omit hr in
theorem tok_le_of_literal? {make : Span → Expr} (h : literal? k = some make) (s : Span) :
    (make s).level = 14 ∧ tok k ≤ (make s).phrases := by
  cases k with
  | word w =>
    cases w with
    | selfKw =>
      cases h
      refine ⟨rfl, ?_⟩
      rw [Expr.phrases, given_of rfl, one_mul]
      exact le_add_self
    | trueKw | falseKw | nilKw =>
      cases h
      exact ⟨rfl, by simp [Expr.phrases]⟩
    | _ => cases h
  | ident name =>
    cases h
    refine ⟨rfl, ?_⟩
    rw [Expr.phrases]
    exact le_self_add
  | int | float | string | char =>
    cases h
    exact ⟨rfl, by rw [Expr.phrases]⟩
  | _ => cases h

theorem derives_atom (hk : c.kind = k) :
    Derives 1 (fun make k => anywhere fun s => exprAt 14 (make s) k) c (atom r k) := by
  unfold atom
  split
  · next k _ _ make hmake =>
    have hne : k ≠ .eof := by
      rintro rfl
      cases hmake
    refine .seq (derives_next hk hne) fun _ c₁ => .pure (le_anywhere fun s => ?_)
    obtain ⟨hlevel, hle⟩ := tok_le_of_literal? hmake s
    exact le_exprAt hlevel.ge ((one_mul _).le.trans hle)
  · next s' _ =>
    refine .seq (derives_next hk nofun) fun _ c₁ => .look (·.rest.length) ?_
    refine .seqBehind (derives_holesWithin hr c₁ _ .stringStart s') fun parts c₂ _ => ?_
    refine .pure (le_anywhere fun s => le_exprAt (Nat.le_refl 14) ?_)
    rw [Expr.phrases, one_mul, List.any_append]
    gcongr
    rintro _ ⟨hparts, rfl⟩
    exact ⟨by rw [hparts, Bool.or_true], rfl⟩
  · refine .seq (derives_next hk nofun) fun _ c₁ => ?_
    refine .seq (derives_items c₁ hr.expr .rbracket) fun elems c₂ => ?_
    refine .pure (le_anywhere fun s => le_exprAt (Nat.le_refl 14) ?_)
    rw [Expr.phrases, phrasesAll_eq, one_mul, mul_assoc]
  · refine .seq (derives_next hk nofun) fun _ c₁ => ?_
    refine .seq (derives_items c₁ (derives_entry hr) .rbrace) fun entries c₂ => ?_
    refine .pure (le_anywhere fun s => le_exprAt (Nat.le_refl 14) ?_)
    rw [Expr.phrases, entryPhrases_eq, one_mul, mul_assoc]
  · refine .seq (derives_next hk nofun) fun _ c₁ => .seq (derives_ident c₁) fun cls c₂ => ?_
    refine .seq (derives_sym c₂ .lbrace) fun _ c₃ => ?_
    refine .seq (derives_items c₃ (derives_fieldInit hr) .rbrace) fun fields c₄ => ?_
    refine .pure (le_anywhere fun s => le_exprAt (Nat.le_refl 14) ?_)
    rw [Expr.phrases, initPhrases_eq, one_mul, mul_assoc (_ * _ * _)]
  · refine .seq (derives_next hk nofun) fun _ c₁ => .seq (hr.expr c₁) fun inner c₂ => ?_
    refine .seq (derives_sym c₂ .rparen) fun _ c₃ => ?_
    refine .pure (le_anywhere fun s => le_exprAt (Nat.le_refl 14) ?_)
    rw [Expr.phrases, one_mul]
  · exact .fail _

theorem derives_primary : Derives 1 (exprAt 14) c (primary r) := by
  refine .peek fun k hk => ?_
  split
  · exact derives_lambda hr c
  · exact derives_lambda hr c
  · refine .look Cursor.span (.seq (derives_atom hr c hk) fun make c₁ => ?_)
    refine .look Cursor.prev (.pure ?_)
    rw [one_mul]
    exact anywhere_le _ _

/-! #### Operators -/

theorem derives_postfixWithin (n : Nat) (hL : ∀ k, L ≤ exprAt 13 e k) :
    Derives L (exprAt 13) c (postfixWithin r n e) := by
  induction n generalizing c e L with
  | zero => exact .pure (hL _)
  | succ n ih =>
    refine .peek fun k hk => ?_
    split
    · refine .nested (.seq (derives_next hk nofun) fun _ c₁ => ?_)
      refine .seq (derives_items c₁ hr.expr .rparen) fun args c₂ => ?_
      refine .look Cursor.prev (ih c₂ fun k => le_exprAt (Nat.le_refl 13) ?_)
      rw [Expr.phrases, phrasesAll_eq, mul_assoc (_ * _)]
      gcongr
      exact hL k
    · refine .nested (.seq (derives_next hk nofun) fun _ c₁ => ?_)
      refine .seq (derives_memberName c₁) fun name c₂ => ?_
      refine ih c₂ fun k => le_exprAt (Nat.le_refl 13) ?_
      rw [Expr.phrases]
      gcongr
      exact hL k
    · refine .nested (.seq (derives_next hk nofun) fun _ c₁ => ?_)
      refine .seq (hr.expr c₁) fun index c₂ => .seq (derives_sym c₂ .rbracket) fun _ c₃ => ?_
      refine .look Cursor.prev (ih c₃ fun k => le_exprAt (Nat.le_refl 13) ?_)
      rw [Expr.phrases]
      gcongr
      exact hL k
    · exact .pure (hL _)

theorem derives_postfixed : Derives 1 (exprAt 13) c (postfixed r) := by
  refine .seq (derives_primary hr c) fun e c₁ => .look (·.rest.length) ?_
  refine derives_postfixWithin hr c₁ _ fun k => ?_
  rw [one_mul]
  exact exprAt_mono (by decide) e k

omit hr in
theorem tok_le_of_prefixed? {make : Span → Expr → Expr} (h : prefixed? k = some make) (s : Span)
    (e : Expr) (k' : Kind) : tok k * exprAt 12 e k' ≤ exprAt 12 (make s e) k' := by
  cases k with
  | sym t =>
    cases t with
    | minus | bang | tilde | star =>
      cases h
      refine le_exprAt (Nat.le_refl 12) ?_
      rw [Expr.phrases]
      exact le_rfl
    | _ => cases h
  | word w =>
    cases w with
    | awaitKw =>
      cases h
      refine le_exprAt (Nat.le_refl 12) ?_
      rw [Expr.phrases]
      exact le_rfl
    | _ => cases h
  | _ => cases h

theorem derives_unary : Derives 1 (exprAt 12) c (unary r) := by
  refine .look Cursor.span (.peek fun k hk => ?_)
  split
  · refine .seq (derives_next hk nofun) fun _ c₁ => ?_
    refine .seq (derives_eat_word c₁ .mutKw) fun mutable c₂ => ?_
    refine .seq (hr.operand c₂) fun operand c₃ => .pure (le_exprAt (Nat.le_refl 12) ?_)
    rw [Expr.phrases, one_mul]
    exact le_rfl
  split
  · next make hmake =>
    have hne : k ≠ .eof := by
      rintro rfl
      cases hmake
    refine .seq (derives_next hk hne) fun _ c₁ => .seq (hr.operand c₁) fun operand c₂ => .pure ?_
    rw [one_mul]
    exact tok_le_of_prefixed? hmake _ _ _
  · exact (derives_postfixed hr c).imp fun e k => exprAt_mono (by decide) e k

omit hr in
/-- The operators of a level are those that bind as tightly. -/
theorem eq_symbol_of_operator? {ops : List (Symbol × BinOp)} (hops : levels[i]? = some ops)
    {op : BinOp} (h : operator? ops k = some op) : k = .sym op.symbol ∧ op.level = i := by
  have hall : ∀ i < 10, ∀ p ∈ levels.getD i [], p.1 = p.2.symbol ∧ p.2.level = i := by decide
  obtain ⟨hi, rfl⟩ := List.getElem?_eq_some_iff.mp hops
  cases k with
  | sym s =>
    obtain ⟨before, behind, heq, -⟩ := List.lookup_eq_some_iff.mp h
    have hmem : (s, op) ∈ levels.getD i [] := by
      rw [List.getD_eq_getElem?_getD, List.getElem?_eq_getElem hi, Option.getD_some, heq]
      simp
    obtain ⟨hs, hlevel⟩ := hall i hi (s, op) hmem
    exact ⟨congrArg Kind.sym hs, hlevel⟩
  | _ => cases h

omit hr in
theorem derives_binaryWithin {ops : List (Symbol × BinOp)} (hops : levels[i]? = some ops)
    {operand : Parser Expr} (hoperand : ∀ c, Derives 1 (exprAt (i + 3)) c operand) (n : Nat)
    (hL : ∀ k, L ≤ exprAt (i + 2) e k) :
    Derives L (exprAt (i + 2)) c (binaryWithin ops operand n e) := by
  induction n generalizing c e L with
  | zero => exact .pure (hL _)
  | succ n ih =>
    refine .peek fun k hk => ?_
    split
    · next op hop =>
      obtain ⟨rfl, rfl⟩ := eq_symbol_of_operator? hops hop
      refine .nested (.seq (derives_next hk nofun) fun _ c₁ => ?_)
      refine .seq (hoperand c₁) fun right c₂ => ?_
      refine ih c₂ fun k => le_exprAt (Nat.le_refl (op.level + 2)) ?_
      rw [Expr.phrases]
      exact mul_le_mul_left (mul_le_mul_left (hL k) _) _
    · exact .pure (hL _)

theorem derives_binary (hi : i ≤ 10) : Derives 1 (exprAt (i + 2)) c (binary r (levels.drop i)) := by
  induction hi using Nat.decreasingInduction generalizing c with
  | self => exact derives_unary hr c
  | of_succ i hi ih =>
    have hlevel : levels[i]? = some levels[i] := List.getElem?_eq_getElem hi
    rw [List.drop_eq_getElem_cons hi]
    refine .seq (ih c) fun e c₁ => .look (·.rest.length) ?_
    refine derives_binaryWithin c₁ hlevel ih _ fun k => ?_
    rw [one_mul]
    exact exprAt_mono (Nat.le_succ _) e k

theorem derives_pipeWithin (n : Nat) (hL : ∀ k, L ≤ exprAt 1 e k) :
    Derives L (exprAt 1) c (pipeWithin r n e) := by
  induction n generalizing c e L with
  | zero => exact .pure (hL _)
  | succ n ih =>
    refine .seq (derives_eat_sym c .pipeGt) fun found c₁ => ?_
    cases found with
    | true =>
      rw [if_pos rfl]
      refine .nested (.seq (derives_binary hr _ (Nat.zero_le 10)) fun right c₂ => ?_)
      refine ih c₂ fun k => le_exprAt (Nat.le_refl 1) ?_
      rw [Expr.phrases]
      exact mul_le_mul_left (mul_le_mul_left (hL k) _) _
    | false => exact .pure ((mul_one L).le.trans (hL _))

theorem derives_pipe : Derives 1 (exprAt 1) c (pipe r) := by
  refine .seq (derives_binary hr c (Nat.zero_le 10)) fun e c₁ => .look (·.rest.length) ?_
  refine derives_pipeWithin hr c₁ _ fun k => ?_
  rw [one_mul]
  exact exprAt_mono (by decide) e k

omit hr in
theorem eq_symbol_of_assignOp? {op : AssignOp} (h : assignOp? k = some op) :
    k = .sym op.symbol := by
  cases k with
  | sym s => cases s <;> cases h <;> rfl
  | _ => cases h

theorem derives_expression : Derives 1 (fun e _ => e.phrases) c (expression r) := by
  refine .seq (derives_pipe hr c) fun target c₁ => .peek fun k hk => ?_
  split
  · next op hop =>
    obtain rfl := eq_symbol_of_assignOp? hop
    refine .seq (derives_next hk nofun) fun _ c₂ => .seq (hr.expr c₂) fun value c₃ => .pure ?_
    rw [Expr.phrases, one_mul]
    exact le_rfl
  · refine .pure ?_
    rw [one_mul]
    exact given_mul_le _ _

end

end CarvFront.Grammar
