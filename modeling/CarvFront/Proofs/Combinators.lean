import CarvFront.Grammar.Program

/-! What holds of the elementary parsers, and is kept when parsers are put together, holds of the
whole grammar. It may be a property of one parser or a relation of two that go on in step. -/
namespace CarvFront

/-- A text with holes is not complete: behind its text there is no hole, or behind a hole no
text. -/
def SyntaxError.brokenText : SyntaxError → Bool
  | .expected (.token .holeStart) _ | .expected .stringEnd _ => true
  | _ => false

def Cursor.kinds (c : Cursor) : List Kind :=
  c.rest.map Token.kind

theorem Cursor.headD_kinds (c : Cursor) : c.kinds.headD .eof = c.kind := by
  obtain ⟨_ | ⟨t, ts⟩, prev, depth, faults⟩ := c <;> rfl

section
variable {c c' : Cursor}

theorem Cursor.kind_congr (h : c.kinds = c'.kinds) : c.kind = c'.kind := by
  rw [← c.headD_kinds, ← c'.headD_kinds, h]

theorem Cursor.lookAhead_congr (h : c.kinds = c'.kinds) (n : Nat) :
    c.lookAhead n = c'.lookAhead n := by
  have hget (c : Cursor) : c.lookAhead n = c.kinds[n]?.getD .eof := by
    rw [Cursor.lookAhead, Cursor.kinds, List.getElem?_map]
    cases c.rest[n]? <;> rfl
  rw [hget, hget, h]

theorem Cursor.length_congr (h : c.kinds = c'.kinds) : c.rest.length = c'.rest.length := by
  have hkinds := congrArg List.length h
  rwa [Cursor.kinds, Cursor.kinds, List.length_map, List.length_map] at hkinds

end

/-- Skipping passes tokens one after another. -/
theorem Cursor.skipTo_rel {R : List Token → Span → List Token → Span → Prop}
    (refl : ∀ ts prev, R ts prev ts prev)
    (step : ∀ {t ts prev us last}, R ts t.span us last → R (t :: ts) prev us last) (moved : Bool)
    (ts : List Token) (prev : Span) :
    R ts prev (skipTo moved ts prev).1 (skipTo moved ts prev).2 := by
  induction ts generalizing moved prev with
  | nil => exact refl _ _
  | cons t ts ih =>
    rw [skipTo]
    split
    · exact refl _ _
    split
    · exact step (refl _ _)
    split
    · exact refl _ _
    split
    · exact step (refl _ _)
    · exact step (ih true t.span)

/-- Skipping only leaves tokens out from the front. -/
theorem Cursor.skipTo_suffix (moved : Bool) (ts : List Token) (prev : Span) :
    (skipTo moved ts prev).1 <:+ ts :=
  skipTo_rel (R := fun ts _ us _ => us <:+ ts) (fun _ _ => List.suffix_rfl)
    (fun h => h.trans (List.suffix_cons _ _)) moved ts prev

namespace Parser
variable {α β : Type}

theorem bind_of_some {p : Parser α} {c c' : Cursor} {a : α} (h : p c = (some a, c'))
    (f : α → Parser β) : (p >>= f) c = f a c' := by
  dsimp only [bind]
  rw [h]

theorem bind_of_none {p : Parser α} {c c' : Cursor} (h : p c = (none, c')) (f : α → Parser β) :
    (p >>= f) c = (none, c') := by
  dsimp only [bind]
  rw [h]

theorem expect_of_kind {c : Cursor} {k : Kind} (h : c.kind = k) :
    expect k c = (some c.span, c.next) := by
  have hpeek : peek c = (some c.kind, c) := rfl
  rw [expect, bind_of_some hpeek, if_pos h]
  rfl

theorem expect_of_other {c : Cursor} {k : Kind} (h : c.kind ≠ k) :
    expect k c = (none, c.report (.expected (.token k) c.kind)) := by
  have hpeek : peek c = (some c.kind, c) := rfl
  rw [expect, bind_of_some hpeek, if_neg h]
  rfl

instance : LawfulMonad Parser :=
  LawfulMonad.mk' Parser
    (by
      intro α p
      funext c
      change (match p c with | (some a, c') => (some a, c') | (none, c') => (none, c')) = _
      split <;> simp_all)
    (fun _ _ => rfl)
    (by
      intro α β γ p f g
      funext c
      rcases h : p c with ⟨_ | a, c'⟩
      · rw [bind_of_none h, bind_of_none (bind_of_none h f)]
      · rw [bind_of_some h]
        rcases h' : f a c' with ⟨_ | b, c''⟩
        · rw [bind_of_none h', bind_of_none (h' ▸ bind_of_some h f)]
        · rw [bind_of_some h', bind_of_some (h' ▸ bind_of_some h f)])

/-- A parser that is only run at a token of one kind. -/
def onlyAt (k : Kind) (p : Parser α) : Parser α := fun c =>
  if c.kind = k then p c else fail .nestingLimit c

/-- A relation of parsers that the elementary ones have to themselves and that putting parsers
together keeps. The kinds of the tokens may decide how both go on; what they give may differ. Only
texts with holes may be said to be not complete by parsers without it. -/
structure Paired (P : ∀ ⦃α : Type⦄, Parser α → Parser α → Prop) : Prop where
  pure {α : Type} (a b : α) : P (pure a) (pure b)
  seq {α β : Type} {p p' : Parser α} {f f' : α → Parser β} (hp : P p p')
    (hf : ∀ a b, P (f a) (f' b)) : P (p >>= f) (p' >>= f')
  fail {α : Type} (e : SyntaxError) (he : e.brokenText = false) : P (fail e : Parser α) (fail e)
  report (e : SyntaxError) (he : e.brokenText = false) : P (report e) (report e)
  /-- What both see alike. -/
  sees {α β : Type} {get : Cursor → α} (hget : ∀ c c', c.kinds = c'.kinds → get c = get c')
    {f f' : α → Parser β} (hf : ∀ a, P (f a) (f' a)) :
    P ((fun c => (some (get c), c) : Parser α) >>= f)
      ((fun c => (some (get c), c) : Parser α) >>= f')
  here : P here here
  before : P before before
  next : P next next
  /-- No sign becomes a question mark. -/
  become (s : Symbol) (hs : s ≠ .question) : P (become (.sym s)) (become (.sym s))
  nested {α : Type} {p p' : Parser α} (hp : P p p') : P (nested p) (nested p')
  all {α : Type} (stop : Kind → Bool) {p p' : Parser α} (hp : P p p') : P (all stop p) (all stop p')

/-- A relation of parsers that texts with holes have to themselves, too, where they are begun. -/
structure Closed (P : ∀ ⦃α : Type⦄, Parser α → Parser α → Prop) : Prop extends Paired P where
  text {r : Grammar.Rules} (hr : P r.expr r.expr) (s : String) :
    P (onlyAt (.stringStart s) (Grammar.atom r (.stringStart s)))
      (onlyAt (.stringStart s) (Grammar.atom r (.stringStart s)))

/-- A property of one parser. -/
abbrev Alone (P : ∀ ⦃α : Type⦄, Parser α → Prop) ⦃α : Type⦄ (p _ : Parser α) : Prop :=
  P p

/-- A property of parsers that the elementary ones have and that putting parsers together keeps. -/
structure Steps (P : ∀ ⦃α : Type⦄, Parser α → Prop) : Prop where
  pure {α : Type} (a : α) : P (pure a)
  seq {α β : Type} {p : Parser α} {f : α → Parser β} (hp : P p) (hf : ∀ a, P (f a)) : P (p >>= f)
  fail {α : Type} (e : SyntaxError) (he : e.brokenText = false) : P (fail e : Parser α)
  report (e : SyntaxError) (he : e.brokenText = false) : P (report e)
  /-- Parsers that only look at the tokens. -/
  look {α : Type} (get : List Token → Span → α) : P fun c => (some (get c.rest c.prev), c)
  next : P next
  become (s : Symbol) (hs : s ≠ .question) : P (become (.sym s))
  nested {α : Type} {p : Parser α} (hp : P p) : P (nested p)
  all {α : Type} (stop : Kind → Bool) {p : Parser α} (hp : P p) : P (all stop p)

/-- Where reading may get to from a place: wherever each step and what is skipped lead. -/
structure Course (R : Cursor → Cursor → Prop) : Prop where
  refl (c : Cursor) : R c c
  trans {c c' c'' : Cursor} (h : R c c') (h' : R c' c'') : R c c''
  report (e : SyntaxError) (he : e.brokenText = false) (c : Cursor) : R c (c.report e)
  next (c : Cursor) : R c c.next
  become (s : Symbol) (hs : s ≠ .question) (c : Cursor) : R c (become (.sym s) c).2
  inside {c c' : Cursor} (h : R { c with depth := c.depth + 1 } c') :
    R c { c' with depth := c'.depth - 1 }
  recover (c : Cursor) : R c c.recover

namespace Course
variable {R : Cursor → Cursor → Prop} (h : Course R)
include h

theorem seq {p : Parser α} {f : α → Parser β} (hp : ∀ c, R c (p c).2) (hf : ∀ a c, R c (f a c).2)
    (c : Cursor) : R c ((p >>= f) c).2 := by
  have hc := hp c
  rcases hres : p c with ⟨_ | a, c'⟩ <;> rw [hres] at hc
  · rwa [bind_of_none hres]
  · rw [bind_of_some hres]
    exact h.trans hc (hf a c')

theorem allWithin (stop : Kind → Bool) {item : Parser α} (hitem : ∀ c, R c (item c).2) (n : Nat)
    (c : Cursor) : R c (allWithin stop item n c).2 := by
  induction n generalizing c with
  | zero => exact h.refl c
  | succ n ih =>
    rw [Parser.allWithin]
    split
    · exact h.refl c
    have hc := hitem c
    rcases hres : item c with ⟨_ | a, c'⟩ <;> rw [hres] at hc
    · exact h.trans (h.trans hc (h.recover c')) (ih _)
    · exact h.trans hc (ih c')

theorem steps : Steps fun ⦃α⦄ (p : Parser α) => ∀ c, R c (p c).2 where
  pure _ := h.refl
  seq := h.seq
  fail := h.report
  report := h.report
  look _ := h.refl
  next := h.next
  become := h.become
  nested hp c := by
    unfold Parser.nested
    split
    · exact h.report _ rfl c
    · exact h.inside (hp _)
  all stop _ hitem c := h.allWithin stop hitem c.rest.length c

end Course

theorem isAt_bind_ite (k : Kind) (p q : Parser α) (c : Cursor) :
    (isAt k >>= fun found => if found then p else q) c = if c.kind = k then p c else q c := by
  have hat : isAt k c = (some (decide (c.kind = k)), c) := rfl
  rw [bind_of_some hat]
  by_cases hk : c.kind = k
  · rw [if_pos hk, if_pos (decide_eq_true hk)]
  · rw [if_neg hk, if_neg (by simp [hk])]

theorem eat_eq (k : Kind) :
    eat k = isAt k >>= fun found => if found then next >>= fun _ => pure true else pure false := by
  funext c
  rw [isAt_bind_ite]
  rfl

theorem onlyAt_eq (k : Kind) (p : Parser α) :
    onlyAt k p = isAt k >>= fun found => if found then p else fail .nestingLimit := by
  funext c
  rw [isAt_bind_ite]
  rfl

/-- What is done with the kind of the token here is done at a token of that kind. -/
theorem peek_onlyAt (f : Kind → Parser α) : peek >>= f = peek >>= fun k => onlyAt k (f k) := by
  funext c
  have hat : peek c = (some c.kind, c) := rfl
  rw [bind_of_some hat, bind_of_some hat, onlyAt, if_pos rfl]

theorem onlyAt_bind (k : Kind) (p : Parser α) (f : α → Parser β) :
    onlyAt k (p >>= f) = onlyAt k p >>= f := by
  rw [onlyAt_eq, onlyAt_eq, bind_assoc]
  congr 1
  funext found
  cases found <;> rfl

theorem onlyAt_look (k : Kind) (get : Cursor → α) (f : α → Parser β) :
    onlyAt k ((fun c => (some (get c), c) : Parser α) >>= f) =
      (fun c => (some (get c), c) : Parser α) >>= fun a => onlyAt k (f a) := by
  funext c
  have hlook (g : α → Parser β) :
      ((fun c => (some (get c), c) : Parser α) >>= g) c = g (get c) c := rfl
  rw [hlook, onlyAt, onlyAt, hlook]

/-! ### Parsers made of a few steps -/

namespace Paired
variable {P : ∀ ⦃α : Type⦄, Parser α → Parser α → Prop} (h : Paired P)
include h

theorem peek {f f' : Kind → Parser α} (hf : ∀ k, P (f k) (f' k)) :
    P (peek >>= f) (peek >>= f') :=
  h.sees (fun _ _ => Cursor.kind_congr) hf

theorem lookAhead (n : Nat) {f f' : Kind → Parser α}
    (hf : ∀ k, P (f k) (f' k)) : P (lookAhead n >>= f) (lookAhead n >>= f') :=
  h.sees (fun _ _ hkinds => Cursor.lookAhead_congr hkinds n) hf

theorem remaining {f f' : Nat → Parser α} (hf : ∀ n, P (f n) (f' n)) :
    P (remaining >>= f) (remaining >>= f') :=
  h.sees (fun _ _ => Cursor.length_congr) hf

theorem isAt (k : Kind) {f f' : Bool → Parser α}
    (hf : ∀ b, P (f b) (f' b)) : P (isAt k >>= f) (isAt k >>= f') :=
  h.sees (fun _ _ hkinds => by rw [Cursor.kind_congr hkinds]) hf

theorem onlyAt (k : Kind) {p p' : Parser α} (hp : P p p') :
    P (onlyAt k p) (onlyAt k p') := by
  rw [onlyAt_eq, onlyAt_eq]
  refine h.isAt k fun found => ?_
  split
  · exact hp
  · exact h.fail _ rfl

theorem eat (k : Kind) {f f' : Bool → Parser α} (hf : ∀ b, P (f b) (f' b)) :
    P (eat k >>= f) (eat k >>= f') := by
  rw [eat_eq, bind_assoc, bind_assoc]
  refine h.isAt k fun found => ?_
  split
  · rw [bind_assoc, bind_assoc]
    exact h.seq h.next fun _ _ => hf true
  · exact hf false

theorem expect (k : Kind) (hk : k ≠ .holeStart) : P (expect k) (expect k) := by
  refine h.peek fun got => ?_
  split
  · exact h.next
  · refine h.fail _ ?_
    unfold SyntaxError.brokenText
    split <;> simp_all

theorem sym (s : Symbol) : P (sym s) (sym s) :=
  h.seq (h.expect _ nofun) fun _ _ => h.pure () ()

theorem word (w : Keyword) : P (word w) (word w) :=
  h.seq (h.expect _ nofun) fun _ _ => h.pure () ()

theorem semicolon : P semicolon semicolon := by
  refine h.eat _ fun found => ?_
  split
  · exact h.pure () ()
  refine h.peek fun got => ?_
  split
  · exact h.pure () ()
  · exact h.report _ rfl

theorem ident : P ident ident := by
  refine h.peek fun got => ?_
  split
  · exact h.seq h.next fun _ _ => h.pure _ _
  · exact h.fail _ rfl

theorem memberName : P memberName memberName := by
  refine h.peek fun got => ?_
  split
  · exact h.seq h.next fun _ _ => h.pure _ _
  · exact h.seq h.next fun _ _ => h.pure _ _
  · exact h.fail _ rfl

theorem stringLiteral : P stringLiteral stringLiteral := by
  refine h.peek fun got => ?_
  split
  · exact h.seq h.next fun _ _ => h.pure _ _
  · exact h.fail _ rfl

theorem itemsWithin (close : Kind) {item : Parser α} (hitem : P item item) (n : Nat) :
    P (itemsWithin close item n) (itemsWithin close item n) := by
  induction n with
  | zero => exact h.pure [] []
  | succ n ih =>
    refine h.peek fun got => ?_
    split
    · exact h.pure [] []
    refine h.seq hitem fun _ _ => h.eat _ fun comma => ?_
    split
    · exact h.seq ih fun _ _ => h.pure _ _
    · exact h.pure _ _

theorem items (close : Symbol) {item : Parser α} (hitem : P item item) :
    P (items close item) (items close item) := by
  refine h.remaining fun n => h.seq (h.itemsWithin _ hitem n) fun _ _ => ?_
  exact h.seq (h.sym close) fun _ _ => h.pure _ _

end Paired

section
variable {P : ∀ ⦃α : Type⦄, Parser α → Parser α → Prop} (h : Paired P)
  (hfail : ∀ {α : Type} (e : SyntaxError), P (Parser.fail e : Parser α) (Parser.fail e))
include h hfail

theorem Paired.expect_of_fail (k : Kind) : P (Parser.expect k) (Parser.expect k) := by
  refine h.peek fun got => ?_
  split
  · exact h.next
  · exact hfail _

theorem Paired.holesWithin {r : Grammar.Rules} (hr : P r.expr r.expr) (n : Nat) :
    P (Grammar.holesWithin r n) (Grammar.holesWithin r n) := by
  have hexpect := h.expect_of_fail hfail
  induction n with
  | zero => exact h.peek fun _ => hfail _
  | succ n ih =>
    refine h.seq (hexpect _) fun _ _ => h.seq hr fun _ _ => h.seq (hexpect _) fun _ _ => ?_
    refine h.peek fun got => ?_
    split
    · exact h.seq h.next fun _ _ => h.seq ih fun _ _ => h.pure _ _
    · exact h.seq h.next fun _ _ => h.pure _ _
    · exact hfail _

/-- A relation that all failures have, too, needs nothing more. -/
theorem Paired.closed : Closed P := by
  refine ⟨h, fun {r} hr s => h.onlyAt _ ?_⟩
  refine h.seq h.next fun _ _ => h.remaining fun n => ?_
  exact h.seq (h.holesWithin hfail hr n) fun _ _ => h.pure _ _

end

namespace Steps
variable {P : ∀ ⦃α : Type⦄, Parser α → Prop} (h : Steps P)
include h

theorem paired : Paired (Alone P) where
  pure a _ := h.pure a
  seq hp hf := h.seq hp fun a => hf a a
  fail e := h.fail e
  report := h.report
  sees := by
    intro α β get hget f f' hf
    have hrest : (fun c => (some (get c), c) : Parser α) =
        fun c => (some (get ⟨c.rest, c.prev, 0, []⟩), c) := by
      funext c
      rw [hget c ⟨c.rest, c.prev, 0, []⟩ rfl]
    refine h.seq ?_ hf
    rw [hrest]
    exact h.look fun ts prev => get ⟨ts, prev, 0, []⟩
  here := h.look fun ts prev => Cursor.span ⟨ts, prev, 0, []⟩
  before := h.look fun _ prev => prev
  next := h.next
  become := h.become
  nested hp := h.nested hp
  all stop _ _ hp := h.all stop hp

theorem peek : P peek :=
  h.look fun ts prev => Cursor.kind ⟨ts, prev, 0, []⟩

theorem lookAhead (n : Nat) : P (lookAhead n) :=
  h.look fun ts prev => Cursor.lookAhead ⟨ts, prev, 0, []⟩ n

theorem isAt (k : Kind) : P (isAt k) :=
  h.look fun ts prev => decide (Cursor.kind ⟨ts, prev, 0, []⟩ = k)

theorem here : P here :=
  h.paired.here

theorem before : P before :=
  h.paired.before

theorem remaining : P remaining :=
  h.look fun ts _ => ts.length

theorem eat (k : Kind) : P (eat k) := by
  have heat : Alone P (Parser.eat k >>= Pure.pure) (Parser.eat k >>= Pure.pure) :=
    h.paired.eat k fun found => h.pure found
  rwa [bind_pure] at heat

theorem sym (s : Symbol) : P (sym s) :=
  h.paired.sym s

theorem word (w : Keyword) : P (word w) :=
  h.paired.word w

theorem semicolon : P semicolon :=
  h.paired.semicolon

theorem ident : P ident :=
  h.paired.ident

theorem memberName : P memberName :=
  h.paired.memberName

theorem stringLiteral : P stringLiteral :=
  h.paired.stringLiteral

theorem items (close : Symbol) {item : Parser α} (hitem : P item) : P (items close item) :=
  h.paired.items close hitem

theorem closed (hfail : ∀ {α : Type} (e : SyntaxError), P (Parser.fail e : Parser α)) :
    Closed (Alone P) :=
  h.paired.closed hfail

end Steps

end Parser
end CarvFront

namespace CarvFront.Grammar
open CarvFront.Parser
variable {P : ∀ ⦃α : Type⦄, Parser α → Parser α → Prop} (h : Closed P)

/-! ### Types -/

section
variable {type : Parser TypeExpr} (ht : P type type)
include h ht

theorem closed_angled : P (angled type) (angled type) := by
  refine h.seq (h.sym _) fun _ _ => h.seq ht fun _ _ => h.peek fun got => ?_
  split
  · exact h.seq (h.become _ (by decide)) fun _ _ => h.pure _ _
  · exact h.seq (h.become _ (by decide)) fun _ _ => h.pure _ _
  · exact h.seq (h.sym _) fun _ _ => h.pure _ _

theorem closed_namedType (name : String) : P (namedType type name) (namedType type name) := by
  unfold namedType
  split
  · exact h.pure _ _
  refine h.isAt _ fun generic => ?_
  split
  · exact h.seq (closed_angled h ht) fun _ _ => h.pure _ _
  split
  · exact h.seq (closed_angled h ht) fun _ _ => h.pure _ _
  · exact h.pure _ _

theorem closed_functionType : P (functionType type) (functionType type) := by
  refine h.seq (h.sym _) fun _ _ => h.seq (h.items _ ht) fun _ _ => ?_
  refine h.seq h.before fun _ _ => h.eat _ fun arrow => ?_
  split
  · exact h.seq ht fun _ _ => h.pure _ _
  · exact h.pure _ _

theorem closed_bareType : P (bareType type) (bareType type) := by
  refine h.peek fun got => ?_
  split
  · exact h.seq h.next fun _ _ => h.pure _ _
  · exact h.seq h.next fun _ _ => h.seq ht fun _ _ => h.seq (h.sym _) fun _ _ => h.pure _ _
  · refine h.seq h.next fun _ _ => h.seq ht fun _ _ => h.seq (h.sym _) fun _ _ => ?_
    exact h.seq ht fun _ _ => h.seq (h.sym _) fun _ _ => h.pure _ _
  · exact h.seq h.next fun _ _ => closed_functionType h ht
  · exact h.seq h.next fun _ _ => h.eat _ fun _ => h.seq ht fun _ _ => h.pure _ _
  · exact h.seq h.next fun _ _ => closed_namedType h ht _
  · exact h.fail _ rfl

omit ht in
theorem closed_optionalWithin (n : Nat) (start start' : Span) (t t' : TypeExpr) :
    P (optionalWithin start n t) (optionalWithin start' n t') := by
  induction n generalizing t t' with
  | zero => exact h.pure t t'
  | succ n ih =>
    refine h.eat _ fun question => ?_
    split
    · exact h.seq h.before fun _ _ => ih _ _
    · exact h.pure t t'

theorem closed_typeExpr : P (typeExpr type) (typeExpr type) := by
  refine h.seq h.here fun _ _ => h.seq (closed_bareType h ht) fun _ _ => ?_
  exact h.seq h.before fun _ _ => h.remaining fun n => closed_optionalWithin h n _ _ _ _

end

/-- The rules for one level deeper all stand in a relation to themselves. -/
structure Rules.All (P : ∀ ⦃α : Type⦄, Parser α → Parser α → Prop) (r : Rules) : Prop where
  type : P r.type r.type
  expr : P r.expr r.expr
  operand : P r.operand r.operand
  stmts : P r.stmts r.stmts

section
variable {r : Rules} (hr : r.All P)
include h hr

/-! ### Expressions -/

theorem closed_block : P (block r) (block r) := by
  refine h.seq h.here fun _ _ => h.seq (h.sym _) fun _ _ => h.seq hr.stmts fun _ _ => ?_
  exact h.seq (h.sym _) fun _ _ => h.seq h.before fun _ _ => h.pure _ _

theorem closed_annotated : P ( annotation r) ( annotation r) := by
  refine h.eat _ fun colon => ?_
  split
  · exact h.seq hr.type fun _ _ => h.pure _ _
  · exact h.pure _ _

theorem closed_param : P (param r) (param r) :=
  h.seq h.ident fun _ _ => h.seq (closed_annotated h hr) fun _ _ => h.seq h.before fun _ _ =>
    h.pure _ _

theorem closed_returnType : P (returnType r) (returnType r) := by
  refine h.eat _ fun arrow => ?_
  split
  · exact h.seq hr.type fun _ _ => h.pure _ _
  · exact h.pure _ _

theorem closed_signature (async async' : Bool) :
    P (signature r async) (signature r async') :=
  h.seq (h.items _ (closed_param h hr)) fun _ _ => h.seq (closed_returnType h hr) fun _ _ =>
    h.pure _ _

theorem closed_lambda : P (lambda r) (lambda r) := by
  refine h.seq h.here fun _ _ => h.eat _ fun async => ?_
  refine h.seq (h.word _) fun _ _ => h.seq (h.sym _) fun _ _ => ?_
  refine h.seq (closed_signature h hr async async) fun _ _ => ?_
  exact h.seq (closed_block h hr) fun _ _ => h.pure _ _

theorem closed_entry : P (entry r) (entry r) :=
  h.seq hr.expr fun _ _ => h.seq (h.sym _) fun _ _ => h.seq hr.expr fun _ _ => h.pure _ _

theorem closed_fieldInit : P (fieldInit r) (fieldInit r) :=
  h.seq h.ident fun _ _ => h.seq (h.sym _) fun _ _ => h.seq hr.expr fun _ _ => h.pure _ _

theorem closed_atom (k : Kind) : P (onlyAt k (atom r k)) (onlyAt k (atom r k)) := by
  unfold atom
  split
  · exact h.onlyAt _ (h.seq h.next fun _ _ => h.pure _ _)
  · exact h.text hr.expr _
  · exact h.onlyAt _ (h.seq h.next fun _ _ => h.seq (h.items _ hr.expr) fun _ _ => h.pure _ _)
  · refine h.onlyAt _ (h.seq h.next fun _ _ => ?_)
    exact h.seq (h.items _ (closed_entry h hr)) fun _ _ => h.pure _ _
  · refine h.onlyAt _ (h.seq h.next fun _ _ => h.seq h.ident fun _ _ => ?_)
    exact h.seq (h.sym _) fun _ _ => h.seq (h.items _ (closed_fieldInit h hr)) fun _ _ => h.pure _ _
  · refine h.onlyAt _ (h.seq h.next fun _ _ => h.seq hr.expr fun _ _ => ?_)
    exact h.seq (h.sym _) fun _ _ => h.pure _ _
  · exact h.onlyAt _ (h.fail _ rfl)

theorem closed_primary : P (primary r) (primary r) := by
  unfold primary
  rw [peek_onlyAt]
  refine h.peek fun got => ?_
  split
  · exact h.onlyAt _ (closed_lambda h hr)
  · exact h.onlyAt _ (closed_lambda h hr)
  · unfold Parser.here
    rw [onlyAt_look]
    refine h.seq h.here fun start start' => ?_
    rw [onlyAt_bind, onlyAt_bind]
    exact h.seq (closed_atom h hr _) fun _ _ => h.seq h.before fun _ _ => h.pure _ _

theorem closed_postfixWithin (n : Nat) (e e' : Expr) :
    P (postfixWithin r n e) (postfixWithin r n e') := by
  induction n generalizing e e' with
  | zero => exact h.pure e e'
  | succ n ih =>
    refine h.peek fun got => ?_
    split
    · refine h.nested (h.seq h.next fun _ _ => h.seq (h.items _ hr.expr) fun _ _ => ?_)
      exact h.seq h.before fun _ _ => ih _ _
    · exact h.nested (h.seq h.next fun _ _ => h.seq h.memberName fun _ _ => ih _ _)
    · refine h.nested (h.seq h.next fun _ _ => h.seq hr.expr fun _ _ => ?_)
      exact h.seq (h.sym _) fun _ _ => h.seq h.before fun _ _ => ih _ _
    · exact h.pure e e'

theorem closed_postfixed : P (postfixed r) (postfixed r) :=
  h.seq (closed_primary h hr) fun _ _ => h.remaining fun n => closed_postfixWithin h hr n _ _

theorem closed_unary : P (unary r) (unary r) := by
  refine h.seq h.here fun _ _ => h.peek fun got => ?_
  split
  · exact h.seq h.next fun _ _ => h.eat _ fun _ => h.seq hr.operand fun _ _ => h.pure _ _
  split
  · exact h.seq h.next fun _ _ => h.seq hr.operand fun _ _ => h.pure _ _
  · exact closed_postfixed h hr

omit hr in
theorem closed_binaryWithin (ops : List (Symbol × BinOp)) {operand : Parser Expr}
    (hoperand : P operand operand) (n : Nat) (e e' : Expr) :
    P (binaryWithin ops operand n e) (binaryWithin ops operand n e') := by
  induction n generalizing e e' with
  | zero => exact h.pure e e'
  | succ n ih =>
    refine h.peek fun got => ?_
    split
    · exact h.nested (h.seq h.next fun _ _ => h.seq hoperand fun _ _ => ih _ _)
    · exact h.pure e e'

theorem closed_binary (ls : List (List (Symbol × BinOp))) :
    P (binary r ls) (binary r ls) := by
  induction ls with
  | nil => exact closed_unary h hr
  | cons ops tighter ih =>
    exact h.seq ih fun _ _ => h.remaining fun n => closed_binaryWithin h ops ih n _ _

theorem closed_pipeWithin (n : Nat) (e e' : Expr) :
    P (pipeWithin r n e) (pipeWithin r n e') := by
  induction n generalizing e e' with
  | zero => exact h.pure e e'
  | succ n ih =>
    refine h.eat _ fun found => ?_
    split
    · exact h.nested (h.seq (closed_binary h hr levels) fun _ _ => ih _ _)
    · exact h.pure e e'

theorem closed_pipe : P (pipe r) (pipe r) :=
  h.seq (closed_binary h hr levels) fun _ _ => h.remaining fun n => closed_pipeWithin h hr n _ _

theorem closed_expression : P (expression r) (expression r) := by
  refine h.seq (closed_pipe h hr) fun _ _ => h.peek fun got => ?_
  split
  · exact h.seq h.next fun _ _ => h.seq hr.expr fun _ _ => h.pure _ _
  · exact h.pure _ _

/-! ### Declarations -/

theorem closed_functionDecl : P (functionDecl r) (functionDecl r) := by
  refine h.seq h.here fun _ _ => h.eat _ fun async => h.seq (h.word _) fun _ _ => ?_
  refine h.seq h.ident fun _ _ => h.seq (h.sym _) fun _ _ => ?_
  refine h.seq (closed_signature h hr async async) fun _ _ => ?_
  exact h.seq (closed_block h hr) fun _ _ => h.pure _ _

omit hr in
theorem closed_receiver : P receiver receiver := by
  refine h.peek fun k => h.lookAhead 1 fun k₁ => h.lookAhead 2 fun k₂ => ?_
  have hlast (who : Receiver) : P (next >>= fun _ => eat (.sym .comma) >>= fun _ =>
      (pure who : Parser Receiver)) (next >>= fun _ => eat (.sym .comma) >>= fun _ =>
      (pure who : Parser Receiver)) :=
    h.seq h.next fun _ _ => h.eat _ fun _ => h.pure who who
  split
  · exact hlast .value
  · exact h.seq h.next fun _ _ => hlast .ref
  · exact h.seq h.next fun _ _ => h.seq h.next fun _ _ => hlast .refMut
  · exact h.pure _ _

theorem closed_method : P (method r) (method r) := by
  refine h.seq h.here fun _ _ => h.eat _ fun async => h.seq (h.word _) fun _ _ => ?_
  refine h.seq h.ident fun _ _ => h.seq (h.sym _) fun _ _ => h.seq (closed_receiver h) fun _ _ => ?_
  refine h.seq (closed_signature h hr async async) fun _ _ => ?_
  exact h.seq (closed_block h hr) fun _ _ => h.pure _ _

theorem closed_methodHead : P (methodHead r) (methodHead r) := by
  refine h.seq h.here fun _ _ => h.seq (h.word _) fun _ _ => h.seq h.ident fun _ _ => ?_
  refine h.seq (h.sym _) fun _ _ => h.seq (closed_receiver h) fun _ _ => ?_
  refine h.seq (closed_signature h hr false false) fun _ _ => h.seq h.before fun _ _ => ?_
  exact h.seq h.semicolon fun _ _ => h.pure _ _

theorem closed_field : P (field r) (field r) := by
  have hlast (make make' : Span → Field) : P (do
      let stop ← before
      if ← eat (.sym .comma) then pure ()
      else
        let _ ← eat (.sym .semicolon)
      pure (make stop)) (do
      let stop ← before
      if ← eat (.sym .comma) then pure ()
      else
        let _ ← eat (.sym .semicolon)
      pure (make' stop)) := by
    refine h.seq h.before fun _ _ => h.eat _ fun comma => ?_
    split
    · exact h.pure _ _
    · exact h.eat _ fun _ => h.pure _ _
  refine h.seq h.ident fun _ _ => h.seq (h.sym _) fun _ _ => h.seq hr.type fun _ _ => ?_
  refine h.eat _ fun eq => ?_
  split
  · exact h.seq hr.expr fun _ _ => h.seq (h.pure _ _) fun _ _ => hlast _ _
  · exact h.seq (h.pure none none) fun _ _ => hlast _ _

theorem closed_classItem : P (classItem r) (classItem r) := by
  refine h.peek fun got => ?_
  split
  · exact h.seq (closed_method h hr) fun _ _ => h.pure _ _
  · exact h.seq (closed_method h hr) fun _ _ => h.pure _ _
  · exact h.seq (closed_field h hr) fun _ _ => h.pure _ _
  · exact h.fail _ rfl

theorem closed_classDecl : P (classDecl r) (classDecl r) := by
  refine h.seq h.next fun _ _ => h.seq h.ident fun _ _ => h.seq (h.sym _) fun _ _ => ?_
  refine h.seq (h.all _ (closed_classItem h hr)) fun _ _ => ?_
  exact h.seq (h.sym _) fun _ _ => h.seq h.before fun _ _ => h.pure _ _

theorem closed_interfaceDecl : P (interfaceDecl r) (interfaceDecl r) := by
  refine h.seq h.next fun _ _ => h.seq h.ident fun _ _ => h.seq (h.sym _) fun _ _ => ?_
  refine h.seq (h.all _ (closed_methodHead h hr)) fun _ _ => ?_
  exact h.seq (h.sym _) fun _ _ => h.seq h.before fun _ _ => h.pure _ _

theorem closed_implDecl : P (implDecl r) (implDecl r) := by
  refine h.seq h.next fun _ _ => h.seq h.ident fun _ _ => h.seq (h.word _) fun _ _ => ?_
  refine h.seq h.ident fun _ _ => h.seq (h.sym _) fun _ _ => ?_
  refine h.seq (h.all _ (closed_method h hr)) fun _ _ => ?_
  exact h.seq (h.sym _) fun _ _ => h.seq h.before fun _ _ => h.pure _ _

omit hr in
theorem closed_required : P required required := by
  refine h.peek fun got => ?_
  split
  · refine h.seq h.next fun _ _ => h.seq (h.word _) fun _ _ => ?_
    exact h.seq h.stringLiteral fun _ _ => h.pure _ _
  · refine h.seq h.next fun _ _ => h.seq (h.items _ h.ident) fun _ _ => ?_
    exact h.seq (h.word _) fun _ _ => h.seq h.stringLiteral fun _ _ => h.pure _ _
  · refine h.seq h.stringLiteral fun _ _ => h.eat _ fun renamed => ?_
    split
    · exact h.seq h.ident fun _ _ => h.pure _ _
    · exact h.pure _ _

omit hr in
theorem closed_require : P require require := by
  refine h.seq h.next fun _ _ => h.seq (closed_required h) fun _ _ => ?_
  exact h.seq h.before fun _ _ => h.seq h.semicolon fun _ _ => h.pure _ _

/-! ### Statements -/

theorem closed_binding : P (binding r) (binding r) := by
  refine h.isAt _ fun const => h.seq h.next fun _ _ => h.seq h.ident fun _ _ => ?_
  refine h.seq (closed_annotated h hr) fun _ _ => h.seq (h.sym _) fun _ _ => ?_
  refine h.seq hr.expr fun _ _ => h.seq h.before fun _ _ => ?_
  exact h.seq h.semicolon fun _ _ => h.pure _ _

theorem closed_expressionUnless (stops : List Kind) :
    P (expressionUnless r stops) (expressionUnless r stops) := by
  refine h.peek fun got => ?_
  split
  · exact h.pure _ _
  · exact h.seq hr.expr fun _ _ => h.pure _ _

theorem closed_returnStmt : P (returnStmt r) (returnStmt r) := by
  refine h.seq h.next fun _ _ => h.seq (closed_expressionUnless h hr _) fun _ _ => ?_
  exact h.seq h.before fun _ _ => h.seq h.semicolon fun _ _ => h.pure _ _

omit hr in
theorem closed_jump (make : Span → Stmt) : P (jump make) (jump make) :=
  h.seq h.next fun _ _ => h.seq h.semicolon fun _ _ => h.pure _ _

theorem closed_conditionalWithin (n : Nat) :
    P (conditionalWithin r n) (conditionalWithin r n) := by
  induction n with
  | zero => exact h.peek fun _ => h.fail _ rfl
  | succ n ih =>
    refine h.seq (h.expect _ nofun) fun start start' => h.seq hr.expr fun test test' => ?_
    refine h.seq (closed_block h hr) fun body body' => h.eat _ fun found => ?_
    have hlast (otherwise otherwise' : Otherwise) : P (pure otherwise >>= fun otherwise =>
        before >>= fun stop => (pure ⟨start.merge stop, test, body, otherwise⟩ : Parser Conditional))
        (pure otherwise' >>= fun otherwise => before >>= fun stop =>
          (pure ⟨start'.merge stop, test', body', otherwise⟩ : Parser Conditional)) :=
      h.seq (h.pure _ _) fun _ _ => h.seq h.before fun _ _ => h.pure _ _
    split
    · refine h.isAt _ fun again => ?_
      split
      · exact h.seq ih fun _ _ => hlast _ _
      · exact h.seq (closed_block h hr) fun _ _ => hlast _ _
    · exact hlast _ _

theorem closed_conditional : P (conditional r) (conditional r) :=
  h.remaining fun n => h.seq (closed_conditionalWithin h hr n) fun _ _ => h.pure _ _

theorem closed_loopInit : P (loopInit r) (loopInit r) := by
  refine h.peek fun got => ?_
  split
  · exact h.seq h.next fun _ _ => h.pure _ _
  · exact h.seq (closed_binding h hr) fun _ _ => h.pure _ _
  · exact h.seq (closed_binding h hr) fun _ _ => h.pure _ _
  · exact h.seq hr.expr fun _ _ => h.seq (h.sym _) fun _ _ => h.pure _ _

theorem closed_forStmt : P (forStmt r) (forStmt r) := by
  refine h.seq h.next fun _ _ => h.eat _ fun found => ?_
  split
  · refine h.seq (closed_loopInit h hr) fun _ _ => ?_
    refine h.seq (closed_expressionUnless h hr _) fun _ _ => h.seq (h.sym _) fun _ _ => ?_
    refine h.seq (closed_expressionUnless h hr _) fun _ _ => h.seq (h.sym _) fun _ _ => ?_
    exact h.seq (closed_block h hr) fun _ _ => h.pure _ _
  · refine h.seq h.ident fun _ _ => h.seq (h.word _) fun _ _ => h.seq hr.expr fun _ _ => ?_
    exact h.seq (closed_block h hr) fun _ _ => h.pure _ _

theorem closed_whileStmt : P (whileStmt r) (whileStmt r) :=
  h.seq h.next fun _ _ => h.seq hr.expr fun _ _ => h.seq (closed_block h hr) fun _ _ => h.pure _ _

theorem closed_loopStmt : P (loopStmt r) (loopStmt r) :=
  h.seq h.next fun _ _ => h.seq (closed_block h hr) fun _ _ => h.pure _ _

theorem closed_expressionStmt : P (expressionStmt r) (expressionStmt r) :=
  h.seq hr.expr fun _ _ => h.seq h.semicolon fun _ _ => h.pure _ _

theorem closed_statement : P (statement r) (statement r) := by
  refine h.peek fun got => ?_
  split
  · exact closed_binding h hr
  · exact closed_binding h hr
  · refine h.lookAhead 1 fun k => ?_
    split
    · exact closed_functionDecl h hr
    · exact closed_expressionStmt h hr
  · refine h.lookAhead 1 fun k => h.lookAhead 2 fun k' => ?_
    split
    · exact closed_functionDecl h hr
    · exact closed_expressionStmt h hr
  · exact closed_returnStmt h hr
  · exact closed_jump h _
  · exact closed_jump h _
  · exact closed_conditional h hr
  · exact closed_forStmt h hr
  · exact closed_whileStmt h hr
  · exact closed_loopStmt h hr
  · exact h.seq (closed_block h hr) fun _ _ => h.pure _ _
  · exact closed_classDecl h hr
  · exact closed_interfaceDecl h hr
  · exact closed_implDecl h hr
  · exact closed_require h
  · exact closed_expressionStmt h hr

theorem closed_outside : (Rules.outside r).All P := by
  have htype := h.nested (closed_typeExpr h hr.type)
  have hexpr := h.nested (closed_expression h hr)
  have hoperand := h.nested (closed_unary h hr)
  have hstmts := h.nested (h.all (· = .sym .rbrace) (closed_statement h hr))
  exact ⟨htype, hexpr, hoperand, hstmts⟩

end

include h in
theorem closed_levels (n : Nat) : (Rules.levels n).All P := by
  induction n with
  | zero => exact ⟨h.fail _ rfl, h.fail _ rfl, h.fail _ rfl, h.fail _ rfl⟩
  | succ n ih => exact closed_outside h ih

end CarvFront.Grammar

/-! ### Faults are only added -/

namespace CarvFront.Parser
variable {α : Type}

/-- The faults noted before stay, in their order, in front of the new ones. -/
def KeepsFaults ⦃α : Type⦄ (p : Parser α) : Prop :=
  ∀ c : Cursor, c.faults <+: (p c).2.faults

theorem keepsFaults_next : KeepsFaults next := by
  rintro ⟨_ | ⟨t, ts⟩, last, depth, faults⟩ <;> exact List.prefix_rfl

theorem keepsFaults_fail (e : SyntaxError) : KeepsFaults (fail e : Parser α) :=
  fun _ => List.prefix_append _ _

theorem faults_course : Course fun c c' => c.faults <+: c'.faults where
  refl _ := List.prefix_rfl
  trans := List.IsPrefix.trans
  report _ _ _ := List.prefix_append _ _
  next := keepsFaults_next
  become s _ := by rintro ⟨_ | ⟨t, ts⟩, last, depth, faults⟩ <;> exact List.prefix_rfl
  inside h := h
  recover _ := List.prefix_rfl

theorem keepsFaults_steps : Steps KeepsFaults :=
  faults_course.steps

theorem keepsFaults_closed : Closed (Alone KeepsFaults) :=
  keepsFaults_steps.closed keepsFaults_fail

end CarvFront.Parser
