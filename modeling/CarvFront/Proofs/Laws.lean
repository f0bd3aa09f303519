import CarvFront.Proofs.Combinators

/-! What holds of a parser where it is run. The grammar takes a step only where the token here
allows it, so a property of parsers has to say something about steps in such places alone. -/
namespace CarvFront
variable {k k' : Kind} {c : Cursor}

/-- Tokens that end a statement. Nothing starts with one. -/
def Kind.ends : Kind → Bool
  | .eof | .sym .semicolon => true
  | _ => false

theorem Kind.ends_iff : k.ends = true ↔ k = .eof ∨ k = .sym .semicolon := by
  unfold ends
  split <;> simp_all

/-- What no end is, a token is only if it is no end. -/
theorem Kind.ends_of_some {α : Type} {f : Kind → Option α} {a : α} (heof : f .eof = none)
    (hsemi : f (.sym .semicolon) = none) (h : f k = some a) : k.ends = false := by
  cases hk : k.ends with
  | false => rfl
  | true =>
    rcases ends_iff.mp hk with rfl | rfl
    · rw [heof] at h
      cases h
    · rw [hsemi] at h
      cases h

/-- Tokens behind which there may be semicolons inside a statement. -/
def Kind.opens : Kind → Bool
  | .sym .lbrace | .word .forKw => true
  | _ => false

theorem Kind.ends_of_opens (h : k.opens = true) : k.ends = false := by
  cases hk : k.ends with
  | false => rfl
  | true => rcases ends_iff.mp hk with rfl | rfl <;> cases h

/-- A sign that closes two things leaves the other one behind. -/
inductive Kind.Splits : Kind → Kind → Prop
  | shr : Splits (.sym .shr) (.sym .greater)
  | greaterEq : Splits (.sym .greaterEq) (.sym .eq)

theorem Kind.Splits.ends (h : k.Splits k') : k.ends = false := by
  cases h <;> rfl

theorem Kind.Splits.ends_part (h : k.Splits k') : k'.ends = false := by
  cases h <;> rfl

theorem Kind.ne_eof_of_ends (h : k.ends = false) : k ≠ .eof := by
  rintro rfl
  cases h

theorem Kind.Splits.ne_eof (h : k.Splits k') : k' ≠ .eof :=
  ne_eof_of_ends h.ends_part

theorem Cursor.lookAhead_zero (c : Cursor) : c.lookAhead 0 = c.kind := by
  obtain ⟨_ | ⟨t, ts⟩, prev, depth, faults⟩ := c <;> rfl

theorem Cursor.lookAhead_next (c : Cursor) (n : Nat) :
    c.next.lookAhead n = c.lookAhead (n + 1) := by
  obtain ⟨_ | ⟨t, ts⟩, prev, depth, faults⟩ := c <;> rfl

theorem Cursor.kind_next (c : Cursor) : c.next.kind = c.lookAhead 1 := by
  rw [← lookAhead_zero, lookAhead_next]

theorem Cursor.sees_one (h : c.kind.ends = false) : ∀ m < 1, (c.lookAhead m).ends = false := by
  intro m hm
  obtain rfl : m = 0 := by omega
  rwa [lookAhead_zero]

theorem Cursor.sees_two (h : c.kind.ends = false) (h₁ : (c.lookAhead 1).ends = false) :
    ∀ m < 2, (c.lookAhead m).ends = false := by
  intro m hm
  obtain rfl | hm : m = 1 ∨ m < 1 := by omega
  · exact h₁
  · exact sees_one h m hm

theorem Cursor.length_next_le (c : Cursor) : c.next.rest.length ≤ c.rest.length := by
  obtain ⟨_ | ⟨t, ts⟩, prev, depth, faults⟩ := c
  · exact Nat.le_refl _
  · exact Nat.le_succ _

theorem Cursor.length_next_lt (h : c.kind ≠ .eof) : c.next.rest.length < c.rest.length := by
  obtain ⟨_ | ⟨t, ts⟩, prev, depth, faults⟩ := c
  · exact absurd rfl h
  · exact Nat.lt_succ_self _

/-- Where a token is, the one before it makes no difference to what is read. -/
theorem Cursor.next_fresh (h : c.kind.ends = false) (s : Span) :
    Parser.next { c with prev := s } = Parser.next c := by
  obtain ⟨_ | ⟨t, ts⟩, prev, depth, faults⟩ := c
  · cases h
  · rfl

namespace Parser
variable {α β : Type}
variable {p q : Parser α} {f : α → Parser β} {c c' : Cursor} {k : Kind}

/-! ### Loops with enough turns -/

theorem bind_congr_at {g : α → Parser β} (h : ∀ a c', p c = (some a, c') → f a c' = g a c') :
    (p >>= f) c = (p >>= g) c := by
  rcases hres : p c with ⟨_ | a, c'⟩
  · rw [bind_of_none hres, bind_of_none hres]
  · rw [bind_of_some hres, bind_of_some hres]
    exact h a c' hres

theorem bind_congr_left (h : p c = q c) : (p >>= f) c = (q >>= f) c := by
  rcases hres : q c with ⟨_ | a, c'⟩ <;> rw [hres] at h
  · rw [bind_of_none hres, bind_of_none h]
  · rw [bind_of_some hres, bind_of_some h]

/-- Behind a failure nothing is run. -/
theorem bind_congr_of_none {g : α → Parser β} (h : p c = (none, c')) :
    (p >>= f) c = (p >>= g) c := by
  rw [bind_of_none h, bind_of_none h]

theorem peek_congr_at {f g : Kind → Parser β} (h : ∀ k, c.kind = k → f k c = g k c) :
    (peek >>= f) c = (peek >>= g) c :=
  h c.kind rfl

theorem nested_congr_at (h : p { c with depth := c.depth + 1 } = q { c with depth := c.depth + 1 })
    :
    nested p c = nested q c := by
  rw [nested, nested, h]

/-- Past a token there is one turn less to take. -/
theorem nested_next_congr {f g : Parser β} {n : Nat} (hc : c.rest.length ≤ n + 1)
    (hk : c.kind ≠ .eof) (h : ∀ c', c'.rest.length ≤ n → f c' = g c') :
    nested (next >>= fun _ => f) c = nested (next >>= fun _ => g) c := by
  refine nested_congr_at (h _ ?_)
  have hlt : c.next.rest.length < c.rest.length := Cursor.length_next_lt hk
  obtain ⟨_ | ⟨t, ts⟩, prev, depth, faults⟩ := c
  · exact absurd rfl hk
  · exact Nat.le_of_lt_succ (Nat.lt_of_lt_of_le hlt hc)

/-- A parser never makes more of the tokens that are left. -/
def Shrinks (p : Parser α) : Prop :=
  ∀ c : Cursor, (p c).2.rest.length ≤ c.rest.length

theorem Shrinks.of_eq (h : Shrinks p) {a : Option α} (heq : p c = (a, c')) :
    c'.rest.length ≤ c.rest.length := by
  have hle := h c
  rwa [heq] at hle

theorem nested_eq_some {a : α} (h : nested p c = (some a, c')) :
    ¬ maxNesting < c.depth + 1 ∧ ∃ c₁, p { c with depth := c.depth + 1 } = (some a, c₁) ∧
      { c₁ with depth := c₁.depth - 1 } = c' := by
  unfold nested at h
  split at h
  · cases h
  · next hdepth =>
    obtain ⟨ha, hc⟩ := Prod.mk.inj h
    exact ⟨hdepth, _, Prod.ext ha rfl, hc⟩

theorem eat_eq_true (h : eat k c = (some true, c')) : c.kind = k ∧ c.next = c' := by
  unfold eat at h
  split at h
  · next hk => exact ⟨hk, (Prod.mk.inj h).2⟩
  · cases h

theorem eat_bind (k : Kind) (f : Bool → Parser β) :
    eat k >>= f = isAt k >>= fun found => if found then next >>= fun _ => f true else f false := by
  rw [eat_eq, bind_assoc]
  congr 1
  funext found
  cases found <;> rfl

theorem sym_bind (s : Symbol) (f : Unit → Parser β) :
    sym s >>= f = peek >>= fun got =>
      if got = .sym s then next >>= fun _ => f () else fail (.expected (.token (.sym s)) got) := by
  rw [sym, expect, bind_assoc, bind_assoc]
  congr 1
  funext got
  split <;> rfl

theorem length_of_eat (h : eat k c = (some true, c')) (hk : k ≠ .eof) :
    c'.rest.length < c.rest.length := by
  obtain ⟨rfl, rfl⟩ := eat_eq_true h
  exact Cursor.length_next_lt hk

/-- A token that is no end is not found where a statement ends. -/
theorem expect_of_ends (hk : k.ends = false) (hc : c.kind.ends = true) :
    expect k c = (none, c.report (.expected (.token k) c.kind)) := by
  refine expect_of_other fun heq => ?_
  rw [heq, hk] at hc
  cases hc

/-- With a turn for each token left, more turns make no difference. -/
def Stable (F : Nat → Parser α) : Prop :=
  ∀ (c : Cursor) (m n : Nat), c.rest.length ≤ m → c.rest.length ≤ n → F m c = F n c

theorem Stable.of_succ {F : Nat → Parser α}
    (h : ∀ (n : Nat) (c : Cursor), c.rest.length ≤ n → F (n + 1) c = F n c) : Stable F := by
  have hfrom (c : Cursor) (k : Nat) : F (c.rest.length + k) c = F c.rest.length c := by
    induction k with
    | zero => rfl
    | succ k ih => exact (h _ c (Nat.le_add_right _ _)).trans ih
  intro c m n hm hn
  obtain ⟨k, rfl⟩ := Nat.exists_eq_add_of_le hm
  obtain ⟨l, rfl⟩ := Nat.exists_eq_add_of_le hn
  rw [hfrom, hfrom]

theorem Stable.bind {F : Nat → Parser α} (h : Stable F) (f : α → Parser β) :
    Stable fun n => F n >>= f := by
  intro c m n hm hn
  exact bind_congr_left (h c m n hm hn)

/-- Where no token is left. -/
theorem atEnd (h : ∀ prev depth faults, p ⟨[], prev, depth, faults⟩ = q ⟨[], prev, depth, faults⟩)
    (c : Cursor) (hc : c.rest.length ≤ 0) : p c = q c := by
  obtain ⟨_ | ⟨t, ts⟩, prev, depth, faults⟩ := c
  · exact h prev depth faults
  · exact absurd hc (Nat.not_succ_le_zero _)

theorem stable_itemsWithin (close : Kind) {item : Parser α} (hitem : Shrinks item) :
    Stable (itemsWithin close item) := by
  refine .of_succ fun n => ?_
  induction n with
  | zero => exact atEnd fun _ _ _ => by simp [itemsWithin, bind, peek, Cursor.kind]
  | succ n ih =>
    intro c hc
    refine peek_congr_at fun got _ => ?_
    split
    · rfl
    refine bind_congr_at fun a c₁ ha => bind_congr_at fun comma c₂ hcomma => ?_
    cases comma with
    | false => rfl
    | true =>
      have hle := hitem.of_eq ha
      have hlt := length_of_eat hcomma nofun
      exact bind_congr_left (ih c₂ (by omega))

/-! ### Properties of a parser at a cursor -/

/-- A property of parsers, each at a cursor, that the steps inside a statement have where they may
be taken and that putting parsers together keeps. -/
structure Core (P : ∀ ⦃α : Type⦄, Cursor → Parser α → Prop) : Prop where
  shrinks {α : Type} {p : Parser α} {c : Cursor} (hp : P c p) :
    (p c).2.rest.length ≤ c.rest.length
  pure {α : Type} (a : α) (c : Cursor) : P c (pure a)
  bind {α β : Type} {p : Parser α} {f : α → Parser β} {c : Cursor} (hp : P c p)
    (hf : ∀ a c', p c = (some a, c') → P c' (f a)) : P c (p >>= f)
  fail {α : Type} (e : SyntaxError) (c : Cursor) : P c (fail e : Parser α)
  peek (c : Cursor) : P c peek
  /-- Nothing is seen behind the end of a statement. -/
  lookAhead {n : Nat} {c : Cursor} (hc : ∀ m < n, (c.lookAhead m).ends = false) :
    P c (lookAhead n)
  /-- Where nothing starts, the place is not used. -/
  here {β : Type} {f : Span → Parser β} {c : Cursor} (hf : P c (f c.span))
    (hend : c.kind.ends = true → ∀ s s' c', c'.kind = c.kind → f s c' = f s' c') :
    P c (here >>= f)
  before (c : Cursor) : P c before
  remaining {β : Type} {F : Nat → Parser β} {c : Cursor} (hF : ∀ n, P c (F n)) (hs : Stable F) :
    P c (remaining >>= F)
  next {c : Cursor} (hc : c.kind.ends = false) : P c next
  become {c : Cursor} {k : Kind} (hk : c.kind.Splits k) : P c (become k)
  nested {α : Type} {p : Parser α} {c : Cursor} (hp : P { c with depth := c.depth + 1 } p) :
    P c (nested p)

namespace Core
variable {P : ∀ ⦃α : Type⦄, Cursor → Parser α → Prop} (h : Core P) {c : Cursor}
variable {k : Kind}
include h

theorem seq {p : Parser α} {f : α → Parser β} (hp : P c p) (hf : ∀ a c', P c' (f a)) :
    P c (p >>= f) :=
  h.bind hp fun a c' _ => hf a c'

theorem shrinks' {p : Parser α} (hp : ∀ c, P c p) : Shrinks p :=
  fun c => h.shrinks (hp c)

theorem onKind {f : Kind → Parser β} (hf : ∀ k, c.kind = k → P c (f k)) :
    P c (Parser.peek >>= f) := by
  refine h.bind (h.peek c) fun k c' heq => ?_
  cases heq
  exact hf c.kind rfl

theorem isAt (k : Kind) (c : Cursor) : P c (isAt k) := by
  have heq : Parser.isAt k = Parser.peek >>= fun got => Pure.pure (decide (got = k)) := rfl
  rw [heq]
  exact h.onKind fun _ _ => h.pure _ c

theorem eat_of (hnext : c.kind = k → P c Parser.next) : P c (eat k) := by
  rw [eat_eq]
  refine h.bind (h.isAt k c) fun found c' heq => ?_
  cases heq
  split
  · next hk => exact h.seq (hnext (of_decide_eq_true hk)) fun _ => h.pure true
  · exact h.pure false c

theorem eat (hk : k.ends = false) (c : Cursor) : P c (Parser.eat k) :=
  h.eat_of fun hc => h.next (hc ▸ hk)

theorem expect_of (hnext : c.kind = k → P c Parser.next) : P c (expect k) := by
  refine h.onKind fun got hgot => ?_
  split
  · next hk => exact hnext (hgot.trans hk)
  · exact h.fail _ c

theorem expect (hk : k.ends = false) (c : Cursor) : P c (Parser.expect k) :=
  h.expect_of fun hc => h.next (hc ▸ hk)

theorem sym {s : Symbol} (hs : (Kind.sym s).ends = false) (c : Cursor) : P c (sym s) :=
  h.seq (h.expect hs c) fun _ => h.pure ()

theorem word (w : Keyword) (c : Cursor) : P c (word w) :=
  h.seq (h.expect rfl c) fun _ => h.pure ()

theorem ident (c : Cursor) : P c ident := by
  refine h.onKind fun got hgot => ?_
  split
  · exact h.seq (h.next (hgot ▸ rfl)) fun _ => h.pure _
  · exact h.fail _ c

theorem memberName (c : Cursor) : P c memberName := by
  refine h.onKind fun got hgot => ?_
  split
  · exact h.seq (h.next (hgot ▸ rfl)) fun _ => h.pure _
  · exact h.seq (h.next (hgot ▸ rfl)) fun _ => h.pure _
  · exact h.fail _ c

theorem stringLiteral (c : Cursor) : P c stringLiteral := by
  refine h.onKind fun got hgot => ?_
  split
  · exact h.seq (h.next (hgot ▸ rfl)) fun _ => h.pure _
  · exact h.fail _ c

theorem itemsWithin (close : Kind) {item : Parser α} (hitem : ∀ c, P c item) (n : Nat)
    (c : Cursor) : P c (itemsWithin close item n) := by
  induction n generalizing c with
  | zero => exact h.pure [] c
  | succ n ih =>
    refine h.onKind fun got _ => ?_
    split
    · exact h.pure [] c
    refine h.seq (hitem c) fun a c => h.seq (h.eat rfl c) fun comma c => ?_
    split
    · exact h.seq (ih c) fun as => h.pure _
    · exact h.pure _ c

theorem items {close : Symbol} (hclose : (Kind.sym close).ends = false) {item : Parser α}
    (hitem : ∀ c, P c item) (c : Cursor) : P c (items close item) := by
  refine h.remaining (fun n => h.seq (h.itemsWithin _ hitem n c) fun as c => ?_) ?_
  · exact h.seq (h.sym hclose c) fun _ => h.pure as
  · exact (stable_itemsWithin _ (h.shrinks' hitem)).bind _

end Core

/-! ### Parsers that take a token -/

/-- Where a parser gives something it has gone past a token, and what stood before that token makes
no difference. -/
structure Taking (P : ∀ ⦃α : Type⦄, Cursor → Parser α → Prop) (c : Cursor) (p : Parser α) :
    Prop where
  law : P c p
  takes {a : α} {c' : Cursor} (heq : p c = (some a, c')) : c'.rest.length < c.rest.length
  fresh {a : α} {c' : Cursor} (heq : p c = (some a, c')) (s : Span) :
    p { c with prev := s } = (some a, c')

namespace Core
variable {P : ∀ ⦃α : Type⦄, Cursor → Parser α → Prop} (h : Core P) {c : Cursor}
include h

theorem taking_fail (e : SyntaxError) (c : Cursor) : Taking P c (Parser.fail e : Parser α) where
  law := h.fail e c
  takes heq := by cases heq
  fresh heq := by cases heq

theorem taking_next (hc : c.kind.ends = false) : Taking P c Parser.next where
  law := h.next hc
  takes heq := by
    cases heq
    exact Cursor.length_next_lt (Kind.ne_eof_of_ends hc)
  fresh heq s := (Cursor.next_fresh hc s).trans heq

theorem first {p : Parser α} {f : α → Parser β} (hp : Taking P c p)
    (hf : ∀ a c', p c = (some a, c') → P c' (f a)) : Taking P c (p >>= f) := by
  have hlaw := h.bind hp.law hf
  rcases hres : p c with ⟨_ | a, c₁⟩
  · refine ⟨hlaw, fun heq => ?_, fun heq => ?_⟩ <;>
    · rw [bind_of_none hres] at heq
      cases heq
  · have hlt := hp.takes hres
    have hle := h.shrinks (hf a c₁ hres)
    refine ⟨hlaw, fun heq => ?_, fun heq s => ?_⟩ <;> rw [bind_of_some hres] at heq
    · rw [heq] at hle
      exact Nat.lt_of_le_of_lt hle hlt
    · rw [bind_of_some (hp.fresh hres s)]
      exact heq

/-- Past the token here. -/
theorem step {f : Span → Parser β} (hc : c.kind.ends = false) (hf : ∀ s c', P c' (f s)) :
    Taking P c (Parser.next >>= f) :=
  h.first (h.taking_next hc) fun s c' _ => hf s c'

theorem taking_onKind {f : Kind → Parser β} (hf : ∀ k, c.kind = k → Taking P c (f k)) :
    Taking P c (Parser.peek >>= f) where
  law := h.onKind fun k hk => (hf k hk).law
  takes := (hf c.kind rfl).takes
  fresh := (hf c.kind rfl).fresh

theorem taking_expect {k : Kind} (hk : k.ends = false) (c : Cursor) :
    Taking P c (Parser.expect k) := by
  refine h.taking_onKind fun got hgot => ?_
  split
  · next heq => exact h.taking_next (by rw [hgot, heq, hk])
  · exact h.taking_fail _ c

theorem taking_sym {s : Symbol} (hs : (Kind.sym s).ends = false) (c : Cursor) :
    Taking P c (Parser.sym s) :=
  h.first (h.taking_expect hs c) fun _ c _ => h.pure () c

theorem taking_word (w : Keyword) (c : Cursor) : Taking P c (Parser.word w) :=
  h.first (h.taking_expect rfl c) fun _ c _ => h.pure () c

theorem taking_ident (c : Cursor) : Taking P c Parser.ident := by
  refine h.taking_onKind fun got hgot => ?_
  split
  · exact h.step (hgot ▸ rfl) fun _ => h.pure _
  · exact h.taking_fail _ c

theorem taking_lookAhead {n : Nat} (hc : ∀ m < n, (c.lookAhead m).ends = false)
    {f : Kind → Parser β} (hf : ∀ k, c.lookAhead n = k → Taking P c (f k)) :
    Taking P c (Parser.lookAhead n >>= f) where
  law := h.bind (h.lookAhead hc) fun k c' heq => by cases heq; exact (hf _ rfl).law
  takes := (hf _ rfl).takes
  fresh := (hf _ rfl).fresh

theorem taking_isAt (k : Kind) {f : Bool → Parser β}
    (hf : ∀ b, decide (c.kind = k) = b → Taking P c (f b)) :
    Taking P c (Parser.isAt k >>= f) where
  law := h.bind (h.isAt k c) fun b c' heq => by cases heq; exact (hf _ rfl).law
  takes := (hf _ rfl).takes
  fresh := (hf _ rfl).fresh

theorem taking_here {f : Span → Parser β} (hf : Taking P c (f c.span))
    (hend : c.kind.ends = true → ∀ s s' c', c'.kind = c.kind → f s c' = f s' c') :
    Taking P c (Parser.here >>= f) where
  law := h.here hf.law hend
  takes := hf.takes
  fresh {a c'} heq s := by
    have hsame : f ({ c with prev := s } : Cursor).span { c with prev := s } =
        f c.span { c with prev := s } := by
      obtain ⟨_ | ⟨t, ts⟩, prev, depth, faults⟩ := c
      · exact hend rfl _ _ _ rfl
      · rfl
    exact hsame.trans (hf.fresh heq s)

theorem taking_eat {k : Kind} (hk : k.ends = false) {f : Bool → Parser β}
    (hfound : ∀ c', P c' (f true)) (helse : c.kind ≠ k → Taking P c (f false)) :
    Taking P c (Parser.eat k >>= f) := by
  rw [eat_bind]
  refine h.taking_isAt k fun found hc => ?_
  cases found with
  | true => exact h.step (of_decide_eq_true hc ▸ hk) fun _ => hfound
  | false => exact helse (of_decide_eq_false hc)

theorem taking_remaining {F : Nat → Parser β} (hF : ∀ n, Taking P c (F n)) (hs : Stable F) :
    Taking P c (Parser.remaining >>= F) where
  law := h.remaining (fun n => (hF n).law) hs
  takes := (hF _).takes
  fresh := (hF _).fresh

theorem taking_nested {p : Parser α} (hp : Taking P { c with depth := c.depth + 1 } p) :
    Taking P c (Parser.nested p) := by
  refine ⟨h.nested hp.law, fun heq => ?_, fun heq s => ?_⟩ <;>
    obtain ⟨hdepth, c₁, hres, rfl⟩ := nested_eq_some heq
  · have hlt := hp.takes hres
    exact hlt
  · have hfresh : p { c with prev := s, depth := c.depth + 1 } = _ := hp.fresh hres s
    unfold Parser.nested
    rw [if_neg hdepth, hfresh]

end Core

/-! ### Properties of statements -/

/-- A property `P` of what stands inside a statement and a weaker property `Q` of statements. Behind
an opening brace or a `for` there may be anything that has `Q`, if something behind it has `P`
again. -/
structure Law (P Q : ∀ ⦃α : Type⦄, Cursor → Parser α → Prop) : Prop extends Core P where
  outer : Core Q
  weaken {α : Type} {p : Parser α} {c : Cursor} (hp : P c p) : Q c p
  separator {c : Cursor} (hc : c.kind = .sym .semicolon) : Q c Parser.next
  report (e : SyntaxError) (c : Cursor) : Q c (report e)
  all {α : Type} (stop : Kind → Bool) {item : Parser α} (hitem : ∀ c, Taking Q c item)
    (c : Cursor) : Q c (all stop item)
  framed {α β : Type} {body : Span → Parser α} {f : Span → α → Parser β} {c : Cursor}
    (hc : c.kind.opens = true) (hbody : ∀ s c, Q c (body s)) (hf : ∀ s a c, Taking P c (f s a)) :
    P c (Parser.next >>= fun s => body s >>= f s)

namespace Law
variable {P Q : ∀ ⦃α : Type⦄, Cursor → Parser α → Prop} (h : Law P Q) {c : Cursor}
include h

theorem weaken_taking {p : Parser α} (hp : Taking P c p) : Taking Q c p :=
  ⟨h.weaken hp.law, hp.takes, hp.fresh⟩

theorem semicolon (c : Cursor) : Q c semicolon := by
  refine h.outer.seq (h.outer.eat_of h.separator) fun found c => ?_
  split
  · exact h.outer.pure () c
  refine h.outer.onKind fun got _ => ?_
  split
  · exact h.outer.pure () c
  · exact h.report _ c

theorem taking_framed {body : Span → Parser α} {f : Span → α → Parser β}
    (hc : c.kind.opens = true) (hbody : ∀ s c, Q c (body s)) (hf : ∀ s a c, Taking P c (f s a)) :
    Taking P c (Parser.next >>= fun s => body s >>= f s) := by
  have hends := Kind.ends_of_opens hc
  have htaking := h.outer.step hends fun s c =>
    h.outer.seq (hbody s c) fun a c => h.weaken (hf s a c).law
  exact ⟨h.framed hc hbody hf, htaking.takes, htaking.fresh⟩

theorem taking_braces {body : Parser α} {f : α → Parser β} (hbody : ∀ c, Q c body)
    (hf : ∀ a c, P c (f a)) (c : Cursor) :
    Taking P c (sym .lbrace >>= fun _ => body >>= fun a => sym .rbrace >>= fun _ => f a) := by
  rw [sym_bind]
  refine h.taking_onKind fun got hgot => ?_
  split
  · next hk =>
    have hopens : c.kind.opens = true := by rw [hgot, hk]; rfl
    exact h.taking_framed hopens (fun _ => hbody) fun _ a c =>
      h.first (h.taking_sym rfl c) fun _ c _ => hf a c
  · exact h.taking_fail _ c

end Law
end Parser
end CarvFront
