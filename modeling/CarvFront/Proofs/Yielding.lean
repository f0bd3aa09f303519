import CarvFront.Proofs.Combinators
import CarvFront.Proofs.Outline

/-! Parsers over tokens that stand one behind the other. A parser that starts behind a place gives
outlines behind it, up to the place it gets to, whether what it reads is right or not. -/
namespace CarvFront
variable {lo : Position}

/-- Tokens with room of their own: all but the end and the openings of holes. -/
def Kind.isSolid : Kind → Bool
  | .eof | .holeStart => false
  | _ => true

/-! ### Cursors over tokens that stand one behind the other -/

/-- From a cursor behind `lo` the reading has got to one behind `hi`. The token read last, if there
is one, ends there. -/
structure Cursor.Goes (lo hi : Position) (c c' : Cursor) : Prop where
  le : lo ≤ hi
  laid : Token.Laid hi c'.rest
  edge : hi = lo ∧ c'.prev = c.prev ∨ c'.prev.stop = hi

namespace Cursor.Goes
variable {lo mid hi : Position} {c c' c'' : Cursor}

theorem refl (h : Token.Laid lo c.rest) : c.Goes lo lo c :=
  ⟨le_rfl, h, .inl ⟨rfl, rfl⟩⟩

theorem trans (h : c.Goes lo mid c') (h' : c'.Goes mid hi c'') : c.Goes lo hi c'' := by
  refine ⟨le_trans h.le h'.le, h'.laid, ?_⟩
  rcases h'.edge with ⟨rfl, hprev⟩ | hstop
  · rw [hprev]
    exact h.edge
  · exact .inr hstop

end Cursor.Goes

/-- The cursor goes past the token at `c`, which stands behind `lo`. -/
structure Cursor.Passes (lo : Position) (c c' : Cursor) : Prop where
  start : lo < c.span.start
  ordered : c.span.start ≤ c.span.stop
  prev : c'.prev = c.span
  laid : Token.Laid c.span.stop c'.rest

/-- A token behind `lo` that ends at `hi`. -/
structure Span.Ends (lo hi : Position) (s : Span) : Prop where
  start : lo < s.start
  ordered : s.start ≤ s.stop
  stop : s.stop = hi

theorem Span.Ends.mono {a hi : Position} {s : Span} (h : s.Ends lo hi) (ha : a ≤ lo) :
    s.Ends a hi :=
  ⟨lt_of_le_of_lt ha h.start, h.ordered, h.stop⟩

theorem Span.Ends.lt {hi : Position} {s : Span} (h : s.Ends lo hi) : lo < hi :=
  h.stop ▸ lt_of_lt_of_le h.start h.ordered

namespace Cursor.Passes
variable {lo : Position} {c c' : Cursor}

theorem ends (h : c.Passes lo c') : c'.prev.Ends lo c.span.stop := by
  rw [h.prev]
  exact ⟨h.start, h.ordered, rfl⟩

theorem lt (h : c.Passes lo c') : lo < c.span.stop :=
  lt_of_lt_of_le h.start h.ordered

theorem goes (h : c.Passes lo c') : c.Goes lo c.span.stop c' :=
  ⟨le_of_lt h.lt, h.laid, .inr (congrArg Span.stop h.prev)⟩

end Cursor.Passes

namespace Token.Laid
variable {lo : Position} {c : Cursor}

theorem passes (h : Token.Laid lo c.rest) (hk : c.kind.isSolid = true) : c.Passes lo c.next := by
  obtain ⟨rest, prev, depth, faults⟩ := c
  cases h with
  | nil => cases hk
  | token _ hstart hstop h => exact ⟨hstart, hstop, rfl, h⟩
  | @hole t _ hkind =>
    have hhole : t.kind.isSolid = true := hk
    rw [hkind] at hhole
    cases hhole

/-- Any token can be passed, also the opening of a hole. -/
theorem goes_next (h : Token.Laid lo c.rest) : ∃ hi, c.Goes lo hi c.next := by
  obtain ⟨rest, prev, depth, faults⟩ := c
  cases h with
  | nil => exact ⟨lo, .refl (.nil lo)⟩
  | @token _ t _ _ hstart hstop h => exact ⟨t.span.stop, by order, h, .inr rfl⟩
  | @hole t _ _ _ h => exact ⟨t.span.stop, le_rfl, h, .inr rfl⟩

theorem tail {t : Token} {ts : List Token} (h : Token.Laid lo (t :: ts)) :
    lo ≤ t.span.stop ∧ Token.Laid t.span.stop ts := by
  cases h with
  | token _ hstart hstop h => exact ⟨by order, h⟩
  | hole _ _ h => exact ⟨le_rfl, h⟩

theorem goes_recover (h : Token.Laid lo c.rest) : ∃ hi, c.Goes lo hi c.recover := by
  have hskip := Cursor.skipTo_rel (R := fun ts prev us last => ∀ lo, Token.Laid lo ts →
    ∃ hi, lo ≤ hi ∧ Token.Laid hi us ∧ (hi = lo ∧ last = prev ∨ last.stop = hi))
    (fun _ _ lo h => ⟨lo, le_rfl, h, .inl ⟨rfl, rfl⟩⟩) (fun hrest lo h => ?_) false c.rest c.prev lo h
  · obtain ⟨hi, hle, hlaid, hedge⟩ := hskip
    exact ⟨hi, hle, hlaid, hedge⟩
  · obtain ⟨hle, htail⟩ := h.tail
    obtain ⟨hi, hle', hlaid, hedge⟩ := hrest _ htail
    refine ⟨hi, le_trans hle hle', hlaid, .inr ?_⟩
    rcases hedge with ⟨rfl, hprev⟩ | hstop
    · rw [hprev]
    · exact hstop

end Token.Laid

namespace Parser
variable {α β : Type} {lo : Position} {c : Cursor}

/-- A parser that starts at `c`, behind `lo`, keeps to the order of the tokens. What it gives has `Q`,
a property of the value, the place behind which it stopped and the token before that. -/
def Yields (lo : Position) (c : Cursor) (p : Parser α) (Q : α → Position → Span → Prop) : Prop :=
  ∃ hi, c.Goes lo hi (p c).2 ∧ ∀ a, (p c).1 = some a → Q a hi (p c).2.prev

namespace Yields
variable {p : Parser α} {f : α → Parser β} {Q : α → Position → Span → Prop}
  {R : β → Position → Span → Prop}
variable {a : α} {g : Span → Parser β}

theorem pure (h : Token.Laid lo c.rest) (ha : Q a lo c.prev) : Yields lo c (Pure.pure a) Q :=
  ⟨lo, .refl h, fun _ hb => Option.some.inj hb ▸ ha⟩

theorem fail (h : Token.Laid lo c.rest) (e : SyntaxError) : Yields lo c (fail e) Q :=
  ⟨lo, ⟨le_rfl, h, .inl ⟨rfl, rfl⟩⟩, fun _ hb => by cases hb⟩

theorem imp {Q' : α → Position → Span → Prop} (h : Yields lo c p Q)
    (himp : ∀ a hi prev, lo ≤ hi → Q a hi prev → Q' a hi prev) : Yields lo c p Q' := by
  obtain ⟨hi, hgoes, hq⟩ := h
  exact ⟨hi, hgoes, fun a ha => himp a hi _ hgoes.le (hq a ha)⟩

/-- One parser after the other. -/
theorem seq (hp : Yields lo c p Q) (hf : ∀ a hi c', c.Goes lo hi c' → Q a hi c'.prev →
    Yields hi c' (f a) R) : Yields lo c (p >>= f) R := by
  obtain ⟨hi, hgoes, hq⟩ := hp
  rcases hpc : p c with ⟨_ | a, c'⟩
  · rw [hpc] at hgoes
    unfold Yields
    rw [bind_of_none hpc]
    exact ⟨hi, hgoes, fun _ hb => by cases hb⟩
  · rw [hpc] at hgoes hq
    obtain ⟨hi', hgoes', hr⟩ := hf a hi c' hgoes (hq a rfl)
    unfold Yields
    rw [bind_of_some hpc]
    exact ⟨hi', hgoes.trans hgoes', hr⟩

/-- A parser that only looks at the cursor. -/
theorem look (hp : p c = (some a, c)) (hf : Yields lo c (f a) R) : Yields lo c (p >>= f) R := by
  unfold Yields
  rw [bind_of_some hp]
  exact hf

theorem peek {g : Kind → Parser β} (hg : Yields lo c (g c.kind) R) :
    Yields lo c (Parser.peek >>= g) R :=
  look rfl hg

/-- A parser that goes past the token at the cursor. -/
theorem pass {c' : Cursor} (hp : p c = (some a, c')) (hpasses : c.Passes lo c')
    (hf : Yields c.span.stop c' (f a) R) : Yields lo c (p >>= f) R := by
  obtain ⟨hi, hgoes, hr⟩ := hf
  unfold Yields
  rw [bind_of_some hp]
  exact ⟨hi, hpasses.goes.trans hgoes, hr⟩

variable (h : Token.Laid lo c.rest)
include h

theorem next (hk : c.kind.isSolid = true)
    (hg : ∀ c', c.Passes lo c' → Yields c.span.stop c' (g c.span) R) :
    Yields lo c (Parser.next >>= g) R :=
  pass rfl (h.passes hk) (hg c.next (h.passes hk))

theorem expect {k : Kind} (hk : k.isSolid = true)
    (hg : ∀ c', c.Passes lo c' → Yields c.span.stop c' (g c.span) R) :
    Yields lo c (Parser.expect k >>= g) R := by
  by_cases hkind : c.kind = k
  · have hpasses := h.passes (hkind ▸ hk)
    exact pass (expect_of_kind hkind) hpasses (hg c.next hpasses)
  · unfold Yields
    rw [bind_of_none (expect_of_other hkind)]
    exact fail h _

/-- A token that may be left out. -/
theorem eat {k : Kind} {g : Bool → Parser β} (hk : k.isSolid = true)
    (htrue : ∀ c', c.Passes lo c' → Yields c.span.stop c' (g true) R)
    (hfalse : Yields lo c (g false) R) : Yields lo c (Parser.eat k >>= g) R := by
  by_cases hkind : c.kind = k
  · have hpasses := h.passes (hkind ▸ hk)
    exact pass (if_pos hkind) hpasses (htrue c.next hpasses)
  · exact look (if_neg hkind) hfalse

/-- The opening of a hole takes no room: it is the end of the text in front of it. -/
theorem expect_hole (hg : ∀ c', Token.Laid lo c'.rest → Yields lo c' (g c.span) R) :
    Yields lo c (Parser.expect .holeStart >>= g) R := by
  by_cases hkind : c.kind = .holeStart
  · obtain ⟨rest, prev, depth, faults⟩ := c
    cases h with
    | nil => cases hkind
    | token hother => exact absurd hkind hother
    | @hole t ts _ _ h =>
      obtain ⟨hi, hgoes, hr⟩ := hg ⟨ts, t.span, depth, faults⟩ h
      unfold Yields
      rw [bind_of_some (expect_of_kind hkind)]
      exact ⟨hi, Cursor.Goes.trans ⟨le_rfl, h, .inr rfl⟩ hgoes, hr⟩
  · unfold Yields
    rw [bind_of_none (expect_of_other hkind)]
    exact fail h _

/-- A sign that becomes another one stays where it is. -/
theorem become {s : Symbol} {g : Unit → Parser β} (hk : c.kind.isSolid = true)
    (hg : ∀ c', c'.prev = c.prev → Token.Laid lo c'.rest → Yields lo c' (g ()) R) :
    Yields lo c (Parser.become (.sym s) >>= g) R := by
  obtain ⟨rest, prev, depth, faults⟩ := c
  cases h with
  | nil => exact hg ⟨[], prev, depth, faults⟩ rfl (.nil lo)
  | @token _ t ts _ hstart hstop h =>
    have hbecome : Parser.become (.sym s) ⟨t :: ts, prev, depth, faults⟩ =
        (some (), ⟨⟨.sym s, t.span⟩ :: ts, prev, depth, faults⟩) := rfl
    unfold Yields
    rw [bind_of_some hbecome]
    obtain ⟨hi, hgoes, hr⟩ := hg ⟨⟨.sym s, t.span⟩ :: ts, prev, depth, faults⟩ rfl
      (.token Kind.noConfusion hstart hstop h)
    exact ⟨hi, ⟨hgoes.le, hgoes.laid, hgoes.edge⟩, hr⟩
  | @hole t _ hkind =>
    have hhole : t.kind.isSolid = true := hk
    rw [hkind] at hhole
    cases hhole

theorem nested
    (hp : ∀ c', c'.prev = c.prev → c'.span = c.span → c'.kind = c.kind → Token.Laid lo c'.rest →
      Yields lo c' p Q) : Yields lo c (Parser.nested p) Q := by
  unfold Yields Parser.nested
  split
  · exact fail h _
  · obtain ⟨hi, hgoes, hq⟩ := hp { c with depth := c.depth + 1 } rfl rfl rfl h
    exact ⟨hi, ⟨hgoes.le, hgoes.laid, hgoes.edge⟩, hq⟩

end Yields

/-! ### Parsers that give outlines -/

/-- Something with the outlines `f` was read from `lo` on, up to the token `prev`. -/
def Drawn (f : α → List Outline) (lo : Position) (a : α) (hi : Position) (prev : Span) : Prop :=
  Outline.Row lo hi (f a) ∧ prev.Ends lo hi

/-- Something with the outlines `f` was read from `lo` on, whatever was read last. -/
def Laying (f : α → List Outline) (lo : Position) (a : α) (hi : Position) (_ : Span) : Prop :=
  Outline.Row lo hi (f a)

/-- What a parser gives has the outlines `f`, up to a token that it has read last. -/
def Outlined (f : α → List Outline) (p : Parser α) : Prop :=
  ∀ lo c, Token.Laid lo c.rest → Yields lo c p (Drawn f lo)

/-- What a parser gives has the outlines `f`; it may have read nothing. -/
def Trailing (f : α → List Outline) (p : Parser α) : Prop :=
  ∀ lo c, Token.Laid lo c.rest → Yields lo c p fun a hi prev =>
    Outline.Row lo hi (f a) ∧ (hi = lo ∧ prev = c.prev ∨ prev.Ends lo hi)

/-- What a parser gives has the outlines `f`, whatever it has read last. -/
def Spread (f : α → List Outline) (p : Parser α) : Prop :=
  ∀ lo c, Token.Laid lo c.rest → Yields lo c p (Laying f lo)

section
variable {f : α → List Outline} {p : Parser α}

theorem Outlined.spread (hp : Outlined f p) : Spread f p :=
  fun lo c h => (hp lo c h).imp fun _ _ _ _ hq => hq.1

theorem Trailing.spread (hp : Trailing f p) : Spread f p :=
  fun lo c h => (hp lo c h).imp fun _ _ _ _ hq => hq.1

theorem Outlined.trailing (hp : Outlined f p) : Trailing f p :=
  fun lo c h => (hp lo c h).imp fun _ _ _ _ hq => ⟨hq.1, .inr hq.2⟩

theorem Outlined.congr {f' : α → List Outline} (hp : Outlined f p) (hf : ∀ a, f' a = f a) :
    Outlined f' p :=
  (funext hf : f' = f) ▸ hp

theorem Spread.congr {f' : α → List Outline} (hp : Spread f p) (hf : ∀ a, f' a = f a) :
    Spread f' p :=
  (funext hf : f' = f) ▸ hp

theorem Outlined.nested (hp : Outlined f p) : Outlined f (Parser.nested p) :=
  fun lo _ h => .nested h fun c' _ _ _ h' => hp lo c' h'

theorem Spread.nested (hp : Spread f p) : Spread f (Parser.nested p) :=
  fun lo _ h => .nested h fun c' _ _ _ h' => hp lo c' h'

end

end Parser

/-! ### Nodes that are being read -/

/-- The first token of a node, behind `lo`. What the node is made of stands behind `a`. -/
structure Span.Opens (lo a : Position) (s : Span) : Prop where
  start : lo < s.start
  ordered : s.start ≤ s.stop
  stop : s.stop ≤ a

/-- What a node starts with, in front of what is being read of it: nothing, its first token or its
first part. -/
inductive Head where
  | none
  | token (s : Span)
  | part (o : Outline)

namespace Head
variable {lo a p : Position} {head : Head}

/-- The node starts behind `lo` and goes on behind `a`. -/
def At (lo a : Position) : Head → Prop
  | .none => lo = a
  | .token s => s.Opens lo a
  | .part o => Outline.Row lo a [o]

/-- A token of the node may start at `p`, if it is not inside the first part. -/
def Allows (lo a p : Position) : Head → Prop
  | .none => lo < p
  | .token s => s.start ≤ p
  | .part _ => a < p

theorem At.le (h : head.At lo a) : lo ≤ a := by
  cases head with
  | none => exact le_of_eq h
  | token s => exact le_of_lt (lt_of_lt_of_le h.start (le_trans h.ordered h.stop))
  | part o => exact le_of_lt (Outline.Row.lt_of_single h).2.2

theorem At.allows (h : head.At lo a) (hp : a < p) : head.Allows lo a p := by
  cases head with
  | none => exact lt_of_eq_of_lt h hp
  | token s => exact le_trans h.ordered (le_trans h.stop (le_of_lt hp))
  | part o => exact hp

theorem At.lt (h : head.At lo a) (hp : head.Allows lo a p) : lo < p := by
  cases head with
  | none => exact hp
  | token s => exact lt_of_lt_of_le h.start hp
  | part o => exact lt_of_le_of_lt h.le hp

end Head

/-- Behind its head a node has the outlines `os` from `a` on, up to the cursor behind `hi`. If `ended`,
the token read last belongs to the node. If `solid`, the next token has room of its own. -/
structure Cursor.InNode (head : Head) (ended solid : Bool) (os : List Outline) (lo a hi : Position)
    (c : Cursor) : Prop where
  placed : head.At lo a
  le : a ≤ hi
  row : Outline.Row a hi os
  laid : Token.Laid hi c.rest
  last : ended = true →
    head.Allows lo a c.prev.start ∧ c.prev.start ≤ c.prev.stop ∧ c.prev.stop = hi
  solid : solid = true → c.kind.isSolid = true

namespace Cursor.InNode
variable {head : Head} {ended solid : Bool} {os ps : List Outline} {lo a mid hi : Position}
  {c c' : Cursor} {s : Span} {o p : Outline} {role : Role}

theorem start (h : Token.Laid lo c.rest) (hsolid : solid = true → c.kind.isSolid = true) :
    c.InNode .none false solid [] lo lo lo :=
  ⟨rfl, le_rfl, .nil lo lo, h, Bool.noConfusion, hsolid⟩

/-- Something was read up to a token that belongs to the node. -/
theorem go (h : c.InNode head ended solid os lo a mid) (hle : mid ≤ hi) (hrow : Outline.Row a hi ps)
    (hlaid : Token.Laid hi c'.rest) (hends : c'.prev.Ends mid hi) :
    c'.InNode head true false ps lo a hi where
  placed := h.placed
  le := le_trans h.le hle
  row := hrow
  laid := hlaid
  last _ := ⟨h.placed.allows (lt_of_le_of_lt h.le hends.start), hends.ordered, hends.stop⟩
  solid := Bool.noConfusion

theorem pass (h : c.InNode head ended solid os lo a mid) (hc : c.Passes mid c') :
    c'.InNode head true false os lo a c.span.stop :=
  h.go (le_of_lt hc.lt) (h.row.mono le_rfl (le_of_lt hc.lt)) hc.laid hc.ends

theorem ends (h : c.InNode head true solid os lo a hi) : c.prev.Ends lo hi := by
  obtain ⟨hstart, hordered, hstop⟩ := h.last rfl
  exact ⟨h.placed.lt hstart, hordered, hstop⟩

/-- What was read becomes one row with what stands in front of it. -/
theorem join (h : c.InNode head true solid os lo a hi) (hrow : Outline.Row lo hi ps) :
    c.InNode .none true false ps lo lo hi where
  placed := rfl
  le := le_trans h.placed.le h.le
  row := hrow
  laid := h.laid
  last _ := ⟨h.ends.start, h.ends.ordered, h.ends.stop⟩
  solid := Bool.noConfusion

/-- A node from its first token to the last one read. -/
theorem around (h : c.InNode (.token s) true solid os lo a hi) :
    Outline.Row lo hi [.node role (s.merge c.prev) os []] := by
  have hs : s.Opens lo a := h.placed
  have hstop := h.ends.stop
  exact .around hs.start hs.ordered (h.row.mono hs.stop (le_of_eq hstop.symm)) h.ends.start
    (le_trans hs.stop h.le) (le_of_eq hstop)

/-- A node from its first token to the last outline read. -/
theorem upTo (h : c.InNode (.token s) ended solid (os ++ [o]) lo a hi) :
    Outline.Row lo hi [.node role (s.merge o.span) (os ++ [o]) []] := by
  have hs : s.Opens lo a := h.placed
  exact .upTo hs.start hs.ordered (h.row.mono hs.stop le_rfl)

/-- A node from its first part to the last token. -/
theorem behind (h : c.InNode (.part o) true solid os lo a hi) :
    Outline.Row lo hi [.node role (o.span.merge c.prev) (o :: os) []] := by
  obtain ⟨hstart, hordered, hstop⟩ := h.last rfl
  exact Outline.Row.behind h.placed (h.row.mono le_rfl (le_of_eq hstop.symm)) le_rfl hstart hordered
    (le_of_eq hstop)

/-- A node from the first outline read to the last token. -/
theorem from_first (h : c.InNode .none true solid (o :: os) lo a hi) :
    Outline.Row lo hi [.node .other (o.span.merge c.prev) (o :: os) []] := by
  have hstop := h.ends.stop
  have hrow := h.row.mono (le_of_eq h.placed) (le_of_eq hstop.symm)
  exact (Outline.Row.from_first hrow h.ends.start).mono le_rfl (le_of_eq hstop)

end Cursor.InNode

/-- What a node is made of stands behind its first token. -/
theorem Cursor.Passes.first {c c' : Cursor} (h : c.Passes lo c') :
    c'.InNode (.token c.span) true false [] lo c.span.stop c.span.stop where
  placed := ⟨h.start, h.ordered, le_rfl⟩
  le := le_rfl
  row := .nil _ _
  laid := h.laid
  last _ := by
    rw [h.prev]
    exact ⟨le_rfl, h.ordered, rfl⟩
  solid := Bool.noConfusion

namespace Parser
variable {α β : Type} {lo : Position} {c : Cursor}
variable {f : α → List Outline} {p item : Parser α}

/-- A parser that reads the rest of a node. What it gives has `R`, a property of the place where the
node starts, the value, the place behind which it stopped and the token before that. -/
def ReadsRest (head : Head) (ended solid : Bool) (os : List Outline)
    (R : Position → α → Position → Span → Prop) (p : Parser α) : Prop :=
  ∀ ⦃lo a mid c⦄, c.InNode head ended solid os lo a mid → Yields mid c p (R lo)

theorem Outlined.of_rest (h : ReadsRest .none false false [] (Drawn f) p) : Outlined f p :=
  fun _ _ hlaid => h (.start hlaid Bool.noConfusion)

theorem Spread.of_rest (h : ReadsRest .none false false [] (Laying f) p) : Spread f p :=
  fun _ _ hlaid => h (.start hlaid Bool.noConfusion)

/-- What a node is made of, but for its span. From its first token `s` to the last one read it is a
node that starts with `s`. -/
def Made (f : α → Outline) (s : Span) (lo : Position) (make : Span → α) (hi : Position)
    (prev : Span) : Prop :=
  Drawn (fun a => [f a]) lo (make (s.merge prev)) hi prev ∧ s.Opens lo hi ∧
    s.start ≤ (f (make (s.merge prev))).span.start

namespace ReadsRest
variable {head : Head} {ended solid : Bool} {os : List Outline} {f : α → List Outline}
  {R : Position → β → Position → Span → Prop} {p : Parser α} {g : α → Parser β} {q : Parser β}
  {s first last : Span} {o : Outline} {role : Role}

theorem fail (e : SyntaxError) : ReadsRest head ended solid os R (Parser.fail e) :=
  fun _ _ _ _ h => .fail h.laid e

/-- A parser that only looks at the cursor. -/
theorem look {get : Cursor → α} (hg : ∀ x, ReadsRest head ended solid os R (g x)) :
    ReadsRest head ended solid os R ((fun c => (some (get c), c) : Parser α) >>= g) :=
  fun _ _ _ c h => .look rfl (hg (get c) h)

theorem peek {g : Kind → Parser β} (hg : ∀ k : Kind, ReadsRest head ended k.isSolid os R (g k)) :
    ReadsRest head ended solid os R (Parser.peek >>= g) :=
  fun _ _ _ c h => .peek (hg c.kind ⟨h.placed, h.le, h.row, h.laid, h.last, id⟩)

theorem next {g : Span → Parser β} (hg : ∀ s, ReadsRest head true false os R (g s)) :
    ReadsRest head ended true os R (Parser.next >>= g) :=
  fun _ _ _ c h => .next h.laid (h.solid rfl) fun _ hc => hg c.span (h.pass hc)

theorem expect {k : Kind} {g : Span → Parser β} (hk : k.isSolid = true)
    (hg : ∀ s, ReadsRest head true false os R (g s)) :
    ReadsRest head ended solid os R (Parser.expect k >>= g) :=
  fun _ _ _ c h => .expect h.laid hk fun _ hc => hg c.span (h.pass hc)

theorem sym {k : Symbol} {g : Unit → Parser β} (hg : ReadsRest head true false os R (g ())) :
    ReadsRest head ended solid os R (Parser.sym k >>= g) := by
  rw [Parser.sym, bind_assoc]
  exact expect rfl fun _ => hg

theorem word {w : Keyword} {g : Unit → Parser β} (hg : ReadsRest head true false os R (g ())) :
    ReadsRest head ended solid os R (Parser.word w >>= g) := by
  rw [Parser.word, bind_assoc]
  exact expect rfl fun _ => hg

theorem holeStart {g : Span → Parser β} (hg : ∀ s, ReadsRest head false false os R (g s)) :
    ReadsRest head ended solid os R (Parser.expect .holeStart >>= g) :=
  fun _ _ _ c h => .expect_hole h.laid fun _ h' =>
    hg c.span ⟨h.placed, h.le, h.row, h', Bool.noConfusion, Bool.noConfusion⟩

theorem become {k : Symbol} {g : Unit → Parser β} (hg : ReadsRest head ended false os R (g ())) :
    ReadsRest head ended true os R (Parser.become (.sym k) >>= g) :=
  fun _ _ _ _ h => .become h.laid (h.solid rfl) fun _ hprev h' =>
    hg ⟨h.placed, h.le, h.row, h', hprev ▸ h.last, Bool.noConfusion⟩

theorem nested (hq : ReadsRest head ended solid os R q) :
    ReadsRest head ended solid os R (Parser.nested q) :=
  fun _ _ _ _ h => .nested h.laid fun _ hprev _ hkind h' =>
    hq ⟨h.placed, h.le, h.row, h', hprev ▸ h.last, hkind ▸ h.solid⟩

theorem outlined (hp : Outlined f p) (hg : ∀ x, ReadsRest head true false (os ++ f x) R (g x)) :
    ReadsRest head ended solid os R (p >>= g) := by
  intro lo a mid c h
  apply (hp mid c h.laid).seq
  intro x hi c' hgoes ⟨hrow, hends⟩
  exact hg x (h.go hgoes.le (h.row.append hrow h.le le_rfl hgoes.le) hgoes.laid hends)

theorem trailing (hp : Trailing f p) (hg : ∀ x, ReadsRest head true false (os ++ f x) R (g x)) :
    ReadsRest head true solid os R (p >>= g) := by
  intro lo a mid c h
  apply (hp mid c h.laid).seq
  intro x hi c' hgoes ⟨hrow, hlast⟩
  have hrows := h.row.append hrow h.le le_rfl hgoes.le
  rcases hlast with ⟨rfl, hsame⟩ | hends
  · exact hg x ⟨h.placed, h.le, hrows, hgoes.laid, hsame ▸ h.last, Bool.noConfusion⟩
  · exact hg x (h.go hgoes.le hrows hgoes.laid hends)

/-- What may stand behind a node and does not belong to it. -/
theorem skip (hp : Trailing (fun _ => []) p) (hg : ∀ x, ReadsRest head true false os R (g x)) :
    ReadsRest head true solid os R (p >>= g) := by
  apply trailing hp
  intro x
  rw [List.append_nil]
  exact hg x

theorem spread (hp : Spread f p) (hg : ∀ x, ReadsRest head false false (os ++ f x) R (g x)) :
    ReadsRest head ended solid os R (p >>= g) := by
  intro lo a mid c h
  apply (hp mid c h.laid).seq
  intro x hi c' hgoes hrow
  have hrows := h.row.append hrow h.le le_rfl hgoes.le
  exact hg x ⟨h.placed, le_trans h.le hgoes.le, hrows, hgoes.laid, Bool.noConfusion, Bool.noConfusion⟩

/-! A node is complete: it takes the place of what it is made of. -/

theorem around {q : Span → Parser β}
    (hq : ∀ stop, ReadsRest .none true false [.node role (s.merge stop) os []] R (q stop)) :
    ReadsRest (.token s) true solid os R (before >>= q) :=
  fun _ _ _ c h => .look rfl (hq c.prev (h.join h.around))

theorem upTo (hlast : o.span = last)
    (hq : ReadsRest .none true false [.node role (s.merge last) (os ++ [o]) []] R q) :
    ReadsRest (.token s) true solid (os ++ [o]) R q :=
  fun _ _ _ _ h => hq (h.join (hlast ▸ h.upTo))

theorem fromFirst (hfirst : o.span = first) {q : Span → Parser β}
    (hq : ∀ stop, ReadsRest .none true false [.node .other (first.merge stop) (o :: os) []] R (q stop)) :
    ReadsRest .none true solid (o :: os) R (before >>= q) :=
  fun _ _ _ c h => .look rfl (hq c.prev (h.join (hfirst ▸ h.from_first)))

/-- A node may start with what was read. -/
theorem part (hq : ReadsRest (.part o) false solid [] R q) :
    ReadsRest .none ended solid [o] R q :=
  fun _ _ _ _ h =>
    hq ⟨h.row.mono (le_of_eq h.placed) le_rfl, le_rfl, .nil _ _, h.laid, Bool.noConfusion, h.solid⟩

theorem behind (hfirst : o.span = first) {q : Span → Parser β}
    (hq : ∀ stop, ReadsRest .none true false [.node role (first.merge stop) (o :: os) []] R (q stop)) :
    ReadsRest (.part o) true solid os R (before >>= q) :=
  fun _ _ _ c h => .look rfl (hq c.prev (h.join (hfirst ▸ h.behind)))

theorem operands {o' : Outline} (hfirst : o.span = first) (hlast : o'.span = last)
    (hq : ReadsRest .none true false [.node role (first.merge last) [o, o'] []] R q) :
    ReadsRest (.part o) true solid [o'] R q :=
  fun _ _ _ _ h => hq (h.join (hfirst ▸ hlast ▸ Outline.Row.operands h.placed h.row))

theorem row {x : α} (hx : f x = os) : ReadsRest .none true solid os (Drawn f) (pure x) :=
  fun _ _ _ _ h => .pure h.laid ⟨hx ▸ h.row.mono (le_of_eq h.placed) le_rfl, h.ends⟩

theorem rows {x : α} (hx : f x = os) : ReadsRest .none ended solid os (Laying f) (pure x) :=
  fun _ _ _ _ h => .pure h.laid (hx ▸ h.row.mono (le_of_eq h.placed) le_rfl : Outline.Row _ _ (f x))

theorem made {f : α → Outline} {make : Span → α}
    (hmake : ∀ span, f (make span) = .node role span os []) :
    ReadsRest (.token s) true solid os (Made f s) (pure make) := by
  intro lo a hi c h
  have hs : s.Opens lo a := h.placed
  refine .pure h.laid ⟨⟨?_, h.ends⟩, ⟨hs.start, hs.ordered, le_trans hs.stop h.le⟩, ?_⟩
  · dsimp only
    rw [hmake]
    exact h.around
  · rw [hmake]
    exact Span.le_merge_start le_rfl (h.last rfl).1

end ReadsRest

/-- A parser that starts at a token with the span `s`. -/
def Draws (s : Span) (solid : Bool) (R : Position → α → Position → Span → Prop) (p : Parser α) :
    Prop :=
  ∀ ⦃lo c⦄, Token.Laid lo c.rest → (solid = true → c.kind.isSolid = true) → c.span = s →
    Yields lo c p (R lo)

theorem Outlined.of_draws (h : ∀ s, Draws s false (Drawn f) p) : Outlined f p :=
  fun _ c hlaid => h c.span hlaid Bool.noConfusion rfl

namespace Draws
variable {s : Span} {solid : Bool} {f : α → List Outline}
  {R : Position → β → Position → Span → Prop} {p : Parser α} {g : α → Parser β} {q : Parser β}

theorem of_outlined (hp : Outlined f p) : Draws s solid (Drawn f) p :=
  fun lo c h _ _ => hp lo c h

theorem of_rest (hq : ReadsRest .none false solid [] R q) : Draws s solid R q :=
  fun _ _ h hsolid _ => hq (.start h hsolid)

theorem fail (e : SyntaxError) : Draws s solid R (Parser.fail e) :=
  of_rest (.fail e)

theorem look {get : Cursor → α} (hg : ∀ x, Draws s solid R (g x)) :
    Draws s solid R ((fun c => (some (get c), c) : Parser α) >>= g) :=
  fun _ c h hsolid hs => .look rfl (hg (get c) h hsolid hs)

theorem peek {g : Kind → Parser β} (hg : ∀ k : Kind, Draws s k.isSolid R (g k)) :
    Draws s solid R (Parser.peek >>= g) :=
  fun _ c h _ hs => .peek (hg c.kind h id hs)

theorem here {g : Span → Parser β} (hg : Draws s solid R (g s)) :
    Draws s solid R (Parser.here >>= g) := by
  rintro lo c h hsolid rfl
  exact .look rfl (hg h hsolid rfl)

theorem next {g : Span → Parser β} (hg : ReadsRest (.token s) true false [] R (g s)) :
    Draws s true R (Parser.next >>= g) := by
  rintro lo c h hsolid rfl
  exact .next h (hsolid rfl) fun _ hc => hg hc.first

theorem expect {k : Kind} {g : Span → Parser β} (hk : k.isSolid = true)
    (hg : ReadsRest (.token s) true false [] R (g s)) :
    Draws s solid R (Parser.expect k >>= g) := by
  rintro lo c h - rfl
  exact .expect h hk fun _ hc => hg hc.first

theorem sym {k : Symbol} {g : Unit → Parser β} (hg : ReadsRest (.token s) true false [] R (g ())) :
    Draws s solid R (Parser.sym k >>= g) := by
  rw [Parser.sym, bind_assoc]
  exact expect rfl hg

theorem word {w : Keyword} {g : Unit → Parser β} (hg : ReadsRest (.token s) true false [] R (g ())) :
    Draws s solid R (Parser.word w >>= g) := by
  rw [Parser.word, bind_assoc]
  exact expect rfl hg

/-- One token makes a node. -/
theorem leaf {role : Role} {g : Span → Parser β}
    (hg : ReadsRest .none true false [.leaf role s] R (g s)) :
    Draws s true R (Parser.next >>= g) := by
  rintro lo c h hsolid rfl
  refine .next h (hsolid rfl) fun c' hc => hg (hc.first.join ?_)
  exact .single hc.start le_rfl (Outline.nested_leaf hc.ordered)

/-- What starts at `s` may be followed by something else. -/
theorem seq (hp : Draws s solid (Drawn f) p)
    (hg : ∀ x, ReadsRest .none true false (f x) R (g x)) : Draws s solid R (p >>= g) := by
  intro lo c h hsolid hs
  apply (hp h hsolid hs).seq
  intro x hi c' hgoes ⟨hrow, hends⟩
  exact hg x (Cursor.InNode.go (.start h hsolid) hgoes.le hrow hgoes.laid hends)

/-- The head of a function: it starts at `async` or at `fn`. -/
theorem functionHead {g : Span → Bool → Parser β}
    (hg : ∀ async, ReadsRest (.token s) true false [] R (g s async)) :
    Draws s solid R (do
      let start ← Parser.here
      let async ← eat (.word .asyncKw)
      Parser.word .fnKw
      g start async) := by
  apply here
  rintro lo c h hsolid rfl
  apply Yields.eat h rfl
  · intro c' hc
    exact (ReadsRest.word (hg true)) hc.first
  · exact (word (hg false)) h hsolid rfl

end Draws

theorem outlined_ident : Outlined (fun i => [i.outline]) ident := by
  refine .of_draws fun s => .peek fun k => ?_
  split
  · exact .leaf (.row rfl)
  · exact .fail _

theorem outlined_memberName : Outlined (fun i => [i.outline]) memberName := by
  refine .of_draws fun s => .peek fun k => ?_
  split
  · exact .leaf (.row rfl)
  · exact .leaf (.row rfl)
  · exact .fail _

theorem trailing_eat {k : Kind} (hk : k.isSolid = true) : Trailing (fun _ => []) (eat k) := by
  intro lo c h
  rw [← bind_pure (eat k)]
  apply Yields.eat h hk
  · intro c' hpasses
    exact .pure hpasses.laid ⟨.nil _ _, .inr hpasses.ends⟩
  · exact .pure h ⟨.nil _ _, .inl ⟨rfl, rfl⟩⟩

theorem ReadsRest.eat {head : Head} {solid : Bool} {os : List Outline}
    {R : Position → β → Position → Span → Prop} {k : Kind} {g : Bool → Parser β}
    (hk : k.isSolid = true) (hg : ∀ found, ReadsRest head true false os R (g found)) :
    ReadsRest head true solid os R (Parser.eat k >>= g) :=
  .skip (trailing_eat hk) hg

theorem spread_itemsWithin (close : Kind) (hitem : Outlined f item) (n : Nat) :
    Spread (fun as => as.flatMap f) (itemsWithin close item n) := by
  induction n with
  | zero => exact .of_rest (.rows rfl)
  | succ n ih =>
    refine .of_rest (.peek fun k => ?_)
    split
    · exact .rows rfl
    · refine .outlined hitem fun a => .eat rfl fun found => ?_
      split
      · exact .spread ih fun as => .rows rfl
      · exact .rows (List.flatMap_singleton f a)

/-- The sign that closes a list stands behind its items. -/
theorem yields_items (close : Symbol) (hitem : Outlined f item) (h : Token.Laid lo c.rest) :
    Yields lo c (items close item) fun as hi prev =>
      ∃ mid, lo ≤ mid ∧ Outline.Row lo mid (as.flatMap f) ∧ prev.Ends mid hi := by
  refine .look rfl ?_
  apply (spread_itemsWithin _ hitem _ lo c h).seq
  intro as mid c₁ hgoes hrow
  rw [Parser.sym, bind_assoc]
  refine .expect hgoes.laid rfl fun c₂ hclose => ?_
  exact .pure hclose.laid ⟨mid, hgoes.le, hrow, hclose.ends⟩

theorem outlined_items (close : Symbol) (hitem : Outlined f item) :
    Outlined (fun as => as.flatMap f) (items close item) := by
  intro lo c h
  apply (yields_items close hitem h).imp
  rintro as hi prev - ⟨mid, hle, hrow, hends⟩
  exact ⟨hrow.mono le_rfl (le_of_lt hends.lt), hends.mono hle⟩

theorem row_allWithin (stop : Kind → Bool) (hitem : Spread f item) (n : Nat)
    (h : Token.Laid lo c.rest) : ∃ hi, c.Goes lo hi (allWithin stop item n c).2 ∧
      Outline.Row lo hi ((allWithin stop item n c).1.flatMap f) := by
  induction n generalizing lo c with
  | zero => exact ⟨lo, .refl h, .nil lo lo⟩
  | succ n ih =>
    rw [allWithin]
    split
    · exact ⟨lo, .refl h, .nil lo lo⟩
    obtain ⟨mid, hgoes, hrow⟩ := hitem lo c h
    split
    · next a c' heq =>
      rw [heq] at hgoes hrow
      obtain ⟨hi, hgoes', hrows⟩ := ih hgoes.laid
      exact ⟨hi, hgoes.trans hgoes', (hrow a rfl).append hrows hgoes.le le_rfl hgoes'.le⟩
    · next c' heq =>
      -- what fails is left out
      rw [heq] at hgoes
      obtain ⟨mid', hrecover⟩ := hgoes.laid.goes_recover
      obtain ⟨hi, hgoes', hrows⟩ := ih hrecover.laid
      have hgoes'' := (hgoes.trans hrecover).trans hgoes'
      exact ⟨hi, hgoes'', hrows.mono (le_trans hgoes.le hrecover.le) le_rfl⟩

theorem spread_all (stop : Kind → Bool) (hitem : Spread f item) :
    Spread (fun as => as.flatMap f) (all stop item) := by
  intro lo c h
  obtain ⟨hi, hgoes, hrow⟩ := row_allWithin stop hitem c.rest.length h
  exact ⟨hi, hgoes, fun as has => Option.some.inj has ▸ hrow⟩

/-- The semicolon behind a statement does not belong to it. -/
theorem trailing_semicolon : Trailing (fun _ => []) semicolon := by
  intro lo c h
  apply Yields.eat h rfl
  · intro c' hpasses
    exact .pure hpasses.laid ⟨.nil _ _, .inr hpasses.ends⟩
  · rw [if_neg Bool.false_ne_true]
    apply Yields.peek
    split
    · exact .pure h ⟨.nil _ _, .inl ⟨rfl, rfl⟩⟩
    · exact ⟨lo, ⟨le_rfl, h, .inl ⟨rfl, rfl⟩⟩, fun _ _ => ⟨.nil _ _, .inl ⟨rfl, rfl⟩⟩⟩

theorem spread_next : Spread (fun _ => []) next := by
  intro lo c h
  obtain ⟨hi, hgoes⟩ := h.goes_next
  exact ⟨hi, hgoes, fun _ _ => .nil _ _⟩

theorem outlined_stringLiteral : Outlined (fun _ => []) stringLiteral := by
  refine .of_rest (.peek fun k => ?_)
  split
  · exact .next fun _ => .row rfl
  · exact .fail _

end Parser

end CarvFront
