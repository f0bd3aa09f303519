import CarvFront.Proofs.Combinators
import Mathlib.Data.List.Forall2

/-! What a parser does on tokens of known kinds: it reads them all and nothing more, or it says that
they nest too deep. The rules here put such statements together along the parsers. -/
namespace CarvFront
variable {ts rest : List Token}

/-- Behind the faults so far the limit for nesting was reported, and nothing else. -/
def Cursor.Refuses (faults : List Fault) (c : Cursor) : Prop :=
  ∃ span, c.faults = faults ++ [⟨.nestingLimit, span⟩]

/-- `ts` starts with tokens of the kinds `ks`, and `rest` is what follows them. -/
def Spells : List Kind → List Token → List Token → Prop
  | [], ts, rest => ts = rest
  | k :: ks, ts, rest => ∃ t ts', ts = t :: ts' ∧ t.kind = k ∧ Spells ks ts' rest

theorem spells_append {as bs : List Kind} :
    Spells (as ++ bs) ts rest ↔ ∃ mid, Spells as ts mid ∧ Spells bs mid rest := by
  induction as generalizing ts with
  | nil =>
    constructor
    · intro h
      exact ⟨ts, rfl, h⟩
    · rintro ⟨mid, rfl, h⟩
      exact h
  | cons a as ih =>
    constructor
    · rintro ⟨t, ts', rfl, hk, h⟩
      obtain ⟨mid, has, hbs⟩ := ih.mp h
      exact ⟨mid, ⟨t, ts', rfl, hk, has⟩, hbs⟩
    · rintro ⟨mid, ⟨t, ts', rfl, hk, has⟩, hbs⟩
      exact ⟨t, ts', rfl, hk, ih.mpr ⟨mid, has, hbs⟩⟩

theorem Spells.length_eq {ks : List Kind} (h : Spells ks ts rest) :
    ts.length = ks.length + rest.length := by
  induction ks generalizing ts with
  | nil =>
    obtain rfl : ts = rest := h
    exact (Nat.zero_add _).symm
  | cons k ks ih =>
    obtain ⟨t, ts', rfl, -, h⟩ := h
    rw [List.length_cons, List.length_cons, ih h]
    omega

theorem spells_map_kind (ts : List Token) : Spells (ts.map Token.kind) ts [] := by
  induction ts with
  | nil => rfl
  | cons t ts ih => exact ⟨t, ts, rfl, rfl, ih⟩

/-- Lists of tokens with commas between them. -/
def commas : List (List Kind) → List Kind
  | [] => []
  | [ks] => ks
  | ks :: rest => ks ++ .sym .comma :: commas rest

/-- The kind of the first token. -/
def firstKind : List Token → Kind
  | [] => .eof
  | t :: _ => t.kind

theorem firstKind_of_spells {k : Kind} {ks : List Kind} (h : Spells (k :: ks) ts rest) :
    firstKind ts = k := by
  obtain ⟨t, ts', rfl, hk, -⟩ := h
  exact hk

theorem length_pos_of_firstKind (h : firstKind ts ≠ .eof) : 0 < ts.length := by
  cases ts with
  | nil => exact absurd rfl h
  | cons t ts => exact Nat.succ_pos _

theorem Cursor.kind_eq (c : Cursor) : c.kind = firstKind c.rest := by
  obtain ⟨ts, last, depth, faults⟩ := c
  cases ts <;> rfl

namespace Parser
variable {α β : Type}
variable {ok : α → Prop} {c : Cursor} {p : Parser α}

/-- What became of a construct that goes `n` levels deeper. If they are there, it was read and the
cursor stands behind it; if not, the limit was reported. -/
inductive Outcome (depth : Nat) (faults : List Fault) (rest : List Token) (n : Nat)
    (ok : α → Prop) : Option α × Cursor → Prop
  | read (a : α) (last : Span) (fits : depth + n ≤ maxNesting) (h : ok a) :
      Outcome depth faults rest n ok (some a, ⟨rest, last, depth, faults⟩)
  | tooDeep (c : Cursor) (beyond : maxNesting < depth + n) (h : c.Refuses faults) :
      Outcome depth faults rest n ok (none, c)

variable {depth n k m : Nat} {faults : List Fault} {rest mid : List Token}

theorem Outcome.imp {ok' : α → Prop} {res : Option α × Cursor}
    (h : Outcome depth faults rest n ok res) (himp : ∀ a, ok a → ok' a) :
    Outcome depth faults rest n ok' res := by
  cases h with
  | read a last fits h => exact .read a last fits (himp a h)
  | tooDeep c beyond h => exact .tooDeep c beyond h

theorem Outcome.bind {f : α → Parser β} {ok' : β → Prop} (h : Outcome depth faults mid n ok (p c))
    (hf : ∀ a last, ok a → Outcome depth faults rest k ok' (f a ⟨mid, last, depth, faults⟩)) :
    Outcome depth faults rest (max n k) ok' ((p >>= f) c) := by
  generalize hres : p c = res at h
  cases h with
  | tooDeep c beyond h =>
    rw [bind_of_none hres]
    exact .tooDeep c (by omega) h
  | read a last fits h =>
    rw [bind_of_some hres]
    have hrest := hf a last h
    generalize f a ⟨mid, last, depth, faults⟩ = res at hrest
    cases hrest with
    | read b last' fits' h' => exact .read b last' (by omega) h'
    | tooDeep c beyond h' => exact .tooDeep c (by omega) h'

theorem Outcome.map {ok' : β → Prop} (h : Outcome depth faults rest n ok (p c)) (g : α → β)
    (hg : ∀ a, ok a → ok' (g a)) :
    Outcome depth faults rest n ok' ((p >>= fun a => pure (g a)) c) := by
  generalize hres : p c = res at h
  cases h with
  | tooDeep c beyond h =>
    rw [bind_of_none hres]
    exact .tooDeep c beyond h
  | read a last fits h =>
    rw [bind_of_some hres]
    exact .read (g a) last fits (hg a h)

/-- One level deeper, if there is one. -/
theorem Outcome.nested (h : c.depth + 1 ≤ maxNesting →
      Outcome (c.depth + 1) c.faults rest n ok (p { c with depth := c.depth + 1 })) :
    Outcome c.depth c.faults rest (n + 1) ok (Parser.nested p c) := by
  unfold Parser.nested
  split
  · next hover =>
    exact .tooDeep _ (by omega) ⟨c.span, rfl⟩
  · next hfits =>
    have hin := h (by omega)
    dsimp only
    generalize p { c with depth := c.depth + 1 } = res at hin
    cases hin with
    | read a last fits h => exact .read a last (by omega) h
    | tooDeep c beyond h => exact .tooDeep _ (by omega) h

/-- There are rules for all the levels that may still be entered. -/
structure Room (m : Nat) (c : Cursor) : Prop where
  depth_le : c.depth ≤ maxNesting
  enough : maxNesting < m + c.depth

/-- A parser reads tokens of the kinds `ks` that go `n` levels deeper, whatever follows, as long as
`stop` holds of it. There are rules for `m` levels. -/
def Reads (m : Nat) (stop : Kind → Bool) (p : Parser α) (n : Nat) (ks : List Kind)
    (ok : α → Prop) : Prop :=
  ∀ c rest, Room m c → Spells ks c.rest rest → stop (firstKind rest) = true →
    Outcome c.depth c.faults rest n ok (p c)

section
variable {stop : Kind → Bool} {ks : List Kind}
variable {p : Parser α} {t : Token} {f : Bool → Parser β} {ok₁ : α → Prop}

theorem Reads.imp {ok ok' : α → Prop} (h : Reads m stop p n ks ok) (himp : ∀ a, ok a → ok' a) :
    Reads m stop p n ks ok' :=
  fun c rest hr hs hstop => (h c rest hr hs hstop).imp himp

theorem Reads.weaken {ok : α → Prop} (h : Reads m stop p n ks ok) {stop' : Kind → Bool}
    (hstop : ∀ k, stop' k = true → stop k = true) : Reads m stop' p n ks ok :=
  fun c rest hr hs h' => h c rest hr hs (hstop _ h')

theorem Reads.of_eq {ok : α → Prop} {n' : Nat} {ks' : List Kind} (h : Reads m stop p n ks ok)
    (hn : n = n') (hks : ks = ks') : Reads m stop p n' ks' ok := by
  subst hn hks
  exact h

/-- Only what a parser does at a token of the right kind matters. -/
theorem Reads.congr {q : Parser α} {ok : α → Prop} {k : Kind} (h : Reads m stop q n (k :: ks) ok)
    (hpq : ∀ c : Cursor, c.kind = k → p c = q c) : Reads m stop p n (k :: ks) ok := by
  intro c rest hr hs hstop
  have hk : c.kind = k := by
    rw [c.kind_eq]
    exact firstKind_of_spells hs
  rw [hpq c hk]
  exact h c rest hr hs hstop

/-! ### Steps on one token -/

variable {ok : β → Prop}

theorem eat_of_eq {k : Kind} (h : t.kind = k) (ts : List Token) (last : Span) :
    eat k ⟨t :: ts, last, depth, faults⟩ = (some true, ⟨ts, t.span, depth, faults⟩) :=
  if_pos h

theorem peek_of_eq {k : Kind} (h : t.kind = k) (ts : List Token) (last : Span) :
    Parser.peek ⟨t :: ts, last, depth, faults⟩ = (some k, ⟨t :: ts, last, depth, faults⟩) :=
  h ▸ rfl

theorem expect_of_eq {k : Kind} (h : t.kind = k) (ts : List Token) (last : Span) :
    Parser.expect k ⟨t :: ts, last, depth, faults⟩ =
      (some t.span, ⟨ts, t.span, depth, faults⟩) := by
  change (if t.kind = k then Parser.next else _ : Parser Span) _ = _
  rw [if_pos h]
  rfl

theorem eat_of_ne {k : Kind} {c : Cursor} (h : c.kind ≠ k) : eat k c = (some false, c) :=
  if_neg h

theorem Reads.pure {a : β} (h : ok a) : Reads m stop (pure a) 0 [] ok := by
  intro c rest hr hs _
  obtain rfl : c.rest = rest := hs
  exact .read a c.prev hr.depth_le h

/-- A parser that only looks. -/
theorem Reads.look {get : Cursor → α} {f : α → Parser β} (h : ∀ a, Reads m stop (f a) n ks ok) :
    Reads m stop ((fun c => (some (get c), c) : Parser α) >>= f) n ks ok :=
  fun c rest hr hs hstop => h (get c) c rest hr hs hstop

theorem Reads.peek {k : Kind} {f : Kind → Parser β} (h : Reads m stop (f k) n (k :: ks) ok) :
    Reads m stop (Parser.peek >>= f) n (k :: ks) ok := by
  refine h.congr fun c hk => ?_
  change f c.kind c = f k c
  rw [hk]

theorem Reads.isAt {k k' : Kind} (h : Reads m stop (f (decide (k' = k))) n (k' :: ks) ok) :
    Reads m stop (Parser.isAt k >>= f) n (k' :: ks) ok := by
  refine h.congr fun c hk => ?_
  change f (decide (c.kind = k)) c = _
  rw [hk]

theorem Reads.next {k : Kind} {f : Span → Parser β} (h : ∀ span, Reads m stop (f span) n ks ok) :
    Reads m stop (Parser.next >>= f) n (k :: ks) ok := by
  rintro ⟨ts, last, depth, faults⟩ rest ⟨hd, hm⟩ ⟨t, ts', hc, -, hs⟩ hstop
  obtain rfl : ts = t :: ts' := hc
  exact h t.span ⟨ts', t.span, depth, faults⟩ rest ⟨hd, hm⟩ hs hstop

theorem Reads.expect {k : Kind} {f : Span → Parser β}
    (h : ∀ span, Reads m stop (f span) n ks ok) :
    Reads m stop (Parser.expect k >>= f) n (k :: ks) ok := by
  rw [Parser.expect, bind_assoc]
  refine Reads.peek ?_
  rw [if_pos rfl]
  exact Reads.next h

theorem Reads.sym {s : Symbol} {f : Unit → Parser β} (h : Reads m stop (f ()) n ks ok) :
    Reads m stop (Parser.sym s >>= f) n (.sym s :: ks) ok := by
  rw [Parser.sym, bind_assoc]
  exact Reads.expect fun _ => h

theorem Reads.eat {k : Kind} (h : Reads m stop (f true) n ks ok) :
    Reads m stop (Parser.eat k >>= f) n (k :: ks) ok := by
  refine (Reads.next fun _ => h).congr fun c hk => ?_
  have he : Parser.eat k c = (some true, c.next) := if_pos hk
  rw [bind_of_some he]
  rfl

theorem Reads.eat_other {k k' : Kind} (hne : k' ≠ k) (h : Reads m stop (f false) n (k' :: ks) ok) :
    Reads m stop (Parser.eat k >>= f) n (k' :: ks) ok := by
  refine h.congr fun c hk => ?_
  rw [bind_of_some (eat_of_ne (hk ▸ hne))]

theorem Reads.ident {name : String} {f : Ident → Parser β}
    (h : ∀ span, Reads m stop (f ⟨name, span⟩) n ks ok) :
    Reads m stop (Parser.ident >>= f) n (.ident name :: ks) ok := by
  rw [Parser.ident, bind_assoc]
  refine Reads.peek ?_
  dsimp only
  rw [bind_assoc]
  exact Reads.next h

theorem Reads.memberName_ident {name : String} {f : Ident → Parser β}
    (h : ∀ span, Reads m stop (f ⟨name, span⟩) n ks ok) :
    Reads m stop (Parser.memberName >>= f) n (.ident name :: ks) ok := by
  rw [Parser.memberName, bind_assoc]
  refine Reads.peek ?_
  dsimp only
  rw [bind_assoc]
  exact Reads.next h

theorem Reads.memberName_word {w : Keyword} {f : Ident → Parser β}
    (h : ∀ span, Reads m stop (f ⟨w.text, span⟩) n ks ok) :
    Reads m stop (Parser.memberName >>= f) n (.word w :: ks) ok := by
  rw [Parser.memberName, bind_assoc]
  refine Reads.peek ?_
  dsimp only
  rw [bind_assoc]
  exact Reads.next h

/-- Behind the last token the next one is known to be no part of the construct. -/
theorem Reads.peek_end {f : Kind → Parser β}
    (h : ∀ k, stop k = true → Reads m stop (f k) n [] ok) :
    Reads m stop (Parser.peek >>= f) n [] ok := by
  intro c rest hr hs hstop
  obtain rfl : c.rest = rest := hs
  exact h c.kind (c.kind_eq ▸ hstop) c c.rest hr rfl hstop

theorem Reads.eat_end {k : Kind} (hk : stop k = false) (h : Reads m stop (f false) n [] ok) :
    Reads m stop (Parser.eat k >>= f) n [] ok := by
  intro c rest hr hs hstop
  obtain rfl : c.rest = rest := hs
  have hne : c.kind ≠ k := by
    intro heq
    rw [← c.kind_eq, heq, hk] at hstop
    cases hstop
  rw [bind_of_some (eat_of_ne hne)]
  exact h c c.rest hr rfl hstop

/-! ### Sequences -/

/-- One after the other. What comes second starts with a token that the first does not take. -/
theorem Reads.seq {f : α → Parser β} {stop₁ : Kind → Bool} {as : List Kind} {k : Kind} {n' : Nat}
    (hp : Reads m stop₁ p n as ok₁) (hk : stop₁ k = true)
    (hf : ∀ a, ok₁ a → Reads m stop (f a) n' (k :: ks) ok) :
    Reads m stop (p >>= f) (max n n') (as ++ k :: ks) ok := by
  intro c rest hr hs hstop
  obtain ⟨mid, has, hks⟩ := spells_append.mp hs
  have hmid : stop₁ (firstKind mid) = true := by
    rw [firstKind_of_spells hks]
    exact hk
  refine (hp c mid hr has hmid).bind fun a last ha => ?_
  exact hf a ha ⟨mid, last, c.depth, c.faults⟩ rest ⟨hr.depth_le, hr.enough⟩ hks hstop

/-- What comes second goes no deeper. -/
theorem Reads.closedBy {f : α → Parser β} {stop₁ : Kind → Bool} {as : List Kind} {k : Kind}
    (hp : Reads m stop₁ p n as ok₁) (hk : stop₁ k = true)
    (hf : ∀ a, ok₁ a → Reads m stop (f a) 0 (k :: ks) ok) :
    Reads m stop (p >>= f) n (as ++ k :: ks) ok :=
  (hp.seq hk hf).of_eq (Nat.max_zero n) rfl

/-- What comes second reads nothing. -/
theorem Reads.andThen {f : α → Parser β} (hp : Reads m stop p n ks ok₁)
    (hf : ∀ a, ok₁ a → Reads m stop (f a) 0 [] ok) : Reads m stop (p >>= f) n ks ok := by
  intro c rest hr hs hstop
  have h := (hp c rest hr hs hstop).bind fun a last ha =>
    hf a ha ⟨rest, last, c.depth, c.faults⟩ rest ⟨hr.depth_le, hr.enough⟩ rfl hstop
  rwa [Nat.max_zero] at h

theorem Reads.nested {ok : α → Prop} (h : Reads m stop p n ks ok) :
    Reads (m + 1) stop (Parser.nested p) (n + 1) ks ok := by
  intro c rest hr hs hstop
  refine Outcome.nested fun hfits => ?_
  have henough := hr.enough
  refine h { c with depth := c.depth + 1 } rest ⟨hfits, ?_⟩ hs hstop
  change maxNesting < m + (c.depth + 1)
  omega

/-- Without rules there is no room. -/
theorem reads_zero (p : Parser α) (ok : α → Prop) : Reads 0 stop p n ks ok := by
  intro c rest hr
  have hdepth := hr.depth_le
  have henough := hr.enough
  omega

end

/-! ### Lists -/

/-- An item to be read: its tokens, how deep it goes, and what has to come out. -/
structure Item (α : Type) where
  tokens : List Kind
  nesting : Nat
  ok : α → Prop

/-- An item that can stand in a list up to `close`. -/
structure Item.Readable (m : Nat) (stop : Kind → Bool) (p : Parser α) (close : Kind)
    (i : Item α) : Prop where
  reads : Reads m stop p i.nesting i.tokens i.ok
  starts : ∃ k ks, i.tokens = k :: ks ∧ k ≠ close ∧ k ≠ .eof

/-- How deep a list goes. -/
def deepest (is : List (Item α)) : Nat :=
  is.foldr (fun i n => max i.nesting n) 0

section
variable {stop : Kind → Bool} {p : Parser α} {close : Kind}
variable {fuel : Nat} {c : Cursor}

theorem itemsWithin_close (hc : c.kind = close) :
    itemsWithin close p (fuel + 1) c = (some [], c) := by
  rw [itemsWithin]
  change (if c.kind = close ∨ c.kind = .eof then pure [] else _ : Parser (List α)) c = _
  rw [if_pos (.inl hc)]
  rfl

theorem itemsWithin_item (hc : c.kind ≠ close) (he : c.kind ≠ .eof) :
    itemsWithin close p (fuel + 1) c =
      (p >>= fun a => eat (.sym .comma) >>= fun more =>
        if more then itemsWithin close p fuel >>= fun as => pure (a :: as) else pure [a]) c := by
  rw [itemsWithin]
  change (if c.kind = close ∨ c.kind = .eof then pure [] else _ : Parser (List α)) c = _
  rw [if_neg (not_or.mpr ⟨hc, he⟩)]

/-- Items are read one by one, as long as there are tokens. -/
theorem outcome_itemsWithin {is : List (Item α)} (his : ∀ i ∈ is, i.Readable m stop p close)
    (hcomma : stop (.sym .comma) = true) (hclose : stop close = true) (hne : close ≠ .sym .comma)
    (heof : close ≠ .eof) (hr : Room m c) (hs : Spells (commas (is.map Item.tokens)) c.rest rest)
    (hrest : firstKind rest = close) (hfuel : c.rest.length ≤ fuel) :
    Outcome c.depth c.faults rest (deepest is) (List.Forall₂ Item.ok is)
      (itemsWithin close p fuel c) := by
  induction is generalizing fuel c with
  | nil =>
    obtain rfl : c.rest = rest := hs
    have hpos := length_pos_of_firstKind (hrest ▸ heof)
    obtain ⟨fuel, rfl⟩ := Nat.exists_eq_add_of_lt (Nat.lt_of_lt_of_le hpos hfuel)
    rw [Nat.zero_add, itemsWithin_close (c.kind_eq.trans hrest)]
    exact .read [] c.prev hr.depth_le .nil
  | cons i is ih =>
    have hi := his i List.mem_cons_self
    have his' := fun j hj => his j (List.mem_cons_of_mem i hj)
    obtain ⟨k, ks, hk, hkc, hke⟩ := hi.starts
    have hfirst : c.kind = k := by
      have hstart : ∃ ks', commas ((i :: is).map Item.tokens) = k :: ks' := by
        cases is with
        | nil => exact ⟨ks, hk⟩
        | cons j js => exact ⟨ks ++ _, congrArg (· ++ _) hk⟩
      obtain ⟨ks', hks'⟩ := hstart
      rw [hks'] at hs
      exact c.kind_eq.trans (firstKind_of_spells hs)
    have hpos : 0 < c.rest.length := length_pos_of_firstKind (c.kind_eq ▸ hfirst ▸ hke)
    obtain ⟨fuel, rfl⟩ := Nat.exists_eq_add_of_lt (Nat.lt_of_lt_of_le hpos hfuel)
    rw [Nat.zero_add, itemsWithin_item (hfirst ▸ hkc) (hfirst ▸ hke)]
    cases is with
    | nil =>
      refine (hi.reads c rest hr hs (hrest ▸ hclose)).bind fun a last ha => ?_
      have hc : (⟨rest, last, c.depth, c.faults⟩ : Cursor).kind ≠ .sym .comma := by
        rw [Cursor.kind_eq]
        exact hrest ▸ hne
      rw [bind_of_some (eat_of_ne hc)]
      exact .read [a] last hr.depth_le (.cons ha .nil)
    | cons j js =>
      obtain ⟨mid, hi', t, ts, rfl, ht, hjs⟩ := spells_append.mp hs
      have hmid : stop (firstKind (t :: ts)) = true := by
        rw [firstKind, ht]
        exact hcomma
      refine (hi.reads c (t :: ts) hr hi' hmid).bind fun a last ha => ?_
      have hlen := hi'.length_eq
      rw [List.length_cons] at hlen
      have hrec : Outcome c.depth c.faults rest (deepest (j :: js)) (List.Forall₂ Item.ok (j :: js))
          (itemsWithin close p fuel ⟨ts, t.span, c.depth, c.faults⟩) :=
        ih his' (c := ⟨ts, t.span, c.depth, c.faults⟩) ⟨hr.depth_le, hr.enough⟩ hjs
          (by dsimp only; omega)
      rw [bind_of_some (eat_of_eq ht ts last), if_pos rfl]
      exact hrec.map (a :: ·) fun as has => .cons ha has

/-- A list of items and what closes it. -/
theorem reads_items {s : Symbol} (is : List (Item α)) (hcomma : stop (.sym .comma) = true)
    (hclose : stop (.sym s) = true) (hne : s ≠ .comma)
    (his : ∀ i ∈ is, i.Readable m stop p (.sym s)) :
    Reads m (fun _ => true) (items s p) (deepest is)
      (commas (is.map Item.tokens) ++ [.sym s]) (List.Forall₂ Item.ok is) := by
  intro c rest hr hs hstop
  obtain ⟨mid, his', hmid⟩ := spells_append.mp hs
  have hkind : firstKind mid = .sym s := firstKind_of_spells hmid
  have hout := outcome_itemsWithin his hcomma hclose (by simpa using hne) (by simp) hr his' hkind
    (Nat.le_refl _)
  have hthen (as : List α) (has : List.Forall₂ Item.ok is as) :
      Reads m (fun _ => true) (sym s >>= fun _ => pure as) 0 [.sym s] (List.Forall₂ Item.ok is) :=
    Reads.sym (Reads.pure has)
  rw [items]
  change Outcome c.depth c.faults rest (deepest is) _ ((itemsWithin (.sym s) p c.rest.length >>=
    fun as => sym s >>= fun _ => pure as) c)
  have hall := hout.bind fun as last has =>
    hthen as has ⟨mid, last, c.depth, c.faults⟩ rest ⟨hr.depth_le, hr.enough⟩ hmid rfl
  rwa [Nat.max_zero] at hall

end

/-! ### Items up to the end -/

section
variable {stop : Kind → Bool} {item : Parser α} {c c' : Cursor}

/-- There is an item to read. -/
def GoesOn (stop : Kind → Bool) (c : Cursor) : Prop :=
  ¬(stop c.kind ∨ c.kind = .eof ∨ c.full)

theorem allWithin_eof (n : Nat) (h : c.kind = .eof) : allWithin stop item n c = ([], c) := by
  cases n with
  | zero => rfl
  | succ n => rw [allWithin, if_pos (.inr (.inl h))]

theorem allWithin_of_some (n : Nat) {a : α} (hgo : GoesOn stop c)
    (hitem : item c = (some a, c')) :
    allWithin stop item (n + 1) c =
      (a :: (allWithin stop item n c').1, (allWithin stop item n c').2) := by
  rw [allWithin, if_neg hgo, hitem]

theorem allWithin_of_none (n : Nat) (hgo : GoesOn stop c) (hitem : item c = (none, c')) :
    allWithin stop item (n + 1) c = allWithin stop item n c'.recover := by
  rw [allWithin, if_neg hgo, hitem]

end

/-- Whatever a program starts with is read. -/
theorem goesOn_start {ts : List Token} (hts : firstKind ts ≠ .eof) :
    GoesOn (fun _ => false) (.start ts) ∧ ∃ left, ts.length = left + 1 := by
  constructor
  · rintro (hstop | heof | hfull)
    · cases hstop
    · exact hts ((Cursor.kind_eq _).symm.trans heof)
    · cases hfull
  · exact Nat.exists_eq_add_one.mpr (length_pos_of_firstKind hts)

end Parser

open CarvFront.Parser CarvFront.Grammar

/-- A program that is one statement, up to its end. -/
theorem Program.ofTokens_single {s : Stmt} {c : Cursor} (hts : firstKind ts ≠ .eof)
    (hread : statement rules (.start ts) = (some s, c)) (hend : c.kind = .eof) :
    (Program.ofTokens ts).1.stmts = [s] ∧ (Program.ofTokens ts).2 = c.faults := by
  obtain ⟨hgo, left, hleft⟩ := goesOn_start hts
  have hall := allWithin_of_some left hgo hread
  rw [allWithin_eof left hend, ← hleft] at hall
  exact ⟨congrArg Prod.fst hall, congrArg (·.2.faults) hall⟩

/-- A program whose first statement fails keeps the faults that were found then. -/
theorem Program.faults_of_none {c : Cursor} (hts : firstKind ts ≠ .eof)
    (hread : statement rules (.start ts) = (none, c)) : c.faults <+: (Program.ofTokens ts).2 := by
  have hkeeps : KeepsFaults (statement rules) :=
    closed_statement keepsFaults_closed (closed_levels keepsFaults_closed _)
  obtain ⟨hgo, left, hleft⟩ := goesOn_start hts
  have hall := allWithin_of_none left hgo hread
  rw [← hleft] at hall
  have hfaults : (Program.ofTokens ts).2 = _ := congrArg (·.2.faults) hall
  rw [hfaults]
  exact faults_course.allWithin (fun _ => false) hkeeps left c.recover

end CarvFront
