import CarvFront.Proofs.ExpressionSoundness

/-! Types at the front of a list of tokens. The sign that closes a generic type may be the first half
of a token, and a type goes on as long as it can. Parsers of types read what these rules allow, and
nothing else. -/
namespace CarvFront
variable {c : Cursor} {k : Kind} {ks : List Kind}

/-! ### Types without their spans -/

mutual

/-- A type without its spans. -/
def TypeExpr.bare : TypeExpr → TypeExpr
  | .basic _ t => .basic .nowhere t
  | .array _ elem => .array .nowhere elem.bare
  | .map _ key value => .map .nowhere key.bare value.bare
  | .fn _ params ret => .fn .nowhere (bareTypes params) ret.bare
  | .chan _ elem => .chan .nowhere elem.bare
  | .future _ output => .future .nowhere output.bare
  | .optional _ inner => .optional .nowhere inner.bare
  | .ref _ mutable inner => .ref .nowhere mutable inner.bare
  | .named _ name => .named .nowhere name

def bareTypes : List TypeExpr → List TypeExpr
  | [] => []
  | t :: ts => t.bare :: bareTypes ts

end

/-- The same type, spans apart. -/
def TypeExpr.Same (t t' : TypeExpr) : Prop := t.bare = t'.bare

theorem bareTypes_of_forall₂ {ts ts' : List TypeExpr} (h : List.Forall₂ TypeExpr.Same ts ts') :
    bareTypes ts = bareTypes ts' := by
  induction h with
  | nil => rfl
  | cons ht _ ih => exact congrArg₂ List.cons ht ih

/-! ### How deep a type nests -/

/-- The result of a function type that says nothing of it. It is noted at the closing parenthesis,
which is narrower than the word. -/
def TypeExpr.isUnwritten : TypeExpr → Bool
  | .basic span .void => span.start = span.stop
  | _ => false

mutual

/-- How many levels there are inside a type. Question marks open none, and neither does a result
that is not written. -/
def TypeExpr.nesting : TypeExpr → Nat
  | .basic _ _ | .named _ _ => 0
  | .array _ inner | .chan _ inner | .future _ inner | .ref _ _ inner => inner.nesting + 1
  | .map _ key value => max (key.nesting + 1) (value.nesting + 1)
  | .fn _ params ret =>
    max (nestingTypes params) (if ret.isUnwritten then 0 else ret.nesting + 1)
  | .optional _ inner => inner.nesting

def nestingTypes : List TypeExpr → Nat
  | [] => 0
  | t :: ts => max (t.nesting + 1) (nestingTypes ts)

end

/-! ### Types in front -/

mutual

/-- The kinds `ks` start with a type, and `rest` is what is left of them. Where a type ends in
another one, that one takes the question marks. -/
inductive TypeExpr.Heads : TypeExpr → List Kind → List Kind → Prop
  | basic (span : Span) (t : BasicType) (rest : List Kind) :
      TypeExpr.Heads (.basic span t) (t.kind :: rest) rest
  | array (span : Span) {elem : TypeExpr} {ks rest : List Kind}
      (helem : TypeExpr.Heads elem ks (.sym .rbracket :: rest)) :
      TypeExpr.Heads (.array span elem) (.sym .lbracket :: ks) rest
  | map (span : Span) {key value : TypeExpr} {ks mid rest : List Kind}
      (hkey : TypeExpr.Heads key ks (.sym .colon :: mid))
      (hvalue : TypeExpr.Heads value mid (.sym .rbrace :: rest)) :
      TypeExpr.Heads (.map span key value) (.sym .lbrace :: ks) rest
  | fn (span : Span) {params : List TypeExpr} {ret : TypeExpr} {ks mid rest : List Kind}
      (hparams : HeadTypes params ks (.sym .arrow :: mid)) (hret : TypeExpr.Heads ret mid rest)
      (hwritten : ret.isUnwritten = false) (hrest : rest.headD .eof ≠ .sym .question) :
      TypeExpr.Heads (.fn span params ret) (.word .fnKw :: .sym .lparen :: ks) rest
  | procedure (span : Span) {params : List TypeExpr} {ret : TypeExpr} {ks rest : List Kind}
      (hparams : HeadTypes params ks rest) (hret : ret.isUnwritten = true)
      (hrest : rest.headD .eof ≠ .sym .arrow) :
      TypeExpr.Heads (.fn span params ret) (.word .fnKw :: .sym .lparen :: ks) rest
  | chan (span : Span) {elem : TypeExpr} {ks mid rest : List Kind} (helem : TypeExpr.Heads elem ks mid)
      (hclose : Spelt [.close] mid rest) :
      TypeExpr.Heads (.chan span elem) (.ident "chan" :: .sym .less :: ks) rest
  | future (span : Span) {output : TypeExpr} {ks mid rest : List Kind}
      (houtput : TypeExpr.Heads output ks mid) (hclose : Spelt [.close] mid rest) :
      TypeExpr.Heads (.future span output) (.ident "Future" :: .sym .less :: ks) rest
  | optional (span : Span) {inner : TypeExpr} {ks rest : List Kind}
      (hinner : TypeExpr.Heads inner ks (.sym .question :: rest)) : TypeExpr.Heads (.optional span inner) ks rest
  | ref (span : Span) {inner : TypeExpr} {ks rest : List Kind} (hinner : TypeExpr.Heads inner ks rest)
      (hrest : rest.headD .eof ≠ .sym .question) :
      TypeExpr.Heads (.ref span false inner) (.sym .amp :: ks) rest
  | refMut (span : Span) {inner : TypeExpr} {ks rest : List Kind} (hinner : TypeExpr.Heads inner ks rest)
      (hrest : rest.headD .eof ≠ .sym .question) :
      TypeExpr.Heads (.ref span true inner) (.sym .amp :: .word .mutKw :: ks) rest
  | named (span : Span) {name : String} {rest : List Kind}
      (hbasic : Grammar.basicType? name = none)
      (hrest : name = "chan" ∨ name = "Future" → rest.headD .eof ≠ .sym .less) :
      TypeExpr.Heads (.named span name) (.ident name :: rest) rest

/-- The kinds `ks` start with types up to a closing parenthesis, and `rest` follows that. A comma may
stand behind the last. -/
inductive HeadTypes : List TypeExpr → List Kind → List Kind → Prop
  | nil (rest : List Kind) : HeadTypes [] (.sym .rparen :: rest) rest
  | last {t : TypeExpr} {ks rest : List Kind} (ht : TypeExpr.Heads t ks (.sym .rparen :: rest)) :
      HeadTypes [t] ks rest
  | cons {t : TypeExpr} {ts : List TypeExpr} {ks mid rest : List Kind}
      (ht : TypeExpr.Heads t ks (.sym .comma :: mid)) (hts : HeadTypes ts mid rest) :
      HeadTypes (t :: ts) ks rest

end

/-! ### Reading -/

theorem Cursor.kind_of_kinds (h : c.kinds = k :: ks) : c.kind = k := by
  rw [← c.headD_kinds, h]
  rfl

theorem Cursor.kinds_next (h : c.kinds = k :: ks) : c.next.kinds = ks := by
  obtain ⟨_ | ⟨t, ts⟩, prev, depth, faults⟩ := c
  · cases h
  · exact (List.cons.inj h).2

/-- Reading has gone on inside a construct, and nothing new was found wrong. -/
structure Cursor.Level (c c' : Cursor) : Prop where
  depth : c'.depth = c.depth
  faults : c'.faults = c.faults
  length : c'.rest.length ≤ c.rest.length

namespace Cursor.Level

theorem refl (c : Cursor) : c.Level c := ⟨rfl, rfl, Nat.le_refl _⟩

theorem trans {c c' c'' : Cursor} (h : c.Level c') (h' : c'.Level c'') : c.Level c'' :=
  ⟨h'.depth.trans h.depth, h'.faults.trans h.faults, h'.length.trans h.length⟩

end Cursor.Level

theorem Cursor.level_next (c : Cursor) : c.Level c.next := by
  obtain ⟨_ | ⟨t, ts⟩, prev, depth, faults⟩ := c
  · exact .refl _
  · exact ⟨rfl, rfl, Nat.le_succ _⟩

theorem Cursor.length_next (h : c.kinds = k :: ks) : c.rest.length = c.next.rest.length + 1 := by
  obtain ⟨_ | ⟨t, ts⟩, prev, depth, faults⟩ := c
  · cases h
  · rfl

theorem Cursor.length_kinds (c : Cursor) : c.kinds.length = c.rest.length :=
  List.length_map _

theorem Parser.become_of_kinds (k' : Kind) (hc : c.kinds = k :: ks) :
    ∃ c', become k' c = (some (), c') ∧ c.Level c' ∧ c'.kinds = k' :: ks := by
  obtain ⟨_ | ⟨t, ts⟩, prev, depth, faults⟩ := c
  · cases hc
  · exact ⟨_, rfl, ⟨rfl, rfl, le_rfl⟩, congrArg (k' :: ·) (List.cons.inj hc).2⟩

namespace Parser
variable {α β : Type} {ks mid rest : List Kind} {n d m : Nat} {ok : α → Prop} {ok' : β → Prop}

theorem Room.level {c c' : Cursor} (h : Room m c) (hc : c.Level c') : Room m c' := by
  obtain ⟨hdepth, henough⟩ := h
  exact ⟨hc.depth ▸ hdepth, hc.depth ▸ henough⟩

/-- At a place a parser reads up to tokens of the kinds `rest` what goes `n` levels deeper, or it says
that there are not so many. -/
inductive ReadingAt (c : Cursor) (rest : List Kind) (n : Nat) (ok : α → Prop) (p : Parser α) : Prop
  | read {a : α} {c' : Cursor} (h : p c = (some a, c')) (hc : c.Level c') (hrest : c'.kinds = rest)
      (fits : c.depth + n ≤ maxNesting) (ha : ok a)
  | tooDeep {c' : Cursor} (h : p c = (none, c')) (beyond : maxNesting < c.depth + n)
      (hc : c'.Refuses c.faults)

/-- A parser does so wherever tokens of the kinds `ks` are left, and rules for `m` levels. -/
def Reading (m : Nat) (ks rest : List Kind) (n : Nat) (ok : α → Prop) (p : Parser α) : Prop :=
  ∀ c, Room m c → c.kinds = ks → ReadingAt c rest n ok p

namespace Reading
variable {p : Parser α} {f : α → Parser β}

theorem of_eq (h : Reading m ks rest n ok p) (hn : n = d) : Reading m ks rest d ok p :=
  hn ▸ h

/-- What a parser does first that neither fails nor goes deeper. -/
theorem step (h : ∀ c, c.kinds = ks → ∃ a c', p c = (some a, c') ∧
    c.Level c' ∧ c'.kinds = mid ∧ Reading m mid rest n ok' (f a)) :
    Reading m ks rest n ok' (p >>= f) := by
  intro c hr hc
  obtain ⟨a, c', hp, hc', hmid, hf⟩ := h c hc
  have hbind := bind_of_some hp f
  cases hf c' (hr.level hc') hmid with
  | read hfa hd hrest fits ha =>
    exact .read (hbind.trans hfa) (hc'.trans hd) hrest (hc'.depth ▸ fits) ha
  | tooDeep hfa beyond hd =>
    exact .tooDeep (hbind.trans hfa) (hc'.depth ▸ beyond) (hc'.faults ▸ hd)

/-- A parser that only looks at the cursor. -/
theorem look {get : Cursor → α} (h : ∀ c, c.kinds = ks → Reading m ks rest n ok' (f (get c))) :
    Reading m ks rest n ok' ((fun c => (some (get c), c) : Parser α) >>= f) :=
  step fun c hc => ⟨get c, c, rfl, .refl c, hc, h c hc⟩

theorem pure {a : α} (ha : ok a) : Reading m rest rest 0 ok (Pure.pure a) :=
  fun c hr hc => .read rfl (.refl c) hc hr.depth_le ha

theorem bind (h : Reading m ks mid n ok p)
    (hf : ∀ a, ok a → mid.length ≤ ks.length → Reading m mid rest d ok' (f a)) :
    Reading m ks rest (max n d) ok' (p >>= f) := by
  intro c hr hc
  cases h c hr hc with
  | tooDeep hp beyond hc => exact .tooDeep (bind_of_none hp f) (by omega) hc
  | @read a c' hp hc' hmid fits ha =>
    have hdepth := hc'.depth
    have hlength := hc'.length
    rw [← c'.length_kinds, ← c.length_kinds, hmid, hc] at hlength
    have hbind := bind_of_some hp f
    cases hf a ha hlength c' (hr.level hc') hmid with
    | read hfa hd hrest fits' hb =>
      exact .read (hbind.trans hfa) (hc'.trans hd) hrest (by omega) hb
    | tooDeep hfa beyond hd => exact .tooDeep (hbind.trans hfa) (by omega) (hc'.faults ▸ hd)

/-- What comes second goes no deeper. -/
theorem andThen (h : Reading m ks mid n ok p) (hf : ∀ a, ok a → Reading m mid rest 0 ok' (f a)) :
    Reading m ks rest n ok' (p >>= f) :=
  (h.bind fun a ha _ => hf a ha).of_eq (Nat.max_zero n)

/-- One level deeper, if there is one. -/
theorem nested (h : Reading m ks rest n ok p) :
    Reading (m + 1) ks rest (n + 1) ok (Parser.nested p) := by
  rintro c ⟨hdepth, henough⟩ hc
  by_cases hfits : c.depth + 1 ≤ maxNesting
  · have hin : Parser.nested p c = ((p { c with depth := c.depth + 1 }).1,
        { (p { c with depth := c.depth + 1 }).2 with
          depth := (p { c with depth := c.depth + 1 }).2.depth - 1 }) := if_neg (by omega)
    have hroom : Room m { c with depth := c.depth + 1 } :=
      ⟨hfits, by change maxNesting < m + (c.depth + 1); omega⟩
    cases h { c with depth := c.depth + 1 } hroom hc with
    | read hp hc hrest fits ha =>
      rw [hp] at hin
      refine .read hin ⟨?_, hc.faults, hc.length⟩ hrest ?_ ha
      · exact congrArg (· - 1) hc.depth
      · dsimp only at fits
        omega
    | tooDeep hp beyond hc =>
      rw [hp] at hin
      refine .tooDeep hin ?_ hc
      dsimp only at beyond
      omega
  · exact .tooDeep (if_pos (by omega)) (by omega) ⟨c.span, rfl⟩

/-! #### Single tokens -/

variable {k : Kind}

theorem next {f : Span → Parser β} (h : ∀ span, Reading m ks rest n ok' (f span)) :
    Reading m (k :: ks) rest n ok' (Parser.next >>= f) :=
  step fun c hc => ⟨c.span, c.next, rfl, c.level_next, Cursor.kinds_next hc, h c.span⟩

theorem peek {f : Kind → Parser β} (h : Reading m (k :: ks) rest n ok' (f k)) :
    Reading m (k :: ks) rest n ok' (Parser.peek >>= f) :=
  look fun _ hc => (Cursor.kind_of_kinds hc).symm ▸ h

theorem isAt {k' : Kind} {f : Bool → Parser β}
    (h : Reading m (k :: ks) rest n ok' (f (decide (k = k')))) :
    Reading m (k :: ks) rest n ok' (Parser.isAt k' >>= f) :=
  look fun _ hc => (Cursor.kind_of_kinds hc).symm ▸ h

theorem eat {f : Bool → Parser β} (h : Reading m ks rest n ok' (f true)) :
    Reading m (k :: ks) rest n ok' (Parser.eat k >>= f) :=
  step fun c hc => ⟨true, c.next, if_pos (Cursor.kind_of_kinds hc), c.level_next,
    Cursor.kinds_next hc, h⟩

theorem eat_other {f : Bool → Parser β} (hk : ks.headD .eof ≠ k)
    (h : Reading m ks rest n ok' (f false)) : Reading m ks rest n ok' (Parser.eat k >>= f) := by
  refine step fun c hc => ⟨false, c, eat_of_ne ?_, .refl c, hc, h⟩
  rwa [← c.headD_kinds, hc]

theorem sym {s : Symbol} {f : Unit → Parser β} (h : Reading m ks rest n ok' (f ())) :
    Reading m (.sym s :: ks) rest n ok' (Parser.sym s >>= f) := by
  refine step fun c hc => ⟨(), c.next, ?_, c.level_next, Cursor.kinds_next hc, h⟩
  rw [Parser.sym, bind_of_some (expect_of_kind (Cursor.kind_of_kinds hc))]
  rfl

theorem become (k' : Kind) {f : Unit → Parser β} (h : Reading m (k' :: ks) rest n ok' (f ())) :
    Reading m (k :: ks) rest n ok' (Parser.become k' >>= f) :=
  step fun _ hc => match become_of_kinds k' hc with
    | ⟨c', hbecome, hc', hkinds⟩ => ⟨(), c', hbecome, hc', hkinds, h⟩

end Reading
end Parser

open CarvFront.Parser CarvFront.Grammar

/-! ### What is in front is read -/

/-- Tokens that a type can start with. -/
def Kind.startsType : Kind → Bool
  | .ident _ | .word .nilKw | .word .fnKw | .sym .lbracket | .sym .lbrace | .sym .amp => true
  | _ => false

theorem TypeExpr.Heads.starts : ∀ {t : TypeExpr} {ks rest : List Kind}, t.Heads ks rest →
    (ks.headD .eof).startsType = true
  | .optional _ inner, ks, rest, h => by
    have hinner : inner.Heads ks (.sym .question :: rest) := by
      cases h
      assumption
    exact hinner.starts
  | .basic _ t, _, _, h => by
    cases h
    cases t <;> rfl
  | .array _ _, _, _, h | .map _ _ _, _, _, h | .fn _ _ _, _, _, h | .chan _ _, _, _, h
  | .future _ _, _, _, h | .ref _ _ _, _, _, h | .named _ _, _, _, h => by
    cases h <;> rfl

theorem Kind.ne_of_startsType {k' : Kind} (hk : k.startsType = true) (hk' : k'.startsType = false) :
    k ≠ k' := by
  rintro rfl
  rw [hk] at hk'
  cases hk'

namespace Parser
variable {t : TypeExpr} {ts : List TypeExpr} {ks mid rest : List Kind} {m : Nat}

/-- A type in front of `ks` is read, and after it what question marks there are. -/
def Leads (t : TypeExpr) (ks rest : List Kind) : Prop :=
  ∀ (m n : Nat) (last : List Kind) (ok : TypeExpr → Prop),
    (∀ t' start fuel, t.Same t' → rest.length ≤ fuel →
      Reading m rest last n ok (optionalWithin start fuel t')) →
    Reading m ks last (max t.nesting n) ok (typeExpr (Rules.levels m).type)

namespace Leads

theorem type (h : Leads t ks rest) (hrest : rest.headD .eof ≠ .sym .question) :
    Reading m ks rest (t.nesting + 1) t.Same (Rules.levels m).type := by
  cases m with
  | zero =>
    rintro c ⟨hdepth, henough⟩
    omega
  | succ m =>
    refine Reading.nested ((h m 0 rest t.Same fun t' start fuel hsame _ => ?_).of_eq (Nat.max_zero _))
    cases fuel with
    | zero => exact Reading.pure hsame
    | succ fuel => exact Reading.eat_other hrest (Reading.pure hsame)

theorem of_bare (h : ∀ m, Reading m ks rest t.nesting (fun make => ∀ span, t.Same (make span))
      (bareType (Rules.levels m).type)) : Leads t ks rest := by
  intro m n last ok hfinish
  refine Reading.look fun _ _ => (h m).bind fun make hmake _ => Reading.look fun _ _ => ?_
  refine Reading.look fun c hc => hfinish _ _ _ (hmake _) ?_
  rw [← hc, c.length_kinds]

theorem optional (span : Span) (h : Leads t ks (.sym .question :: rest)) :
    Leads (.optional span t) ks rest := by
  intro m n last ok hfinish
  refine h m n last ok fun t' start fuel hsame hfuel => ?_
  obtain ⟨fuel, rfl⟩ := Nat.exists_eq_add_of_lt (Nat.lt_of_lt_of_le (Nat.succ_pos _) hfuel)
  rw [Nat.zero_add] at hfuel ⊢
  refine Reading.eat (Reading.look fun _ _ => ?_)
  exact hfinish _ start fuel (congrArg (TypeExpr.optional .nowhere) hsame)
    (Nat.le_of_succ_le_succ hfuel)

/-! #### Types that start with a sign or a word -/

theorem basic (span : Span) (t : BasicType) : Leads (.basic span t) (t.kind :: rest) rest := by
  refine of_bare fun m => Reading.peek ?_
  have hdone : Reading m rest rest 0
      (fun make => ∀ span', (TypeExpr.basic span t).Same (make span')) (pure (.basic · t)) :=
    Reading.pure fun _ => rfl
  cases t <;> exact Reading.next fun _ => hdone

theorem array (span : Span) (h : Leads t ks (.sym .rbracket :: rest)) :
    Leads (.array span t) (.sym .lbracket :: ks) rest := by
  refine of_bare fun m => Reading.peek (Reading.next fun _ => ?_)
  refine (h.type (by simp)).andThen fun elem hsame => Reading.sym (Reading.pure fun _ => ?_)
  exact congrArg (TypeExpr.array .nowhere) hsame

theorem map (span : Span) {key value : TypeExpr} (hkey : Leads key ks (.sym .colon :: mid))
    (hvalue : Leads value mid (.sym .rbrace :: rest)) :
    Leads (.map span key value) (.sym .lbrace :: ks) rest := by
  refine of_bare fun m => Reading.peek (Reading.next fun _ => ?_)
  refine (hkey.type (by simp)).bind fun key' hkey' _ => Reading.sym ?_
  refine (hvalue.type (by simp)).andThen fun value' hvalue' => ?_
  refine Reading.sym (Reading.pure fun _ => ?_)
  exact congrArg₂ (TypeExpr.map .nowhere) hkey' hvalue'

theorem ref (span : Span) (h : Leads t ks rest) (hks : (ks.headD .eof).startsType = true)
    (hrest : rest.headD .eof ≠ .sym .question) :
    Leads (.ref span false t) (.sym .amp :: ks) rest := by
  refine of_bare fun m => Reading.peek (Reading.next fun _ => ?_)
  refine Reading.eat_other (Kind.ne_of_startsType hks rfl) ?_
  refine (h.type hrest).andThen fun inner hsame => Reading.pure fun _ => ?_
  exact congrArg (TypeExpr.ref .nowhere false) hsame

theorem refMut (span : Span) (h : Leads t ks rest) (hrest : rest.headD .eof ≠ .sym .question) :
    Leads (.ref span true t) (.sym .amp :: .word .mutKw :: ks) rest := by
  refine of_bare fun m => Reading.peek (Reading.next fun _ => Reading.eat ?_)
  refine (h.type hrest).andThen fun inner hsame => Reading.pure fun _ => ?_
  exact congrArg (TypeExpr.ref .nowhere true) hsame

/-! #### Types that start with a name -/

/-- What closes a generic type leaves the rest of its token. -/
theorem angled (h : Leads t ks mid) (hclose : Spelt [.close] mid rest) :
    Reading m (.sym .less :: ks) rest (t.nesting + 1) t.Same
      (Grammar.angled (Rules.levels m).type) := by
  have hmid : mid.headD .eof ≠ .sym .question := by cases hclose <;> simp
  refine Reading.sym ((h.type hmid).andThen fun inner hsame => ?_)
  cases hclose with
  | close hnil =>
    cases hnil
    exact Reading.peek (Reading.sym (Reading.pure hsame))
  | closeShr hnil =>
    cases hnil
    exact Reading.peek (Reading.become _ (Reading.pure hsame))
  | closeEq hnil =>
    cases hnil
    exact Reading.peek (Reading.become _ (Reading.pure hsame))

theorem chan (span : Span) (h : Leads t ks mid) (hclose : Spelt [.close] mid rest) :
    Leads (.chan span t) (.ident "chan" :: .sym .less :: ks) rest := by
  refine of_bare fun m => Reading.peek (Reading.next fun _ => Reading.isAt ?_)
  refine (h.angled hclose).andThen fun inner hsame => Reading.pure fun _ => ?_
  exact congrArg (TypeExpr.chan .nowhere) hsame

theorem future (span : Span) (h : Leads t ks mid) (hclose : Spelt [.close] mid rest) :
    Leads (.future span t) (.ident "Future" :: .sym .less :: ks) rest := by
  refine of_bare fun m => Reading.peek (Reading.next fun _ => Reading.isAt ?_)
  refine (h.angled hclose).andThen fun inner hsame => Reading.pure fun _ => ?_
  exact congrArg (TypeExpr.future .nowhere) hsame

theorem named (span : Span) {name : String} (hbasic : basicType? name = none)
    (hrest : name = "chan" ∨ name = "Future" → rest.headD .eof ≠ .sym .less) :
    Leads (.named span name) (.ident name :: rest) rest := by
  refine of_bare fun m => Reading.peek (Reading.next fun _ => ?_)
  rw [namedType, hbasic]
  refine Reading.look fun c hc => ?_
  have hless (h : decide (c.kind = .sym .less) = true) : rest.headD .eof = .sym .less := by
    rw [← hc, c.headD_kinds]
    exact of_decide_eq_true h
  rw [if_neg, if_neg]
  · exact Reading.pure fun _ => rfl
  · exact fun h => hrest (.inr h.1) (hless h.2)
  · exact fun h => hrest (.inl h.1) (hless h.2)

end Leads

/-! #### Function types -/

/-- The types in front of `ks` are read as parameters. -/
def LeadTypes (ts : List TypeExpr) (ks rest : List Kind) : Prop :=
  ∀ m fuel : Nat, ks.length ≤ fuel →
    Reading m ks (.sym .rparen :: rest) (nestingTypes ts) (List.Forall₂ TypeExpr.Same ts)
      (itemsWithin (.sym .rparen) (Rules.levels m).type fuel)

namespace LeadTypes

theorem nil : LeadTypes [] (.sym .rparen :: rest) rest := by
  intro m fuel hfuel
  obtain ⟨fuel, rfl⟩ := Nat.exists_eq_add_of_lt (Nat.lt_of_lt_of_le (Nat.succ_pos _) hfuel)
  rw [Nat.zero_add]
  exact Reading.peek (Reading.pure .nil)

/-- The first parameter is read before the others. -/
theorem of_first {n : Nat} {last : List Kind} {ok : List TypeExpr → Prop} {p : Parser TypeExpr}
    {fuel : Nat} (hks : (ks.headD .eof).startsType = true) (hfuel : ks.length ≤ fuel)
    (h : ∀ left, fuel = left + 1 → Reading m ks last n ok (p >>= fun t =>
      eat (.sym .comma) >>= fun more =>
        if more then itemsWithin (.sym .rparen) p left >>= fun ts => pure (t :: ts)
        else pure [t])) : Reading m ks last n ok (itemsWithin (.sym .rparen) p fuel) := by
  cases ks with
  | nil => cases hks
  | cons k ks =>
    obtain ⟨left, rfl⟩ := Nat.exists_eq_add_of_lt (Nat.lt_of_lt_of_le (Nat.succ_pos _) hfuel)
    rw [Nat.zero_add] at h ⊢
    have hne {k' : Kind} (hk' : k'.startsType = false) : k ≠ k' := Kind.ne_of_startsType hks hk'
    refine Reading.peek ?_
    rw [if_neg (not_or.mpr ⟨hne rfl, hne rfl⟩)]
    exact h left rfl

theorem last (h : Leads t ks (.sym .rparen :: rest)) (hks : (ks.headD .eof).startsType = true) :
    LeadTypes [t] ks rest := by
  refine fun m fuel hfuel => of_first hks hfuel fun left _ => ?_
  refine (h.type (by simp)).bind fun t' hsame _ => ?_
  exact Reading.eat_other (by simp) (Reading.pure (.cons hsame .nil))

theorem cons (h : Leads t ks (.sym .comma :: mid)) (hks : (ks.headD .eof).startsType = true)
    (hts : LeadTypes ts mid rest) : LeadTypes (t :: ts) ks rest := by
  refine fun m fuel hfuel => of_first hks hfuel fun left hleft => ?_
  refine (h.type (by simp)).bind fun t' hsame hlength => Reading.eat ?_
  rw [List.length_cons] at hlength
  refine (hts m left (by omega)).andThen fun ts' hsames => ?_
  exact Reading.pure (.cons hsame hsames)

/-- Parameters and the closing parenthesis. -/
theorem items (h : LeadTypes ts ks rest) :
    Reading m ks rest (nestingTypes ts) (List.Forall₂ TypeExpr.Same ts)
      (items .rparen (Rules.levels m).type) := by
  refine Reading.look fun c hc => ?_
  have hfuel : ks.length ≤ c.rest.length := by rw [← hc, c.length_kinds]
  refine (h m c.rest.length hfuel).andThen fun ts' hsames => ?_
  exact Reading.sym (Reading.pure hsames)

theorem fn (span : Span) {ret : TypeExpr} (h : LeadTypes ts ks (.sym .arrow :: mid))
    (hret : Leads ret mid rest) (hwritten : ret.isUnwritten = false)
    (hrest : rest.headD .eof ≠ .sym .question) :
    Leads (.fn span ts ret) (.word .fnKw :: .sym .lparen :: ks) rest := by
  refine .of_bare fun m => Reading.peek (Reading.next fun _ => Reading.sym ?_)
  rw [TypeExpr.nesting, hwritten]
  refine h.items.bind fun params hsames _ => Reading.look fun _ _ => Reading.eat ?_
  refine (hret.type hrest).andThen fun ret' hsame => Reading.pure fun _ => ?_
  exact congrArg₂ (TypeExpr.fn .nowhere) (bareTypes_of_forall₂ hsames) hsame

theorem procedure (span : Span) {ret : TypeExpr} (h : LeadTypes ts ks rest)
    (hret : ret.isUnwritten = true) (hrest : rest.headD .eof ≠ .sym .arrow) :
    Leads (.fn span ts ret) (.word .fnKw :: .sym .lparen :: ks) rest := by
  refine .of_bare fun m => Reading.peek (Reading.next fun _ => Reading.sym ?_)
  rw [TypeExpr.nesting, hret]
  refine h.items.bind fun params hsames _ => Reading.look fun _ _ => ?_
  refine Reading.eat_other hrest (Reading.pure fun _ => ?_)
  have hvoid : ret.bare = .basic .nowhere .void := by
    unfold TypeExpr.isUnwritten at hret
    split at hret
    · rfl
    · cases hret
  exact congrArg₂ (TypeExpr.fn .nowhere) (bareTypes_of_forall₂ hsames) hvoid

end LeadTypes
end Parser

mutual

theorem TypeExpr.Heads.leads : ∀ {t : TypeExpr} {ks rest : List Kind}, t.Heads ks rest →
    Leads t ks rest
  | .basic _ _, _, _, h => by
    cases h
    exact .basic _ _
  | .array _ _, _, _, h => by
    cases h with
    | array _ helem => exact .array _ helem.leads
  | .map _ _ _, _, _, h => by
    cases h with
    | map _ hkey hvalue => exact .map _ hkey.leads hvalue.leads
  | .fn _ _ _, _, _, h => by
    cases h with
    | fn _ hparams hret hwritten hrest => exact hparams.leads.fn _ hret.leads hwritten hrest
    | procedure _ hparams hret hrest => exact hparams.leads.procedure _ hret hrest
  | .chan _ _, _, _, h => by
    cases h with
    | chan _ helem hclose => exact .chan _ helem.leads hclose
  | .future _ _, _, _, h => by
    cases h with
    | future _ houtput hclose => exact .future _ houtput.leads hclose
  | .optional _ _, _, _, h => by
    cases h with
    | optional _ hinner => exact .optional _ hinner.leads
  | .ref _ _ _, _, _, h => by
    cases h with
    | ref _ hinner hrest => exact .ref _ hinner.leads hinner.starts hrest
    | refMut _ hinner hrest => exact .refMut _ hinner.leads hrest
  | .named _ _, _, _, h => by
    cases h with
    | named _ hbasic hrest => exact .named _ hbasic hrest

theorem HeadTypes.leads : ∀ {ts : List TypeExpr} {ks rest : List Kind}, HeadTypes ts ks rest →
    LeadTypes ts ks rest
  | [], _, _, h => by
    cases h
    exact .nil
  | t :: ts, _, _, h => by
    cases h with
    | last ht => exact .last ht.leads ht.starts
    | cons ht hts => exact .cons ht.leads ht.starts hts.leads

end

/-! ### What is read is in front -/

theorem HeadTypes.of_close {rest : List Kind} (h : ks = .sym .rparen :: rest) :
    HeadTypes [] ks rest :=
  h ▸ .nil rest

/-- A closing parenthesis stands at one place, and the word `void` at more. -/
structure Token.Sized (t : Token) : Prop where
  rparen : t.kind = .sym .rparen → t.span.start = t.span.stop
  void : t.kind = .ident "void" → t.span.start ≠ t.span.stop

/-- All tokens from here on have their size. -/
def Cursor.Sized (c : Cursor) : Prop :=
  ∀ t ∈ c.rest, t.Sized

theorem Cursor.Sized.next (h : c.Sized) : c.next.Sized := by
  obtain ⟨_ | ⟨t, ts⟩, prev, depth, faults⟩ := c
  · exact h
  · exact fun t ht => h t (List.mem_cons_of_mem _ ht)

theorem Cursor.Sized.become {c' : Cursor} (h : c.Sized) {s : Symbol} (hs : s ≠ .rparen)
    (hc : become (.sym s) c = (some (), c')) : c'.Sized := by
  obtain ⟨_ | ⟨t, ts⟩, prev, depth, faults⟩ := c <;> cases hc
  · exact h
  · intro u hu
    rcases List.mem_cons.mp hu with rfl | hu
    · refine ⟨fun hk => absurd ?_ hs, fun hk => ?_⟩
      · simpa using hk
      · cases hk
    · exact h u (List.mem_cons_of_mem _ hu)

theorem Cursor.kinds_eq_cons (h : c.kind = k) (hk : k ≠ .eof) : c.kinds = k :: c.next.kinds := by
  obtain ⟨_ | ⟨t, ts⟩, prev, depth, faults⟩ := c
  · exact absurd h.symm hk
  · exact congrArg (· :: _) h

theorem Cursor.Sized.span (h : c.Sized) (hk : c.kind = k) (hne : k ≠ .eof) :
    ∃ t : Token, t.Sized ∧ t.kind = k ∧ t.span = c.span ∧ c.next.prev = c.span := by
  obtain ⟨_ | ⟨t, ts⟩, prev, depth, faults⟩ := c
  · exact absurd hk.symm hne
  · exact ⟨t, h t List.mem_cons_self, hk, rfl, rfl⟩

namespace Parser
variable {α β : Type} {c : Cursor}

/-- Whatever `p` reads at `c`, and wherever it gets to, `Q` holds of it. -/
def Ensures (c : Cursor) (p : Parser α) (Q : α → Cursor → Prop) : Prop :=
  ∀ a c', p c = (some a, c') → Q a c'

namespace Ensures
variable {p : Parser α} {f : α → Parser β} {Q Q' : α → Cursor → Prop} {R : β → Cursor → Prop}

theorem imp (h : Ensures c p Q) (himp : ∀ a c', Q a c' → Q' a c') : Ensures c p Q' :=
  fun a c' hp => himp a c' (h a c' hp)

theorem seq (hp : Ensures c p Q) (hf : ∀ a c', Q a c' → Ensures c' (f a) R) :
    Ensures c (p >>= f) R := by
  intro b c'' hb
  rcases hres : p c with ⟨_ | a, c'⟩
  · rw [bind_of_none hres] at hb
    cases hb
  · rw [bind_of_some hres] at hb
    exact hf a c' (hp a c' hres) b c'' hb

theorem pure {a : α} (h : Q a c) : Ensures c (Pure.pure a) Q := by
  intro b c' hb
  cases hb
  exact h

theorem fail (e : SyntaxError) : Ensures c (Parser.fail e) Q := by
  intro a c' h
  cases h

theorem look {get : Cursor → α} (h : Ensures c (f (get c)) R) :
    Ensures c ((fun c => (some (get c), c) : Parser α) >>= f) R :=
  h

theorem peek {f : Kind → Parser β} (h : ∀ k, c.kind = k → Ensures c (f k) R) :
    Ensures c (Parser.peek >>= f) R :=
  h c.kind rfl

theorem next {f : Span → Parser β} (h : Ensures c.next (f c.span) R) :
    Ensures c (Parser.next >>= f) R :=
  h

theorem nested {p : Parser α} (h : Ensures { c with depth := c.depth + 1 } p fun a c' =>
    Q a { c' with depth := c'.depth - 1 }) : Ensures c (Parser.nested p) Q := by
  intro a c' hres
  unfold Parser.nested at hres
  split at hres
  · cases hres
  · rcases hp : p { c with depth := c.depth + 1 } with ⟨_ | b, d⟩ <;> rw [hp] at hres <;> cases hres
    exact h a d hp

theorem sym {s : Symbol} {f : Unit → Parser β}
    (h : c.kinds = .sym s :: c.next.kinds → Ensures c.next (f ()) R) :
    Ensures c (Parser.sym s >>= f) R := by
  by_cases hk : c.kind = .sym s
  · have hsym : Parser.sym s c = (some (), c.next) := by
      rw [Parser.sym, bind_of_some (expect_of_kind hk)]
      rfl
    intro b c' hb
    rw [bind_of_some hsym] at hb
    exact h (Cursor.kinds_eq_cons hk (by simp)) b c' hb
  · have hsym : Parser.sym s c = (none, c.report (.expected (.token (.sym s)) c.kind)) := by
      rw [Parser.sym, bind_of_none (expect_of_other hk)]
    intro b c' hb
    rw [bind_of_none hsym] at hb
    cases hb

theorem eat {k : Kind} (hk : k ≠ .eof) {f : Bool → Parser β}
    (htrue : c.kinds = k :: c.next.kinds → Ensures c.next (f true) R)
    (hfalse : c.kinds.headD .eof ≠ k → Ensures c (f false) R) :
    Ensures c (Parser.eat k >>= f) R := by
  intro b c' hb
  by_cases h : c.kind = k
  · have heat : Parser.eat k c = (some true, c.next) := if_pos h
    rw [bind_of_some heat] at hb
    exact htrue (Cursor.kinds_eq_cons h hk) b c' hb
  · rw [bind_of_some (eat_of_ne h)] at hb
    exact hfalse (c.headD_kinds ▸ h) b c' hb

end Ensures

/-- A type was read: it is in front of the tokens, and is as long as it can be. -/
structure TypeRead (ks : List Kind) (t : TypeExpr) (c' : Cursor) : Prop where
  heads : t.Heads ks c'.kinds
  written : t.isUnwritten = false
  stops : c'.kinds.headD .eof ≠ .sym .question
  sized : c'.Sized

section
variable {type : Parser TypeExpr} (ht : ∀ c : Cursor, c.Sized → Ensures c type (TypeRead c.kinds))
include ht

theorem ensures_angled (hc : c.Sized) : Ensures c (angled type) fun t c' =>
    ∃ ks mid, c.kinds = .sym .less :: ks ∧ t.Heads ks mid ∧ Spelt [.close] mid c'.kinds ∧
      c'.Sized := by
  refine .sym fun hless => .seq (ht c.next hc.next) fun t c₂ hread => .peek fun k hk => ?_
  have hsized := hread.sized
  have hbecome {s left : Symbol} (hk : c₂.kind = .sym s)
      (hs : ∀ ks, Spelt [.close] (.sym s :: ks) (.sym left :: ks)) (hleft : left ≠ .rparen) :
      Ensures c₂ (become (.sym left) >>= fun _ => pure t) fun t c' =>
        ∃ ks mid, c.kinds = .sym .less :: ks ∧ t.Heads ks mid ∧ Spelt [.close] mid c'.kinds ∧
          c'.Sized := by
    have hkinds := Cursor.kinds_eq_cons hk (by simp)
    obtain ⟨c₃, hstep, -, hlast⟩ := become_of_kinds (.sym left) hkinds
    intro a c' ha
    rw [bind_of_some hstep] at ha
    cases ha
    refine ⟨_, _, hless, hread.heads, ?_, hsized.become hleft hstep⟩
    rw [hkinds, hlast]
    exact hs _
  split
  · exact hbecome hk (fun _ => .closeShr (.nil _)) (by decide)
  · exact hbecome hk (fun _ => .closeEq (.nil _)) (by decide)
  · refine .sym fun hclose => .pure ⟨_, _, hless, hread.heads, ?_, hsized.next⟩
    rw [hclose]
    exact .close (.nil _)

/-- What is left behind the parameters decides where they end. -/
theorem ensures_itemsWithin (n : Nat) (hc : c.Sized) :
    Ensures c (itemsWithin (.sym .rparen) type n) fun ts c' =>
      c'.Sized ∧ ∀ rest, c'.kinds = .sym .rparen :: rest → HeadTypes ts c.kinds rest := by
  induction n generalizing c with
  | zero => exact .pure ⟨hc, fun _ => .of_close⟩
  | succ n ih =>
    refine .peek fun k hk => ?_
    split
    · exact .pure ⟨hc, fun _ => .of_close⟩
    refine .seq (ht c hc) fun t c₂ hread => .eat (by simp) (fun hcomma => ?_) fun _ => ?_
    · rw [if_pos rfl]
      refine .seq (ih hread.sized.next) fun ts c₃ hrest => .pure ⟨hrest.1, fun rest hlast => ?_⟩
      exact .cons (hcomma ▸ hread.heads) (hrest.2 rest hlast)
    · exact .pure ⟨hread.sized, fun rest hlast => .last (hlast ▸ hread.heads)⟩

theorem ensures_items (hc : c.Sized) : Ensures c (items .rparen type) fun ts c' =>
    HeadTypes ts c.kinds c'.kinds ∧ c'.prev.start = c'.prev.stop ∧ c'.Sized := by
  refine .look (.seq (ensures_itemsWithin ht c.rest.length hc) fun ts c₂ hts => .sym fun hclose => ?_)
  obtain ⟨t, hsized, hkind, hspan, hprev⟩ :=
    hts.1.span (Cursor.kind_of_kinds hclose) (by simp)
  refine .pure ⟨hts.2 _ hclose, ?_, hts.1.next⟩
  rw [hprev, ← hspan]
  exact hsized.rparen hkind

theorem ensures_functionType (hc : c.Sized) : Ensures c (functionType type) fun make c' =>
    (∀ span, (make span).Heads (.word .fnKw :: c.kinds) c'.kinds ∧
      (make span).isUnwritten = false) ∧ c'.Sized := by
  refine .sym fun hparen => .seq (ensures_items ht hc.next) fun params c₂ hparams => .look ?_
  obtain ⟨hheads, hnarrow, hsized⟩ := hparams
  rw [hparen]
  refine .eat (by simp) (fun harrow => ?_) fun harrow => ?_
  · rw [if_pos rfl]
    refine .seq (ht c₂.next hsized.next) fun ret c₃ hret => .pure ⟨fun span => ⟨?_, rfl⟩, hret.sized⟩
    exact .fn span (harrow ▸ hheads) hret.heads hret.written hret.stops
  · exact .pure ⟨fun span => ⟨.procedure span hheads (decide_eq_true hnarrow) harrow, rfl⟩, hsized⟩

theorem ensures_namedType {name : String} (hc : c.Sized) :
    Ensures c (namedType type name) fun make c' =>
      (∀ span, (make span).Heads (.ident name :: c.kinds) c'.kinds) ∧ c'.Sized ∧
        ((∀ span, (make span).isUnwritten = false) ∨
          name = "void" ∧ c' = c ∧ make = (.basic · .void)) := by
  unfold namedType
  split
  · next t hbasic =>
    refine .pure ⟨fun span => ?_, hc, ?_⟩
    · rw [← kind_of_basicType? hbasic]
      exact .basic span t c.kinds
    · cases t with
      | void =>
        have hname := kind_of_basicType? hbasic
        cases hname
        exact .inr ⟨rfl, rfl, rfl⟩
      | _ => exact .inl fun _ => rfl
  · next hbasic =>
    refine .look ?_
    split
    · next hchan =>
      refine .seq (ensures_angled ht hc) fun inner c₂ hinner => ?_
      obtain ⟨ks, mid, hless, hheads, hclose, hsized⟩ := hinner
      refine .pure ⟨fun span => ?_, hsized, .inl fun _ => rfl⟩
      rw [hchan.1, hless]
      exact .chan span hheads hclose
    split
    · next hfuture =>
      refine .seq (ensures_angled ht hc) fun inner c₂ hinner => ?_
      obtain ⟨ks, mid, hless, hheads, hclose, hsized⟩ := hinner
      refine .pure ⟨fun span => ?_, hsized, .inl fun _ => rfl⟩
      rw [hfuture.1, hless]
      exact .future span hheads hclose
    · next hchan hfuture =>
      refine .pure ⟨fun span => .named span hbasic fun hname hless => ?_, hc, .inl fun _ => rfl⟩
      rw [c.headD_kinds] at hless
      rcases hname with hname | hname
      · exact hchan ⟨hname, decide_eq_true hless⟩
      · exact hfuture ⟨hname, decide_eq_true hless⟩

theorem ensures_bareType (hc : c.Sized) : Ensures c (bareType type) fun make c' =>
    (∀ span, (make span).Heads c.kinds c'.kinds) ∧
      (make (c.span.merge c'.prev)).isUnwritten = false ∧ c'.Sized := by
  refine .peek fun k hk => ?_
  have hcons (hne : k ≠ .eof) : c.kinds = k :: c.next.kinds := Cursor.kinds_eq_cons hk hne
  have hnext := hc.next
  split
  · refine .next (.pure ⟨fun span => ?_, rfl, hnext⟩)
    rw [hcons (by simp)]
    exact .basic span .nil _
  · refine .next (.seq (ht c.next hnext) fun elem c₂ helem => .sym fun hclose => ?_)
    refine .pure ⟨fun span => ?_, rfl, helem.sized.next⟩
    rw [hcons (by simp)]
    exact .array span (hclose ▸ helem.heads)
  · refine .next (.seq (ht c.next hnext) fun key c₂ hkey => .sym fun hcolon => ?_)
    refine .seq (ht c₂.next hkey.sized.next) fun value c₄ hvalue => .sym fun hclose => ?_
    refine .pure ⟨fun span => ?_, rfl, hvalue.sized.next⟩
    rw [hcons (by simp)]
    exact .map span (hcolon ▸ hkey.heads) (hclose ▸ hvalue.heads)
  · refine .next ((ensures_functionType ht hnext).imp fun make c' hmake => ?_)
    rw [hcons (by simp)]
    exact ⟨fun span => (hmake.1 span).1, (hmake.1 _).2, hmake.2⟩
  · refine .next (.eat (by simp) (fun hmut => ?_) fun _ => ?_)
    · refine .seq (ht c.next.next hnext.next) fun inner c₃ hinner => ?_
      refine .pure ⟨fun span => ?_, rfl, hinner.sized⟩
      rw [hcons (by simp), hmut]
      exact .refMut span hinner.heads hinner.stops
    · refine .seq (ht c.next hnext) fun inner c₂ hinner => ?_
      refine .pure ⟨fun span => ?_, rfl, hinner.sized⟩
      rw [hcons (by simp)]
      exact .ref span hinner.heads hinner.stops
  · next name =>
    refine .next ((ensures_namedType ht hnext).imp fun make c' hmake => ?_)
    obtain ⟨hheads, hsized, hwritten⟩ := hmake
    rw [hcons (by simp)]
    refine ⟨hheads, ?_, hsized⟩
    rcases hwritten with hwritten | ⟨rfl, rfl, rfl⟩
    · exact hwritten _
    · obtain ⟨t, ht, hkind, hspan, hprev⟩ := hc.span hk (by simp)
      have hself : c.span.merge c.span = c.span := by simp [Span.merge]
      dsimp only
      rw [hprev, hself, ← hspan]
      exact decide_eq_false (ht.void hkind)
  · exact .fail _

omit ht in
theorem ensures_optionalWithin {ks : List Kind} (start : Span) {n : Nat} {t : TypeExpr}
    (hn : c.rest.length ≤ n) (hheads : t.Heads ks c.kinds) (hwritten : t.isUnwritten = false)
    (hc : c.Sized) : Ensures c (optionalWithin start n t) (TypeRead ks) := by
  induction n generalizing c t with
  | zero =>
    refine .pure ⟨hheads, hwritten, fun hk => ?_, hc⟩
    rw [c.headD_kinds] at hk
    have hlength := Cursor.length_next (Cursor.kinds_eq_cons hk (by simp))
    omega
  | succ n ih =>
    refine .eat (by simp) (fun hquestion => ?_) fun hk => .pure ⟨hheads, hwritten, hk, hc⟩
    have hlength := Cursor.length_next hquestion
    exact .look (ih (by omega) (.optional _ (hquestion ▸ hheads)) rfl hc.next)

theorem ensures_typeExpr (hc : c.Sized) : Ensures c (typeExpr type) (TypeRead c.kinds) := by
  refine .look (.seq (ensures_bareType ht hc) fun make c₂ hmake => .look (.look ?_))
  exact ensures_optionalWithin _ le_rfl (hmake.1 _) hmake.2.1 hmake.2.2

end

theorem ensures_type (m : Nat) (hc : c.Sized) :
    Ensures c (Rules.levels m).type (TypeRead c.kinds) := by
  induction m generalizing c with
  | zero => exact .fail _
  | succ m ih =>
    have hinner : Ensures { c with depth := c.depth + 1 } (typeExpr (Rules.levels m).type)
        (TypeRead c.kinds) := ensures_typeExpr (fun c hc => ih hc) hc
    exact .nested (hinner.imp fun t c' hread =>
      ⟨hread.heads, hread.written, hread.stops, hread.sized⟩)

end Parser

end CarvFront
