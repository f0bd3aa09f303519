import CarvFront.Proofs.RoundTrip
import CarvFront.Proofs.TypeTokens

/-! Types written out as tokens are read back, however the signs that close them have grown together
with each other and with the `=` behind them. -/
namespace CarvFront
variable {ks rest : List Kind} {m n : Nat}

/-! ### Writing types -/

/-- The words of the basic types; `nil` is a reserved word. -/
def basicWords : List String :=
  ["int", "float", "bool", "string", "char", "void", "any"]

/-- Whether a question mark behind the type belongs to all of it. References and function types with
a result end in another type, which takes it. -/
def TypeExpr.isClosed : TypeExpr → Bool
  | .ref _ _ _ => false
  | .fn _ _ ret => ret.isUnwritten
  | _ => true

mutual

/-- Question marks belong to all that stands before them, and names are not words of basic types. -/
def TypeExpr.writable : TypeExpr → Bool
  | .basic _ _ => true
  | .array _ inner | .chan _ inner | .future _ inner | .ref _ _ inner => inner.writable
  | .map _ key value => key.writable && value.writable
  | .fn _ params ret => writableTypes params && ret.writable
  | .optional _ inner => inner.isClosed && inner.writable
  | .named _ name => !basicWords.contains name

def writableTypes : List TypeExpr → Bool
  | [] => true
  | t :: ts => t.writable && writableTypes ts

end

mutual

/-- How a type is written. The arrow is left out where the result is not written. -/
def TypeExpr.terminals : TypeExpr → List Terminal
  | .basic _ t => [.token t.kind]
  | .array _ elem => .token (.sym .lbracket) :: (elem.terminals ++ [.token (.sym .rbracket)])
  | .map _ key value =>
    .token (.sym .lbrace) :: (key.terminals ++ .token (.sym .colon) ::
      (value.terminals ++ [.token (.sym .rbrace)]))
  | .fn _ params ret =>
    .token (.word .fnKw) :: .token (.sym .lparen) :: (paramTerminals params ++
      .token (.sym .rparen) :: if ret.isUnwritten then [] else .token (.sym .arrow) :: ret.terminals)
  | .chan _ elem => .token (.ident "chan") :: .token (.sym .less) :: (elem.terminals ++ [.close])
  | .future _ output =>
    .token (.ident "Future") :: .token (.sym .less) :: (output.terminals ++ [.close])
  | .optional _ inner => inner.terminals ++ [.token (.sym .question)]
  | .ref _ false inner => .token (.sym .amp) :: inner.terminals
  | .ref _ true inner => .token (.sym .amp) :: .token (.word .mutKw) :: inner.terminals
  | .named _ name => [.token (.ident name)]

def paramTerminals : List TypeExpr → List Terminal
  | [] => []
  | t :: ts => t.terminals ++ moreTerminals ts

/-- Further parameters, each behind a comma. -/
def moreTerminals : List TypeExpr → List Terminal
  | [] => []
  | t :: ts => .token (.sym .comma) :: (t.terminals ++ moreTerminals ts)

end

/-- Tokens of a phrase in which signs that close generic types may have grown together: two of them,
or one and the `=` behind it. -/
inductive Fused : List Terminal → List Kind → Prop
  | nil : Fused [] []
  | token (k : Kind) {ts : List Terminal} {ks : List Kind} (h : Fused ts ks) :
      Fused (.token k :: ts) (k :: ks)
  | close {ts : List Terminal} {ks : List Kind} (h : Fused ts ks) :
      Fused (.close :: ts) (.sym .greater :: ks)
  | closeTwo {ts : List Terminal} {ks : List Kind} (h : Fused ts ks) :
      Fused (.close :: .close :: ts) (.sym .shr :: ks)
  | closeEq {ts : List Terminal} {ks : List Kind} (h : Fused ts ks) :
      Fused (.close :: .token (.sym .eq) :: ts) (.sym .greaterEq :: ks)

/-! ### What is written is in front -/

namespace Spelt
variable {ks rest : List Kind}

theorem of_append {as bs : List Terminal} (h : Spelt (as ++ bs) ks rest) :
    ∃ mid, Spelt as ks mid ∧ Spelt bs mid rest := by
  induction as generalizing ks with
  | nil => exact ⟨ks, .nil ks, h⟩
  | cons a as ih =>
    cases h with
    | token hk h =>
      obtain ⟨mid, has, hbs⟩ := ih h
      exact ⟨mid, .token hk has, hbs⟩
    | close h =>
      obtain ⟨mid, has, hbs⟩ := ih h
      exact ⟨mid, .close has, hbs⟩
    | closeShr h =>
      obtain ⟨mid, has, hbs⟩ := ih h
      exact ⟨mid, .closeShr has, hbs⟩
    | closeEq h =>
      obtain ⟨mid, has, hbs⟩ := ih h
      exact ⟨mid, .closeEq has, hbs⟩

theorem of_token {k : Kind} {ts : List Terminal} (h : Spelt (.token k :: ts) ks rest) :
    ∃ ks', ks = k :: ks' ∧ Spelt ts ks' rest := by
  cases h with
  | token _ h => exact ⟨_, rfl, h⟩

theorem of_last {k : Kind} {as : List Terminal} (h : Spelt (as ++ [.token k]) ks rest) :
    Spelt as ks (k :: rest) := by
  obtain ⟨mid, has, hlast⟩ := h.of_append
  obtain ⟨ks', rfl, hnil⟩ := hlast.of_token
  cases hnil
  exact has

end Spelt

/-- What follows a type does not go on with it. -/
structure TypeExpr.Stops (t : TypeExpr) (rest : List Kind) : Prop where
  less : rest.headD .eof ≠ .sym .less
  arrow : rest.headD .eof ≠ .sym .arrow
  question : t.isClosed = false → rest.headD .eof ≠ .sym .question

namespace TypeExpr.Stops
variable {t : TypeExpr} {mid rest : List Kind}

theorem of_close (h : Spelt [.close] mid rest) : t.Stops mid := by
  cases h <;> exact ⟨by simp, by simp, fun _ => by simp⟩

theorem of_sym {s : Symbol} (hs : s ≠ .less ∧ s ≠ .arrow ∧ s ≠ .question) :
    t.Stops (.sym s :: rest) :=
  ⟨by simpa using hs.1, by simpa using hs.2.1, fun _ => by simpa using hs.2.2⟩

end TypeExpr.Stops

theorem basicType?_of_not_word {name : String} (h : (!basicWords.contains name) = true) :
    Grammar.basicType? name = none := by
  cases hbasic : Grammar.basicType? name with
  | none => rfl
  | some t =>
    have hkind := Grammar.kind_of_basicType? hbasic
    cases t <;> cases hkind <;> cases h

mutual

/-- The induction is on the type; at each sign the tokens are cut, and what follows a part is the sign
behind it or the rest of the token that closes it. -/
theorem TypeExpr.heads_of_spelt : ∀ (t : TypeExpr) {ks rest : List Kind}, t.writable = true →
    Spelt t.terminals ks rest → t.Stops rest → t.Heads ks rest
  | .basic span t, _, _, _, h, _ => by
    obtain ⟨_, rfl, hnil⟩ := h.of_token
    cases hnil
    exact .basic span t _
  | .array span elem, _, _, hw, h, _ => by
    obtain ⟨_, rfl, h₁⟩ := h.of_token
    exact .array span (elem.heads_of_spelt hw h₁.of_last (.of_sym (by decide)))
  | .map span key value, _, _, hw, h, _ => by
    obtain ⟨hkey, hvalue⟩ := (Bool.and_eq_true _ _).mp hw
    obtain ⟨_, rfl, h₁⟩ := h.of_token
    obtain ⟨_, hkeys, h₂⟩ := h₁.of_append
    obtain ⟨_, rfl, h₃⟩ := h₂.of_token
    exact .map span (key.heads_of_spelt hkey hkeys (.of_sym (by decide)))
      (value.heads_of_spelt hvalue h₃.of_last (.of_sym (by decide)))
  | .fn span params ret, _, rest, hw, h, hstops => by
    obtain ⟨hparams, hret⟩ := (Bool.and_eq_true _ _).mp hw
    obtain ⟨_, rfl, h₁⟩ := h.of_token
    obtain ⟨_, rfl, h₂⟩ := h₁.of_token
    obtain ⟨_, hts, h₃⟩ := h₂.of_append
    obtain ⟨_, rfl, h₄⟩ := h₃.of_token
    have hheads := headTypes_of_spelt params hparams hts
    cases hwritten : ret.isUnwritten with
    | true =>
      rw [hwritten, if_pos rfl] at h₄
      cases h₄
      exact .procedure span hheads hwritten hstops.arrow
    | false =>
      rw [hwritten, if_neg (by simp)] at h₄
      obtain ⟨_, rfl, h₅⟩ := h₄.of_token
      have hquestion := hstops.question hwritten
      refine .fn span hheads (ret.heads_of_spelt hret h₅ ?_) hwritten hquestion
      exact ⟨hstops.less, hstops.arrow, fun _ => hquestion⟩
  | .chan span elem, _, _, hw, h, _ => by
    obtain ⟨_, rfl, h₁⟩ := h.of_token
    obtain ⟨_, rfl, h₂⟩ := h₁.of_token
    obtain ⟨_, helem, hclose⟩ := h₂.of_append
    exact .chan span (elem.heads_of_spelt hw helem (.of_close hclose)) hclose
  | .future span output, _, _, hw, h, _ => by
    obtain ⟨_, rfl, h₁⟩ := h.of_token
    obtain ⟨_, rfl, h₂⟩ := h₁.of_token
    obtain ⟨_, houtput, hclose⟩ := h₂.of_append
    exact .future span (output.heads_of_spelt hw houtput (.of_close hclose)) hclose
  | .optional span inner, _, _, hw, h, _ => by
    obtain ⟨hclosed, hinner⟩ := (Bool.and_eq_true _ _).mp hw
    refine .optional span (inner.heads_of_spelt hinner h.of_last ⟨by simp, by simp, fun hopen => ?_⟩)
    rw [hclosed] at hopen
    cases hopen
  | .ref span false inner, _, _, hw, h, hstops => by
    obtain ⟨_, rfl, h₁⟩ := h.of_token
    have hquestion := hstops.question rfl
    refine .ref span (inner.heads_of_spelt hw h₁ ?_) hquestion
    exact ⟨hstops.less, hstops.arrow, fun _ => hquestion⟩
  | .ref span true inner, _, _, hw, h, hstops => by
    obtain ⟨_, rfl, h₁⟩ := h.of_token
    obtain ⟨_, rfl, h₂⟩ := h₁.of_token
    have hquestion := hstops.question rfl
    refine .refMut span (inner.heads_of_spelt hw h₂ ?_) hquestion
    exact ⟨hstops.less, hstops.arrow, fun _ => hquestion⟩
  | .named span name, _, _, hw, h, hstops => by
    obtain ⟨_, rfl, hnil⟩ := h.of_token
    cases hnil
    exact .named span (basicType?_of_not_word hw) fun _ => hstops.less

theorem headTypes_of_spelt : ∀ (ts : List TypeExpr) {ks rest : List Kind},
    writableTypes ts = true → Spelt (paramTerminals ts) ks (.sym .rparen :: rest) →
    HeadTypes ts ks rest
  | [], _, _, _, h => by
    cases h
    exact .nil _
  | t :: ts, _, rest, hw, h => by
    obtain ⟨ht, hts⟩ := (Bool.and_eq_true _ _).mp hw
    obtain ⟨_, hfirst, hmore⟩ := h.of_append
    cases ts with
    | nil =>
      cases hmore
      exact .last (t.heads_of_spelt ht hfirst (.of_sym (by decide)))
    | cons u us =>
      obtain ⟨_, rfl, hrest⟩ := hmore.of_token
      exact .cons (t.heads_of_spelt ht hfirst (.of_sym (by decide)))
        (headTypes_of_spelt (u :: us) hts hrest)

end

mutual

theorem TypeExpr.eof_not_mem : ∀ t : TypeExpr, Terminal.token .eof ∉ t.terminals
  | .basic _ t => by cases t <;> simp [TypeExpr.terminals, BasicType.kind]
  | .array _ elem => by simp [TypeExpr.terminals, elem.eof_not_mem]
  | .map _ key value => by simp [TypeExpr.terminals, key.eof_not_mem, value.eof_not_mem]
  | .fn _ params ret => by
    cases h : ret.isUnwritten <;> simp [TypeExpr.terminals, h, eof_not_mem_params params, ret.eof_not_mem]
  | .chan _ elem => by simp [TypeExpr.terminals, elem.eof_not_mem]
  | .future _ output => by simp [TypeExpr.terminals, output.eof_not_mem]
  | .optional _ inner => by simp [TypeExpr.terminals, inner.eof_not_mem]
  | .ref _ mutable inner => by cases mutable <;> simp [TypeExpr.terminals, inner.eof_not_mem]
  | .named _ name => by simp [TypeExpr.terminals]

theorem eof_not_mem_params : ∀ ts : List TypeExpr, Terminal.token .eof ∉ paramTerminals ts
  | [] => by simp [paramTerminals]
  | t :: ts => by simp [paramTerminals, t.eof_not_mem, eof_not_mem_more ts]

theorem eof_not_mem_more : ∀ ts : List TypeExpr, Terminal.token .eof ∉ moreTerminals ts
  | [] => by simp [moreTerminals]
  | t :: ts => by simp [moreTerminals, t.eof_not_mem, eof_not_mem_more ts]

end

theorem Fused.spelt {ts : List Terminal} (h : Fused ts ks) (heof : Terminal.token .eof ∉ ts)
    (rest : List Kind) : Spelt ts (ks ++ rest) rest := by
  induction h with
  | nil => exact .nil rest
  | token k _ ih =>
    obtain ⟨hk, hts⟩ := not_or.mp (mt List.mem_cons.mpr heof)
    exact .token (fun h => hk (h ▸ rfl)) (ih hts)
  | close _ ih => exact .close (ih (fun h => heof (.tail _ h)))
  | closeTwo _ ih => exact .closeShr (.close (ih fun h => heof (.tail _ (.tail _ h))))
  | closeEq _ ih => exact .closeEq (.token (by simp) (ih fun h => heof (.tail _ (.tail _ h))))

/-! ### Reading bindings with a type -/

open CarvFront.Parser CarvFront.Grammar

theorem Spells.map_kind {ts : List Token} (h : Spells ks ts []) : ts.map Token.kind = ks := by
  induction ks generalizing ts with
  | nil =>
    obtain rfl : ts = [] := h
    rfl
  | cons k ks ih =>
    obtain ⟨t, ts', rfl, rfl, hts⟩ := h
    exact congrArg (t.kind :: ·) (ih hts)

/-- What reads whole tokens reads them here. -/
theorem Parser.Reads.reading {α : Type} {p : Parser α} {stop : Kind → Bool} {ok : α → Prop}
    (h : Reads m stop p n ks ok) (hstop : stop (rest.headD .eof) = true) :
    Reading m (ks ++ rest) rest n ok p := by
  intro c hr hc
  have hspells := spells_map_kind c.rest
  rw [show c.rest.map Token.kind = ks ++ rest from hc] at hspells
  obtain ⟨mid, hks, hrest⟩ := spells_append.mp hspells
  have hmid := hrest.map_kind
  have hfirst : firstKind mid = rest.headD .eof := by
    rw [← hmid]
    cases mid <;> rfl
  have hout := h c mid hr hks (hfirst ▸ hstop)
  generalize hres : p c = res at hout
  cases hout with
  | read a last fits ha =>
    exact .read hres ⟨rfl, rfl, hks.length_eq ▸ Nat.le_add_left _ _⟩ hmid fits ha
  | tooDeep c' beyond hc' => exact .tooDeep hres beyond hc'

theorem Parser.ReadingAt.outcome {α : Type} {p : Parser α} {ok : α → Prop} {c : Cursor}
    (h : ReadingAt c rest n ok p) :
    ∃ ts : List Token, ts.map Token.kind = rest ∧ Outcome c.depth c.faults ts n ok (p c) := by
  cases h with
  | @read a c' hp hc hrest fits ha =>
    obtain ⟨ts, last, depth, faults⟩ := c'
    obtain ⟨rfl, rfl, -⟩ := hc
    exact ⟨ts, hrest, hp ▸ .read a last fits ha⟩
  | tooDeep hp beyond hc =>
    refine ⟨rest.map (⟨·, .nowhere⟩), ?_, hp ▸ .tooDeep _ beyond hc⟩
    rw [List.map_map]
    exact List.map_id _

/-- A `let` of that name and type to `nil`, spans apart. -/
def Annotates (x : String) (t : TypeExpr) : Stmt → Prop
  | .bind _ const name type value =>
    const = false ∧ name.name = x ∧ (∃ t', type = some t' ∧ t.Same t') ∧
      value.Same (.nil .nowhere)
  | _ => False

theorem Parser.Reading.ident {β : Type} {x : String} {f : Ident → Parser β} {ok : β → Prop}
    (h : ∀ span, Reading m ks rest n ok (f ⟨x, span⟩)) :
    Reading m (.ident x :: ks) rest n ok (Parser.ident >>= f) := by
  rw [Parser.ident, bind_assoc]
  refine Reading.peek ?_
  dsimp only
  rw [bind_assoc]
  exact Reading.next h

theorem reading_statement {x : String} {t : TypeExpr}
    (ht : t.Heads ks (.sym .eq :: .word .nilKw :: .sym .semicolon :: rest)) :
    Reading m (.word .letKw :: .ident x :: .sym .colon :: ks) rest (t.nesting + 1) (Annotates x t)
      (statement (.levels m)) := by
  have hnil : Ready (.nil .nowhere) := ready _ rfl
  have hstop : stops 0 (.sym .semicolon) = true := by decide
  have hvalue : Reading m (.word .nilKw :: .sym .semicolon :: rest) (.sym .semicolon :: rest) 1
      (·.Same (.nil .nowhere)) (Rules.levels m).expr := (hnil.expr m).reading hstop
  refine Reading.peek (Reading.isAt (Reading.next fun _ => Reading.ident fun _ => ?_))
  rw [ annotation, bind_assoc]
  refine Reading.eat ?_
  rw [if_pos rfl, bind_assoc]
  refine ((ht.leads.type (by simp)).bind fun t' hsame _ => Reading.sym ?_).of_eq
    (Nat.max_eq_left (Nat.le_add_left 1 t.nesting))
  refine hvalue.andThen fun value hsame' => Reading.look fun _ _ => ?_
  rw [semicolon, bind_assoc]
  exact Reading.eat (Reading.pure ⟨rfl, rfl, ⟨t', rfl, hsame⟩, hsame'⟩)

/-- How `let x: T = nil;` is written. -/
def annotatedTerminals (x : String) (t : TypeExpr) : List Terminal :=
  .token (.word .letKw) :: .token (.ident x) :: .token (.sym .colon) ::
    (t.terminals ++ [.token (.sym .eq), .token (.word .nilKw), .token (.sym .semicolon)])

/-- Types are read back: `let x: T = nil;` is read as a `let` of `x` with the type `T` and nothing
else, without faults, however closing signs have grown together; unless the type nests too deep,
which is the first thing said then. -/
theorem Program.ofTokens_annotated (x : String) (t : TypeExpr) (ht : t.writable = true)
    (ks : List Kind) (hks : Fused (annotatedTerminals x t) ks) (ts : List Token)
    (hts : ts.map Token.kind = ks ++ [.eof]) :
    if t.nesting < maxNesting then
      ∃ s, (Program.ofTokens ts).1.stmts = [s] ∧ Annotates x t s ∧ (Program.ofTokens ts).2 = []
    else
      ∃ f, (Program.ofTokens ts).2.head? = some f ∧ f.error.code = .nestingLimit := by
  have heof : Terminal.token .eof ∉ annotatedTerminals x t := by
    simp [annotatedTerminals, t.eof_not_mem]
  obtain ⟨_, hk₁, h₁⟩ := (hks.spelt heof [.eof]).of_token
  obtain ⟨_, rfl, h₂⟩ := h₁.of_token
  obtain ⟨_, rfl, h₃⟩ := h₂.of_token
  obtain ⟨_, htype, h₄⟩ := h₃.of_append
  obtain ⟨_, rfl, h₅⟩ := h₄.of_token
  obtain ⟨_, rfl, h₆⟩ := h₅.of_token
  obtain ⟨_, rfl, h₇⟩ := h₆.of_token
  cases h₇
  have hkinds : (Cursor.start ts).kinds = _ := hts.trans hk₁
  have hroom : Room (maxNesting + 1) (.start ts) := ⟨Nat.zero_le _, Nat.lt_succ_self _⟩
  have hheads := t.heads_of_spelt ht htype (.of_sym (by decide))
  obtain ⟨rest, hrest, hout⟩ := (reading_statement hheads _ hroom hkinds).outcome
  have hfirst : firstKind ts ≠ .eof := by
    have hstart := Cursor.kind_of_kinds hkinds
    rw [Cursor.kind_eq] at hstart
    exact hstart ▸ (by simp)
  have hend : firstKind rest = .eof := by
    cases rest with
    | nil => rfl
    | cons t ts => exact (List.cons.inj hrest).1
  exact Program.ofTokens_of_outcome hout hfirst hend

/-- The type `Future<chan<chan<fn(&mut [int], chan<T>)?>>>`. -/
def TypeExpr.channels : TypeExpr :=
  let slice : TypeExpr := .ref .nowhere true (.array .nowhere (.basic .nowhere .int))
  let callback : TypeExpr :=
    .fn .nowhere [slice, .chan .nowhere (.named .nowhere "T")] (.basic .nowhere .void)
  .future .nowhere (.chan .nowhere (.chan .nowhere (.optional .nowhere callback)))

/-- The tokens of `let x: Future<chan<chan<fn(&mut [int], chan<T>)?>>>= nil;`: the three signs that
close its end are two tokens, `>>` and `>=`. -/
def channelKinds : List Kind :=
  [.word .letKw, .ident "x", .sym .colon, .ident "Future", .sym .less, .ident "chan", .sym .less,
    .ident "chan", .sym .less, .word .fnKw, .sym .lparen, .sym .amp, .word .mutKw, .sym .lbracket,
    .ident "int", .sym .rbracket, .sym .comma, .ident "chan", .sym .less, .ident "T", .sym .greater,
    .sym .rparen, .sym .question, .sym .shr, .sym .greaterEq, .word .nilKw, .sym .semicolon]

/-- Arrays of arrays of numbers. -/
def TypeExpr.boxed (n : Nat) : TypeExpr :=
  Nat.repeat (TypeExpr.array .nowhere) n (.basic .nowhere .int)

theorem fused_channels : Fused (annotatedTerminals "x" .channels) channelKinds := by
  repeat' constructor

/-- Tokens that have not grown together. -/
def Terminal.kind : Terminal → Kind
  | .token k => k
  | .close => .sym .greater

theorem fused_map_kind (ts : List Terminal) : Fused ts (ts.map Terminal.kind) := by
  induction ts with
  | nil => exact .nil
  | cons t ts ih =>
    cases t with
    | token k => exact .token k ih
    | close => exact .close ih

/-- Tokens of the kinds `ks` and the end, all at one place. -/
def tokensOf (ks : List Kind) : List Token :=
  (ks ++ [Kind.eof]).map (⟨·, .nowhere⟩)

theorem kinds_tokensOf (ks : List Kind) : (tokensOf ks).map Token.kind = ks ++ [.eof] := by
  rw [tokensOf, List.map_map]
  exact List.map_id _

theorem Program.ofTokens_annotated_channels :
    TypeExpr.channels.writable = true ∧ Fused (annotatedTerminals "x" .channels) channelKinds ∧
    (∃ s, (Program.ofTokens (tokensOf channelKinds)).1.stmts = [s] ∧ Annotates "x" .channels s ∧
      (Program.ofTokens (tokensOf channelKinds)).2 = []) ∧
    (TypeExpr.boxed 64).writable = true ∧
    ∃ f, (Program.ofTokens (tokensOf
      ((annotatedTerminals "x" (.boxed 64)).map Terminal.kind))).2.head? = some f ∧
        f.error.code = .nestingLimit := by
  have hchannels := Program.ofTokens_annotated "x" .channels (by decide) _ fused_channels _
    (kinds_tokensOf _)
  have hboxed := Program.ofTokens_annotated "x" (.boxed 64) (by decide) _ (fused_map_kind _) _
    (kinds_tokensOf _)
  rw [if_pos (by decide)] at hchannels
  rw [if_neg (by decide)] at hboxed
  exact ⟨by decide, fused_channels, hchannels, by decide, hboxed⟩

end CarvFront
