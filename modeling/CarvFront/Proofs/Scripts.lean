import CarvFront.Proofs.Budget
import CarvFront.Proofs.Passing

/-! Parsers written out. A script is a parser as data, so one can tell what happens while it is run:
where its parts are started and which items of its lists are left out. Every parser of the grammar
has a script. -/
namespace CarvFront.Parser
variable {α β : Type}

/-- A parser written out in elementary steps. It sees the tokens, but neither the depth nor the
faults: these only decide how the steps go. -/
inductive Script : Type → Type 1 where
  | bind {α β : Type} (s : Script α) (f : α → Script β) : Script β
  | fail {α : Type} (e : SyntaxError) : Script α
  | report (e : SyntaxError) : Script Unit
  /-- A look at the tokens that are left and at the span of the one before. -/
  | look {α : Type} (get : List Token → Span → α) : Script α
  | next : Script Span
  | become (s : Symbol) (hs : s ≠ .question) : Script Unit
  | nested {α : Type} (s : Script α) : Script α
  | all {α : Type} (stop : Kind → Bool) (s : Script α) : Script (List α)

/-- What happens while a script is run. -/
inductive Event where
  /-- A part is started, so many levels deeper than the whole. -/
  | start (levels : Nat) (c : Cursor)
  /-- An item of a list has failed and is left out. -/
  | drop

def Event.isDrop : Event → Bool
  | .drop => true
  | .start _ _ => false

/-- What a run gives, and what happens in it. -/
structure Trace (ρ : Type) where
  result : ρ
  events : List Event

/-- At most `n` turns of reading a list, if `item` is what an item gives and what happens in it. -/
def traceWithin (stop : Kind → Bool) (item : Cursor → Trace (Option α × Cursor)) :
    Nat → Cursor → Trace (List α × Cursor)
  | 0, c => ⟨([], c), []⟩
  | n + 1, c =>
    if stop c.kind ∨ c.kind = .eof ∨ c.full then ⟨([], c), []⟩
    else match item c with
      | ⟨(some a, c'), es⟩ =>
        let rest := traceWithin stop item n c'
        ⟨(a :: rest.result.1, rest.result.2), es ++ rest.events⟩
      | ⟨(none, c'), es⟩ =>
        let rest := traceWithin stop item n c'.recover
        ⟨rest.result, es ++ .drop :: rest.events⟩

section
variable {stop : Kind → Bool} {item : Cursor → Trace (Option α × Cursor)} {c c' : Cursor}
  {es : List Event} (n : Nat)

theorem traceWithin_of_some {a : α} (hgo : GoesOn stop c) (hitem : item c = ⟨(some a, c'), es⟩) :
    traceWithin stop item (n + 1) c = ⟨(a :: (traceWithin stop item n c').result.1,
      (traceWithin stop item n c').result.2), es ++ (traceWithin stop item n c').events⟩ := by
  rw [traceWithin, if_neg hgo, hitem]

theorem traceWithin_of_none (hgo : GoesOn stop c) (hitem : item c = ⟨(none, c'), es⟩) :
    traceWithin stop item (n + 1) c = ⟨(traceWithin stop item n c'.recover).result,
      es ++ .drop :: (traceWithin stop item n c'.recover).events⟩ := by
  rw [traceWithin, if_neg hgo, hitem]

theorem traceWithin_of_not (hgo : ¬GoesOn stop c) :
    traceWithin stop item n c = ⟨([], c), []⟩ := by
  cases n with
  | zero => rfl
  | succ n => rw [traceWithin, if_pos (Decidable.not_not.mp hgo)]

theorem result_traceWithin {p : Parser α} (hp : ∀ c, (item c).result = p c) (c : Cursor) :
    (traceWithin stop item n c).result = allWithin stop p n c := by
  induction n generalizing c with
  | zero => rfl
  | succ n ih =>
    by_cases hc : GoesOn stop c
    · have hres := hp c
      rcases hitem : item c with ⟨⟨_ | a, c'⟩, es⟩ <;> rw [hitem] at hres
      · rw [traceWithin_of_none n hc hitem, allWithin_of_none n hc hres.symm]
        exact ih c'.recover
      · rw [traceWithin_of_some n hc hitem, allWithin_of_some n hc hres.symm, ← ih c']
    · rw [traceWithin_of_not _ hc, allWithin_of_not hc]

end

namespace Script

/-- Run a script that is itself so many levels deep, and note what happens. -/
def trace : {α : Type} → Script α → Nat → Cursor → Trace (Option α × Cursor)
  | _, .bind s f, k, c =>
    match s.trace k c with
    | ⟨(some a, c'), es⟩ =>
      let rest := (f a).trace k c'
      ⟨rest.result, .start k c :: es ++ rest.events⟩
    | ⟨(none, c'), es⟩ => ⟨(none, c'), .start k c :: es⟩
  | _, .fail e, k, c => ⟨(none, c.report e), [.start k c]⟩
  | _, .report e, k, c => ⟨(some (), c.report e), [.start k c]⟩
  | _, .look get, k, c => ⟨(some (get c.rest c.prev), c), [.start k c]⟩
  | _, .next, k, c => ⟨(some c.span, c.next), [.start k c]⟩
  | _, .become s _, k, c => ⟨Parser.become (.sym s) c, [.start k c]⟩
  | _, .nested s, k, c =>
    if maxNesting < c.depth + 1 then ⟨(none, c.report .nestingLimit), [.start k c]⟩
    else
      let inner := s.trace (k + 1) { c with depth := c.depth + 1 }
      ⟨(inner.result.1, { inner.result.2 with depth := inner.result.2.depth - 1 }),
        .start k c :: inner.events⟩
  | _, .all stop s, k, c =>
    let items := traceWithin stop (s.trace k) c.rest.length c
    ⟨(some items.result.1, items.result.2), .start k c :: items.events⟩

/-- A script gives what a parser gives, wherever both are run. -/
def Writes (s : Script α) (p : Parser α) : Prop :=
  ∀ k c, (s.trace k c).result = p c

/-- How many items are left out while a script is run. -/
def drops (s : Script α) (c : Cursor) : Nat :=
  (s.trace 0 c).events.countP Event.isDrop

/-- The parser that a script writes out. -/
def run : {α : Type} → Script α → Parser α
  | _, .bind s f => s.run >>= fun a => (f a).run
  | _, .fail e => Parser.fail e
  | _, .report e => Parser.report e
  | _, .look get => fun c => (some (get c.rest c.prev), c)
  | _, .next => Parser.next
  | _, .become s _ => Parser.become (.sym s)
  | _, .nested s => Parser.nested s.run
  | _, .all stop s => Parser.all stop s.run

section
variable {β : Type} {s : Script α} {f : α → Script β} {k : Nat} {c c' : Cursor} {es : List Event}

theorem trace_bind_of_some {a : α} (h : s.trace k c = ⟨(some a, c'), es⟩) :
    (bind s f).trace k c =
      ⟨((f a).trace k c').result, .start k c :: es ++ ((f a).trace k c').events⟩ := by
  rw [trace, h]

theorem trace_bind_of_none (h : s.trace k c = ⟨(none, c'), es⟩) :
    (bind s f).trace k c = ⟨(none, c'), .start k c :: es⟩ := by
  rw [trace, h]

end

theorem writes_run (s : Script α) : s.Writes s.run := by
  induction s with
  | bind s f ihs ihf =>
    intro k c
    have hs := ihs k c
    rcases hres : s.trace k c with ⟨⟨_ | a, c'⟩, es⟩ <;> rw [hres] at hs
    · rw [trace_bind_of_none hres, run, bind_of_none hs.symm]
    · rw [trace_bind_of_some hres, run, bind_of_some hs.symm]
      exact ihf a k c'
  | nested s ih =>
    intro k c
    rw [trace, run, Parser.nested]
    split
    · rfl
    · rw [← ih (k + 1)]
  | all stop s ih =>
    intro k c
    have hitems : (traceWithin stop (s.trace k) c.rest.length c).result =
        allWithin stop s.run c.rest.length c := result_traceWithin _ (ih k) c
    rw [trace, run, Parser.all, ← hitems]
  | _ => exact fun k c => rfl

theorem Writes.eq {s : Script α} {p : Parser α} (h : s.Writes p) : s.run = p :=
  funext fun c => (s.writes_run 0 c).symm.trans (h 0 c)

/-- What the elementary steps have and putting parsers together keeps, all scripts have. -/
theorem holds {P : ∀ ⦃α : Type⦄, Parser α → Prop} (h : Steps P)
    (hfail : ∀ {α : Type} (e : SyntaxError), P (Parser.fail e : Parser α))
    (hreport : ∀ e, P (Parser.report e)) (s : Script α) : P s.run := by
  induction s with
  | bind s f ihs ihf => exact h.seq ihs ihf
  | fail e => exact hfail e
  | report e => exact hreport e
  | look get => exact h.look get
  | next => exact h.next
  | become s hs => exact h.become s hs
  | nested s ih => exact h.nested ih
  | all stop s ih => exact h.all stop ih

end Script

/-! ### Levels -/

theorem Script.depth_trace (s : Script α) (k : Nat) (c : Cursor) :
    (s.trace k c).result.2.depth = c.depth := by
  rw [s.writes_run k c]
  exact (s.holds (modest_steps 0) modest_fail (fun e c => c.moves_report 0 e) c).depth

/-- A cursor is as much deeper than another as levels lie between them, and not below the limit. -/
structure Deeper (k : Nat) (c : Cursor) (k' : Nat) (c' : Cursor) : Prop where
  levels : k ≤ k'
  depth : c'.depth + k = c.depth + k'
  limit : c.depth ≤ maxNesting → c'.depth ≤ maxNesting

theorem Deeper.refl (k : Nat) (c : Cursor) : Deeper k c k c :=
  ⟨Nat.le_refl _, rfl, id⟩

theorem Deeper.trans {k k₁ k₂ : Nat} {c c₁ c₂ : Cursor} (h : Deeper k c k₁ c₁)
    (h' : Deeper k₁ c₁ k₂ c₂) : Deeper k c k₂ c₂ := by
  have hdepth := h.depth
  have hdepth' := h'.depth
  exact ⟨Nat.le_trans h.levels h'.levels, by omega, fun hc => h'.limit (h.limit hc)⟩

theorem Deeper.enter (k : Nat) {c : Cursor} (h : ¬maxNesting < c.depth + 1) :
    Deeper k c (k + 1) { c with depth := c.depth + 1 } := by
  refine ⟨Nat.le_succ k, ?_, fun _ => Nat.le_of_not_lt h⟩
  change c.depth + 1 + k = _
  omega

theorem Deeper.of_depth {k k' : Nat} {c c₁ c' : Cursor} (h : Deeper k c₁ k' c')
    (hdepth : c₁.depth = c.depth) : Deeper k c k' c' :=
  ⟨h.levels, hdepth ▸ h.depth, hdepth ▸ h.limit⟩

section
variable {stop : Kind → Bool} {item : Cursor → Trace (Option α × Cursor)} {n : Nat}

/-- Whatever happens to the items of a list, the next one is started at the same depth. -/
theorem start_of_traceWithin {k : Nat} {c c' : Cursor}
    (hitem : ∀ c, (item c).result.2.depth = c.depth)
    (h : .start k c' ∈ (traceWithin stop item n c).events) :
    ∃ c₁, c₁.depth = c.depth ∧ .start k c' ∈ (item c₁).events := by
  induction n generalizing c with
  | zero => cases h
  | succ n ih =>
    have hdepth := hitem c
    by_cases hc : GoesOn stop c
    · rcases hres : item c with ⟨⟨_ | a, c₂⟩, es⟩ <;> rw [hres] at hdepth
      · rw [traceWithin_of_none n hc hres, List.mem_append, List.mem_cons] at h
        rcases h with h | h | h
        · exact ⟨c, rfl, by rw [hres]; exact h⟩
        · cases h
        · obtain ⟨c₁, hc₁, hmem⟩ := ih h
          exact ⟨c₁, hc₁.trans hdepth, hmem⟩
      · rw [traceWithin_of_some n hc hres, List.mem_append] at h
        rcases h with h | h
        · exact ⟨c, rfl, by rw [hres]; exact h⟩
        · obtain ⟨c₁, hc₁, hmem⟩ := ih h
          exact ⟨c₁, hc₁.trans hdepth, hmem⟩
    · rw [traceWithin_of_not _ hc] at h
      cases h

end

theorem Script.deeper_of_start (s : Script α) {k k' : Nat} {c c' : Cursor}
    (h : .start k' c' ∈ (s.trace k c).events) : Deeper k c k' c' := by
  -- every script is started itself before its parts are
  have hself {k : Nat} {c : Cursor} {l : List Event} (h : .start k' c' ∈ Event.start k c :: l)
      (hl : .start k' c' ∈ l → Deeper k c k' c') : Deeper k c k' c' := by
    rcases List.mem_cons.mp h with h | h
    · cases h
      exact .refl _ _
    · exact hl h
  induction s generalizing k c with
  | bind s f ihs ihf =>
    have hdepth := s.depth_trace k c
    have hfirst := @ihs k c
    rcases hres : s.trace k c with ⟨⟨_ | a, c₁⟩, es⟩ <;> rw [hres] at hdepth hfirst
    · rw [trace_bind_of_none hres] at h
      exact hself h hfirst
    · rw [trace_bind_of_some hres, List.cons_append] at h
      refine hself h fun h => ?_
      rcases List.mem_append.mp h with h | h
      · exact hfirst h
      · exact (ihf a h).of_depth hdepth
  | nested s ih =>
    rw [trace] at h
    split at h
    · exact hself h fun h => by cases h
    · next hlimit => exact hself h fun h => (Deeper.enter k hlimit).trans (ih h)
  | all stop s ih =>
    refine hself h fun h => ?_
    obtain ⟨c₁, hdepth, hmem⟩ := start_of_traceWithin (s.depth_trace k) h
    exact (ih hmem).of_depth hdepth
  | _ => exact hself h fun h => by cases h

/-! ### Items that are left out -/

/-- What happens accounts for faults: there is one for each item that is left out, and one more
where nothing is given. -/
structure Accounted (c : Cursor) (t : Trace (Option α × Cursor)) : Prop where
  drops : t.events.countP Event.isDrop + c.faults.length ≤ t.result.2.faults.length
  none : t.result.1 = none →
    t.events.countP Event.isDrop + c.faults.length < t.result.2.faults.length

section Accounted
variable {events : List Event} {c : Cursor} {res : Option α × Cursor}

theorem Accounted.start (h : Accounted c ⟨res, events⟩) (k : Nat) (c' : Cursor) :
    Accounted c ⟨res, .start k c' :: events⟩ := by
  constructor
  · rw [List.countP_cons_of_neg Bool.false_ne_true]
    exact h.drops
  · rw [List.countP_cons_of_neg Bool.false_ne_true]
    exact h.none

/-- A step that gives something and takes no fault back. -/
theorem Accounted.quiet {a : α} {c' : Cursor} (h : c.faults.length ≤ c'.faults.length) :
    Accounted c ⟨(some a, c'), []⟩ where
  drops := by rwa [List.countP_nil, Nat.zero_add]
  none hnone := by cases hnone

theorem Accounted.report (e : SyntaxError) (a : Option α) :
    Accounted c ⟨(a, c.report e), []⟩ := by
  have hlt : c.faults.length < (c.report e).faults.length := by
    change _ < (c.faults ++ [_]).length
    simp
  constructor
  · rw [List.countP_nil, Nat.zero_add]
    exact Nat.le_of_lt hlt
  · rw [List.countP_nil, Nat.zero_add]
    exact fun _ => hlt

theorem Accounted.append {events' : List Event} {a : α} {c' : Cursor} {res' : Option β × Cursor}
    (h : Accounted c ⟨(some a, c'), events⟩) (h' : Accounted c' ⟨res', events'⟩) :
    Accounted c ⟨res', events ++ events'⟩ := by
  have hle : events.countP _ + c.faults.length ≤ c'.faults.length := h.drops
  constructor
  · have hle' : events'.countP _ + c'.faults.length ≤ res'.2.faults.length := h'.drops
    rw [List.countP_append]
    dsimp only
    omega
  · intro hnone
    have hlt' : events'.countP _ + c'.faults.length < res'.2.faults.length := h'.none hnone
    rw [List.countP_append]
    dsimp only
    omega

end Accounted

theorem accounted_traceWithin (stop : Kind → Bool) {item : Cursor → Trace (Option α × Cursor)}
    (h : ∀ c, Accounted c (item c)) (n : Nat) (c : Cursor) :
    (traceWithin stop item n c).events.countP Event.isDrop + c.faults.length ≤
      (traceWithin stop item n c).result.2.faults.length := by
  induction n generalizing c with
  | zero => exact Nat.le_of_eq (Nat.zero_add _)
  | succ n ih =>
    by_cases hc : GoesOn stop c
    · have hitem := h c
      rcases hres : item c with ⟨⟨_ | a, c'⟩, es⟩ <;> rw [hres] at hitem
      · have hlt : _ < c'.recover.faults.length := hitem.none rfl
        have hrest := ih c'.recover
        rw [traceWithin_of_none n hc hres, List.countP_append, List.countP_cons_of_pos rfl]
        dsimp only at hlt ⊢
        omega
      · have hle : _ ≤ c'.faults.length := hitem.drops
        have hrest := ih c'
        rw [traceWithin_of_some n hc hres, List.countP_append]
        dsimp only at hle ⊢
        omega
    · rw [traceWithin_of_not _ hc]
      exact Nat.le_of_eq (Nat.zero_add _)

theorem Script.accounted_trace (s : Script α) (k : Nat) (c : Cursor) :
    Accounted c (s.trace k c) := by
  induction s generalizing k c with
  | bind s f ihs ihf =>
    have hs := ihs k c
    rcases hres : s.trace k c with ⟨⟨_ | a, c'⟩, es⟩ <;> rw [hres] at hs
    · rw [trace_bind_of_none hres]
      refine .start ?_ k c
      exact ⟨hs.drops, fun _ => hs.none rfl⟩
    · rw [trace_bind_of_some hres, List.cons_append]
      exact .start (hs.append (ihf a k c')) k c
  | fail e => exact .start (.report e none) k c
  | report e => exact .start (.report e (some ())) k c
  | look get => exact .start (.quiet (Nat.le_refl _)) k c
  | next => exact .start (.quiet (keepsFaults_next c).length_le) k c
  | become s hs =>
    obtain ⟨_ | ⟨t, ts⟩, prev, depth, faults⟩ := c
    all_goals
      refine .start (.quiet ?_) k _
      exact Nat.le_refl faults.length
  | nested s ih =>
    rw [trace]
    split
    · exact .start (.report _ none) k c
    · have hs := ih (k + 1) { c with depth := c.depth + 1 }
      refine .start ?_ k c
      exact ⟨hs.drops, hs.none⟩
  | all stop s ih =>
    refine .start ⟨?_, fun hnone => by cases hnone⟩ k c
    exact accounted_traceWithin stop (ih k) c.rest.length c

/-! ### Parsers with a script -/

def Scripted ⦃α : Type⦄ (p : Parser α) : Prop :=
  ∃ s : Script α, s.Writes p

theorem Script.scripted (s : Script α) : Scripted s.run :=
  ⟨s, s.writes_run⟩

theorem scripted_fail (e : SyntaxError) : Scripted (Parser.fail e : Parser α) :=
  (Script.fail e).scripted

theorem scripted_steps : Steps Scripted where
  pure a := (Script.look fun _ _ => a).scripted
  seq := by
    rintro α β p f ⟨s, hs⟩ hf
    choose t ht using hf
    have hrun : (Script.bind s t).run = p >>= f := by
      rw [Script.run, hs.eq]
      exact congrArg _ (funext fun a => (ht a).eq)
    exact hrun ▸ (Script.bind s t).scripted
  fail e _ := scripted_fail e
  report e _ := (Script.report e).scripted
  look get := (Script.look get).scripted
  next := Script.next.scripted
  become s hs := (Script.become s hs).scripted
  nested := by
    rintro α p ⟨s, hs⟩
    exact hs.eq ▸ (Script.nested s).scripted
  all stop := by
    rintro p ⟨s, hs⟩
    exact hs.eq ▸ (Script.all stop s).scripted

end CarvFront.Parser

namespace CarvFront.Grammar
open CarvFront.Parser

/-- The parsers of the grammar, if those one level deeper are `r`. -/
inductive Production (r : Rules) : {α : Type} → Parser α → Prop where
  | expect (k : Kind) : Production r (expect k)
  | ident : Production r ident
  | memberName : Production r memberName
  | stringLiteral : Production r stringLiteral
  | semicolon : Production r semicolon
  | type : Production r r.type
  | typeExpr : Production r (typeExpr r.type)
  | angled : Production r (angled r.type)
  | expr : Production r r.expr
  | expression : Production r (expression r)
  | pipe : Production r (pipe r)
  | pipes (n : Nat) (e : Expr) : Production r (pipeWithin r n e)
  | binary (ls : List (List (Symbol × BinOp))) : Production r (binary r ls)
  | operators (ops : List (Symbol × BinOp)) (tighter : List (List (Symbol × BinOp))) (n : Nat)
      (e : Expr) : Production r (binaryWithin ops (Grammar.binary r tighter) n e)
  | unary : Production r (unary r)
  | operand : Production r r.operand
  | postfixed : Production r (postfixed r)
  | calls (n : Nat) (e : Expr) : Production r (postfixWithin r n e)
  | arguments : Production r (items .rparen r.expr)
  | primary : Production r (primary r)
  | holes (n : Nat) : Production r (holesWithin r n)
  | initialisers : Production r (items .rbrace (fieldInit r))
  | lambda : Production r (lambda r)
  | params : Production r (items .rparen (param r))
  | signature (async : Bool) : Production r (signature r async)
  | returnType : Production r (returnType r)
  | block : Production r (block r)
  | stmts : Production r r.stmts
  | statement : Production r (statement r)
  | binding : Production r (binding r)
  | returnStmt : Production r (returnStmt r)
  | conditional : Production r (conditional r)
  | conditions (n : Nat) : Production r (conditionalWithin r n)
  | forStmt : Production r (forStmt r)
  | loopInit : Production r (loopInit r)
  | whileStmt : Production r (whileStmt r)
  | loopStmt : Production r (loopStmt r)
  | functionDecl : Production r (functionDecl r)
  | receiver : Production r receiver
  | method : Production r (method r)
  | methods : Production r (allInBraces (method r))
  | methodHead : Production r (methodHead r)
  | field : Production r (field r)
  | classItem : Production r (classItem r)
  | classDecl : Production r (classDecl r)
  | interfaceDecl : Production r (interfaceDecl r)
  | implDecl : Production r (implDecl r)
  | require : Production r require
  | program : Production r program

/-- A property that the steps and all failures have and that putting parsers together keeps holds of
every parser of the grammar. -/
theorem Production.holds {P : ∀ ⦃α : Type⦄, Parser α → Prop} (h : Steps P)
    (hfail : ∀ {α : Type} (e : SyntaxError), P (Parser.fail e : Parser α)) {n : Nat} {α : Type}
    {p : Parser α} (hp : Production (Rules.levels n) p) : P p := by
  have hc := h.closed hfail
  have hr := closed_levels hc n
  cases hp with
  | expect k => exact h.paired.expect_of_fail hfail k
  | ident => exact h.ident
  | memberName => exact h.memberName
  | stringLiteral => exact h.stringLiteral
  | semicolon => exact h.semicolon
  | type => exact hr.type
  | typeExpr => exact closed_typeExpr hc hr.type
  | angled => exact closed_angled hc hr.type
  | expr => exact hr.expr
  | expression => exact closed_expression hc hr
  | pipe => exact closed_pipe hc hr
  | pipes n e => exact closed_pipeWithin hc hr n e e
  | binary ls => exact closed_binary hc hr ls
  | operators ops tighter n e => exact closed_binaryWithin hc ops (closed_binary hc hr tighter) n e e
  | unary => exact closed_unary hc hr
  | operand => exact hr.operand
  | postfixed => exact closed_postfixed hc hr
  | calls n e => exact closed_postfixWithin hc hr n e e
  | arguments => exact h.items _ hr.expr
  | primary => exact closed_primary hc hr
  | holes n => exact h.paired.holesWithin hfail hr.expr n
  | initialisers => exact h.items _ (closed_fieldInit hc hr)
  | lambda => exact closed_lambda hc hr
  | params => exact h.items _ (closed_param hc hr)
  | signature async => exact closed_signature hc hr async async
  | returnType => exact closed_returnType hc hr
  | block => exact closed_block hc hr
  | stmts => exact hr.stmts
  | statement => exact closed_statement hc hr
  | binding => exact closed_binding hc hr
  | returnStmt => exact closed_returnStmt hc hr
  | conditional => exact closed_conditional hc hr
  | conditions n => exact closed_conditionalWithin hc hr n
  | forStmt => exact closed_forStmt hc hr
  | loopInit => exact closed_loopInit hc hr
  | whileStmt => exact closed_whileStmt hc hr
  | loopStmt => exact closed_loopStmt hc hr
  | functionDecl => exact closed_functionDecl hc hr
  | receiver => exact closed_receiver hc
  | method => exact closed_method hc hr
  | methods => exact h.all _ (closed_method hc hr)
  | methodHead => exact closed_methodHead hc hr
  | field => exact closed_field hc hr
  | classItem => exact closed_classItem hc hr
  | classDecl => exact closed_classDecl hc hr
  | interfaceDecl => exact closed_interfaceDecl hc hr
  | implDecl => exact closed_implDecl hc hr
  | require => exact closed_require hc
  | program =>
    have hstatement := closed_statement hc (closed_levels hc (maxNesting + 1))
    refine h.seq h.here fun start => h.seq (h.all _ hstatement) fun stmts => ?_
    exact h.seq h.before fun stop => h.pure _

theorem Production.scripted {n : Nat} {α : Type} {p : Parser α}
    (hp : Production (Rules.levels n) p) : Scripted p :=
  hp.holds scripted_steps scripted_fail

end CarvFront.Grammar
