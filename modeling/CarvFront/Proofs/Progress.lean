import CarvFront.Proofs.Passing

/-! Reading always comes to its end: every statement, method and field takes a token, recovery takes
one unless it is at the end, and so no list of them goes on for longer than there are tokens. -/
namespace CarvFront

namespace Parser
variable {α : Type}

/-- A parser goes forward; where it gives something, past one token at least. -/
def Advances (p : Parser α) : Prop :=
  ∀ c : Cursor, ∃ w, Passes c.rest w (p c).2.rest ∧ ((p c).1 = none ∨ w ≠ [])

theorem Taking.advances {p : Parser α} (h : ∀ c, Taking Forward c p) : Advances p := by
  intro c
  obtain ⟨w, hw, -⟩ := (h c).law
  refine ⟨w, hw.passes, ?_⟩
  rcases hres : p c with ⟨_ | a, c'⟩
  · exact .inl rfl
  · rw [hres] at hw
    exact .inr (hw.passes.ne_nil ((h c).takes hres))

/-- A list of items is read turn by turn, each of which takes a token, until there is nothing to
read. -/
def Finishes (stop : Kind → Bool) (item : Parser α) : Prop :=
  ∀ c, ∃ as last, all stop item c = (some as, last) ∧ Turns stop item c as last ∧ ¬GoesOn stop last

theorem finishes_of_taking (stop : Kind → Bool) {item : Parser α} (h : ∀ c, Taking Forward c item) :
    Finishes stop item :=
  fun c => ⟨_, _, rfl, turns_allWithin stop h c.rest.length c (Nat.le_refl _)⟩

end Parser

namespace Grammar.Rules
open CarvFront.Parser
variable {r : Rules}

/-- What takes a token wherever it is read, and the lists of it in braces. -/
structure Progress (r : Rules) : Prop where
  statement : Advances (statement r)
  method : Advances (method r)
  methodHead : Advances (methodHead r)
  field : Advances (field r)
  block : Finishes (· = .sym .rbrace) (Grammar.statement r)
  classBody : Finishes (· = .sym .rbrace) (classItem r)
  interfaceBody : Finishes (· = .sym .rbrace) (Grammar.methodHead r)
  implBody : Finishes (· = .sym .rbrace) (Grammar.method r)

theorem Obey.progress (hr : r.Obey Inside Forward) : r.Progress := by
  have hstatement := taking_statement law_inside hr
  have hmethod (c : Cursor) := law_inside.weaken_taking (taking_method law_inside hr c)
  have hhead := taking_methodHead law_inside hr
  exact ⟨Taking.advances hstatement, Taking.advances hmethod, Taking.advances hhead,
    Taking.advances (taking_field law_inside hr), finishes_of_taking _ hstatement,
    finishes_of_taking _ (taking_classItem law_inside hr), finishes_of_taking _ hhead,
    finishes_of_taking _ hmethod⟩

/-- The loops inside a statement never stop for want of turns: with a turn for each token left, more
of them would change nothing. -/
structure Ample (r : Rules) : Prop where
  items {α : Type} (close : Kind) {item : Parser α} (hitem : Advances item) :
    Stable (itemsWithin close item)
  questionMarks (start : Span) (t : TypeExpr) : Stable fun n => optionalWithin start n t
  holes : Stable (holesWithin r)
  calls (e : Expr) : Stable fun n => postfixWithin r n e
  operators {ops : List (Symbol × BinOp)} {tighter : List (List (Symbol × BinOp))}
    (h : ops :: tighter <:+ Grammar.levels) (e : Expr) :
    Stable fun n => binaryWithin ops (binary r tighter) n e
  pipes (e : Expr) : Stable fun n => pipeWithin r n e
  conditions : Stable (conditionalWithin r)

theorem Obey.ample (hr : r.Obey Inside Forward) : r.Ample where
  items close _ hitem := by
    refine stable_itemsWithin close fun c => ?_
    obtain ⟨w, hw, -⟩ := hitem c
    exact hw.length_le
  questionMarks := stable_optionalWithin
  holes := stable_holesWithin law_inside hr
  calls := stable_postfixWithin law_inside hr
  operators {ops tighter} hsuffix := by
    have hls (ops' : List (Symbol × BinOp)) (hops : ops' ∈ tighter) :=
      lookup_levels (hsuffix.subset (.tail ops hops))
    exact stable_binaryWithin ops
      (core_inside.shrinks' fun c => (taking_binary law_inside hr hls c).law)
  pipes := stable_pipeWithin law_inside hr
  conditions := stable_conditionalWithin law_inside hr

end Grammar.Rules

open CarvFront.Parser CarvFront.Grammar

/-- A program of any tokens is read turn by turn to its end. Nothing goes back or past an end, and
what is read or skipped takes a token, at every level. -/
theorem Program.reading_progresses (ts : List Token) :
    (∃ stmts last w, Turns (fun _ => false) (statement rules) (.start ts) stmts last ∧
      ¬GoesOn (fun _ => false) last ∧ Passes ts w last.rest ∧
      (Program.ofTokens ts).1.stmts = stmts ∧ (Program.ofTokens ts).2 = last.faults) ∧
    (∀ c : Cursor, ∃ w, Passes c.rest w c.recover.rest ∧ (c.kind = .eof ∨ w ≠ [])) ∧
    ∀ n, (Rules.levels n).Progress ∧ (Rules.levels n).Ample := by
  have hobey (n : Nat) := obey_levels law_inside n
  refine ⟨?_, fun c => ?_, fun n => ⟨(hobey n).progress, (hobey n).ample⟩⟩
  · have hitem := taking_statement law_inside (hobey (maxNesting + 1))
    obtain ⟨hturns, hend⟩ :=
      turns_allWithin (fun _ => false) hitem ts.length (.start ts) (Nat.le_refl _)
    obtain ⟨w, hw⟩ := hturns.course fun c => (hitem c).law
    exact ⟨_, _, w, hturns, hend, hw.passes, rfl, rfl⟩
  · obtain ⟨w, hw, hmoves⟩ := c.course_recover
    exact ⟨w, hw.passes, Decidable.or_iff_not_imp_left.mpr hmoves⟩

end CarvFront
