import CarvFront.Proofs.Combinators

/-! What a parser does depends on the kinds of the tokens alone: where they stand is only noted in the
trees. On tokens of the same kinds it gets to the same place and finds the same faults. -/
namespace CarvFront

/-- Cursors before tokens of the same kinds, inside as many constructs and with the same faults behind
them, places apart. -/
structure Cursor.Like (c c' : Cursor) : Prop where
  kinds : c.kinds = c'.kinds
  depth : c.depth = c'.depth
  faults : c.faults.map Fault.error = c'.faults.map Fault.error

namespace Cursor.Like
variable {c c' : Cursor}

theorem kind (h : c.Like c') : c.kind = c'.kind :=
  Cursor.kind_congr h.kinds

theorem full (h : c.Like c') : c.full = c'.full := by
  have hfaults := congrArg List.length h.faults
  rw [List.length_map, List.length_map] at hfaults
  rw [Cursor.full, Cursor.full, hfaults]

theorem next (h : c.Like c') : c.next.Like c'.next := by
  obtain ⟨_ | ⟨t, ts⟩, prev, depth, faults⟩ := c <;>
    obtain ⟨_ | ⟨t', ts'⟩, prev', depth', faults'⟩ := c'
  · exact h
  · cases h.kinds
  · cases h.kinds
  · exact ⟨(List.cons.inj h.kinds).2, h.depth, h.faults⟩

theorem report (h : c.Like c') (e : SyntaxError) : (c.report e).Like (c'.report e) := by
  refine ⟨h.kinds, h.depth, ?_⟩
  simp [Cursor.report, h.faults]

theorem become (h : c.Like c') (k : Kind) : (Parser.become k c).2.Like (Parser.become k c').2 := by
  obtain ⟨_ | ⟨t, ts⟩, prev, depth, faults⟩ := c <;>
    obtain ⟨_ | ⟨t', ts'⟩, prev', depth', faults'⟩ := c'
  · exact h
  · cases h.kinds
  · cases h.kinds
  · exact ⟨congrArg (k :: ·) (List.cons.inj h.kinds).2, h.depth, h.faults⟩

theorem skipTo {ts ts' : List Token} (h : ts.map Token.kind = ts'.map Token.kind) (moved : Bool)
    (prev prev' : Span) :
    (Cursor.skipTo moved ts prev).1.map Token.kind = (Cursor.skipTo moved ts' prev').1.map Token.kind := by
  induction ts generalizing ts' moved prev prev' with
  | nil =>
    obtain rfl : ts' = [] := by simpa using h.symm
    rfl
  | cons t ts ih =>
    obtain _ | ⟨t', ts'⟩ := ts'
    · cases h
    obtain ⟨hk, hts⟩ := List.cons.inj h
    rw [Cursor.skipTo, Cursor.skipTo, hk]
    split
    · exact h
    split
    · exact hts
    split
    · exact h
    split
    · exact hts
    · exact ih hts true t.span t'.span

theorem recover (h : c.Like c') : c.recover.Like c'.recover :=
  ⟨skipTo h.kinds false c.prev c'.prev, h.depth, h.faults⟩

end Cursor.Like

namespace Parser
variable {α β : Type}

/-- Two parsers that go on in step: at cursors that are alike both read something or both fail, and
they get to cursors that are alike. -/
def Alike ⦃α : Type⦄ (p p' : Parser α) : Prop :=
  ∀ c c' : Cursor, c.Like c' → (p c).1.isSome = (p' c').1.isSome ∧ (p c).2.Like (p' c').2

theorem alike_fail (e : SyntaxError) : Alike (fail e : Parser α) (fail e) :=
  fun _ _ h => ⟨rfl, h.report e⟩

theorem alike_become (k : Kind) : Alike (become k) (become k) := by
  intro c c' h
  refine ⟨?_, h.become k⟩
  obtain ⟨_ | ⟨t, ts⟩, prev, depth, faults⟩ := c <;>
    obtain ⟨_ | ⟨t', ts'⟩, prev', depth', faults'⟩ := c' <;> rfl

theorem alike_seq {p p' : Parser α} {f f' : α → Parser β} (hp : Alike p p')
    (hf : ∀ a b, Alike (f a) (f' b)) : Alike (p >>= f) (p' >>= f') := by
  intro c c' h
  obtain ⟨hsome, hlike⟩ := hp c c' h
  rcases hres : p c with ⟨_ | a, d⟩ <;> rcases hres' : p' c' with ⟨_ | b, d'⟩ <;>
    rw [hres, hres'] at hsome hlike
  · rw [bind_of_none hres, bind_of_none hres']
    exact ⟨rfl, hlike⟩
  · cases hsome
  · cases hsome
  · rw [bind_of_some hres, bind_of_some hres']
    exact hf a b d d' hlike

theorem alike_sees {get : Cursor → α} (hget : ∀ c c', c.kinds = c'.kinds → get c = get c')
    {f f' : α → Parser β} (hf : ∀ a, Alike (f a) (f' a)) :
    Alike ((fun c => (some (get c), c) : Parser α) >>= f)
      ((fun c => (some (get c), c) : Parser α) >>= f') := by
  intro c c' h
  have hsame := hf (get c) c c' h
  rw [show f' (get c) = f' (get c') from congrArg f' (hget c c' h.kinds)] at hsame
  exact hsame

theorem alike_nested {p p' : Parser α} (hp : Alike p p') : Alike (nested p) (nested p') := by
  intro c c' h
  unfold Parser.nested
  rw [← h.depth]
  split
  · exact alike_fail _ c c' h
  · have hin : ({ c with depth := c.depth + 1 } : Cursor).Like { c' with depth := c.depth + 1 } :=
      ⟨h.kinds, rfl, h.faults⟩
    obtain ⟨hsome, hlike⟩ := hp _ _ hin
    exact ⟨hsome, hlike.kinds, congrArg (· - 1) hlike.depth, hlike.faults⟩

theorem like_allWithin (stop : Kind → Bool) {p p' : Parser α} (hp : Alike p p') (n : Nat)
    {c c' : Cursor} (h : c.Like c') : (allWithin stop p n c).2.Like (allWithin stop p' n c').2 := by
  induction n generalizing c c' with
  | zero => exact h
  | succ n ih =>
    rw [Parser.allWithin, Parser.allWithin, h.kind, h.full]
    split
    · exact h
    · obtain ⟨hsome, hlike⟩ := hp c c' h
      rcases hres : p c with ⟨_ | a, d⟩ <;> rcases hres' : p' c' with ⟨_ | b, d'⟩ <;>
        rw [hres, hres'] at hsome hlike
      · exact ih hlike.recover
      · cases hsome
      · cases hsome
      · exact ih hlike

theorem alike_all (stop : Kind → Bool) {p p' : Parser α} (hp : Alike p p') :
    Alike (all stop p) (all stop p') := by
  intro c c' h
  have hall := like_allWithin stop hp c.rest.length h
  refine ⟨rfl, ?_⟩
  unfold Parser.all
  rw [← Cursor.length_congr h.kinds]
  exact hall

theorem alike_paired : Paired Alike where
  pure _ _ _ _ h := ⟨rfl, h⟩
  seq := alike_seq
  fail e _ := alike_fail e
  report e _ _ _ h := ⟨rfl, h.report e⟩
  sees := alike_sees
  here _ _ h := ⟨rfl, h⟩
  before _ _ h := ⟨rfl, h⟩
  next _ _ h := ⟨rfl, h.next⟩
  become s _ := alike_become (.sym s)
  nested := alike_nested
  all := alike_all

theorem alike_closed : Closed Alike :=
  alike_paired.closed alike_fail

end Parser
end CarvFront
