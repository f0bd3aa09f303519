import CarvFront.Proofs.Rendering
import Mathlib.Tactic.IntervalCases

/-! Reading expressions by level. A tree that can be read on its own level can be read on all looser
ones, and operators that group from the left are read one after the other, each one level deeper. -/
namespace CarvFront.Grammar
open CarvFront.Parser
variable {level d : Nat} {k : Kind} {α : Type} {fits : α → Prop} {seg : List Kind} {r : Rules}

/-- The rule for expressions that hold together at least as tightly as a level says. -/
def ruleAt (r : Rules) : Nat → Parser Expr
  | 0 => expression r
  | 1 => pipe r
  | i + 2 =>
    if i ≤ 10 then binary r (levels.drop i) else if i = 11 then postfixed r else primary r

/-- What is read behind an operand on a level that groups from the left. -/
def loopAt (r : Rules) : Nat → Nat → Expr → Parser Expr
  | 1 => pipeWithin r
  | i + 2 =>
    if i ≤ 9 then binaryWithin (levels.getD i []) (binary r (levels.drop (i + 1)))
    else postfixWithin r
  | 0 => fun _ e => pure e

/-- Whether a level groups from the left. -/
def folding (level : Nat) : Bool :=
  level = 1 || (2 ≤ level && level ≤ 11) || level = 13

/-- A token that does not go on with an expression of a level or tighter. -/
def stops (level : Nat) (k : Kind) : Bool :=
  (level ≠ 0 || (assignOp? k).isNone) && (2 ≤ level || k ≠ .sym .pipeGt) &&
    ((levels.drop (level - 2)).all fun ops => (operator? ops k).isNone) &&
    (14 ≤ level || (k ≠ .sym .lparen && k ≠ .sym .dot && k ≠ .sym .lbracket))

theorem stops_succ (h : stops level k = true) : stops (level + 1) k = true := by
  simp only [stops, Bool.and_eq_true, Bool.or_eq_true, decide_eq_true_eq] at h ⊢
  obtain ⟨⟨⟨-, hpipe⟩, hbinary⟩, hlast⟩ := h
  refine ⟨⟨⟨.inl (Nat.succ_ne_zero _), ?_⟩, ?_⟩, ?_⟩
  · exact hpipe.imp_left fun h => by omega
  · rw [List.all_eq_true] at hbinary ⊢
    intro ops hops
    apply hbinary
    have hdrop : level + 1 - 2 = level - 2 ∨ level + 1 - 2 = level - 2 + 1 := by omega
    rcases hdrop with heq | heq
    · rwa [heq] at hops
    · rw [heq, ← List.drop_drop] at hops
      exact List.mem_of_mem_drop hops
  · exact hlast.imp_left fun h => by omega

theorem assignOp?_of_stops (h : stops 0 k = true) : assignOp? k = none := by
  simp only [stops, Bool.and_eq_true, Bool.or_eq_true, decide_eq_true_eq] at h
  obtain ⟨⟨⟨ha, -⟩, -⟩, -⟩ := h
  simpa using ha

theorem operator?_of_stops {i : Nat} (h : stops (i + 2) k = true) {ops : List (Symbol × BinOp)}
    (hops : ops ∈ levels.drop i) : operator? ops k = none := by
  simp only [stops, Bool.and_eq_true] at h
  obtain ⟨⟨-, hall⟩, -⟩ := h
  have hnone := List.all_eq_true.mp hall ops (by simpa using hops)
  simpa using hnone

/-! ### Grouping from the left -/

variable {m n f : Nat} {stop inner : Kind → Bool} {head : Parser Expr}
  {loop : Nat → Expr → Parser Expr} {e l : Expr} {ks : List Kind} {ok : Expr → Prop}

/-- An operand, and what is read behind it. -/
def chain (head : Parser Expr) (loop : Nat → Expr → Parser Expr) : Parser Expr := do
  let e ← head
  let n ← remaining
  loop n e

/-- With `e` read, the loop reads tokens of the kinds `ks`. -/
def Loops (m : Nat) (stop : Kind → Bool) (loop : Nat → Expr → Parser Expr) (e : Expr) (n : Nat)
    (ks : List Kind) (ok : Expr → Prop) : Prop :=
  ∀ e', e'.Same e → ∀ fuel c rest, Room m c → Spells ks c.rest rest →
    stop (firstKind rest) = true → c.rest.length ≤ fuel →
    Outcome c.depth c.faults rest n ok (loop fuel e' c)

/-- The first token of `ks` and what follows ends an operand. -/
def Ends (inner stop : Kind → Bool) (ks : List Kind) : Prop :=
  ∀ ts rest, Spells ks ts rest → stop (firstKind rest) = true → inner (firstKind ts) = true

theorem ends_nil (h : ∀ k, stop k = true → inner k = true) : Ends inner stop [] := by
  rintro ts rest rfl hstop
  exact h _ hstop

theorem ends_cons (h : inner k = true) : Ends inner stop (k :: ks) := by
  intro ts rest hs _
  rw [firstKind_of_spells hs]
  exact h

/-- Reading `e` is reading its first operand and going through the loop `f` times; after that the
loop goes on, `f` levels deeper, with whatever follows. -/
def Feeds (m : Nat) (inner : Kind → Bool) (head : Parser Expr) (loop : Nat → Expr → Parser Expr)
    (e : Expr) (f : Nat) : Prop :=
  ∀ stop n ks ok, Ends inner stop ks → Loops m stop loop e n ks ok →
    Reads m stop (chain head loop) (max e.nesting (f + n)) (e.tokens ++ ks) ok

theorem feeds_of_reads (h : Reads m inner head e.nesting e.tokens (·.Same e)) :
    Feeds m inner head loop e 0 := by
  intro stop n ks ok hends hloop c rest hr hs hstop
  obtain ⟨mid, he, hks⟩ := spells_append.mp hs
  rw [Nat.zero_add]
  refine (h c mid hr he (hends mid rest hks hstop)).bind fun e' last he' => ?_
  exact hloop e' he' mid.length ⟨mid, last, c.depth, c.faults⟩ rest ⟨hr.depth_le, hr.enough⟩ hks
    hstop (Nat.le_refl _)

/-- One more operator. `loop` with `l` read takes it, with an operand that goes `d` levels deeper,
and has `e` read then. -/
theorem Feeds.step {ks' : List Kind} (h : Feeds m inner head loop l f) (hk : inner k = true)
    (htokens : e.tokens = l.tokens ++ k :: ks') (hnesting : e.nesting = max l.nesting (f + 1 + d))
    (hstep : ∀ stop n ks ok, Ends inner stop ks → Loops m stop loop e n ks ok →
      Loops m stop loop l (max d n + 1) (k :: ks' ++ ks) ok) :
    Feeds m inner head loop e (f + 1) := by
  intro stop n ks ok hends hloop
  have hl := h stop _ _ ok (ends_cons hk) (hstep stop n ks ok hends hloop)
  refine hl.of_eq ?_ ?_
  · rw [hnesting]
    omega
  · rw [htokens, List.append_assoc]
    rfl

theorem Feeds.reads (h : Feeds m inner head loop e f)
    (hstop : ∀ k, stop k = true → inner k = true) (hf : f ≤ e.nesting)
    (hend : Loops m stop loop e 0 [] (·.Same e)) :
    Reads m stop (chain head loop) e.nesting e.tokens (·.Same e) := by
  refine (h stop 0 [] _ (ends_nil hstop) hend).of_eq ?_ (List.append_nil _)
  omega

/-- One turn of a loop, at a place one level deeper: `q` reads an operator with what belongs to it,
and `make` puts it on top of what was read before. -/
theorem outcome_turn {q : Parser α} {make : Expr → α → Expr} (hq : Reads m inner q d seg fits)
    (hmake : ∀ l' a, l'.Same l → fits a → (make l' a).Same e) (hends : Ends inner stop ks)
    (h : Loops m stop loop e n ks ok) {l' : Expr} (hl : l'.Same l) {fuel : Nat} {c : Cursor}
    {mid rest : List Token} (hr : Room m c) (hseg : Spells seg c.rest mid)
    (hks : Spells ks mid rest) (hstop : stop (firstKind rest) = true) (hfuel : mid.length ≤ fuel) :
    Outcome c.depth c.faults rest (max d n + 1) ok
      (nested (q >>= fun a => loop fuel (make l' a)) c) := by
  refine Outcome.nested fun hfits => ?_
  have henough := hr.enough
  have hroom : Room m { c with depth := c.depth + 1 } := ⟨hfits, by dsimp only; omega⟩
  refine (hq _ mid hroom hseg (hends mid rest hks hstop)).bind fun a last ha => ?_
  exact h _ (hmake l' a hl ha) fuel ⟨mid, last, c.depth + 1, c.faults⟩ rest
    ⟨hroom.depth_le, hroom.enough⟩ hks hstop hfuel

/-- A loop that looks for `k` and takes it one level deeper. -/
theorem loops_turn (q : Parser α) (make : Expr → α → Expr) (hq : Reads m inner q d (k :: seg) fits)
    (hmake : ∀ l' a, l'.Same l → fits a → (make l' a).Same e)
    (hloop : ∀ fuel l' (c : Cursor), c.kind = k →
      loop (fuel + 1) l' c = nested (q >>= fun a => loop fuel (make l' a)) c)
    (hends : Ends inner stop ks) (h : Loops m stop loop e n ks ok) :
    Loops m stop loop l (max d n + 1) (k :: seg ++ ks) ok := by
  intro l' hl fuel c rest hr hs hstop hfuel
  obtain ⟨mid, hseg, hks⟩ := spells_append.mp hs
  have hlen := hseg.length_eq
  rw [List.length_cons] at hlen
  obtain ⟨fuel, rfl⟩ : ∃ n, fuel = n + 1 := ⟨fuel - 1, by omega⟩
  rw [hloop fuel l' c (c.kind_eq.trans (firstKind_of_spells hseg))]
  exact outcome_turn hq hmake hends h hl hr hseg hks hstop (by omega)

/-- A loop that takes `k` before it goes one level deeper. -/
theorem loops_turn_behind (q : Parser α) (make : Expr → α → Expr) (hq : Reads m inner q d seg fits)
    (hmake : ∀ l' a, l'.Same l → fits a → (make l' a).Same e)
    (hloop : ∀ fuel l' (c : Cursor), c.kind = k →
      loop (fuel + 1) l' c = nested (q >>= fun a => loop fuel (make l' a)) c.next)
    (hends : Ends inner stop ks) (h : Loops m stop loop e n ks ok) :
    Loops m stop loop l (max d n + 1) (k :: seg ++ ks) ok := by
  intro l' hl fuel c rest hr hs hstop hfuel
  obtain ⟨mid, hseg, hks⟩ := spells_append.mp hs
  have hkind : c.kind = k := c.kind_eq.trans (firstKind_of_spells hseg)
  obtain ⟨ts, last, depth, faults⟩ := c
  obtain ⟨t, ts', rfl, -, hseg⟩ := hseg
  have hlen := hseg.length_eq
  rw [List.length_cons] at hfuel
  obtain ⟨fuel, rfl⟩ : ∃ n, fuel = n + 1 := ⟨fuel - 1, by omega⟩
  rw [hloop fuel l' _ hkind]
  exact outcome_turn (c := ⟨ts', t.span, depth, faults⟩) hq hmake hends h hl
    ⟨hr.depth_le, hr.enough⟩ hseg hks hstop (by omega)

/-! ### From level to level -/

theorem cases_of_folding (h : folding level = true) :
    level = 1 ∨ (∃ i, i ≤ 9 ∧ level = i + 2) ∨ level = 13 := by
  simp only [folding, Bool.or_eq_true, Bool.and_eq_true, decide_eq_true_eq] at h
  rcases h with (h | h) | h
  · exact .inl h
  · exact .inr (.inl ⟨level - 2, by omega, by omega⟩)
  · exact .inr (.inr h)

theorem ruleAt_eq_chain (r : Rules) (h : folding level = true) :
    ruleAt r level = chain (ruleAt r (level + 1)) (loopAt r level) := by
  rcases cases_of_folding h with rfl | ⟨i, hi, rfl⟩ | rfl
  · rfl
  · interval_cases i <;> rfl
  · rfl

theorem loops_of_reads
    (h : ∀ fuel e', e'.Same e → Reads m stop (loop fuel e') n ks ok) :
    Loops m stop loop e n ks ok :=
  fun e' he fuel c rest hr hs hstop _ => h fuel e' he c rest hr hs hstop

/-- A loop ends at a token that does not go on with its level. -/
theorem loops_end (r : Rules) (h : folding level = true) (e : Expr) :
    Loops m (stops level) (loopAt r level) e 0 [] (·.Same e) := by
  refine loops_of_reads fun fuel e' he => ?_
  rcases cases_of_folding h with rfl | ⟨i, hi, rfl⟩ | rfl
  · cases fuel with
    | zero => exact Reads.pure he
    | succ fuel => exact Reads.eat_end (by decide) (Reads.pure he)
  · have hloop : loopAt r (i + 2) =
        binaryWithin (levels.getD i []) (binary r (levels.drop (i + 1))) := if_pos hi
    rw [hloop]
    cases fuel with
    | zero => exact Reads.pure he
    | succ fuel =>
      refine Reads.peek_end fun k hk => ?_
      have hmem : levels.getD i [] ∈ levels.drop i := by
        interval_cases i <;> decide
      rw [operator?_of_stops hk hmem]
      exact Reads.pure he
  · cases fuel with
    | zero => exact Reads.pure he
    | succ fuel =>
      refine Reads.peek_end fun k hk => ?_
      split
      · exact absurd hk (by decide)
      · exact absurd hk (by decide)
      · exact absurd hk (by decide)
      · exact Reads.pure he

/-- Tokens that no expression starts with, though one may be looked for where they stand. -/
def neverFirst : Kind → Bool
  | .sym .rparen | .sym .rbracket | .sym .rbrace | .word .mutKw | .eof => true
  | _ => false

/-- Signs and words in front of an operand. -/
def signs (k : Kind) : Bool :=
  k = .sym .amp || (prefixed? k).isSome

theorem reads_expression (h : Reads m (stops 1) (pipe r) n ks ok) :
    Reads m (stops 0) (expression r) n ks ok := by
  refine (h.weaken fun _ => stops_succ).andThen fun e he => ?_
  refine Reads.peek_end fun k hk => ?_
  rw [assignOp?_of_stops hk]
  exact Reads.pure he

theorem reads_unary (hk : signs k = false) (h : Reads m (stops 13) (postfixed r) n (k :: ks) ok) :
    Reads m (stops 12) (unary r) n (k :: ks) ok := by
  simp only [signs, Bool.or_eq_false_iff, decide_eq_false_iff_not, Option.isSome_eq_false_iff,
    Option.isNone_iff_eq_none] at hk
  refine Reads.look fun start => Reads.peek ?_
  split
  · exact absurd rfl hk.1
  · rw [hk.2]
    exact h.weaken fun _ => stops_succ

theorem reads_folding (hfold : folding level = true)
    (h : Reads m (stops (level + 1)) (ruleAt r (level + 1)) e.nesting e.tokens (·.Same e)) :
    Reads m (stops level) (ruleAt r level) e.nesting e.tokens (·.Same e) := by
  rw [ruleAt_eq_chain r hfold]
  exact (feeds_of_reads h).reads (fun _ => stops_succ) (Nat.zero_le _) (loops_end r hfold e)

/-- What is known of the first token of an expression. -/
def Begins (e : Expr) : Prop :=
  ∃ k ks, e.tokens = k :: ks ∧ neverFirst k = false ∧ (13 ≤ e.level → signs k = false)

/-- An expression whose tokens are read as they should on every level, alone or with more behind. -/
structure Ready (e : Expr) : Prop where
  begins : Begins e
  reads : ∀ m level, level ≤ e.level →
    Reads m (stops level) (ruleAt (.levels m) level) e.nesting e.tokens (·.Same e)
  feeds : ∀ m level, folding level = true → level ≤ e.level →
    Feeds m (stops (level + 1)) (ruleAt (.levels m) (level + 1)) (loopAt (.levels m) level) e
      (e.foldsAt level)

theorem opLevel_le (op : BinOp) : op.level ≤ 9 := by
  cases op <;> decide

theorem level_le (e : Expr) : e.level ≤ 14 := by
  cases e with
  | binary _ op _ _ =>
    have hop := opLevel_le op
    rw [Expr.level]
    omega
  | _ => simp [Expr.level]

/-- From the level of an expression down to the loosest one. -/
theorem reads_of_le (hfirst : Begins e)
    (h : Reads m (stops e.level) (ruleAt (.levels m) e.level) e.nesting e.tokens (·.Same e))
    (hle : level ≤ e.level) :
    Reads m (stops level) (ruleAt (.levels m) level) e.nesting e.tokens (·.Same e) := by
  -- on the distance to the expression's own level; every rule in between passes it on
  obtain ⟨d, hd⟩ := Nat.exists_eq_add_of_le hle
  induction d generalizing level with
  | zero =>
    rw [Nat.add_zero] at hd
    exact hd ▸ h
  | succ d ih =>
    have hinner := @ih (level + 1) (by omega) (by omega)
    have hbound := level_le e
    by_cases hzero : level = 0
    · subst hzero
      exact reads_expression hinner
    by_cases htwelve : level = 12
    · subst htwelve
      obtain ⟨k, ks, htokens, -, hsign⟩ := hfirst
      rw [htokens] at hinner ⊢
      exact reads_unary (hsign (by omega)) hinner
    refine reads_folding ?_ hinner
    simp only [folding, Bool.or_eq_true, Bool.and_eq_true, decide_eq_true_eq]
    omega

theorem foldsAt_le_nesting (level : Nat) (e : Expr) : e.foldsAt level ≤ e.nesting := by
  unfold Expr.foldsAt
  split
  · cases e <;> simp only [Expr.folds, Expr.nesting, Expr.foldsAt] <;> omega
  · exact Nat.zero_le _

/-- Levels that do not group from the left. -/
theorem ready_of_reads (hfold : folding e.level = false) (hfirst : Begins e)
    (h : ∀ m, Reads m (stops e.level) (ruleAt (.levels m) e.level) e.nesting e.tokens (·.Same e)) :
    Ready e where
  begins := hfirst
  reads m level hle := reads_of_le hfirst (h m) hle
  feeds m level hlevel hle := by
    have hne : e.level ≠ level := by
      rintro rfl
      rw [hfold] at hlevel
      cases hlevel
    have hnone : e.foldsAt level = 0 := if_neg hne
    rw [hnone]
    exact feeds_of_reads (reads_of_le hfirst (h m) (by omega))

/-- Levels that group from the left. -/
theorem ready_of_feeds (hfold : folding e.level = true) (hfirst : Begins e)
    (h : ∀ m, Feeds m (stops (e.level + 1)) (ruleAt (.levels m) (e.level + 1))
      (loopAt (.levels m) e.level) e (e.foldsAt e.level)) :
    Ready e := by
  have htop (m : Nat) :
      Reads m (stops e.level) (ruleAt (.levels m) e.level) e.nesting e.tokens (·.Same e) := by
    rw [ruleAt_eq_chain _ hfold]
    exact (h m).reads (fun _ => stops_succ) (foldsAt_le_nesting _ e) (loops_end _ hfold e)
  refine ⟨hfirst, fun m level hle => reads_of_le hfirst (htop m) hle, fun m level _ hle => ?_⟩
  by_cases heq : e.level = level
  · subst heq
    exact h m
  · have hnone : e.foldsAt level = 0 := if_neg heq
    rw [hnone]
    exact feeds_of_reads (reads_of_le hfirst (htop m) (by omega))

/-- A ready expression stands wherever one is read a level deeper. -/
theorem Ready.expr (h : Ready e) (m : Nat) :
    Reads m (stops 0) (Rules.levels m).expr (e.nesting + 1) e.tokens (·.Same e) := by
  cases m with
  | zero => exact reads_zero _ _
  | succ m => exact (h.reads m 0 (Nat.zero_le _)).nested

theorem Ready.operand (h : Ready e) (hlevel : 12 ≤ e.level) (m : Nat) :
    Reads m (stops 12) (Rules.levels m).operand (e.nesting + 1) e.tokens (·.Same e) := by
  cases m with
  | zero => exact reads_zero _ _
  | succ m => exact (h.reads m 12 hlevel).nested

end CarvFront.Grammar
