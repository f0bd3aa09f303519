import CarvFront.Proofs.Scripts

/-! Levels are left as often as they are entered, whether something is read or not. A chain of
calls, operators or pipes enters a level for each link and leaves them all at its end; it is the same
to count the links and to leave as many levels at once. -/
namespace CarvFront

/-- Leave some levels at once. -/
def Cursor.leave (c : Cursor) (levels : Nat) : Cursor :=
  { c with depth := c.depth - levels }

theorem Cursor.leave_leave (c : Cursor) (k l : Nat) : (c.leave k).leave l = c.leave (k + l) := by
  simp [leave, Nat.sub_sub]

namespace Parser
variable {α : Type}

/-! ### Chains that are counted -/

/-- Enter a level and stay there. Beyond the limit that is a failure. -/
def enter : Parser Unit := fun c =>
  if maxNesting < c.depth + 1 then fail .nestingLimit c
  else (some (), { c with depth := c.depth + 1 })

/-- At most `n` links behind the beginning of a chain, where `folded` levels are entered already.
Each link enters a level more, and none is left. `link` tells whether there is another link and how
to read it. -/
def foldWithin (link : α → Parser (Option (Parser α))) :
    Nat → Nat → α → Cursor → (Option α × Cursor) × Nat
  | 0, folded, a, c => ((some a, c), folded)
  | n + 1, folded, a, c =>
    match link a c with
    | (none, c₁) => ((none, c₁), folded)
    | (some none, c₁) => ((some a, c₁), folded)
    | (some (some more), c₁) =>
      match enter c₁ with
      | (none, c₂) => ((none, c₂), folded)
      | (some _, c₂) =>
        match more c₂ with
        | (none, c₃) => ((none, c₃), folded + 1)
        | (some longer, c₃) => foldWithin link n (folded + 1) longer c₃

/-- `F` reads the links of chains one inside the other. -/
structure IsChain (link : α → Parser (Option (Parser α))) (F : Nat → α → Parser α) : Prop where
  zero (a : α) : F 0 a = pure a
  succ (n : Nat) (a : α) :
    F (n + 1) a = link a >>= fun more => more.elim (pure a) fun more => nested (more >>= F n)

section
variable {link : α → Parser (Option (Parser α))} {F : Nat → α → Parser α}

/-- Leaving levels one by one, the innermost first, is leaving as many at once. -/
theorem IsChain.eq_foldWithin (h : IsChain link F) (n folded : Nat) (a : α) (c : Cursor) :
    folded ≤ (foldWithin link n folded a c).2 ∧
      F n a c = ((foldWithin link n folded a c).1.1,
        (foldWithin link n folded a c).1.2.leave ((foldWithin link n folded a c).2 - folded)) := by
  -- where the chain ends or breaks off before a level is entered, there is none to leave
  have hstay {k : Nat} (res : Option α × Cursor) : k ≤ k ∧ res = (res.1, res.2.leave (k - k)) :=
    ⟨Nat.le_refl k, by rw [Nat.sub_self]; rfl⟩
  induction n generalizing folded a c with
  | zero =>
    rw [h.zero]
    exact hstay (some a, c)
  | succ n ih =>
    rw [h.succ, foldWithin]
    rcases hlink : link a c with ⟨_ | _ | more, c₁⟩
    · rw [bind_of_none hlink]
      exact hstay (none, c₁)
    · rw [bind_of_some hlink]
      exact hstay (some a, c₁)
    rw [bind_of_some hlink, Option.elim_some, nested]
    dsimp only [enter]
    by_cases hlimit : maxNesting < c₁.depth + 1
    · rw [if_pos hlimit, if_pos hlimit]
      exact hstay (none, _)
    rw [if_neg hlimit, if_neg hlimit]
    dsimp only
    rcases hmore : more { c₁ with depth := c₁.depth + 1 } with ⟨_ | longer, c₃⟩
    · -- the link itself fails, one level deeper than the chain before it
      rw [bind_of_none hmore]
      refine ⟨Nat.le_succ _, ?_⟩
      rw [Nat.add_sub_cancel_left]
      rfl
    · obtain ⟨hle, heq⟩ := ih (folded + 1) longer c₃
      rw [bind_of_some hmore, heq]
      refine ⟨Nat.le_of_succ_le hle, ?_⟩
      dsimp only
      generalize foldWithin link n (folded + 1) longer c₃ = out at hle ⊢
      change (out.1.1, (out.1.2.leave _).leave 1) = (out.1.1, out.1.2.leave (out.2 - folded))
      rw [Cursor.leave_leave]
      congr 2
      omega

/-- A link is found and read without changing the depth. -/
structure Flat (link : α → Parser (Option (Parser α))) : Prop where
  found (a : α) (c : Cursor) : (link a c).2.depth = c.depth
  read {a : α} {c c' : Cursor} {more : Parser α} (h : link a c = (some (some more), c'))
    (d : Cursor) : (more d).2.depth = d.depth

/-- The levels that were entered are those that are counted, wherever the chain breaks off. -/
theorem Flat.depth_foldWithin (h : Flat link) (n folded : Nat) (a : α) (c : Cursor) :
    Deeper folded c (foldWithin link n folded a c).2 (foldWithin link n folded a c).1.2 := by
  induction n generalizing folded a c with
  | zero => exact .refl folded c
  | succ n ih =>
    have hfound := h.found a c
    rw [foldWithin]
    rcases hlink : link a c with ⟨_ | _ | more, c₁⟩ <;> rw [hlink] at hfound
    · exact (Deeper.refl folded c₁).of_depth hfound
    · exact (Deeper.refl folded c₁).of_depth hfound
    dsimp only [enter]
    by_cases hlimit : maxNesting < c₁.depth + 1
    · rw [if_pos hlimit]
      exact (Deeper.refl folded (c₁.report _)).of_depth hfound
    rw [if_neg hlimit]
    dsimp only
    have hread := h.read hlink { c₁ with depth := c₁.depth + 1 }
    rcases hmore : more { c₁ with depth := c₁.depth + 1 } with ⟨_ | longer, c₃⟩ <;>
      rw [hmore] at hread
    all_goals
      refine Deeper.of_depth ?_ hfound
      refine (Deeper.enter folded hlimit).trans (Deeper.of_depth ?_ hread)
    · exact .refl _ _
    · exact ih (folded + 1) longer c₃

/-- `F` reads chains as if links were counted and levels left at once. Where it breaks off, it has
entered as many levels as it has counted, so leaving them cuts nothing off. -/
structure Counted (link : α → Parser (Option (Parser α))) (F : Nat → α → Parser α) : Prop where
  bulk (n : Nat) (a : α) (c : Cursor) :
    F n a c = ((foldWithin link n 0 a c).1.1,
      (foldWithin link n 0 a c).1.2.leave (foldWithin link n 0 a c).2)
  entered (n : Nat) (a : α) (c : Cursor) :
    (foldWithin link n 0 a c).1.2.depth = c.depth + (foldWithin link n 0 a c).2
  limit (n : Nat) (a : α) {c : Cursor} (hc : c.depth ≤ maxNesting) :
    (foldWithin link n 0 a c).1.2.depth ≤ maxNesting

theorem IsChain.counted (h : IsChain link F) (hflat : Flat link) : Counted link F where
  bulk n a c := (h.eq_foldWithin n 0 a c).2
  entered n a c := (hflat.depth_foldWithin n 0 a c).depth
  limit n a c hc := (hflat.depth_foldWithin n 0 a c).limit hc

end

/-! ### What is kept while a parser runs -/

/-- Levels are counted right while a parser runs. -/
structure Balanced (p : Parser α) : Prop where
  /-- Whether it gives something or not, it leaves the levels that it enters. -/
  depth (c : Cursor) : (p c).2.depth = c.depth
  scripted : Scripted p
  /-- Whatever is started while it runs is as much deeper as it is nested, and within the limit. -/
  start {s : Script α} (hs : s.Writes p) {c : Cursor} (hc : c.depth ≤ maxNesting) {k : Nat}
    {c' : Cursor} (h : .start k c' ∈ (s.trace 0 c).events) :
    c'.depth = c.depth + k ∧ c'.depth ≤ maxNesting
  /-- In a list, the items behind one that failed are read at the same depth as those before it. -/
  turns {stop : Kind → Bool} {c last : Cursor} {as : List α} (h : Turns stop p c as last) :
    last.depth = c.depth

theorem Scripted.depth {p : Parser α} (hp : Scripted p) (c : Cursor) : (p c).2.depth = c.depth := by
  obtain ⟨s, hs⟩ := hp
  rw [← hs 0 c]
  exact s.depth_trace 0 c

theorem Scripted.balanced {p : Parser α} (hp : Scripted p) : Balanced p where
  depth := hp.depth
  scripted := hp
  start := by
    intro s _ c hc k c' h
    have hdeeper := s.deeper_of_start h
    exact ⟨hdeeper.depth, hdeeper.limit hc⟩
  turns h := by
    induction h with
    | nil c => rfl
    | @read c c' last a as hc ha hlt _ ih =>
      have hdepth := hp.depth c
      rw [ha] at hdepth
      exact ih.trans hdepth
    | @skip c c' last as hc hnone hlt _ ih =>
      have hdepth := hp.depth c
      rw [hnone] at hdepth
      exact ih.trans hdepth

end Parser
end CarvFront

namespace CarvFront.Grammar
open CarvFront.Parser
variable (r : Rules)

/-! ### The links of chains -/

/-- The pipe behind an expression. -/
def nextPipe (e : Expr) : Parser (Option (Parser Expr)) := do
  if ← eat (.sym .pipeGt) then
    pure (some do
      let right ← binary r levels
      pure (.pipe (e.span.merge right.span) e right))
  else pure none

/-- An operator behind an expression. -/
def operatorLink (ops : List (Symbol × BinOp)) (operand : Parser Expr) (e : Expr) (got : Kind) :
    Option (Parser Expr) :=
  (operator? ops got).map fun op => do
    let _ ← next
    let right ← operand
    pure (.binary (e.span.merge right.span) op e right)

/-- A call, member or index behind an expression. -/
def postfixLink (e : Expr) : Kind → Option (Parser Expr)
  | .sym .dot => some do
    let _ ← next
    let name ← memberName
    pure (.member (e.span.merge name.span) e name)
  | .sym .lbracket => some do
    let _ ← next
    let index ← r.expr
    sym .rbracket
    let stop ← before
    pure (.index (e.span.merge stop) e index)
  | .sym .lparen => some do
    let _ ← next
    let args ← items .rparen r.expr
    let stop ← before
    pure (.call (e.span.merge stop) e args)
  | _ => none

/-- The link that the token here begins. -/
def linkHere (link : Expr → Kind → Option (Parser Expr)) (e : Expr) :
    Parser (Option (Parser Expr)) := do
  let got ← peek
  pure (link e got)

theorem isChain_pipeWithin : IsChain (nextPipe r) (pipeWithin r) where
  zero _ := rfl
  succ n e := by
    rw [pipeWithin, nextPipe, bind_assoc]
    congr 1
    funext found
    cases found
    · rfl
    · simp

theorem isChain_binaryWithin (ops : List (Symbol × BinOp)) (operand : Parser Expr) :
    IsChain (linkHere (operatorLink ops operand)) (binaryWithin ops operand) where
  zero _ := rfl
  succ n e := by
    rw [binaryWithin, linkHere, bind_assoc]
    congr 1
    funext got
    rw [pure_bind, operatorLink]
    cases operator? ops got
    · rfl
    · simp

theorem isChain_postfixWithin : IsChain (linkHere (postfixLink r)) (postfixWithin r) where
  zero _ := rfl
  succ n e := by
    rw [postfixWithin, linkHere, bind_assoc]
    congr 1
    funext got
    rw [pure_bind]
    split
    · simp [postfixLink]
    · simp [postfixLink]
    · simp [postfixLink]
    · rw [postfixLink]
      · rfl
      all_goals assumption

variable {r}

theorem flat_nextPipe (hbinary : Scripted (binary r levels)) : Flat (nextPipe r) where
  found e := by
    refine (scripted_steps.seq (scripted_steps.eat _) fun found => ?_ : Scripted _).depth
    split <;> exact scripted_steps.pure _
  read {e c c' more} h := by
    rcases heat : eat (.sym .pipeGt) c with ⟨_ | found, c₁⟩
    · rw [nextPipe, bind_of_none heat] at h
      cases h
    · rw [nextPipe, bind_of_some heat] at h
      cases found <;> cases h
      exact (scripted_steps.seq hbinary fun _ => scripted_steps.pure _).depth

theorem flat_linkHere {link : Expr → Kind → Option (Parser Expr)}
    (hlink : ∀ {e k more}, link e k = some more → Scripted more) : Flat (linkHere link) where
  found e c := rfl
  read {e c c' more} h := by
    have hpeek : peek c = (some c.kind, c) := rfl
    rw [linkHere, bind_of_some hpeek] at h
    exact (hlink (Option.some.inj (congrArg Prod.fst h))).depth

theorem scripted_operatorLink {ops : List (Symbol × BinOp)} {operand : Parser Expr}
    (hoperand : Scripted operand) {e : Expr} {k : Kind} {more : Parser Expr}
    (h : operatorLink ops operand e k = some more) : Scripted more := by
  have hs := scripted_steps
  obtain ⟨op, -, rfl⟩ := Option.map_eq_some_iff.mp h
  exact hs.seq hs.next fun _ => hs.seq hoperand fun _ => hs.pure _

theorem scripted_postfixLink (hexpr : Scripted r.expr) {e : Expr} {k : Kind} {more : Parser Expr}
    (h : postfixLink r e k = some more) : Scripted more := by
  have hs := scripted_steps
  unfold postfixLink at h
  split at h <;> cases h
  · exact hs.seq hs.next fun _ => hs.seq hs.memberName fun _ => hs.pure _
  · refine hs.seq hs.next fun _ => hs.seq hexpr fun _ => hs.seq (hs.sym _) fun _ => ?_
    exact hs.seq hs.before fun _ => hs.pure _
  · refine hs.seq hs.next fun _ => hs.seq (hs.items _ hexpr) fun _ => ?_
    exact hs.seq hs.before fun _ => hs.pure _

/-- The chains of the grammar are counted. -/
structure ChainsCounted (r : Rules) : Prop where
  pipes : Counted (nextPipe r) (pipeWithin r)
  operators (ops : List (Symbol × BinOp)) (tighter : List (List (Symbol × BinOp))) :
    Counted (linkHere (operatorLink ops (binary r tighter))) (binaryWithin ops (binary r tighter))
  postfixes : Counted (linkHere (postfixLink r)) (postfixWithin r)

/-- However many levels are left, every parser of the grammar leaves the levels that it enters and
starts nothing beyond the limit, and its chains may be left at once. -/
theorem nesting_balanced (n : Nat) :
    (∀ {α : Type} {p : Parser α}, Production (Rules.levels n) p → Balanced p) ∧
      ChainsCounted (Rules.levels n) := by
  have hbinary (ls : List (List (Symbol × BinOp))) : Scripted (binary (Rules.levels n) ls) :=
    (Production.binary ls).scripted
  refine ⟨fun hp => hp.scripted.balanced, ?_, fun ops tighter => ?_, ?_⟩
  · exact (isChain_pipeWithin _).counted (flat_nextPipe (hbinary levels))
  · refine (isChain_binaryWithin ops _).counted (flat_linkHere ?_)
    exact scripted_operatorLink (hbinary tighter)
  · refine (isChain_postfixWithin _).counted (flat_linkHere ?_)
    exact scripted_postfixLink Production.expr.scripted

/-- Of 65 members behind an expression the limit allows 64. -/
theorem nesting_balanced_members :
    let members := (List.replicate 65 [Kind.sym .dot, .ident "x"]).flatten
    let c : Cursor := .start (members.map fun k => ⟨k, .point .first⟩)
    let e : Expr := .nil (.point .first)
    Production rules (postfixWithin rules 65 e) ∧ (postfixWithin rules 65 e c).1.isNone = true ∧
      (foldWithin (linkHere (postfixLink rules)) 65 0 e c).2 = 64 ∧
      (postfixWithin rules 65 e c).2.depth = 0 := by
  intro members c e
  have hchain : Production rules (postfixWithin rules 65 e) := .calls 65 e
  have hbalanced : Balanced (postfixWithin rules 65 e) := (nesting_balanced _).1 hchain
  exact ⟨hchain, by decide +kernel, by decide +kernel, hbalanced.depth c⟩

end CarvFront.Grammar
