import CarvFront.Proofs.CleanCode

/-! A statement that is cut short by the brace of its block takes the brace along. Recovery always
goes past a token, and where the statement stopped the next one is the brace, so the block goes on
with what stands behind it. -/
namespace CarvFront
open CarvFront.Parser CarvFront.Grammar

/-- As the body of a block, the tokens are read to their end, and nothing is wrong with them. -/
def Body (ts : List Token) : Prop :=
  (rules.stmts (.start ts)).2.rest = [] ∧ (rules.stmts (.start ts)).2.faults = []

instance (ts : List Token) : Decidable (Body ts) :=
  inferInstanceAs (Decidable (_ ∧ _))

theorem Body.clean {ts : List Token} (h : Body ts) :
    ∃ as, Clean (· = .sym .rbrace) maxNesting 1 ts as := by
  obtain ⟨hturns, -⟩ := turns_allWithin (· = .sym .rbrace)
    (taking_statement law_inside (obey_levels law_inside maxNesting)) ts.length
    ⟨ts, .point .first, 1, []⟩ (Nat.le_refl _)
  exact ⟨_, _, _, hturns, h.1, h.2⟩

namespace Grammar
variable {r : Rules} {n : Nat} {c last : Cursor} {as : List Stmt} {ts : List Token}

theorem sym_of_eof (s : Symbol) (hc : c.kind = .eof) :
    sym s c = (none, c.report (.expected (.token (.sym s)) .eof)) := by
  have hother : c.kind ≠ .sym s := by
    rw [hc]
    nofun
  rw [sym, bind_of_none (expect_of_other hother), hc]

theorem stmts_of_turns (hdepth : c.depth < maxNesting) (h : Turns (· = .sym .rbrace)
    (statement (.levels n)) { c with depth := c.depth + 1 } as last)
    (hend : ¬GoesOn (· = .sym .rbrace) last) :
    (Rules.levels (n + 1)).stmts c = (some as, { last with depth := last.depth - 1 }) := by
  have hall : allInBraces (statement (.levels n)) { c with depth := c.depth + 1 } =
      (some as, last) := by
    rw [allInBraces, all, h.eq_allWithin hend (Nat.le_refl _)]
  change nested (allInBraces (statement (.levels n))) c = _
  rw [nested, if_neg (Nat.not_lt_of_le hdepth), hall]

/-- A block with statements up to the end is not closed. -/
theorem statement_of_unclosed {start : Span} (hc : c.rest = ⟨.sym .lbrace, start⟩ :: ts)
    (hdepth : c.depth < maxNesting) (h : Turns (· = .sym .rbrace) (statement (.levels n))
      ⟨ts, start, c.depth + 1, c.faults⟩ as last) (hlast : last.kind = .eof) :
    ∃ c', statement (.levels (n + 1)) c = (none, c') ∧ c'.rest = last.rest ∧
      c'.faults = last.faults ++ [⟨.expected (.token (.sym .rbrace)) .eof, last.span⟩] := by
  obtain ⟨_, prev, depth, faults⟩ := c
  cases hc
  have hstmts := stmts_of_turns (c := ⟨ts, start, depth, faults⟩) hdepth h
    fun hgo => hgo.ne_eof hlast
  have hsym := sym_of_eof .rbrace (c := { last with depth := last.depth - 1 }) hlast
  have hblock : block (.levels (n + 1)) ⟨⟨.sym .lbrace, start⟩ :: ts, prev, depth, faults⟩ = (none,
      { last with depth := last.depth - 1 }.report (.expected (.token (.sym .rbrace)) .eof)) := by
    change ((Rules.levels (n + 1)).stmts >>= fun stmts => sym .rbrace >>= fun _ => before >>=
      fun stop => pure (Block.mk (start.merge stop) stmts)) ⟨ts, start, depth, faults⟩ = _
    rw [bind_of_some hstmts, bind_of_none hsym]
  exact ⟨_, bind_of_none hblock fun b => pure (Stmt.block b), rfl, rfl⟩

/-- A binding with a brace in place of its name is skipped, and the brace with it. -/
theorem turns_cut {keyword close : Token} (hc : c.rest = keyword :: close :: ts)
    (hkeyword : keyword.kind = .word .letKw) (hclose : close.kind = .sym .rbrace)
    (hfaults : c.faults.length < maxErrors) :
    ∃ c', Turns (· = .sym .rbrace) (statement (.levels n)) c [] c' ∧ c'.rest = ts ∧
      c'.depth = c.depth ∧
      c'.faults = c.faults ++ [⟨.expected .identifier (.sym .rbrace), close.span⟩] := by
  obtain ⟨_, prev, depth, faults⟩ := c
  obtain ⟨_, start⟩ := keyword
  obtain ⟨_, stop⟩ := close
  cases hc
  cases hkeyword
  cases hclose
  have hgo : GoesOn (· = .sym .rbrace)
      ⟨⟨.word .letKw, start⟩ :: ⟨.sym .rbrace, stop⟩ :: ts, prev, depth, faults⟩ :=
    goesOn_of_kind rfl nofun hfaults
  have hnone : statement (.levels n)
      ⟨⟨.word .letKw, start⟩ :: ⟨.sym .rbrace, stop⟩ :: ts, prev, depth, faults⟩ =
      (none, ⟨⟨.sym .rbrace, stop⟩ :: ts, start, depth,
        faults ++ [⟨.expected .identifier (.sym .rbrace), stop⟩]⟩) := rfl
  have hlt := length_recover_lt (forward_statement n _) hgo.ne_eof hnone
  exact ⟨_, .skip hgo hnone hlt (.nil _), rfl, rfl, rfl⟩

end Grammar

/-- A block that is cut short in a binding does not end at its brace, and what is right behind it is
taken for the rest of the block. So the program has no statement, although only one is wrong. -/
theorem Program.ofTokens_cut_block {ts us : List Token} {opening keyword close eof : Token}
    (hopening : opening.kind = .sym .lbrace) (hts : Body ts)
    (hend : ∀ t ∈ ts.getLast?, t.kind = .sym .semicolon) (hkeyword : keyword.kind = .word .letKw)
    (hclose : close.kind = .sym .rbrace) (hus : Body us) (heof : eof.kind = .eof) :
    (Program.ofTokens (opening :: ts ++ keyword :: close :: us ++ [eof])).1.stmts = [] ∧
    (Program.ofTokens (opening :: ts ++ keyword :: close :: us ++ [eof])).2 =
      [⟨.expected .identifier (.sym .rbrace), close.span⟩,
        ⟨.expected (.token (.sym .rbrace)) .eof, eof.span⟩] := by
  obtain ⟨_, start⟩ := opening
  cases hopening
  obtain ⟨as, has⟩ := hts.clean
  obtain ⟨bs, hbs⟩ := hus.clean
  have hall : ts ++ keyword :: close :: us ++ [eof] =
      ts ++ (keyword :: close :: (us ++ [eof])) := by simp
  -- inside the block: what stands before the binding, the binding, and what stands behind the brace
  obtain ⟨c₁, hc₁, hrest₁, hdepth₁, hfaults₁⟩ := has.before_semicolon
    (d := ⟨ts ++ keyword :: close :: us ++ [eof], start, 1, []⟩) hend hall rfl
    (show 0 < maxErrors by decide)
  obtain ⟨c₂, hc₂, hrest₂, hdepth₂, hfaults₂⟩ := turns_cut (n := maxNesting) hrest₁ hkeyword hclose
    (hfaults₁ ▸ show 0 < maxErrors by decide)
  rw [hfaults₁, List.nil_append] at hfaults₂
  have hend₃ : firstKind [eof] = .eof := heof
  obtain ⟨c₃, hc₃, hrest₃, -, hfaults₃⟩ := hbs.before_end hend₃ hrest₂ (hdepth₂.trans hdepth₁)
    (hfaults₂ ▸ show 1 < maxErrors by decide)
  have hkind₃ : c₃.kind = .eof := by
    rw [c₃.kind_eq, hrest₃]
    exact heof
  have hspan₃ : c₃.span = eof.span := by
    rw [c₃.span_eq, hrest₃]
    rfl
  obtain ⟨c₄, hc₄, hrest₄, hfaults₄⟩ := statement_of_unclosed
    (c := .start (⟨.sym .lbrace, start⟩ :: ts ++ keyword :: close :: us ++ [eof])) rfl
    (show 0 < maxNesting by decide) ((hc₁.trans hc₂).trans hc₃) hkind₃
  have hgo : GoesOn (fun _ => false)
      (.start (⟨.sym .lbrace, start⟩ :: ts ++ keyword :: close :: us ++ [eof])) :=
    goesOn_of_kind rfl nofun (show 0 < maxErrors by decide)
  have hlt := length_recover_lt (forward_statement _ _) hgo.ne_eof hc₄
  have hkind₄ : c₄.recover.kind = .eof := by
    rw [Cursor.kind_eq, Cursor.recover, hrest₄, hrest₃, Cursor.skipTo, if_pos heof]
    exact heof
  obtain ⟨hstmts, hfaults⟩ := ofTokens_of_turns (.skip hgo hc₄ hlt (.nil _))
    fun hgo => hgo.ne_eof hkind₄
  refine ⟨hstmts, hfaults.trans (hfaults₄.trans ?_)⟩
  rw [hfaults₃, hfaults₂, hspan₃]
  rfl

/-- `{ x = 1; let } let y = 2;` -/
theorem Program.ofTokens_cut_block_between :
    let ts := (Token.scan "x = 1;").1.dropLast
    let us := (Token.scan "let y = 2;").1.dropLast
    let close : Token := ⟨.sym .rbrace, .point ⟨2, 1⟩⟩
    let eof : Token := ⟨.eof, .point ⟨3, 1⟩⟩
    let all : List Token :=
      ⟨.sym .lbrace, .point .first⟩ :: ts ++ ⟨.word .letKw, .point .first⟩ :: close :: us ++ [eof]
    ts.length = 4 ∧ us.length = 5 ∧ Body ts ∧ Body us ∧ (Program.ofTokens all).1.stmts = [] ∧
      (Program.ofTokens all).2 = [⟨.expected .identifier (.sym .rbrace), close.span⟩,
        ⟨.expected (.token (.sym .rbrace)) .eof, eof.span⟩] := by
  have hts : Body (Token.scan "x = 1;").1.dropLast := by decide +kernel
  have hus : Body (Token.scan "let y = 2;").1.dropLast := by decide +kernel
  refine ⟨by decide +kernel, by decide +kernel, hts, hus, ?_⟩
  exact Program.ofTokens_cut_block rfl hts (by decide +kernel) rfl rfl hus rfl

/-- The binding behind the block is right on its own and is lost. -/
theorem Program.stmts_behind_cut_block :
    let ts := (Token.scan "\x7b let \x7d let x = 1;").1
    (ts.take 3).map Token.kind = [.sym .lbrace, .word .letKw, .sym .rbrace] ∧
    (Program.ofTokens (ts.drop 3).dropLast).2 = [] ∧
    (Program.ofTokens (ts.drop 3).dropLast).1.stmts.length = 1 ∧
      (Program.ofTokens ts).1.stmts.length = 0 := by
  decide +kernel

end CarvFront
