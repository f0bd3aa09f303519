import CarvFront.Proofs.Nesting
import CarvFront.Proofs.Combinators

/-! Where every text with holes is complete, parsers never find one that is not, however much else
is wrong. -/
namespace CarvFront

/-- Whether a token may stand right behind another: behind the text in front of a hole only that
hole, and behind a hole only text. -/
def Kind.leadsTo : Kind → Kind → Bool
  | .stringStart _, k | .stringPart _, k => k = .holeStart
  | .holeEnd, .stringPart _ | .holeEnd, .stringEnd _ => true
  | .holeEnd, _ => false
  | _, _ => true

/-- Every token is followed by one that may stand behind it, the last one by the end. -/
def linked : List Kind → Bool
  | [] => true
  | k :: ks => k.leadsTo (ks.headD .eof) && linked ks

theorem linked_cons {k : Kind} {ks : List Kind} :
    linked (k :: ks) = true ↔ k.leadsTo (ks.headD .eof) = true ∧ linked ks = true :=
  Bool.and_eq_true_iff

/-! ### Trees are linked -/

theorem Kind.leadsTo_of_isPlain {k : Kind} (h : k.isPlain = true) (k' : Kind) :
    k.leadsTo k' = true := by
  cases k with
  | stringStart | stringPart | stringEnd | holeStart | holeEnd | eof => cases h
  | _ => rfl

theorem Holes.headD_kinds (hs : Holes) (ks : List Kind) :
    (hs.kinds ++ ks).headD .eof = .holeStart := by
  cases hs <;> rfl

mutual

theorem TokenTree.linked_kinds (t : TokenTree) {ks : List Kind} (h : linked ks = true) :
    linked (t.kinds ++ ks) = true := by
  cases t with
  | plain k hk => exact linked_cons.mpr ⟨Kind.leadsTo_of_isPlain hk _, h⟩
  | text start hs =>
    rw [TokenTree.kinds, List.cons_append, linked_cons, hs.headD_kinds]
    exact ⟨rfl, hs.linked_kinds h⟩

theorem Forest.linked_kinds (f : Forest) {ks : List Kind} (h : linked ks = true) :
    linked (f.kinds ++ ks) = true := by
  cases f with
  | nil => exact h
  | cons t f =>
    rw [Forest.kinds, List.append_assoc]
    exact t.linked_kinds (f.linked_kinds h)

theorem Holes.linked_kinds (hs : Holes) {ks : List Kind} (h : linked ks = true) :
    linked (hs.kinds ++ ks) = true := by
  cases hs with
  | last hole stop =>
    have hstop : linked (.holeEnd :: .stringEnd stop :: ks) = true :=
      linked_cons.mpr ⟨rfl, linked_cons.mpr ⟨rfl, h⟩⟩
    rw [Holes.kinds, List.cons_append, List.cons_append, List.append_assoc, linked_cons]
    exact ⟨rfl, hole.linked_kinds hstop⟩
  | more hole part rest =>
    have hpart : linked (.stringPart part :: (rest.kinds ++ ks)) = true := by
      rw [linked_cons, rest.headD_kinds]
      exact ⟨rfl, rest.linked_kinds h⟩
    rw [Holes.kinds, List.cons_append, List.cons_append, List.append_assoc, linked_cons]
    exact ⟨rfl, hole.linked_kinds (linked_cons.mpr ⟨rfl, hpart⟩)⟩

end

/-! ### Parsers on linked tokens -/

theorem linked_of_suffix {as bs : List Kind} (h : as <:+ bs) (hbs : linked bs = true) :
    linked as = true := by
  induction bs with
  | nil => rwa [List.suffix_nil.mp h]
  | cons b bs ih =>
    rcases List.suffix_cons_iff.mp h with rfl | h
    · exact hbs
    · exact ih h (linked_cons.mp hbs).2

/-- Reading went on from `c` to `c'`: there are no more tokens than before, they are still linked,
and no text was found broken. -/
structure Cursor.Intact (c c' : Cursor) : Prop where
  linked : linked c'.kinds = true
  length : c'.rest.length ≤ c.rest.length
  faults : ∀ f ∈ c'.faults, f ∈ c.faults ∨ f.error.brokenText = false

namespace Cursor.Intact
variable {c : Cursor}

theorem refl (h : CarvFront.linked c.kinds = true) : c.Intact c :=
  ⟨h, Nat.le_refl _, fun _ hf => .inl hf⟩

theorem trans {a b : Cursor} (h : a.Intact b) (h' : b.Intact c) : a.Intact c := by
  refine ⟨h'.linked, Nat.le_trans h'.length h.length, fun f hf => ?_⟩
  rcases h'.faults f hf with hf | hf
  · exact h.faults f hf
  · exact .inr hf

theorem report (h : CarvFront.linked c.kinds = true) {e : SyntaxError} (he : e.brokenText = false) :
    c.Intact (c.report e) := by
  refine ⟨h, Nat.le_refl _, fun f hf => ?_⟩
  rcases List.mem_append.mp hf with hf | hf
  · exact .inl hf
  · rw [List.mem_singleton.mp hf]
    exact .inr he

theorem next (h : CarvFront.linked c.kinds = true) : c.Intact c.next := by
  obtain ⟨_ | ⟨t, ts⟩, prev, depth, faults⟩ := c
  · exact .refl h
  · exact ⟨(linked_cons.mp h).2, Nat.le_succ _, fun f hf => .inl hf⟩

theorem recover (h : CarvFront.linked c.kinds = true) : c.Intact c.recover := by
  have hsuffix := skipTo_suffix false c.rest c.prev
  exact ⟨linked_of_suffix (hsuffix.map _) h, hsuffix.length_le, fun f hf => .inl hf⟩

end Cursor.Intact

namespace Parser
variable {α β : Type}

/-- On linked tokens no text is found broken. -/
def KeepsTexts ⦃α : Type⦄ (p : Parser α) : Prop :=
  ∀ c : Cursor, linked c.kinds = true → c.Intact (p c).2

theorem keepsTexts_become (s : Symbol) : KeepsTexts (become (.sym s)) := by
  rintro ⟨_ | ⟨t, ts⟩, prev, depth, faults⟩ hc
  · exact .refl hc
  · refine ⟨linked_cons.mpr ⟨rfl, (linked_cons.mp hc).2⟩, Nat.le_refl _, fun f hf => .inl hf⟩

theorem intact_course : Course fun c c' => linked c.kinds = true → c.Intact c' where
  refl _ := .refl
  trans h h' hc := (h hc).trans (h' (h hc).linked)
  report _ he _ hc := .report hc he
  next _ := .next
  become s _ := keepsTexts_become s
  inside h hc := { h hc with }
  recover _ := .recover

theorem keepsTexts_steps : Steps KeepsTexts :=
  intact_course.steps

theorem snd_bind_pure (p : Parser α) (g : α → β) (c : Cursor) :
    ((p >>= fun a => pure (g a)) c).2 = (p c).2 := by
  rcases h : p c with ⟨_ | a, c'⟩
  · rw [bind_of_none h]
  · rw [bind_of_some h]
    rfl

/-- Behind a token that is not the end comes one that may stand there. -/
theorem leadsTo_next {c : Cursor} (hc : linked c.kinds = true) (hend : c.kind ≠ .eof) :
    c.kind.leadsTo c.next.kind = true ∧ c.next.rest.length < c.rest.length := by
  obtain ⟨_ | ⟨t, ts⟩, prev, depth, faults⟩ := c
  · exact absurd rfl hend
  · have hlead := (linked_cons.mp hc).1
    rw [show (ts.map Token.kind).headD .eof = (⟨ts, t.span, depth, faults⟩ : Cursor).kind from
      Cursor.headD_kinds ⟨ts, t.span, depth, faults⟩] at hlead
    exact ⟨hlead, Nat.lt_succ_self _⟩

end Parser

namespace Grammar
open CarvFront.Parser

/-- The holes of a text are all there. -/
theorem intact_holesWithin {r : Rules} (hr : KeepsTexts r.expr) (n : Nat) (c : Cursor)
    (hc : linked c.kinds = true) (hkind : c.kind = .holeStart) (hfuel : c.rest.length ≤ n) :
    c.Intact (holesWithin r n c).2 := by
  induction n generalizing c with
  | zero =>
    obtain ⟨hlead, hlt⟩ := leadsTo_next hc (hkind ▸ nofun)
    omega
  | succ n ih =>
    obtain ⟨-, hlt⟩ := leadsTo_next hc (hkind ▸ nofun)
    have hnext := Cursor.Intact.next hc
    rw [holesWithin, bind_of_some (expect_of_kind hkind)]
    have hexpr := hr c.next hnext.linked
    rcases hres : r.expr c.next with ⟨_ | e, c₁⟩ <;> rw [hres] at hexpr
    · rw [bind_of_none hres]
      exact hnext.trans hexpr
    rw [bind_of_some hres]
    have hlength : c₁.rest.length ≤ c.next.rest.length := hexpr.length
    refine (hnext.trans hexpr).trans ?_
    by_cases hend : c₁.kind = .holeEnd
    · obtain ⟨hlead, hlt₁⟩ := leadsTo_next hexpr.linked (hend ▸ nofun)
      have hnext₁ := Cursor.Intact.next hexpr.linked
      have hpeek : peek c₁.next = (some c₁.next.kind, c₁.next) := rfl
      rw [bind_of_some (expect_of_kind hend), bind_of_some hpeek]
      rw [hend] at hlead
      refine hnext₁.trans ?_
      cases hkind₂ : c₁.next.kind with
      | stringPart s =>
        obtain ⟨hlead₂, hlt₂⟩ := leadsTo_next hnext₁.linked (hkind₂ ▸ nofun)
        have hnext₂ := Cursor.Intact.next hnext₁.linked
        rw [hkind₂] at hlead₂
        have hrest := ih c₁.next.next hnext₂.linked (of_decide_eq_true hlead₂)
          (by dsimp only at hlt₁ hlt₂; omega)
        have hstep : next c₁.next = (some c₁.next.span, c₁.next.next) := rfl
        dsimp only
        rw [bind_of_some hstep, snd_bind_pure]
        exact hnext₂.trans hrest
      | stringEnd s => exact .next hnext₁.linked
      | _ => rw [hkind₂] at hlead; cases hlead
    · rw [bind_of_none (expect_of_other hend)]
      exact .report hexpr.linked rfl

theorem keepsTexts_text {r : Rules} (hr : KeepsTexts r.expr) (s : String) :
    KeepsTexts (onlyAt (.stringStart s) (atom r (.stringStart s))) := by
  intro c hc
  unfold onlyAt
  split
  · next hkind =>
    obtain ⟨hlead, -⟩ := leadsTo_next hc (hkind ▸ nofun)
    have hnext := Cursor.Intact.next hc
    rw [hkind] at hlead
    have hholes := intact_holesWithin hr c.next.rest.length c.next hnext.linked
      (of_decide_eq_true hlead) (Nat.le_refl _)
    have heq : atom r (.stringStart s) c = (holesWithin r c.next.rest.length >>= fun parts =>
        pure fun span => Expr.interp span (textPart s ++ parts)) c.next := rfl
    rw [heq, snd_bind_pure]
    exact hnext.trans hholes
  · exact .report hc rfl

theorem keepsTexts_closed : Closed (Alone KeepsTexts) :=
  ⟨keepsTexts_steps.paired, keepsTexts_text⟩

end Grammar

/-- A program of linked tokens may have faults, but no broken text. -/
theorem Program.brokenText_ofTokens {ts : List Token} (h : linked (ts.map Token.kind) = true)
    {f : Fault} (hf : f ∈ (Program.ofTokens ts).2) : f.error.brokenText = false := by
  have hstmts := Grammar.closed_statement Grammar.keepsTexts_closed
    (Grammar.closed_levels Grammar.keepsTexts_closed (maxNesting + 1))
  have hall := Parser.intact_course.allWithin (fun _ => false) hstmts ts.length (.start ts) h
  rcases hall.faults f hf with hf | hf
  · cases hf
  · exact hf

/-- The tokens of a text without faults are a forest of plain tokens and complete texts with holes,
in each hole the braces match, and parsing them never misses the opening of a hole or the text
behind one. -/
theorem Token.scan_nested (text : String) (hnone : (Token.scan text).2 = []) :
    (∃ f : Forest, (Token.scan text).1.map Token.kind = f.kinds ++ [.eof] ∧ f.balanced = true) ∧
      ∀ fault ∈ (Program.ofTokens (Token.scan text).1).2, ∀ got,
        fault.error ≠ .expected (.token .holeStart) got ∧
          fault.error ≠ .expected .stringEnd got := by
  obtain ⟨ks, hks, hcompletes⟩ := (Scanner.start text).completes_run hnone
  cases hcompletes with
  | @top f hf =>
    refine ⟨⟨f, hks, hf⟩, fun fault hfault got => ?_⟩
    have hlinked : linked ((Token.scan text).1.map Token.kind) = true := by
      refine hks ▸ f.linked_kinds (linked_cons.mpr ⟨rfl, rfl⟩)
    have hbroken := Program.brokenText_ofTokens hlinked hfault
    constructor <;> (intro heq; rw [heq] at hbroken; cases hbroken)

/-- A text in a hole of a text, with braces and a comment between them, and a statement that is cut
off. -/
def nestedText : String :=
  "let s = \"a$\x7b \x7b1: \"x$\x7by\x7dz\" /* \x7d */ \x7d \x7d b $\x7bc\x7d\";" ++
    " let = \"$\x7b1\x7d\""

theorem Token.scan_nested_nestedText :
    (Token.scan nestedText).2 = [] ∧
    (∃ f : Forest, (Token.scan nestedText).1.map Token.kind = f.kinds ++ [.eof] ∧
      f.balanced = true) ∧
    ∀ fault ∈ (Program.ofTokens (Token.scan nestedText).1).2, ∀ got,
      fault.error ≠ .expected (.token .holeStart) got ∧ fault.error ≠ .expected .stringEnd got := by
  have hnone : (Token.scan nestedText).2 = [] := by decide +kernel
  exact ⟨hnone, Token.scan_nested nestedText hnone⟩

end CarvFront
