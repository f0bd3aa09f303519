import CarvFront.Proofs.TokenTrees

/-! The tokens of a text without faults are well nested: each text with holes is complete, and in
each hole the braces match. -/
namespace CarvFront

namespace Scanner
variable {s : Scanner} {t : Token}

/-! ### Runs -/

/-- What holds of a scanner that stops, and of one whose next step leads to a scanner of which it
holds, holds of all scanners. -/
theorem run_induction {P : Scanner → Prop}
    (finish : ∀ s t last, s.step = .finish t last → P s)
    (emit : ∀ s t next, s.step = .emit t next → P next → P s) (s : Scanner) : P s := by
  have hwf : WellFounded fun a b : Scanner =>
      Prod.Lex (· < ·) (Prod.Lex (· < ·) (· < ·)) a.left b.left :=
    InvImage.wf left (Prod.lex Nat.lt_wfRel (Prod.lex Nat.lt_wfRel Nat.lt_wfRel)).wf
  induction s using hwf.induction with
  | _ s ih =>
    cases h : s.step with
    | finish t last => exact finish s t last h
    | emit t next => exact emit s t next h (ih next (left_step_lt h))

theorem run_of_finish {last : Scanner} (h : s.step = .finish t last) :
    s.run = ([t], last.faults) := by
  rw [run_eq, h]

theorem run_of_emit {next : Scanner} (h : s.step = .emit t next) :
    s.run = (t :: next.run.1, next.run.2) := by
  rw [run_eq, h]

/-- The faults known after a step. -/
def Step.faults : Step → List Fault
  | .emit _ next => next.faults
  | .finish _ last => last.faults

theorem faults_codeWithin (n : Nat) (s : Scanner) : s.faults <+: (codeWithin n s).faults := by
  induction n generalizing s with
  | zero => exact List.prefix_rfl
  | succ n ih =>
    have hskip : s.faults <+: s.skip.faults := List.prefix_append _ _
    refine hskip.trans ?_
    rw [codeWithin]
    split
    · exact List.prefix_rfl
    split
    · unfold close
      split
      · exact List.prefix_rfl
      · exact List.prefix_append _ _
    split
    · exact List.prefix_append _ _
    · exact List.IsPrefix.trans (List.prefix_append _ _) (ih (s.skip.reject _))

theorem faults_step (s : Scanner) : s.faults <+: s.step.faults := by
  unfold step
  split
  · exact List.prefix_rfl
  split
  · exact List.prefix_rfl
  split
  · exact List.prefix_append _ _
  · exact faults_codeWithin _ s

/-- Faults are only added. -/
theorem faults_run (s : Scanner) : s.faults <+: s.run.2 := by
  induction s using run_induction with
  | finish s t last h =>
    have hs := faults_step s
    rw [h] at hs
    rw [run_of_finish h]
    exact hs
  | emit s t next h ih =>
    have hs := faults_step s
    rw [h] at hs
    rw [run_of_emit h]
    exact hs.trans ih

/-- A character that starts no token is not forgotten. -/
theorem faults_code_reject (s : Scanner) (c : Char) : (s.reject c).code.faults ≠ [] := by
  have hne : (s.reject c).faults ≠ [] := List.append_ne_nil_of_right_ne_nil _ (by simp)
  intro hnone
  have hcode : (s.reject c).faults <+: (s.reject c).code.faults := faults_codeWithin _ _
  rw [hnone] at hcode
  exact hne (List.prefix_nil.mp hcode)

/-- A token outside strings, if nothing is wrong with it or in front of it. -/
theorem code_emit {next : Scanner} (h : s.code = .emit t next) (hnone : next.faults = []) :
    ∃ l, Lexeme.read? s.skip.reader = some l ∧ s.skip.accept l = .emit t next := by
  rw [code_eq] at h
  split at h
  · cases h
  split at h
  · cases h
  · next c _ _ =>
    split at h
    · next l hl => exact ⟨l, hl, h⟩
    · have hreject := faults_code_reject s.skip c
      rw [h] at hreject
      exact absurd hnone hreject

/-- A scan without faults ends outside all strings. -/
theorem code_finish {last : Scanner} (h : s.code = .finish t last) (hnone : last.faults = []) :
    t.kind = .eof ∧ s.modes = [] := by
  rw [code_eq] at h
  split at h
  · next hfull =>
    cases h
    simp [full, hnone, maxErrors] at hfull
  split at h
  · cases h
    refine ⟨rfl, ?_⟩
    unfold close at hnone
    split at hnone
    · next hempty => exact List.isEmpty_iff.mp hempty
    · exact absurd hnone (List.append_ne_nil_of_right_ne_nil _ (by simp))
  · next c _ _ =>
    split at h
    · cases h
    · have hreject := faults_code_reject s.skip c
      rw [h] at hreject
      exact absurd hnone hreject

end Scanner

theorem Kind.isPlain_ofName (name : String) : (Kind.ofName name).isPlain = true := by
  unfold Kind.ofName
  split <;> rfl

/-- A lexeme is a token that stands alone, or the start of a text with holes. -/
theorem Lexeme.kind_read? {r : Reader} {l : Lexeme} (h : Lexeme.read? r = some l) :
    l.kind.isPlain = true ∧ l.hole = none ∨
      ∃ s, l.kind = .stringStart s ∧ l.hole.isSome = true := by
  unfold Lexeme.read? at h
  split at h
  · cases h
  split at h
  · cases h
    unfold Lexeme.string
    dsimp only
    split
    · next hole => exact .inr ⟨_, rfl, hole⟩
    · next hole => exact .inl ⟨rfl, by simpa using hole⟩
  split at h
  · cases h
    left
    unfold Lexeme.char
    split
    · exact ⟨rfl, rfl⟩
    · dsimp only
      split <;> exact ⟨rfl, rfl⟩
  split at h
  · cases h
    left
    unfold Lexeme.number
    dsimp only
    split
    · exact ⟨rfl, rfl⟩
    · split <;> exact ⟨rfl, rfl⟩
  split at h
  · cases h
    exact .inl ⟨Kind.isPlain_ofName _, rfl⟩
  · rw [Option.map_eq_some_iff] at h
    obtain ⟨_, -, rfl⟩ := h
    exact .inl ⟨rfl, rfl⟩

/-- The text behind a hole ends its string, or goes up to another hole. -/
theorem Lexeme.kind_continuation (r : Reader) :
    (∃ s, (Lexeme.continuation r).kind = .stringEnd s ∧ (Lexeme.continuation r).hole = none) ∨
      ∃ s span, (Lexeme.continuation r).kind = .stringPart s ∧
        (Lexeme.continuation r).hole = some span := by
  unfold Lexeme.continuation
  dsimp only
  cases (TextRun.read r.pos r.rest r.pos).hole with
  | none => exact .inl ⟨_, rfl, rfl⟩
  | some span => exact .inr ⟨_, span, rfl, rfl⟩

/-! ### What is still to come -/

/-- The kinds that are still to come in the strings and holes `ms`, if all of them are closed. -/
inductive Completes : List Mode → List Kind → Prop
  | top {f : Forest} (hf : f.balanced = true) : Completes [] (f.kinds ++ [.eof])
  | hole {n : Nat} {outer : List Mode} {f : Forest} {ks : List Kind}
      (hn : openBraces n f.kinds = some 0) (hf : f.balanced = true)
      (h : Completes (.text :: outer) ks) :
      Completes (.hole n :: outer) (f.kinds ++ .holeEnd :: ks)
  | part {outer : List Mode} {ks : List Kind} (s : String) (h : Completes (.hole 0 :: outer) ks) :
      Completes (.text :: outer) (.stringPart s :: .holeStart :: ks)
  | stop {outer : List Mode} {ks : List Kind} (s : String) (h : Completes outer ks) :
      Completes (.text :: outer) (.stringEnd s :: ks)

namespace Completes
variable {ms : List Mode} {ks : List Kind}

/-- A tree in front of what is to come. -/
theorem cons {ms' : List Mode} {t : TokenTree} (ht : t.balanced = true)
    (hms : Mode.Carries ms t.kinds ms') (h : Completes ms' ks) : Completes ms (t.kinds ++ ks) := by
  cases hms with
  | top =>
    cases h with
    | top hf =>
      rw [← List.append_assoc]
      exact .top (f := .cons t _) (by rw [Forest.balanced, ht, hf]; rfl)
  | hole ht' outer =>
    cases h with
    | hole hn hf h =>
      rw [← List.append_assoc]
      refine .hole (f := .cons t _) ?_ (by rw [Forest.balanced, ht, hf]; rfl) h
      rw [Forest.kinds, openBraces_append, ht']
      exact hn

/-- What is to come at the start of a hole: the holes of its text, and then what is around it. -/
theorem holes {outer : List Mode} (h : Completes (.hole 0 :: outer) ks) :
    ∃ (hs : Holes) (rest : List Kind), .holeStart :: ks = hs.kinds ++ rest ∧ hs.balanced = true ∧
      Completes outer rest := by
  -- each hole of a text has fewer tokens behind it than the one before
  induction hlen : ks.length using Nat.strongRecOn generalizing ks with
  | ind len ih =>
    cases h with
    | @hole _ _ f _ hn hf h =>
      cases h with
      | @stop _ rest s h =>
        refine ⟨.last f s, rest, ?_, ?_, h⟩
        · simp [Holes.kinds]
        · simp [Holes.balanced, bracesMatch, hn, hf]
      | part s h =>
        simp only [List.length_append, List.length_cons] at hlen
        obtain ⟨hs, rest, hks, hb, hrest⟩ := ih _ (by omega) h rfl
        refine ⟨.more f s hs, rest, ?_, ?_, hrest⟩
        · simp [Holes.kinds, hks]
        · simp [Holes.balanced, bracesMatch, hn, hf, hb]

/-- A text with holes in front of what is to come. -/
theorem text (hms : ms.head? ≠ some .text) (s : String) (h : Completes (.hole 0 :: ms) ks) :
    Completes ms (.stringStart s :: .holeStart :: ks) := by
  obtain ⟨hs, rest, hks, hb, hrest⟩ := h.holes
  rw [hks]
  exact cons (t := .text s hs) hb (.text hms hb) hrest

/-- A plain token, which may be the brace that closes the hole around it. -/
theorem plain {k : Kind} (hk : k.isPlain = true) (hms : ms.head? ≠ some .text)
    (h : Completes (Scanner.surround k ms).2 ks) :
    Completes ms ((Scanner.surround k ms).1 :: ks) := by
  rcases Mode.Carries.surround_plain hk hms with ⟨hkind, hcarries⟩ | ⟨outer, rfl, rfl, heq⟩
  · rw [hkind]
    exact cons (t := .plain k hk) rfl hcarries h
  · rw [heq] at h ⊢
    exact .hole (f := .nil) rfl rfl h

end Completes

namespace Scanner

/-- Behind a hole its text ends or goes on with another hole. -/
theorem completes_resume {r : Reader} {outer : List Mode} {ks : List Kind}
    (h : Completes (if (Lexeme.continuation r).hole.isSome then .hole 0 :: outer else outer) ks) :
    Completes (.text :: outer)
      ((Lexeme.continuation r).kind ::
        ((opening (Lexeme.continuation r).hole).map Token.kind ++ ks)) := by
  rcases Lexeme.kind_continuation r with ⟨s, hkind, hhole⟩ | ⟨s, span, hkind, hhole⟩
  · rw [hhole] at h
    rw [hkind, hhole]
    exact .stop s h
  · rw [hhole] at h
    rw [hkind, hhole]
    exact .part s h

/-- A lexeme is a token that stands alone, or starts a text whose first hole follows. -/
theorem completes_accept {r : Reader} {l : Lexeme} (hl : Lexeme.read? r = some l)
    {ms : List Mode} (hms : ms.head? ≠ some .text) {ks : List Kind}
    (h : Completes (surround l.kind ms).2 ks) :
    Completes ms ((surround l.kind ms).1 :: ((opening l.hole).map Token.kind ++ ks)) := by
  rcases Lexeme.kind_read? hl with ⟨hkind, hhole⟩ | ⟨s, hkind, hhole⟩
  · rw [hhole]
    exact .plain hkind hms h
  · obtain ⟨span, hspan⟩ := Option.isSome_iff_exists.mp hhole
    rw [hkind] at h ⊢
    rw [hspan]
    exact .text hms s h

/-- Tokens that wait are sent first; then comes what the strings and holes around ask for. -/
theorem completes_run (s : Scanner) (hnone : s.run.2 = []) :
    ∃ ks, s.run.1.map Token.kind = s.pending.map Token.kind ++ ks ∧ Completes s.modes ks := by
  induction s using run_induction with
  | finish s t last hstep =>
    rw [run_of_finish hstep] at hnone ⊢
    have hlast : last.faults = [] := hnone
    have hfaults := faults_step s
    rw [hstep, Step.faults, hlast, List.prefix_nil] at hfaults
    unfold step at hstep
    rw [full, hfaults] at hstep
    split at hstep
    · next hfull => cases hfull
    split at hstep
    · cases hstep
    · next hpending =>
      split at hstep
      · cases hstep
      · obtain ⟨hkind, hmodes⟩ := code_finish hstep hlast
        rw [hpending, hmodes]
        exact ⟨[.eof], congrArg (fun k => [k]) hkind, .top (f := .nil) rfl⟩
  | emit s t next hstep ih =>
    rw [run_of_emit hstep] at hnone ⊢
    have hnext : next.faults = [] := List.prefix_nil.mp (hnone ▸ faults_run next)
    obtain ⟨ks, hks, hcompletes⟩ := ih hnone
    rw [List.map_cons, hks]
    unfold step at hstep
    split at hstep
    · cases hstep
    split at hstep
    · next t ts hpending =>
      cases hstep
      rw [hpending]
      exact ⟨ks, rfl, hcompletes⟩
    · next hpending =>
      rw [hpending]
      split at hstep
      · next outer hmodes =>
        cases hstep
        rw [hmodes]
        exact ⟨_, rfl, completes_resume hcompletes⟩
      · next hmodes =>
        obtain ⟨l, hl, haccept⟩ := code_emit hstep hnext
        cases haccept
        refine ⟨_, rfl, completes_accept hl ?_ hcompletes⟩
        intro htext
        obtain ⟨outer, houter⟩ := List.head?_eq_some_iff.mp htext
        exact hmodes outer houter

end Scanner

end CarvFront
