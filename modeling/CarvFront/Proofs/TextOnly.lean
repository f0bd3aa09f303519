import CarvFront.Proofs.Nesting

/-! What a scanner sends depends on the text alone: where the text stands is only noted in the tokens. -/
namespace CarvFront

/-! ### Lexemes -/

/-- What was skipped ends in the same text, wherever that stands. -/
structure Skipped.Like (s s' : Skipped) : Prop where
  rest : s.next.rest = s'.next.rest
  unclosed : s.unclosed.isSome = s'.unclosed.isSome

mutual

theorem like_skipBlanks (cs : List Char) (p p' : Position) :
    (skipBlanks cs p).Like (skipBlanks cs p') := by
  unfold skipBlanks
  split
  · exact like_skipLine _ _ _
  · exact like_skipBlock _ _ _ _ _
  · split
    · exact like_skipBlanks _ _ _
    · exact ⟨rfl, rfl⟩
  · exact ⟨rfl, rfl⟩
termination_by cs.length
decreasing_by
  all_goals
    subst_vars
    simp +arith

theorem like_skipLine (cs : List Char) (p p' : Position) :
    (skipLine cs p).Like (skipLine cs p') := by
  unfold skipLine
  split
  · split
    · exact like_skipBlanks _ _ _
    · exact like_skipLine _ _ _
  · exact ⟨rfl, rfl⟩
termination_by cs.length
decreasing_by
  all_goals
    subst_vars
    simp +arith

theorem like_skipBlock (start start' : Position) (cs : List Char) (p p' : Position) :
    (skipBlock start cs p).Like (skipBlock start' cs p') := by
  unfold skipBlock
  split
  · exact like_skipBlanks _ _ _
  · exact like_skipBlock _ _ _ _ _
  · exact ⟨rfl, rfl⟩
termination_by cs.length
decreasing_by
  all_goals
    subst_vars
    simp +arith

end

/-- Two runs of the same text, places apart. -/
structure TextRun.Like (r r' : TextRun) : Prop where
  text : r.text = r'.text
  hole : r.hole.isSome = r'.hole.isSome
  rest : r.next.rest = r'.next.rest
  faults : r.faults.map Fault.error = r'.faults.map Fault.error

theorem TextRun.Like.cons {r r' : TextRun} (h : r.Like r') (c : Char) : (r.cons c).Like (r'.cons c) :=
  ⟨congrArg (c :: ·) h.text, h.hole, h.rest, h.faults⟩

theorem TextRun.Like.fault {r r' : TextRun} (h : r.Like r') (e : SyntaxError) (s s' : Span) :
    (r.fault ⟨e, s⟩).Like (r'.fault ⟨e, s'⟩) :=
  ⟨h.text, h.hole, h.rest, congrArg (e :: ·) h.faults⟩

theorem TextRun.like_read (start start' : Position) (cs : List Char) (p p' : Position) :
    (TextRun.read start cs p).Like (TextRun.read start' cs p') := by
  unfold TextRun.read
  split
  · exact ⟨rfl, rfl, rfl, rfl⟩
  · dsimp only
    split
    · exact (like_read _ _ _ _ _).cons _
    · exact ((like_read _ _ _ _ _).cons _).fault _ _ _
  · exact ⟨rfl, rfl, rfl, rfl⟩
  · exact ⟨rfl, rfl, rfl, rfl⟩
  · exact ⟨rfl, rfl, rfl, rfl⟩
  · exact ⟨rfl, rfl, rfl, rfl⟩
  · exact (like_read _ _ _ _ _).cons _
termination_by cs.length
decreasing_by
  all_goals
    subst_vars
    simp +arith

/-- Two lexemes of the same text, places apart. -/
structure Lexeme.Like (l l' : Lexeme) : Prop where
  kind : l.kind = l'.kind
  rest : l.next.rest = l'.next.rest
  faults : l.faults.map Fault.error = l'.faults.map Fault.error
  hole : l.hole.isSome = l'.hole.isSome

namespace Lexeme
variable (cs : List Char) (p p' : Position)

theorem like_number : (number ⟨cs, p⟩).Like (number ⟨cs, p'⟩) := by
  unfold number
  dsimp only
  split
  · exact ⟨rfl, rfl, rfl, rfl⟩
  · split <;> exact ⟨rfl, rfl, rfl, rfl⟩

theorem like_readEscape : (readEscape ⟨cs, p⟩).1 = (readEscape ⟨cs, p'⟩).1 ∧
    (readEscape ⟨cs, p⟩).2.1.rest = (readEscape ⟨cs, p'⟩).2.1.rest ∧
    (readEscape ⟨cs, p⟩).2.2.map Fault.error = (readEscape ⟨cs, p'⟩).2.2.map Fault.error := by
  unfold readEscape
  dsimp only
  split
  · split <;> exact ⟨rfl, rfl, rfl⟩
  · exact ⟨rfl, rfl, rfl⟩

theorem like_readChar : (readChar ⟨cs, p⟩).1 = (readChar ⟨cs, p'⟩).1 ∧
    (readChar ⟨cs, p⟩).2.1.rest = (readChar ⟨cs, p'⟩).2.1.rest ∧
    (readChar ⟨cs, p⟩).2.2.map Fault.error = (readChar ⟨cs, p'⟩).2.2.map Fault.error := by
  unfold readChar
  dsimp only
  split
  · exact ⟨rfl, rfl, rfl⟩
  · exact ⟨rfl, rfl, rfl⟩
  · exact like_readEscape _ p p'
  · exact ⟨rfl, rfl, rfl⟩

theorem like_char (start start' : Position) : (char start ⟨cs, p⟩).Like (char start' ⟨cs, p'⟩) := by
  have hchar := like_readChar cs p p'
  unfold char
  dsimp only
  split
  · exact ⟨rfl, rfl, rfl, rfl⟩
  · generalize readChar ⟨cs, p⟩ = found at hchar
    generalize readChar ⟨cs, p'⟩ = found' at hchar
    obtain ⟨value, ⟨rest, q⟩, faults⟩ := found
    obtain ⟨value', ⟨rest', q'⟩, faults'⟩ := found'
    obtain ⟨hvalue, hrest, hfaults⟩ := hchar
    dsimp only at hvalue hrest hfaults ⊢
    subst hvalue hrest
    split
    · exact ⟨rfl, rfl, hfaults, rfl⟩
    · refine ⟨rfl, rfl, ?_, rfl⟩
      rw [List.map_append, List.map_append, hfaults]
      rfl

theorem like_string (start start' : Position) :
    (string start ⟨cs, p⟩).Like (string start' ⟨cs, p'⟩) := by
  obtain ⟨htext, hhole, hrest, hfaults⟩ := TextRun.like_read start start' cs p p'
  refine ⟨?_, hrest, hfaults, hhole⟩
  simp only [string, htext, hhole]

theorem like_continuation : (continuation ⟨cs, p⟩).Like (continuation ⟨cs, p'⟩) := by
  obtain ⟨htext, hhole, hrest, hfaults⟩ := TextRun.like_read p p' cs p p'
  refine ⟨?_, hrest, hfaults, hhole⟩
  simp only [continuation, htext, hhole]

/-- A lexeme is read or not, wherever its text stands. -/
theorem like_read? : (∃ l l', read? ⟨cs, p⟩ = some l ∧ read? ⟨cs, p'⟩ = some l' ∧ l.Like l') ∨
    read? ⟨cs, p⟩ = none ∧ read? ⟨cs, p'⟩ = none := by
  unfold read?
  dsimp only
  split
  · exact .inr ⟨rfl, rfl⟩
  split
  · exact .inl ⟨_, _, rfl, rfl, like_string _ _ _ _ _⟩
  split
  · exact .inl ⟨_, _, rfl, rfl, like_char _ _ _ _ _⟩
  split
  · exact .inl ⟨_, _, rfl, rfl, like_number _ _ _⟩
  split
  · exact .inl ⟨_, _, rfl, rfl, rfl, rfl, rfl, rfl⟩
  · cases Symbol.ofChars? _ with
    | none => exact .inr ⟨rfl, rfl⟩
    | some found => exact .inl ⟨_, _, rfl, rfl, rfl, rfl, rfl, rfl⟩

end Lexeme

/-! ### Scanners -/

namespace Scanner

/-- Scanners before the same text, places apart. -/
structure Like (s s' : Scanner) : Prop where
  rest : s.reader.rest = s'.reader.rest
  modes : s.modes = s'.modes
  pending : s.pending.map Token.kind = s'.pending.map Token.kind
  faults : s.faults.map Fault.error = s'.faults.map Fault.error

/-- Two steps that give the same, places apart. -/
inductive Step.Like : Step → Step → Prop
  | emit {t t' : Token} {next next' : Scanner} (ht : t.kind = t'.kind) (h : next.Like next') :
      Step.Like (.emit t next) (.emit t' next')
  | finish {t t' : Token} {last last' : Scanner} (ht : t.kind = t'.kind) (h : last.Like last') :
      Step.Like (.finish t last) (.finish t' last')

variable {s s' : Scanner}

theorem Like.full (h : s.Like s') : s.full = s'.full := by
  have hlength := congrArg List.length h.faults
  rw [List.length_map, List.length_map] at hlength
  rw [Scanner.full, Scanner.full, hlength]

theorem Like.skip (h : s.Like s') : s.skip.Like s'.skip := by
  obtain ⟨⟨cs, p⟩, modes, pending, faults⟩ := s
  obtain ⟨⟨cs', p'⟩, modes', pending', faults'⟩ := s'
  obtain ⟨hcs, hmodes, hpending, hfaults⟩ := h
  dsimp only at hcs hmodes hpending hfaults
  subst hcs hmodes
  obtain ⟨hrest, hunclosed⟩ := like_skipBlanks cs p p'
  refine ⟨hrest, rfl, hpending, ?_⟩
  simp only [Scanner.skip, Reader.skip, List.map_append, hfaults]
  congr 1
  cases hstart : (skipBlanks cs p).unclosed with
  | none =>
    have hstart' : (skipBlanks cs p').unclosed = none := by simpa [hstart] using hunclosed.symm
    rw [hstart']
    rfl
  | some start =>
    rw [hstart] at hunclosed
    obtain ⟨start', hstart'⟩ := Option.isSome_iff_exists.mp hunclosed.symm
    rw [hstart']
    rfl

theorem Like.close (h : s.Like s') : s.close.Like s'.close := by
  obtain ⟨hrest, hmodes, hpending, hfaults⟩ := h
  have hempty : s.modes.isEmpty = s'.modes.isEmpty := by rw [hmodes]
  unfold Scanner.close
  rw [hempty]
  split
  · exact ⟨hrest, hmodes, hpending, hfaults⟩
  · exact ⟨hrest, hmodes, hpending, by simp [hfaults]⟩

theorem Like.reject (h : s.Like s') (c : Char) : (s.reject c).Like (s'.reject c) := by
  refine ⟨?_, h.modes, h.pending, by simp [Scanner.reject, h.faults]⟩
  simp [Scanner.reject, Reader.advance, h.rest]

theorem like_opening {hole hole' : Option Span} (h : hole.isSome = hole'.isSome) :
    (opening hole).map Token.kind = (opening hole').map Token.kind := by
  cases hole with
  | none =>
    obtain rfl : hole' = none := by simpa using h.symm
    rfl
  | some span =>
    obtain ⟨span', rfl⟩ := Option.isSome_iff_exists.mp h.symm
    rfl

theorem Like.accept (h : s.Like s') {l l' : Lexeme} (hl : l.Like l') :
    (s.accept l).Like (s'.accept l') := by
  have hmodes : surround l.kind s.modes = surround l'.kind s'.modes := by rw [hl.kind, h.modes]
  refine .emit (congrArg Prod.fst hmodes) ⟨hl.rest, congrArg Prod.snd hmodes, like_opening hl.hole, ?_⟩
  simp [h.faults, hl.faults]

theorem Like.codeWithin (n : Nat) (h : s.Like s') :
    (codeWithin n s).Like (codeWithin n s') := by
  induction n generalizing s s' with
  | zero => exact .finish rfl h
  | succ n ih =>
    have hskip := h.skip
    rw [Scanner.codeWithin, Scanner.codeWithin]
    generalize s.skip = u at hskip
    generalize s'.skip = u' at hskip
    obtain ⟨⟨cs, p⟩, modes, pending, faults⟩ := u
    obtain ⟨⟨cs', p'⟩, modes', pending', faults'⟩ := u'
    obtain rfl : cs = cs' := hskip.rest
    dsimp only
    rw [hskip.full]
    split
    · exact .finish rfl hskip
    cases cs with
    | nil => exact .finish rfl hskip.close
    | cons c cs =>
      rcases Lexeme.like_read? (c :: cs) p p' with ⟨l, l', hl, hl', hlike⟩ | ⟨hl, hl'⟩
      · rw [hl, hl']
        exact hskip.accept hlike
      · rw [hl, hl']
        exact ih (hskip.reject c)

theorem Like.resume (h : s.Like s') (outer : List Mode) :
    (s.resume outer).Like (s'.resume outer) := by
  obtain ⟨⟨cs, p⟩, modes, pending, faults⟩ := s
  obtain ⟨⟨cs', p'⟩, modes', pending', faults'⟩ := s'
  obtain rfl : cs = cs' := h.rest
  have hl := Lexeme.like_continuation cs p p'
  refine .emit hl.kind ⟨hl.rest, ?_, like_opening hl.hole, ?_⟩
  · simp only [hl.hole]
  · rw [List.map_append, List.map_append, hl.faults]
    exact congrArg (· ++ _) h.faults

theorem Like.code (h : s.Like s') : s.code.Like s'.code := by
  unfold Scanner.code
  rw [← h.rest]
  exact h.codeWithin _

theorem Like.step (h : s.Like s') : s.step.Like s'.step := by
  unfold Scanner.step
  rw [h.full]
  split
  · exact .finish rfl h
  have hpending := h.pending
  generalize hts : s.pending = ts at hpending
  generalize hts' : s'.pending = ts' at hpending
  cases ts with
  | nil =>
    obtain rfl : ts' = [] := by simpa using hpending.symm
    dsimp only
    rw [h.modes]
    split
    · exact h.resume _
    · exact h.code
  | cons t ts =>
    obtain _ | ⟨t', ts'⟩ := ts'
    · cases hpending
    · obtain ⟨ht, hrest⟩ := List.cons.inj hpending
      exact .emit ht ⟨h.rest, h.modes, hrest, h.faults⟩

theorem Like.run (h : s.Like s') : s.run.1.map Token.kind = s'.run.1.map Token.kind ∧
    s.run.2.map Fault.error = s'.run.2.map Fault.error := by
  induction s using run_induction generalizing s' with
  | finish s t last hstep =>
    have hlike := h.step
    rw [hstep] at hlike
    generalize hstep' : s'.step = step' at hlike
    cases hlike with
    | finish ht hlast =>
      rw [run_of_finish hstep, run_of_finish hstep']
      exact ⟨congrArg ([·]) ht, hlast.faults⟩
  | emit s t next hstep ih =>
    have hlike := h.step
    rw [hstep] at hlike
    generalize hstep' : s'.step = step' at hlike
    cases hlike with
    | emit ht hnext =>
      obtain ⟨hkinds, hfaults⟩ := ih hnext
      rw [run_of_emit hstep, run_of_emit hstep', List.map_cons, List.map_cons, ht, hkinds]
      exact ⟨rfl, hfaults⟩

end Scanner

end CarvFront
