import CarvFront.Proofs.ScanEnd

/-! The order of the two ends of a span. What takes characters stops no earlier than it starts. Only
the end of a string can take none: where the line ends right behind a hole. -/
namespace CarvFront
variable {cs : List Char} {r : Reader}

/-! ### Spans of characters -/

/-- A span stops where it starts or behind that. -/
def Span.Upright (s : Span) : Prop :=
  s.start ≤ s.stop

theorem Span.upright_point (p : Position) : (point p).Upright :=
  le_refl p

theorem Span.upright_upTo {a b : Position} (h : a < b) : (upTo a b).Upright := by
  rw [Upright, upTo, Position.le_iff]
  rw [Position.lt_iff] at h
  dsimp only
  omega

theorem Position.lt_advance (p : Position) (h : cs ≠ []) : p < p.advance cs := by
  obtain ⟨c, cs, rfl⟩ := List.exists_cons_of_ne_nil h
  exact lt_of_lt_of_le (p.lt_step c) (le_advance (p.step c) cs)

/-- Behind a brace there is a column before the place. -/
theorem Position.two_le_column {before : List Char} (h : before.getLast? = some '}') :
    2 ≤ (behind before).column := by
  obtain ⟨front, rfl⟩ := List.getLast?_eq_some_iff.mp h
  rw [behind_concat, step, if_neg (by decide)]
  exact Nat.succ_le_succ (Nat.succ_le_succ (Nat.zero_le _))

theorem Reader.Passes.lt {next : Reader} (h : r.Passes cs next) (hne : cs ≠ []) :
    r.pos < next.pos :=
  h.pos ▸ r.pos.lt_advance hne

theorem Reader.Passes.le {next : Reader} (h : r.Passes cs next) : r.pos ≤ next.pos :=
  h.pos ▸ r.pos.le_advance cs

theorem Reader.lt_advance {n : Nat} (hn : n ≠ 0) (hr : r.rest ≠ []) :
    r.pos < (r.advance n).pos := by
  refine (Passes.advance r n).lt fun hnil => ?_
  rcases List.take_eq_nil_iff.mp hnil with h | h
  · exact hn h
  · exact hr h

/-! ### Faults -/

/-- All spans of some faults are upright. -/
def Fault.AllUpright (fs : List Fault) : Prop :=
  ∀ f ∈ fs, f.span.Upright

namespace Fault

theorem allUpright_nil : AllUpright [] :=
  fun _ h => absurd h List.not_mem_nil

theorem AllUpright.append {fs gs : List Fault} (h : AllUpright fs) (h' : AllUpright gs) :
    AllUpright (fs ++ gs) :=
  fun f hf => (List.mem_append.mp hf).elim (h f) (h' f)

theorem allUpright_single {e : SyntaxError} {a b : Position} (h : a < b) :
    AllUpright [⟨e, .upTo a b⟩] :=
  fun _ hf => List.mem_singleton.mp hf ▸ Span.upright_upTo h

theorem AllUpright.cons {fs : List Fault} {e : SyntaxError} {a b : Position} (h : AllUpright fs)
    (hab : a < b) : AllUpright (⟨e, .upTo a b⟩ :: fs) :=
  (allUpright_single hab).append h

end Fault
open Fault

/-- At the end of a line, or of the whole text. -/
def AtLineEnd (cs : List Char) : Prop :=
  cs = [] ∨ cs.head? = some '\n'

/-! ### Strings and characters -/

namespace TextRun

/-- A string opened at `start` has characters in front of the place `p`, or at it. -/
def Begun (start : Position) (cs : List Char) (p : Position) : Prop :=
  start < p ∨ start = p ∧ ¬AtLineEnd cs

section
variable {start p : Position} {cs : List Char}

theorem Begun.lt {q : Position} (h : Begun start cs p) (hq : p < q) : start < q := by
  rcases h with h | ⟨rfl, -⟩
  · exact lt_trans h hq
  · exact hq

theorem Begun.lt_of_end (h : Begun start cs p) (hend : AtLineEnd cs) : start < p := by
  rcases h with h | ⟨-, hcs⟩
  · exact h
  · exact absurd hend hcs

/-- Where a string is not cut off at once, all faults in its text take characters. -/
theorem allUpright_read (h : Begun start cs p) : AllUpright (read start cs p).faults := by
  fun_induction read start cs p with
  | case1 => exact allUpright_nil
  | case2 c cs p next d _ ih =>
    have hnext : p < next := lt_trans (p.lt_step _) (Position.lt_step _ c)
    exact ih (.inl (h.lt hnext))
  | case3 c cs p next _ ih =>
    have hnext : p < next := lt_trans (p.lt_step _) (Position.lt_step _ c)
    exact (ih (.inl (h.lt hnext))).cons hnext
  | case4 p next =>
    have hnext : p < next := p.lt_step _
    exact (allUpright_single (h.lt hnext)).cons hnext
  | case5 => exact allUpright_nil
  | case6 => exact allUpright_single (h.lt_of_end (.inr rfl))
  | case7 => exact allUpright_single (h.lt_of_end (.inl rfl))
  | case8 c cs p _ _ _ _ _ ih => exact ih (.inl (h.lt (p.lt_step c)))

/-- A string that is not cut off at once takes a character of its text. -/
theorem lt_next_read (start : Position) (h : ¬AtLineEnd cs) : p < (read start cs p).next.pos := by
  have hlater {p q : Position} (hpq : p < q) (ds : List Char) : p < (read start ds q).next.pos := by
    obtain ⟨es, hes⟩ := covers_read start ds q
    exact lt_of_lt_of_le hpq hes.passes.le
  have hstep {p : Position} (c d : Char) : p < (p.step c).step d :=
    lt_trans (p.lt_step c) (Position.lt_step _ d)
  unfold read
  split
  · exact p.lt_step _
  · dsimp only
    split <;> exact hlater (hstep _ _) _
  · exact p.lt_step _
  · exact hstep _ _
  · exact absurd (.inr rfl) h
  · exact absurd (.inl rfl) h
  · exact hlater (p.lt_step _) _

end
end TextRun

namespace Lexeme
variable {r : Reader}

theorem allUpright_string (hr : r.rest ≠ []) :
    AllUpright (Lexeme.string r.pos (r.advance 1)).faults :=
  TextRun.allUpright_read (.inl (Reader.lt_advance Nat.one_ne_zero hr))

theorem allUpright_continuation (hr : ¬AtLineEnd r.rest) :
    AllUpright (Lexeme.continuation r).faults :=
  TextRun.allUpright_read (.inr ⟨rfl, hr⟩)

theorem allUpright_readEscape (hr : r.rest ≠ []) : AllUpright (readEscape r).2.2 := by
  unfold readEscape
  split
  · dsimp only
    split
    · exact allUpright_nil
    · exact allUpright_single (Reader.lt_advance (by decide) hr)
  · exact allUpright_single (Reader.lt_advance Nat.one_ne_zero hr)

theorem allUpright_readChar (r : Reader) : AllUpright (readChar r).2.2 := by
  unfold readChar
  split
  · exact allUpright_nil
  · exact allUpright_nil
  · next hr => exact allUpright_readEscape (by rw [hr]; exact List.cons_ne_nil _ _)
  · exact allUpright_nil

theorem allUpright_char {start : Position} (h : start < r.pos) :
    AllUpright (Lexeme.char start r).faults := by
  unfold Lexeme.char
  split
  · exact allUpright_single (lt_of_lt_of_le h (Reader.Passes.advance r 1).le)
  · obtain ⟨body, hpasses, -⟩ := passes_readChar r
    have hinside := allUpright_readChar r
    dsimp only
    split
    · exact hinside
    · exact hinside.append (allUpright_single (lt_of_lt_of_le h hpasses.le))

theorem allUpright_number {d : Char} {cs : List Char} (hr : r.rest = d :: cs) (hd : d.isDigit) :
    AllUpright (Lexeme.number r).faults := by
  have hsome : (r.rest.takeWhile isNumberChar).length ≠ 0 := by
    have hd' : isNumberChar d = true := by simp [isNumberChar, hd]
    simp [hr, hd']
  unfold Lexeme.number
  dsimp only
  split
  · exact allUpright_nil
  split
  · exact allUpright_nil
  · exact allUpright_single (Reader.lt_advance hsome (by rw [hr]; exact List.cons_ne_nil _ _))

/-- What is wrong with a lexeme outside strings stands at some characters of it. -/
theorem allUpright_read? {l : Lexeme} (h : Lexeme.read? r = some l) : AllUpright l.faults := by
  unfold Lexeme.read? at h
  split at h
  · cases h
  next c cs hr =>
  have hne : r.rest ≠ [] := by
    rw [hr]
    exact List.cons_ne_nil c cs
  split at h
  · cases h
    exact allUpright_string hne
  split at h
  · cases h
    exact allUpright_char (Reader.lt_advance Nat.one_ne_zero hne)
  split at h
  · next hd =>
    cases h
    exact allUpright_number hr hd
  split at h
  · cases h
    exact allUpright_nil
  · rw [Option.map_eq_some_iff] at h
    obtain ⟨_, -, rfl⟩ := h
    exact allUpright_nil

end Lexeme

/-! ### Comments -/

theorem unclosed_skipBlanks (cs : List Char) (p : Position) :
    ∀ a ∈ (skipBlanks cs p).unclosed, a < (skipBlanks cs p).next.pos := by
  have hnone (p : Position) : ∀ a ∈ (none : Option Position), a < p := by simp
  refine skipBlanks.induct
    (fun cs p => ∀ a ∈ (skipBlanks cs p).unclosed, a < (skipBlanks cs p).next.pos)
    (fun start cs p => start < p →
      ∀ a ∈ (skipBlock start cs p).unclosed, a < (skipBlock start cs p).next.pos)
    (fun cs p => ∀ a ∈ (skipLine cs p).unclosed, a < (skipLine cs p).next.pos)
    (fun _ _ ih => ih) ?_ ?_ ?_ (fun _ => hnone _) (fun _ _ _ ih _ => ih) ?_ ?_ (fun _ _ ih => ih) ?_
    (fun _ => hnone _) cs p
  · exact fun cs p ih => ih (lt_trans (p.lt_step _) (Position.lt_step _ _))
  · intro c cs p hline hblock hblank ih
    rwa [skipBlanks.eq_3 p c cs hline hblock, if_pos hblank]
  · intro c cs p hline hblock hblank
    rw [skipBlanks.eq_3 p c cs hline hblock, if_neg hblank]
    exact hnone p
  · intro start c cs p hend ih hstart
    rw [skipBlock.eq_2 start p c cs hend]
    exact ih (lt_trans hstart (p.lt_step c))
  · exact fun start p hstart a ha => Option.some.inj ha ▸ hstart
  · intro c cs p hc ih
    rwa [skipLine, if_neg hc]

theorem Reader.lt_of_unclosed {a : Position} (h : a ∈ r.skip.unclosed) : a < r.skip.next.pos :=
  unclosed_skipBlanks r.rest r.pos a h

/-! ### Steps of a scan -/

/-- The end of a string that has no characters: the line ends right behind the brace of a hole. -/
def Token.Cut (text : List Char) (t : Token) : Prop :=
  t.kind = .stringEnd "" ∧ ∃ before after, text = before ++ after ∧ AtLineEnd after ∧
    t.Stands text before []

namespace Scanner
variable {step : Step}

/-- The token that a step sends. -/
def Step.token : Step → Token
  | .emit t _ | .finish t _ => t

/-- A step whose token is upright, and so are the faults that it adds to those of `s`. -/
structure Step.Orderly (s : Scanner) (step : Step) : Prop where
  token : step.token.span.Upright
  faults : ∃ new, step.faults = s.faults ++ new ∧ AllUpright new

/-- A step that leaves a string without having read anything. -/
structure Step.Cuts (text : List Char) (s : Scanner) (step : Step) : Prop where
  token : step.token.Cut text
  faults : step.faults = s.faults ++ [⟨.unterminatedString, step.token.span⟩]

theorem Step.Orderly.of_faults {s s' : Scanner} {new : List Fault} (h : step.Orderly s')
    (hs : s'.faults = s.faults ++ new) (hnew : AllUpright new) : step.Orderly s := by
  obtain ⟨more, hmore, hall⟩ := h.faults
  exact ⟨h.token, new ++ more, by rw [hmore, hs, List.append_assoc], hnew.append hall⟩

theorem orderly_finish (s : Scanner) : (Step.finish s.eof s).Orderly s :=
  ⟨Span.upright_point _, [], (List.append_nil _).symm, allUpright_nil⟩

theorem allUpright_skip (s : Scanner) :
    ∃ new, s.skip.faults = s.faults ++ new ∧ AllUpright new := by
  refine ⟨_, rfl, ?_⟩
  cases h : s.reader.skip.unclosed with
  | none => exact allUpright_nil
  | some start => exact allUpright_single (Reader.lt_of_unclosed h)

theorem allUpright_close (s : Scanner) :
    ∃ new, s.close.faults = s.faults ++ new ∧ AllUpright new := by
  unfold close
  split
  · exact ⟨[], (List.append_nil _).symm, allUpright_nil⟩
  · refine ⟨_, rfl, fun f hf => ?_⟩
    rw [List.mem_singleton.mp hf]
    exact Span.upright_point _

theorem orderly_accept {s : Scanner} {l : Lexeme} (h : Lexeme.read? s.reader = some l) :
    (s.accept l).Orderly s := by
  obtain ⟨cs, hcovers⟩ := Lexeme.covers_read? h
  exact ⟨Span.upright_upTo (hcovers.passes.lt (hcovers.ne_nil h)), l.faults, rfl,
    Lexeme.allUpright_read? h⟩

theorem orderly_codeWithin (n : Nat) (s : Scanner) : (codeWithin n s).Orderly s := by
  induction n generalizing s with
  | zero => exact orderly_finish s
  | succ n ih =>
    obtain ⟨skipped, hskip, hskipped⟩ := s.allUpright_skip
    refine Step.Orderly.of_faults ?_ hskip hskipped
    rw [codeWithin]
    split
    · exact orderly_finish _
    split
    · obtain ⟨closed, hclose, hclosed⟩ := s.skip.allUpright_close
      exact (orderly_finish _).of_faults hclose hclosed
    · next c cs hrest =>
      split
      · next l hl => exact orderly_accept hl
      · refine (ih (s.skip.reject c)).of_faults rfl (allUpright_single ?_)
        exact Reader.lt_advance Nat.one_ne_zero (by rw [hrest]; exact List.cons_ne_nil c cs)

variable {text before : List Char} {s : Scanner}

theorem orderly_resume (outer : List Mode) (h : ¬AtLineEnd s.reader.rest) :
    (s.resume outer).Orderly s :=
  ⟨Span.upright_upTo (TextRun.lt_next_read _ h), _, rfl, Lexeme.allUpright_continuation h⟩

theorem At.cuts_resume {outer : List Mode} (h : s.At text before)
    (hmodes : s.modes = .text :: outer) (hend : AtLineEnd s.reader.rest) :
    (s.resume outer).Cuts text s := by
  rw [Scanner.resume, Lexeme.continuation_of_end hend]
  refine ⟨⟨rfl, before, s.reader.rest, h.here, hend, ?_⟩, rfl⟩
  refine ⟨?_, trivial, fun _ => h.closed (by rw [hmodes]; rfl), ?_⟩
  · rw [List.append_nil]
    exact ⟨s.reader.rest, h.here.symm⟩
  · rw [if_neg (by simp), List.append_nil, ← h.pos]
    rfl

theorem At.step_orderly (h : s.At text before) : s.step.Orderly s ∨ s.step.Cuts text s := by
  unfold Scanner.step
  split
  · exact .inl (orderly_finish s)
  split
  · next t ts hpending =>
    left
    obtain ⟨-, front, rfl, hspan⟩ := h.pending t (hpending ▸ List.mem_cons_self)
    refine ⟨?_, [], (List.append_nil _).symm, allUpright_nil⟩
    rw [Step.token, hspan, ← Position.advance_behind]
    exact Span.upright_upTo (Position.lt_advance _ (List.cons_ne_nil _ _))
  split
  · next outer hmodes =>
    by_cases hend : AtLineEnd s.reader.rest
    · exact .inr (h.cuts_resume hmodes hend)
    · exact .inl (orderly_resume outer hend)
  · exact .inl (orderly_codeWithin _ s)

/-! ### Whole scans -/

/-- The tokens `ts` and the faults `fs`, of which `old` were there before: what is not upright are
ends of strings without characters, and the faults that say so. -/
structure Told (text : List Char) (old : List Fault) (ts : List Token) (fs : List Fault) :
    Prop where
  tokens : ∀ t ∈ ts, t.span.Upright ∨ t.Cut text ∧ ⟨.unterminatedString, t.span⟩ ∈ fs
  faults : ∀ f ∈ fs, f ∈ old ∨ f.span.Upright ∨
    ∃ t ∈ ts, t.Cut text ∧ f = ⟨.unterminatedString, t.span⟩

theorem Told.append {old fs fs' : List Fault} {ts ts' : List Token} (h : Told text old ts fs)
    (h' : Told text fs ts' fs') (hkept : fs <+: fs') : Told text old (ts ++ ts') fs' := by
  constructor
  · intro t ht
    rcases List.mem_append.mp ht with ht | ht
    · exact (h.tokens t ht).imp_right fun ⟨hcut, hmem⟩ => ⟨hcut, hkept.subset hmem⟩
    · exact h'.tokens t ht
  · intro f hf
    rcases h'.faults f hf with hf | hf | ⟨t, ht, hcut⟩
    · rcases h.faults f hf with hf | hf | ⟨t, ht, hcut⟩
      · exact .inl hf
      · exact .inr (.inl hf)
      · exact .inr (.inr ⟨t, List.mem_append_left _ ht, hcut⟩)
    · exact .inr (.inl hf)
    · exact .inr (.inr ⟨t, List.mem_append_right _ ht, hcut⟩)

theorem Step.Orderly.told (h : step.Orderly s) : Told text s.faults [step.token] step.faults := by
  obtain ⟨new, hnew, hall⟩ := h.faults
  refine ⟨fun t ht => ?_, fun f hf => ?_⟩
  · rw [List.mem_singleton.mp ht]
    exact .inl h.token
  · rw [hnew] at hf
    exact (List.mem_append.mp hf).imp_right fun hf => .inl (hall f hf)

theorem Step.Cuts.told (h : step.Cuts text s) : Told text s.faults [step.token] step.faults := by
  refine ⟨fun t ht => ?_, fun f hf => ?_⟩
  · rw [List.mem_singleton.mp ht, h.faults]
    exact .inr ⟨h.token, List.mem_concat_self⟩
  · rw [h.faults] at hf
    refine (List.mem_append.mp hf).imp_right fun hf => .inr ?_
    exact ⟨_, List.mem_singleton_self _, h.token, List.mem_singleton.mp hf⟩

theorem At.told_run (h : s.At text before) : Told text s.faults s.run.1 s.run.2 := by
  have hstep : ∀ {s before}, At text before s → Told text s.faults [s.step.token] s.step.faults :=
    fun h => h.step_orderly.elim Step.Orderly.told Step.Cuts.told
  induction s using run_induction generalizing before with
  | finish s t last hfinish =>
    have htold := hstep h
    rw [hfinish] at htold
    rw [run_of_finish hfinish]
    exact htold
  | emit s t next hemit ih =>
    obtain ⟨before', hnext⟩ := h.after_emit hemit
    have htold := hstep h
    rw [hemit] at htold
    rw [run_of_emit hemit]
    exact htold.append (ih hnext) (faults_run next)

end Scanner

namespace Token

/-- The end of a string without characters stops one column in front of where it starts. -/
theorem Cut.span {text : List Char} {t : Token} (h : t.Cut text) :
    t.span.stop.line = t.span.start.line ∧ t.span.stop.column + 1 = t.span.start.column := by
  obtain ⟨hkind, before, after, -, -, hstands⟩ := h
  have hcolumn := Position.two_le_column (hstands.closed (by rw [hkind]; rfl))
  rw [hstands.span, if_neg (by rw [hkind]; exact Kind.noConfusion), List.append_nil, Span.upTo]
  dsimp only
  omega

theorem Cut.lt {text : List Char} {t : Token} (h : t.Cut text) : t.span.stop < t.span.start := by
  obtain ⟨hline, hcolumn⟩ := h.span
  rw [Position.lt_iff]
  omega

/-- A span stops in front of its start only for the end of a string without characters: where the
line, or the whole text, ends right behind the brace of a hole. There the token and the fault that
says that the string is not closed stop one column too early. -/
theorem scan_inverted_iff (text : String) :
    (∀ t ∈ (scan text).1, (t.span.stop < t.span.start ↔ t.Cut text.toList)) ∧
    (∀ f ∈ (scan text).2, (f.span.stop < f.span.start ↔
      f.error = .unterminatedString ∧ ∃ t ∈ (scan text).1, t.Cut text.toList ∧ f.span = t.span)) ∧
    ∀ t ∈ (scan text).1, t.Cut text.toList → ⟨.unterminatedString, t.span⟩ ∈ (scan text).2 ∧
      t.span.stop.line = t.span.start.line ∧ t.span.stop.column + 1 = t.span.start.column := by
  have htold := (Scanner.at_start text).told_run
  refine ⟨fun t ht => ⟨fun hlt => ?_, Cut.lt⟩, fun f hf => ⟨fun hlt => ?_, ?_⟩, fun t ht hcut => ?_⟩
  · rcases htold.tokens t ht with hupright | ⟨hcut, -⟩
    · exact absurd hupright (not_le_of_gt hlt)
    · exact hcut
  · rcases htold.faults f hf with hold | hupright | ⟨t, ht, hcut, rfl⟩
    · cases hold
    · exact absurd hupright (not_le_of_gt hlt)
    · exact ⟨rfl, t, ht, hcut, rfl⟩
  · rintro ⟨-, t, -, hcut, hspan⟩
    rw [hspan]
    exact hcut.lt
  · rcases htold.tokens t ht with hupright | ⟨-, hmem⟩
    · exact absurd hupright (not_le_of_gt hcut.lt)
    · exact ⟨hmem, hcut.span⟩

/-- The string of `cutText` is not closed: its end stands behind the brace, and stops at it. -/
theorem scan_inverted_iff_cutText :
    let t : Token := ⟨.stringEnd "", ⟨1, 7⟩, ⟨1, 6⟩⟩
    let f : Fault := ⟨.unterminatedString, ⟨1, 7⟩, ⟨1, 6⟩⟩
    t ∈ (scan cutText).1 ∧ f ∈ (scan cutText).2 ∧ t.Cut cutText.toList ∧
      (∃ u ∈ (scan cutText).1, u.Cut cutText.toList ∧ f.span = u.span) ∧
      ⟨.unterminatedString, t.span⟩ ∈ (scan cutText).2 := by
  intro t f
  obtain ⟨htokens, hfaults, hcuts⟩ := scan_inverted_iff cutText
  have ht : t ∈ (scan cutText).1 := by decide +kernel
  have hf : f ∈ (scan cutText).2 := by decide +kernel
  have hcut : t.Cut cutText.toList := (htokens t ht).mp (by decide)
  exact ⟨ht, hf, hcut, ((hfaults f hf).mp (by decide)).2, (hcuts t ht hcut).1⟩

/-- A string that is not closed at the end of the text. -/
def openText : String :=
  "\"a$\x7bx\x7d"

theorem scan_inverted_openText :
    (∃ t ∈ (scan openText).1, ¬t.span.start ≤ t.span.stop) ∧
      ∃ f ∈ (scan openText).2, ¬f.span.start ≤ f.span.stop := by
  decide +kernel

end Token

end CarvFront
