import CarvFront.Token.Lexeme

/-! Cutting a text into tokens. A scanner emits one token a step; every step but the last reads
characters, leaves a string or sends a token that was waiting. -/
namespace CarvFront

/-- What surrounds the place of a scanner, innermost first. -/
inductive Mode where
  /-- In a string, after one of its holes. -/
  | text
  /-- In a hole of a string, inside that many braces. -/
  | hole (braces : Nat)
deriving DecidableEq

/-- A scanner: the text left, the strings and holes around it, tokens that wait to be sent and the
faults so far. -/
structure Scanner where
  reader : Reader
  modes : List Mode
  pending : List Token
  faults : List Fault

/-- What one step of a scanner gives. -/
inductive Scanner.Step where
  | emit (token : Token) (next : Scanner)
  | finish (token : Token) (last : Scanner)

namespace Scanner

/-- A scanner at the start of a text. -/
def start (text : String) : Scanner :=
  ⟨.ofString text, [], [], []⟩

/-- Whether there are so many faults that scanning stops. -/
def full (s : Scanner) : Bool :=
  maxErrors ≤ s.faults.length

/-- The last token, at the place of the scanner. -/
def eof (s : Scanner) : Token :=
  ⟨.eof, .point s.reader.pos⟩

/-- How a token changes the surroundings: a string with a hole opens one, braces in a hole are
counted, and the brace that closes the hole leads back into its string. -/
def surround : Kind → List Mode → Kind × List Mode
  | .stringStart t, ms => (.stringStart t, .hole 0 :: ms)
  | .sym .lbrace, .hole n :: ms => (.sym .lbrace, .hole (n + 1) :: ms)
  | .sym .rbrace, .hole 0 :: ms => (.holeEnd, .text :: ms)
  | .sym .rbrace, .hole (n + 1) :: ms => (.sym .rbrace, .hole n :: ms)
  | k, ms => (k, ms)

/-- The token that opens a hole. -/
def opening (hole : Option Span) : List Token :=
  (hole.map fun span => ⟨.holeStart, span⟩).toList

/-- Skip blanks and comments. -/
def skip (s : Scanner) : Scanner :=
  let skipped := s.reader.skip
  let faults := (skipped.unclosed.map fun start =>
    ⟨.unterminatedComment, .upTo start skipped.next.pos⟩).toList
  { s with reader := skipped.next, faults := s.faults ++ faults }

/-- Note that the text ended inside a hole, if it did. -/
def close (s : Scanner) : Scanner :=
  if s.modes.isEmpty then s
  else { s with faults := s.faults ++ [⟨.unterminatedHole, .point s.reader.pos⟩] }

/-- Pass over the next character, which no token starts with. -/
def reject (s : Scanner) (c : Char) : Scanner :=
  let next := s.reader.advance 1
  { s with
    reader := next
    faults := s.faults ++ [⟨.unexpectedChar c, .upTo s.reader.pos next.pos⟩] }

/-- Go past a lexeme. -/
def accept (s : Scanner) (l : Lexeme) : Step :=
  let (kind, modes) := surround l.kind s.modes
  .emit ⟨kind, .upTo s.reader.pos l.next.pos⟩
    ⟨l.next, modes, opening l.hole, s.faults ++ l.faults⟩

theorem length_skip_le (s : Scanner) : s.skip.reader.rest.length ≤ s.reader.rest.length :=
  s.reader.length_skip_le

/-- The next token outside strings, if at most `n` characters stand in front of it that start no
token: these are noted and passed over. -/
def codeWithin : Nat → Scanner → Step
  | 0, s => .finish s.eof s
  | n + 1, s =>
    let s' := s.skip
    if s'.full then .finish s'.eof s'
    else match s'.reader.rest with
      | [] => .finish s'.close.eof s'.close
      | c :: _ =>
        match Lexeme.read? s'.reader with
        | some l => s'.accept l
        | none => codeWithin n (s'.reject c)

/-- The next token outside strings. There are no more characters to pass over than are left. -/
def code (s : Scanner) : Step :=
  codeWithin (s.reader.rest.length + 1) s

/-- The text of a string after a hole: it ends in another hole or leaves the string. -/
def resume (s : Scanner) (outer : List Mode) : Step :=
  let l := Lexeme.continuation s.reader
  let modes := if l.hole.isSome then .hole 0 :: outer else outer
  .emit ⟨l.kind, .upTo s.reader.pos l.next.pos⟩
    ⟨l.next, modes, opening l.hole, s.faults ++ l.faults⟩

/-- One step. -/
def step (s : Scanner) : Step :=
  if s.full then .finish s.eof s
  else match s.pending with
    | t :: ts => .emit t { s with pending := ts }
    | [] => match s.modes with
      | .text :: outer => s.resume outer
      | _ => s.code

/-- What goes down with every step: text left, then strings and holes, then waiting tokens. -/
def left (s : Scanner) : Nat × Nat × Nat :=
  (s.reader.rest.length, s.modes.length, s.pending.length)

/-- A bound on the number of steps: for each character at most its token, a hole and the end of a
string. -/
def bound (s : Scanner) : Nat :=
  4 * s.reader.rest.length + 2 * s.modes.length + s.pending.length

/-- All tokens of at most `n` steps, and all faults. -/
def runWithin : Nat → Scanner → List Token × List Fault
  | 0, s => ([s.eof], s.faults)
  | n + 1, s =>
    match s.step with
    | .finish t last => ([t], last.faults)
    | .emit t next =>
      let (ts, fs) := runWithin n next
      (t :: ts, fs)

/-- All tokens from here on, and all faults. -/
def run (s : Scanner) : List Token × List Fault :=
  runWithin (s.bound + 1) s

/-! ### Progress -/

private theorem length_reject_lt {s : Scanner} {c : Char} (h : s.reader.rest ≠ []) :
    (s.reject c).reader.rest.length < s.reader.rest.length :=
  Reader.length_advance_one h

private theorem length_codeWithin_lt {n : Nat} {s next : Scanner} {t : Token}
    (h : codeWithin n s = .emit t next) : next.reader.rest.length < s.reader.rest.length := by
  induction n generalizing s with
  | zero => simp [codeWithin] at h
  | succ n ih =>
    simp only [codeWithin] at h
    split at h
    · simp at h
    · split at h
      · simp at h
      · next c cs hr =>
        refine Nat.lt_of_lt_of_le ?_ (length_skip_le s)
        split at h
        · next l hl =>
          simp only [accept, Step.emit.injEq] at h
          rw [← h.2]
          exact Lexeme.length_read?_lt hl
        · exact Nat.lt_trans (ih h) (length_reject_lt (by simp [hr]))

/-- A token outside strings takes characters. -/
theorem length_code_lt {s next : Scanner} {t : Token} (h : s.code = .emit t next) :
    next.reader.rest.length < s.reader.rest.length :=
  length_codeWithin_lt h

private theorem codeWithin_eq {m n : Nat} {s : Scanner} (hm : s.reader.rest.length < m)
    (hn : s.reader.rest.length < n) : codeWithin m s = codeWithin n s := by
  induction m generalizing n s with
  | zero => omega
  | succ m ih =>
    cases n with
    | zero => omega
    | succ n =>
      simp only [codeWithin]
      split
      · rfl
      · split
        · rfl
        · next c cs hr =>
          split
          · rfl
          · have h1 := length_skip_le s
            have h2 := length_reject_lt (s := s.skip) (c := c) (by simp [hr])
            exact ih (by omega) (by omega)

/-- The next token outside strings comes after blanks and comments; a character that starts no
token is passed over and scanning goes on behind it. -/
theorem code_eq (s : Scanner) :
    s.code = if s.skip.full then .finish s.skip.eof s.skip
      else match s.skip.reader.rest with
        | [] => .finish s.skip.close.eof s.skip.close
        | c :: _ =>
          match Lexeme.read? s.skip.reader with
          | some l => s.skip.accept l
          | none => (s.skip.reject c).code := by
  rw [code, codeWithin]
  split
  · rfl
  · split
    · rfl
    · next c cs hr =>
      split
      · rfl
      · have h1 := length_skip_le s
        have h2 := length_reject_lt (s := s.skip) (c := c) (by simp [hr])
        exact codeWithin_eq (by omega) (by omega)

private theorem length_surround (k : Kind) (ms : List Mode) :
    (surround k ms).2.length ≤ ms.length + 1 := by
  fun_cases surround k ms <;> simp

private theorem length_opening_le (hole : Option Span) : (opening hole).length ≤ 1 := by
  cases hole <;> simp [opening]

/-- Every step that does not end the scan goes down. -/
theorem left_step_lt {s next : Scanner} {t : Token} (h : s.step = .emit t next) :
    Prod.Lex (· < ·) (Prod.Lex (· < ·) (· < ·)) next.left s.left := by
  simp only [step] at h
  split at h
  · simp at h
  · split at h
    · next ts hp =>
      simp only [Step.emit.injEq] at h
      rw [← h.2]
      simp only [left, hp, List.length_cons]
      exact .right _ (.right _ (Nat.lt_succ_self _))
    · split at h
      · next outer hm =>
        simp only [resume, Step.emit.injEq] at h
        rw [← h.2]
        obtain ⟨hle, hlt⟩ := Lexeme.length_continuation s.reader
        simp only [left, hm]
        split
        · next hh => exact .left _ _ (by have := hlt hh; omega)
        · rcases Nat.lt_or_eq_of_le hle with hl | he
          · exact .left _ _ hl
          · rw [he]
            exact .right _ (.left _ _ (by simp))
      · exact .left _ _ (length_code_lt h)

private theorem modes_codeWithin {n : Nat} {s next : Scanner} {t : Token}
    (h : codeWithin n s = .emit t next) :
    next.modes.length ≤ s.modes.length + 1 ∧ next.pending.length ≤ 1 := by
  induction n generalizing s with
  | zero => simp [codeWithin] at h
  | succ n ih =>
    simp only [codeWithin] at h
    split at h
    · simp at h
    · split at h
      · simp at h
      · split at h
        · next l hl =>
          simp only [accept, Step.emit.injEq] at h
          rw [← h.2]
          exact ⟨length_surround l.kind s.modes, length_opening_le l.hole⟩
        · have hs := ih h
          exact hs

private theorem bound_step_lt {s next : Scanner} {t : Token} (h : s.step = .emit t next) :
    next.bound < s.bound := by
  simp only [step] at h
  split at h
  · simp at h
  · split at h
    · next ts hp =>
      simp only [Step.emit.injEq] at h
      rw [← h.2]
      simp only [bound, hp, List.length_cons]
      omega
    · next hp =>
      split at h
      · next outer hm =>
        simp only [resume, Step.emit.injEq] at h
        rw [← h.2]
        obtain ⟨hle, hlt⟩ := Lexeme.length_continuation s.reader
        have ho := length_opening_le (Lexeme.continuation s.reader).hole
        simp only [bound, hm, hp, List.length_cons, List.length_nil]
        split
        · next hh => have := hlt hh; simp only [List.length_cons]; omega
        · next hh =>
          have : (Lexeme.continuation s.reader).hole = none := by simpa using hh
          simp only [this, opening, Option.map_none, Option.toList_none, List.length_nil]
          omega
      · have h1 := length_code_lt h
        obtain ⟨h2, h3⟩ := modes_codeWithin h
        simp only [bound, hp, List.length_nil]
        omega

private theorem runWithin_eq {m n : Nat} {s : Scanner} (hm : s.bound < m) (hn : s.bound < n) :
    runWithin m s = runWithin n s := by
  induction m generalizing n s with
  | zero => omega
  | succ m ih =>
    cases n with
    | zero => omega
    | succ n =>
      simp only [runWithin]
      split
      · rfl
      · next t next h =>
        have := bound_step_lt h
        rw [ih (n := n) (by omega) (by omega)]

/-- The tokens are those of one step and of the rest of the scan. -/
theorem run_eq (s : Scanner) :
    s.run = match s.step with
      | .finish t last => ([t], last.faults)
      | .emit t next => (t :: next.run.1, next.run.2) := by
  rw [run, runWithin]
  split
  · rfl
  · next t next h =>
    have := bound_step_lt h
    rw [runWithin_eq (n := next.bound + 1) (by omega) (by omega)]
    rfl

end Scanner

/-- The tokens of a text, ended by one end-of-file token, and the faults found in it. -/
def Token.scan (text : String) : List Token × List Fault :=
  (Scanner.start text).run

end CarvFront
