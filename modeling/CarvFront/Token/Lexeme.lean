import CarvFront.SyntaxError
import CarvFront.Token.Reader

/-! The single lexemes: names, numbers, characters, strings and signs. Each is read from its first
character on, and faults are noted without giving up on it. -/
namespace CarvFront

/-- A token's content, what follows it and the faults found in it. -/
structure Lexeme where
  kind : Kind
  next : Reader
  faults : List Fault
  /-- The opening of a hole, where a string stopped for one. -/
  hole : Option Span

/-! ### Names -/

/-- Characters a name may start with. -/
def isNameStart (c : Char) : Bool :=
  c.isAlpha || c == '_'

/-- Characters of a name. -/
def isNameChar (c : Char) : Bool :=
  c.isAlphanum || c == '_'

/-- A word is reserved or a name. -/
def Kind.ofName (name : String) : Kind :=
  match Keyword.ofText? name with
  | some w => .word w
  | none => .ident name

/-- The longest name at the start of a text. -/
def Lexeme.name (r : Reader) : Lexeme :=
  let cs := r.rest.takeWhile isNameChar
  ⟨.ofName (String.ofList cs), r.advance cs.length, [], none⟩

/-! ### Numbers -/

/-- Digits, and the underscores that may stand between them. -/
def isNumberChar (c : Char) : Bool :=
  c.isDigit || c == '_'

/-- The digits of a run without its underscores. -/
def digitsOf (cs : List Char) : List Char :=
  cs.filter (· != '_')

/-- The number that decimal digits stand for. -/
def natOfDigits (ds : List Char) : Nat :=
  ds.foldl (fun n d => 10 * n + (d.toNat - '0'.toNat)) 0

/-- One more than the greatest integer. -/
def integerBound : Nat := Nat.pow 2 63

/-- The digits after a point, if the text starts with a point and a digit. -/
def fractionRun : List Char → Option (List Char)
  | '.' :: d :: cs => if d.isDigit then some ((d :: cs).takeWhile isNumberChar) else none
  | _ => none

/-- A number: digits, and a fraction if a point and a digit follow. -/
def Lexeme.number (r : Reader) : Lexeme :=
  let whole := r.rest.takeWhile isNumberChar
  match fractionRun (r.rest.drop whole.length) with
  | some part =>
    let value := Double.ofDecimal (natOfDigits (digitsOf whole ++ digitsOf part))
      (digitsOf part).length
    ⟨.float value, r.advance (whole.length + 1 + part.length), [], none⟩
  | none =>
    let next := r.advance whole.length
    let digits := digitsOf whole
    let value := natOfDigits digits
    if value < integerBound then ⟨.int value, next, [], none⟩
    else
      let fault := ⟨.integerRange (String.ofList digits), .upTo r.pos next.pos⟩
      ⟨.int 0, next, [fault], none⟩

/-! ### Characters -/

/-- The character that an escape stands for. -/
def unescape? : Char → Option Char
  | '"' => some '"'
  | '\'' => some '\''
  | '\\' => some '\\'
  | 'n' => some '\n'
  | 't' => some '\t'
  | 'r' => some '\r'
  | '0' => some '\x00'
  | '$' => some '$'
  | _ => none

/-- An escape, read from its backslash on: its character, what follows, and a fault. An unknown
escape stands for the character itself. -/
def readEscape (r : Reader) : Option Char × Reader × List Fault :=
  match r.rest with
  | _ :: c :: _ =>
    let next := r.advance 2
    match unescape? c with
    | some d => (some d, next, [])
    | none => (some c, next, [⟨.invalidEscape c, .upTo r.pos next.pos⟩])
  | _ =>
    let next := r.advance 1
    (none, next, [⟨.escapeAtEnd, .upTo r.pos next.pos⟩])

/-- The content of a character literal, if there is one on the line. -/
def readChar (r : Reader) : Option Char × Reader × List Fault :=
  match r.rest with
  | [] | '\n' :: _ => (none, r, [])
  | '\\' :: _ => readEscape r
  | c :: _ => (some c, r.advance 1, [])

/-- How much to skip for a closing quote on this line: all up to it and itself, or the rest of the
line. -/
def closingQuote (cs : List Char) : Nat :=
  let before := cs.takeWhile fun c => c != '\n' && c != '\''
  match cs.drop before.length with
  | '\'' :: _ => before.length + 1
  | _ => before.length

/-- A character literal that starts at `start`; `r` is right after its opening quote. -/
def Lexeme.char (start : Position) (r : Reader) : Lexeme :=
  match r.rest with
  | '\'' :: _ =>
    let next := r.advance 1
    ⟨.char '\x00', next, [⟨.emptyChar, .upTo start next.pos⟩], none⟩
  | _ =>
    let (value, after, faults) := readChar r
    let kind := Kind.char (value.getD '\x00')
    match after.rest with
    | '\'' :: _ => ⟨kind, after.advance 1, faults, none⟩
    | _ =>
      let fault := ⟨.unterminatedChar, .upTo start after.pos⟩
      ⟨kind, after.advance (closingQuote after.rest), faults ++ [fault], none⟩

/-! ### Strings -/

/-- A run of string text, up to the closing quote or the next hole. -/
structure TextRun where
  text : List Char
  /-- The `${` that ended the run. -/
  hole : Option Span
  next : Reader
  faults : List Fault

namespace TextRun

/-- The run with a character before it. -/
def cons (c : Char) (t : TextRun) : TextRun :=
  { t with text := c :: t.text }

/-- The run with a fault before it. -/
def fault (f : Fault) (t : TextRun) : TextRun :=
  { t with faults := f :: t.faults }

/-- The run of a string opened at `start` that is not closed before the line ends. -/
def unclosed (start : Position) (r : Reader) : TextRun :=
  ⟨[], none, r, [⟨.unterminatedString, .upTo start r.pos⟩]⟩

/-- Read the text of a string opened at `start`. A string ends with its line at the latest. -/
def read (start : Position) : List Char → Position → TextRun
  | '"' :: cs, p => ⟨[], none, ⟨cs, p.step '"'⟩, []⟩
  | '\\' :: c :: cs, p =>
    let next := (p.step '\\').step c
    match unescape? c with
    | some d => (read start cs next).cons d
    | none => ((read start cs next).cons c).fault ⟨.invalidEscape c, .upTo p next⟩
  | ['\\'], p =>
    let next := p.step '\\'
    (unclosed start ⟨[], next⟩).fault ⟨.escapeAtEnd, .upTo p next⟩
  | '$' :: '{' :: cs, p =>
    let next := (p.step '$').step '{'
    ⟨[], some (.upTo p next), ⟨cs, next⟩, []⟩
  | '\n' :: cs, p => unclosed start ⟨'\n' :: cs, p⟩
  | [], p => unclosed start ⟨[], p⟩
  | c :: cs, p => (read start cs (p.step c)).cons c

/-- Reading never lengthens the text, and a hole takes two characters of it. -/
theorem length_read (start : Position) (cs : List Char) (p : Position) :
    (read start cs p).next.rest.length ≤ cs.length ∧
      ((read start cs p).hole.isSome → (read start cs p).next.rest.length + 2 ≤ cs.length) := by
  fun_induction read start cs p with
  | case1 => simp
  | case2 c cs p next d h ih => exact lengthen (t := (read start cs next).cons d) ih (by simp; omega)
  | case3 c cs p next h ih =>
    exact lengthen (t := ((read start cs next).cons c).fault _) ih (by simp; omega)
  | case4 => simp [fault, unclosed]
  | case5 => simp; omega
  | case6 => simp [unclosed]
  | case7 => simp [unclosed]
  | case8 c cs p _ _ _ _ _ ih =>
    exact lengthen (t := (read start cs (p.step c)).cons c) ih (by simp)
where
  lengthen {t : TextRun} {m n : Nat}
      (h : t.next.rest.length ≤ m ∧ (t.hole.isSome → t.next.rest.length + 2 ≤ m)) (hmn : m ≤ n) :
      t.next.rest.length ≤ n ∧ (t.hole.isSome → t.next.rest.length + 2 ≤ n) :=
    ⟨Nat.le_trans h.1 hmn, fun hh => Nat.le_trans (h.2 hh) hmn⟩

end TextRun

/-- A string that starts at `start`; `r` is right after its opening quote. -/
def Lexeme.string (start : Position) (r : Reader) : Lexeme :=
  let run := TextRun.read start r.rest r.pos
  let text := String.ofList run.text
  ⟨if run.hole.isSome then .stringStart text else .string text, run.next, run.faults, run.hole⟩

/-- The text of a string after a hole of it. -/
def Lexeme.continuation (r : Reader) : Lexeme :=
  let run := TextRun.read r.pos r.rest r.pos
  let text := String.ofList run.text
  ⟨if run.hole.isSome then .stringPart text else .stringEnd text, run.next, run.faults, run.hole⟩

/-! ### Any lexeme -/

/-- The lexeme at the start of a text, if its first character can start one. -/
def Lexeme.read? (r : Reader) : Option Lexeme :=
  match r.rest with
  | [] => none
  | c :: _ =>
    if c = '"' then some (.string r.pos (r.advance 1))
    else if c = '\'' then some (.char r.pos (r.advance 1))
    else if c.isDigit then some (.number r)
    else if isNameStart c then some (.name r)
    else (Symbol.ofChars? r.rest).map fun (s, n) => ⟨.sym s, r.advance n, [], none⟩

theorem Reader.length_advance_one {r : Reader} (h : r.rest ≠ []) :
    (r.advance 1).rest.length < r.rest.length := by
  rw [Reader.length_rest_advance]
  have := List.length_pos_iff.mpr h
  omega

private theorem takeWhile_pos {p : Char → Bool} {c : Char} (h : p c) (cs : List Char) :
    0 < ((c :: cs).takeWhile p).length := by
  simp [h]

private theorem length_name_lt {r : Reader} {c : Char} {cs : List Char} (hr : r.rest = c :: cs)
    (hc : isNameStart c) : (Lexeme.name r).next.rest.length < r.rest.length := by
  have hc' : isNameChar c := by
    simp only [isNameStart, isNameChar, Char.isAlphanum, Bool.or_eq_true] at hc ⊢
    exact hc.imp .inl id
  have h := takeWhile_pos hc' cs
  simp only [Lexeme.name, Reader.length_rest_advance, hr] at h ⊢
  simp only [List.length_cons]
  omega

private theorem length_number_lt {r : Reader} {c : Char} {cs : List Char} (hr : r.rest = c :: cs)
    (hc : c.isDigit) : (Lexeme.number r).next.rest.length < r.rest.length := by
  have hc' : isNumberChar c := by simp [isNumberChar, hc]
  have h := takeWhile_pos hc' cs
  have hl : r.rest.length = cs.length + 1 := by simp [hr]
  rw [← hr] at h
  simp only [Lexeme.number]
  split
  · simp only [Reader.length_rest_advance]; omega
  · split <;> (simp only [Reader.length_rest_advance]; omega)

private theorem length_readEscape_le (r : Reader) :
    (readEscape r).2.1.rest.length ≤ r.rest.length := by
  simp only [readEscape]
  split
  · split <;> (simp only [Reader.length_rest_advance]; omega)
  · simp only [Reader.length_rest_advance]; omega

private theorem length_readChar_le (r : Reader) :
    (readChar r).2.1.rest.length ≤ r.rest.length := by
  simp only [readChar]
  split
  · exact Nat.le_refl _
  · exact Nat.le_refl _
  · exact length_readEscape_le r
  · simp only [Reader.length_rest_advance]; omega

private theorem length_char_le (start : Position) (r : Reader) :
    (Lexeme.char start r).next.rest.length ≤ r.rest.length := by
  have h := length_readChar_le r
  simp only [Lexeme.char]
  split
  · simp only [Reader.length_rest_advance]; omega
  · obtain ⟨⟨value, after, faults⟩, hx⟩ : ∃ x, readChar r = x := ⟨_, rfl⟩
    rw [hx] at h
    rw [hx]
    simp only at h ⊢
    split <;> (simp only [Reader.length_rest_advance]; omega)

private theorem ofChars?_pos {cs : List Char} {s : Symbol} {n : Nat}
    (h : Symbol.ofChars? cs = some (s, n)) : 0 < n := by
  match cs with
  | [] => simp [Symbol.ofChars?] at h
  | [c] =>
    simp only [Symbol.ofChars?, Option.map_eq_some_iff, Prod.mk.injEq] at h
    obtain ⟨_, _, _, rfl⟩ := h
    exact Nat.one_pos
  | c :: d :: _ =>
    simp only [Symbol.ofChars?] at h
    split at h
    · simp only [Option.some.injEq, Prod.mk.injEq] at h
      omega
    · simp only [Option.map_eq_some_iff, Prod.mk.injEq] at h
      obtain ⟨_, _, _, rfl⟩ := h
      exact Nat.one_pos

theorem Lexeme.length_continuation (r : Reader) :
    (Lexeme.continuation r).next.rest.length ≤ r.rest.length ∧
      ((Lexeme.continuation r).hole.isSome →
        (Lexeme.continuation r).next.rest.length + 2 ≤ r.rest.length) :=
  TextRun.length_read r.pos r.rest r.pos

/-- A lexeme takes at least one character. -/
theorem Lexeme.length_read?_lt {r : Reader} {l : Lexeme} (h : Lexeme.read? r = some l) :
    l.next.rest.length < r.rest.length := by
  simp only [Lexeme.read?] at h
  split at h
  · simp at h
  · next c cs hr =>
    have h1 := Reader.length_advance_one (r := r) (by simp [hr])
    split at h
    · cases h
      exact Nat.lt_of_le_of_lt (TextRun.length_read _ _ _).1 h1
    · split at h
      · cases h
        exact Nat.lt_of_le_of_lt (length_char_le _ _) h1
      · split at h
        · next hd => cases h; exact length_number_lt hr hd
        · split at h
          · next hn => cases h; exact length_name_lt hr hn
          · simp only [Option.map_eq_some_iff, Prod.exists] at h
            obtain ⟨s, n, hs, rfl⟩ := h
            have := ofChars?_pos hs
            simp only [Reader.length_rest_advance, hr, List.length_cons]
            omega

end CarvFront
