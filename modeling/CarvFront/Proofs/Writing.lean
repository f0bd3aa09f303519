import CarvFront.Proofs.Nesting

/-! Texts that write given trees of tokens, and that scanning such a text gives the trees back. -/
namespace CarvFront
variable {c : Char} {text cs rest : List Char}

/-! ### Blanks and comments -/

/-- Blanks, line comments that end with their line, and closed block comments. -/
inductive Gap : List Char → Prop
  | nil : Gap []
  | blank {c : Char} {cs : List Char} (hc : isBlank c = true) (h : Gap cs) : Gap (c :: cs)
  | line {line cs : List Char} (hline : '\n' ∉ line) (h : Gap cs) :
      Gap ('/' :: '/' :: (line ++ '\n' :: cs))
  | block {body cs : List Char} (hbody : ¬ ['*', '/'] <:+: body) (h : Gap cs) :
      Gap ('/' :: '*' :: (body ++ '*' :: '/' :: cs))

theorem skipLine_append {line : List Char} (hline : '\n' ∉ line) (cs : List Char) (p : Position) :
    ∃ p', skipLine (line ++ '\n' :: cs) p = skipBlanks cs p' := by
  induction line generalizing p with
  | nil => exact ⟨p.step '\n', by simp [skipLine]⟩
  | cons c line ih =>
    rw [List.mem_cons, not_or] at hline
    obtain ⟨p', hp'⟩ := ih hline.2 (p.step c)
    refine ⟨p', ?_⟩
    rw [List.cons_append, skipLine, if_neg (Ne.symm hline.1)]
    exact hp'

theorem skipBlock_append {body : List Char} (hbody : ¬ ['*', '/'] <:+: body) (start : Position)
    (cs : List Char) (p : Position) :
    ∃ p', skipBlock start (body ++ '*' :: '/' :: cs) p = skipBlanks cs p' := by
  induction body generalizing p with
  | nil => exact ⟨(p.step '*').step '/', by simp [skipBlock]⟩
  | cons c body ih =>
    obtain ⟨p', hp'⟩ := ih (fun h => hbody (h.trans (List.suffix_cons c body).isInfix)) (p.step c)
    refine ⟨p', ?_⟩
    rw [← hp', List.cons_append, skipBlock]
    -- a star in the comment is not followed by the slash that would close it
    rintro rest rfl hrest
    cases body with
    | nil => simp at hrest
    | cons d body =>
      simp only [List.cons_append, List.cons.injEq] at hrest
      rw [hrest.1] at hbody
      exact hbody (List.prefix_append ['*', '/'] body).isInfix

/-- What follows a gap is found behind it. -/
theorem Gap.skipBlanks_append {gap : List Char} (h : Gap gap) (cs : List Char) (p : Position) :
    ∃ p', skipBlanks (gap ++ cs) p = skipBlanks cs p' := by
  induction h generalizing p with
  | nil => exact ⟨p, rfl⟩
  | @blank c gap hc h ih =>
    obtain ⟨p', hp'⟩ := ih (p.step c)
    refine ⟨p', ?_⟩
    rw [List.cons_append, skipBlanks]
    · rw [if_pos hc]
      exact hp'
    · rintro _ rfl
      cases hc
    · rintro _ rfl
      cases hc
  | @line line gap hline h ih =>
    simp only [List.cons_append, List.append_assoc, skipBlanks]
    obtain ⟨p₁, hp₁⟩ := skipLine_append hline (gap ++ cs) ((p.step '/').step '/')
    obtain ⟨p', hp'⟩ := ih p₁
    exact ⟨p', hp₁.trans hp'⟩
  | @block body gap hbody h ih =>
    simp only [List.cons_append, List.append_assoc, skipBlanks]
    obtain ⟨p₁, hp₁⟩ := skipBlock_append hbody p (gap ++ cs) ((p.step '/').step '*')
    obtain ⟨p', hp'⟩ := ih p₁
    exact ⟨p', hp₁.trans hp'⟩

/-! ### Characters in quotes -/

/-- How a character that cannot stand for itself is written behind a backslash. -/
def escape? : Char → Option Char
  | '"' => some '"'
  | '\'' => some '\''
  | '\\' => some '\\'
  | '$' => some '$'
  | '\n' => some 'n'
  | '\t' => some 't'
  | '\r' => some 'r'
  | '\x00' => some '0'
  | _ => none

theorem unescape?_escape? {e : Char} (h : escape? c = some e) : unescape? e = some c := by
  unfold escape? at h
  split at h <;> cases h <;> rfl

/-- A character between quotes: itself, unless it is the quote, a backslash, a newline or a dollar
sign, or its escape. -/
inductive Escaped (quote c : Char) : List Char → Prop
  | raw (h : c ∉ [quote, '\\', '\n', '$']) : Escaped quote c [c]
  | escape {e : Char} (h : escape? c = some e) : Escaped quote c ['\\', e]

/-- The characters of a string, each written between quotes. -/
inductive EscapedText : List Char → List Char → Prop
  | nil : EscapedText [] []
  | cons {c : Char} {text cs ds : List Char} (hc : Escaped '"' c cs) (h : EscapedText text ds) :
      EscapedText (c :: text) (cs ++ ds)

/-- A written text is read as the text it writes, up to what follows it. -/
theorem EscapedText.read (h : EscapedText text cs) (start : Position) (rest : List Char)
    (p : Position) : ∃ p', TextRun.read start (cs ++ rest) p =
      { TextRun.read start rest p' with text := text ++ (TextRun.read start rest p').text } := by
  induction h generalizing p with
  | nil => exact ⟨p, rfl⟩
  | @cons c text cs ds hc h ih =>
    cases hc with
    | raw hraw =>
      simp only [List.mem_cons, not_or, List.not_mem_nil, not_false_eq_true, and_true] at hraw
      obtain ⟨hquote, hslash, hline, hdollar⟩ := hraw
      obtain ⟨p', hp'⟩ := ih (p.step c)
      refine ⟨p', ?_⟩
      rw [List.cons_append, List.nil_append, List.cons_append, TextRun.read, hp']
      · rfl
      all_goals simp_all
    | @escape e hescape =>
      obtain ⟨p', hp'⟩ := ih ((p.step '\\').step e)
      refine ⟨p', ?_⟩
      simp only [List.cons_append, List.nil_append, TextRun.read, unescape?_escape? hescape, hp']
      rfl

/-! ### Tokens -/

/-- Characters of a name. -/
def IsName (cs : List Char) : Prop :=
  (∃ c ∈ cs.head?, isNameStart c = true) ∧ ∀ c ∈ cs, isNameChar c = true

/-- The ways a token that stands alone is written. The digits of a number may have underscores
behind the first of them. -/
def Kind.Spelled : Kind → List Char → Prop
  | .word w, cs => cs = w.text.toList
  | .sym s, cs => cs = s.text.toList
  | .ident name, cs => cs = name.toList ∧ IsName cs ∧ ∀ w : Keyword, w.text ≠ name
  | .int value, cs => ∃ n : Nat, value = n ∧ n < 9223372036854775808 ∧ cs.head? ≠ some '_' ∧
      cs.filter (· != '_') = Nat.toDigits 10 n
  | .char c, cs => ∃ ds, Escaped '\'' c ds ∧ cs = '\'' :: (ds ++ ['\''])
  | .string text, cs => ∃ ds, EscapedText text.toList ds ∧ cs = '"' :: (ds ++ ['"'])
  | _, _ => False

mutual

/-- A text writes a token in one of its ways, or a string with its holes. -/
def TokenTree.Written : TokenTree → List Char → Prop
  | .plain k _, cs => k.Spelled cs
  | .text start holes, cs => ∃ text rest, EscapedText start.toList text ∧ holes.Written rest ∧
      cs = '"' :: (text ++ rest)

/-- Trees have a gap between them that starts with a blank; there may be any gap in front of the
first. -/
def Forest.Written : Forest → List Char → Prop
  | .nil, cs => Gap cs
  | .cons t f, cs => ∃ gap tree rest, Gap gap ∧ t.Written tree ∧
      (f = .nil ∧ rest = [] ∨
        ∃ blank gap, rest = blank :: gap ∧ isBlank blank = true ∧ f.Written gap) ∧
      cs = gap ++ (tree ++ rest)

/-- The holes of a string are in braces behind a dollar sign; the last is followed by text and the
closing quote. -/
def Holes.Written : Holes → List Char → Prop
  | .last hole stop, cs => ∃ inside text, hole.Written inside ∧ EscapedText stop.toList text ∧
      cs = '$' :: '{' :: (inside ++ '}' :: (text ++ ['"']))
  | .more hole part holes, cs => ∃ inside text rest, hole.Written inside ∧
      EscapedText part.toList text ∧ holes.Written rest ∧
      cs = '$' :: '{' :: (inside ++ '}' :: (text ++ rest))

end

/-! ### Reading a token -/

/-- What can follow a token that stands alone: a blank, the brace that closes a hole, or nothing. -/
def Stops (rest : List Char) : Prop :=
  ∀ c ∈ rest.head?, c ∈ [' ', '\t', '\r', '\n', '}']

theorem isBlank_iff : isBlank c = true ↔ ((c = ' ' ∨ c = '\t') ∨ c = '\r') ∨ c = '\n' := by
  simp only [isBlank, Bool.or_eq_true, beq_iff_eq]

theorem stops_blank (hc : isBlank c = true) (cs : List Char) : Stops (c :: cs) := by
  rintro _ ⟨⟩
  rcases isBlank_iff.mp hc with ((rfl | rfl) | rfl) | rfl <;> decide

theorem stops_brace (cs : List Char) : Stops ('}' :: cs) := by
  rintro _ ⟨⟩
  decide

/-- A run of characters ends where another character or nothing follows. -/
theorem takeWhile_append_stops {P : Char → Bool} (hP : [' ', '\t', '\r', '\n', '}'].all (!P ·))
    (hcs : ∀ c ∈ cs, P c = true) (hrest : Stops rest) : (cs ++ rest).takeWhile P = cs := by
  rw [List.takeWhile_append_of_pos hcs]
  cases rest with
  | nil => simp
  | cons c rest =>
    have hc := List.all_eq_true.mp hP c (hrest c rfl)
    rw [List.takeWhile_cons_of_neg (by simpa using hc), List.append_nil]

theorem Reader.advance_append (as bs : List Char) (p : Position) :
    (⟨as ++ bs, p⟩ : Reader).advance as.length = ⟨bs, p.advance as⟩ := by
  simp [Reader.advance]

/-- A lexeme without faults: its kind, whether a hole opens behind it, and what follows. -/
structure Lexeme.Is (l : Lexeme) (k : Kind) (hole : Bool) (rest : List Char) : Prop where
  kind : l.kind = k
  hole : l.hole.isSome = hole
  rest : l.next.rest = rest
  faults : l.faults = []

/-- A text starts with a lexeme, with nothing to skip in front of it. -/
def Lexeme.Reads (cs : List Char) (k : Kind) (hole : Bool) (rest : List Char) : Prop :=
  ∀ p, skipBlanks cs p = ⟨⟨cs, p⟩, none⟩ ∧ ∃ l, Lexeme.read? ⟨cs, p⟩ = some l ∧ l.Is k hole rest

theorem skipBlanks_of_start (hc : isBlank c = false) (hslash : c ≠ '/') (cs : List Char)
    (p : Position) : skipBlanks (c :: cs) p = ⟨⟨c :: cs, p⟩, none⟩ := by
  rw [skipBlanks, if_neg (by simp [hc])]
  · rintro _ rfl
    exact absurd rfl hslash
  · rintro _ rfl
    exact absurd rfl hslash

/-! #### Names -/

theorem isDigit_of_isNameStart (h : isNameStart c = true) : c.isDigit = false := by
  rw [Bool.eq_false_iff]
  intro hdigit
  unfold isNameStart Char.isAlpha Char.isUpper Char.isLower at h
  unfold Char.isDigit at hdigit
  simp only [Bool.or_eq_true, Bool.and_eq_true, decide_eq_true_eq, beq_iff_eq,
    UInt32.le_iff_toNat_le, ge_iff_le] at h hdigit
  rcases h with (h | h) | rfl
  · simp at h hdigit
    omega
  · simp at h hdigit
    omega
  · simp at hdigit

theorem isBlank_of_isNameStart (h : isNameStart c = true) : isBlank c = false := by
  rw [Bool.eq_false_iff]
  intro hblank
  rcases isBlank_iff.mp hblank with ((rfl | rfl) | rfl) | rfl <;> cases h

theorem Lexeme.reads_name {name : List Char} (h : IsName name) (hrest : Stops rest) :
    Lexeme.Reads (name ++ rest) (.ofName (String.ofList name)) false rest := by
  obtain ⟨⟨c, hc, hstart⟩, hname⟩ := h
  obtain ⟨cs, rfl⟩ := List.head?_eq_some_iff.mp hc
  have htake := takeWhile_append_stops (P := isNameChar) (by decide) hname hrest
  have hslash : c ≠ '/' := by rintro rfl; cases hstart
  have hstring : c ≠ '"' := by rintro rfl; cases hstart
  have hchar : c ≠ '\'' := by rintro rfl; cases hstart
  intro p
  have hread : Lexeme.read? ⟨c :: cs ++ rest, p⟩ = some (Lexeme.name ⟨c :: cs ++ rest, p⟩) := by
    simp [Lexeme.read?, hstring, hchar, isDigit_of_isNameStart hstart, hstart]
  refine ⟨skipBlanks_of_start (isBlank_of_isNameStart hstart) hslash _ p, _, hread, ?_⟩
  simp only [Lexeme.name, htake, Reader.advance_append]
  exact ⟨rfl, rfl, rfl, rfl⟩

theorem Keyword.isName_text (w : Keyword) : IsName w.text.toList := by
  cases w <;> exact ⟨⟨_, rfl, by decide⟩, List.all_eq_true.mp rfl⟩

theorem Keyword.ofText?_text (w : Keyword) : Keyword.ofText? w.text = some w := by
  cases w <;> decide

theorem Kind.ofName_of_not_reserved {name : String} (h : ∀ w : Keyword, w.text ≠ name) :
    Kind.ofName name = .ident name := by
  have hnone : Keyword.ofText? name = none := by
    simp only [Keyword.ofText?, List.find?_eq_none, beq_iff_eq]
    exact fun w _ => h w
  rw [Kind.ofName, hnone]

/-! #### Numbers -/

theorem fractionRun_of_stops (hrest : Stops rest) : fractionRun rest = none := by
  cases rest with
  | nil => rfl
  | cons c rest =>
    have hc : c ≠ '.' := by
      rintro rfl
      exact absurd (hrest '.' rfl) (by decide)
    rw [fractionRun]
    rintro _ _ ⟨⟩
    exact absurd rfl hc

theorem isBlank_of_isDigit (h : c.isDigit = true) : isBlank c = false := by
  rw [Bool.eq_false_iff]
  intro hblank
  rcases isBlank_iff.mp hblank with ((rfl | rfl) | rfl) | rfl <;> cases h

theorem natOfDigits_toDigits (n : Nat) : natOfDigits (Nat.toDigits 10 n) = n :=
  Nat.ofDigitChars_ten_toDigits

theorem Lexeme.reads_int {n : Nat} (hn : n < 9223372036854775808) (hhead : cs.head? ≠ some '_')
    (hdigits : cs.filter (· != '_') = Nat.toDigits 10 n) (hrest : Stops rest) :
    Lexeme.Reads (cs ++ rest) (.int n) false rest := by
  have hdigit : ∀ d ∈ cs, d ≠ '_' → d.isDigit = true := by
    intro d hd hne
    refine Nat.isDigit_of_mem_toDigits (by decide) (Nat.le_refl 10) (n := n) ?_
    rw [← hdigits]
    exact List.mem_filter.mpr ⟨hd, by simpa using hne⟩
  have hnumber : ∀ d ∈ cs, isNumberChar d = true := by
    intro d hd
    by_cases hd' : d = '_'
    · rw [hd']
      rfl
    · simp [isNumberChar, hdigit d hd hd']
  have htake := takeWhile_append_stops (P := isNumberChar) (by decide) hnumber hrest
  cases cs with
  | nil => exact absurd hdigits.symm Nat.toDigits_ne_nil
  | cons c cs =>
    have hc : c.isDigit = true := hdigit c (by simp) (by simpa using hhead)
    have hslash : c ≠ '/' := by rintro rfl; cases hc
    have hstring : c ≠ '"' := by rintro rfl; cases hc
    have hchar : c ≠ '\'' := by rintro rfl; cases hc
    intro p
    have hread : Lexeme.read? ⟨c :: cs ++ rest, p⟩ = some (Lexeme.number ⟨c :: cs ++ rest, p⟩) := by
      simp [Lexeme.read?, hstring, hchar, hc]
    have hvalue : natOfDigits (digitsOf (c :: cs)) = n := by
      rw [digitsOf, hdigits, natOfDigits_toDigits]
    have hbound : n < integerBound := hn
    refine ⟨skipBlanks_of_start (isBlank_of_isDigit hc) hslash _ p, _, hread, ?_⟩
    simp only [Lexeme.number, htake, List.drop_left, fractionRun_of_stops hrest,
      Reader.advance_append, hvalue, if_pos hbound]
    exact ⟨rfl, rfl, rfl, rfl⟩

/-! #### Quotes -/

theorem EscapedText.read_quote (h : EscapedText text cs) (start : Position) (rest : List Char)
    (p : Position) :
    ∃ p', TextRun.read start (cs ++ '"' :: rest) p = ⟨text, none, ⟨rest, p'⟩, []⟩ := by
  obtain ⟨p', hp'⟩ := h.read start ('"' :: rest) p
  refine ⟨p'.step '"', ?_⟩
  rw [hp', TextRun.read, List.append_nil]

theorem EscapedText.read_hole (h : EscapedText text cs) (start : Position) (rest : List Char)
    (p : Position) : ∃ span p', TextRun.read start (cs ++ '$' :: '{' :: rest) p =
      ⟨text, some span, ⟨rest, p'⟩, []⟩ := by
  obtain ⟨p', hp'⟩ := h.read start ('$' :: '{' :: rest) p
  refine ⟨.upTo p' ((p'.step '$').step '{'), (p'.step '$').step '{', ?_⟩
  rw [hp', TextRun.read, List.append_nil]

theorem Lexeme.read?_quote (cs : List Char) (p : Position) :
    Lexeme.read? ⟨'"' :: cs, p⟩ = some (Lexeme.string p ⟨cs, p.step '"'⟩) := by
  simp [Lexeme.read?, Reader.advance, Position.advance]

theorem Lexeme.reads_string {text cs : List Char} (h : EscapedText text cs) (rest : List Char) :
    Lexeme.Reads ('"' :: (cs ++ '"' :: rest)) (.string (String.ofList text)) false rest := by
  intro p
  refine ⟨skipBlanks_of_start rfl (by decide) _ p, _, Lexeme.read?_quote _ p, ?_⟩
  obtain ⟨p', hp'⟩ := h.read_quote p rest (p.step '"')
  rw [Lexeme.string, hp']
  exact ⟨rfl, rfl, rfl, rfl⟩

theorem Lexeme.reads_stringStart {text cs : List Char} (h : EscapedText text cs)
    (rest : List Char) :
    Lexeme.Reads ('"' :: (cs ++ '$' :: '{' :: rest)) (.stringStart (String.ofList text)) true
      rest := by
  intro p
  refine ⟨skipBlanks_of_start rfl (by decide) _ p, _, Lexeme.read?_quote _ p, ?_⟩
  obtain ⟨span, p', hp'⟩ := h.read_hole p rest (p.step '"')
  rw [Lexeme.string, hp']
  exact ⟨rfl, rfl, rfl, rfl⟩

theorem Lexeme.continuation_stringEnd {text cs : List Char} (h : EscapedText text cs)
    (rest : List Char) (p : Position) :
    (Lexeme.continuation ⟨cs ++ '"' :: rest, p⟩).Is (.stringEnd (String.ofList text)) false
      rest := by
  obtain ⟨p', hp'⟩ := h.read_quote p rest p
  rw [Lexeme.continuation, hp']
  exact ⟨rfl, rfl, rfl, rfl⟩

theorem Lexeme.continuation_stringPart {text cs : List Char} (h : EscapedText text cs)
    (rest : List Char) (p : Position) :
    (Lexeme.continuation ⟨cs ++ '$' :: '{' :: rest, p⟩).Is (.stringPart (String.ofList text)) true
      rest := by
  obtain ⟨span, p', hp'⟩ := h.read_hole p rest p
  rw [Lexeme.continuation, hp']
  exact ⟨rfl, rfl, rfl, rfl⟩

theorem Lexeme.reads_char {c : Char} {ds : List Char} (h : Escaped '\'' c ds) (rest : List Char) :
    Lexeme.Reads ('\'' :: (ds ++ '\'' :: rest)) (.char c) false rest := by
  intro p
  have hread : Lexeme.read? ⟨'\'' :: (ds ++ '\'' :: rest), p⟩ =
      some (Lexeme.char p ⟨ds ++ '\'' :: rest, p.step '\''⟩) := by
    simp [Lexeme.read?, Reader.advance, Position.advance]
  refine ⟨skipBlanks_of_start rfl (by decide) _ p, _, hread, ?_⟩
  cases h with
  | raw hraw =>
    simp only [List.mem_cons, not_or, List.not_mem_nil, not_false_eq_true, and_true] at hraw
    obtain ⟨hquote, hslash, hline, -⟩ := hraw
    constructor <;> simp [Lexeme.char, readChar, hquote, Reader.advance]
  | escape hescape =>
    constructor <;>
      simp [Lexeme.char, readChar, readEscape, unescape?_escape? hescape, Reader.advance]

/-! #### Signs -/

theorem Lexeme.reads_sym (s : Symbol) {rest : List Char} (hrest : Stops rest) :
    Lexeme.Reads (s.text.toList ++ rest) (.sym s) false rest := by
  intro p
  cases rest with
  | nil => cases s <;> exact ⟨rfl, _, rfl, rfl, rfl, rfl, rfl⟩
  | cons d rest =>
    have hd := hrest d rfl
    simp only [List.mem_cons, List.not_mem_nil, or_false] at hd
    rcases hd with rfl | rfl | rfl | rfl | rfl <;> cases s <;>
      exact ⟨rfl, _, rfl, rfl, rfl, rfl, rfl⟩

/-- A token that stands alone is read from each of its spellings. -/
theorem Kind.Spelled.reads {k : Kind} {cs : List Char} (h : k.Spelled cs) {rest : List Char}
    (hrest : Stops rest) : Lexeme.Reads (cs ++ rest) k false rest := by
  cases k with
  | word w =>
    have hread := Lexeme.reads_name w.isName_text hrest
    rw [String.ofList_toList, Kind.ofName, w.ofText?_text] at hread
    rw [show cs = w.text.toList from h]
    exact hread
  | sym s =>
    rw [show cs = s.text.toList from h]
    exact Lexeme.reads_sym s hrest
  | ident name =>
    obtain ⟨rfl, hname, hword⟩ := h
    have hread := Lexeme.reads_name hname hrest
    rwa [String.ofList_toList, Kind.ofName_of_not_reserved hword] at hread
  | int value =>
    obtain ⟨n, rfl, hn, hhead, hdigits⟩ := h
    exact Lexeme.reads_int hn hhead hdigits hrest
  | char c =>
    obtain ⟨ds, hds, rfl⟩ := h
    rw [List.cons_append, List.append_assoc]
    exact Lexeme.reads_char hds rest
  | string text =>
    obtain ⟨ds, hds, rfl⟩ := h
    have hread := Lexeme.reads_string hds rest
    rw [String.ofList_toList] at hread
    rw [List.cons_append, List.append_assoc]
    exact hread
  | _ => exact h.elim

/-! ### Scanning -/

namespace Scanner

/-- From one place to another a scanner sends tokens of the kinds `ks` and finds no fault. The text
that is left stands at both places, so that no token could have been longer. -/
def Sends (cs : List Char) (ms : List Mode) (ks : List Kind) (cs' : List Char) (ms' : List Mode) :
    Prop :=
  ∀ p, ∃ p', (run ⟨⟨cs, p⟩, ms, [], []⟩).1.map Token.kind =
      ks ++ (run ⟨⟨cs', p'⟩, ms', [], []⟩).1.map Token.kind ∧
    (run ⟨⟨cs, p⟩, ms, [], []⟩).2 = (run ⟨⟨cs', p'⟩, ms', [], []⟩).2

/-- A hole that a lexeme opens is sent right after it. -/
theorem run_opening (r : Reader) (ms : List Mode) (hole : Option Span) :
    (run ⟨r, ms, opening hole, []⟩).1.map Token.kind =
        (if hole.isSome then [.holeStart] else []) ++ (run ⟨r, ms, [], []⟩).1.map Token.kind ∧
      (run ⟨r, ms, opening hole, []⟩).2 = (run ⟨r, ms, [], []⟩).2 := by
  cases hole with
  | none => exact ⟨rfl, rfl⟩
  | some span =>
    have hstep : step ⟨r, ms, opening (some span), []⟩ =
        .emit ⟨.holeStart, span⟩ ⟨r, ms, [], []⟩ := rfl
    rw [run_of_emit hstep]
    exact ⟨rfl, rfl⟩

/-- Outside a text, a scanner comes to what follows a gap. -/
theorem step_gap {gap cs : List Char} (hgap : Gap gap)
    (hcs : ∀ p, skipBlanks cs p = ⟨⟨cs, p⟩, none⟩) {ms : List Mode} (hms : ms.head? ≠ some .text)
    (p : Position) :
    ∃ p', (⟨⟨gap ++ cs, p⟩, ms, [], []⟩ : Scanner).step =
        (⟨⟨gap ++ cs, p⟩, ms, [], []⟩ : Scanner).code ∧
      (⟨⟨gap ++ cs, p⟩, ms, [], []⟩ : Scanner).skip = ⟨⟨cs, p'⟩, ms, [], []⟩ := by
  obtain ⟨p', hskip⟩ := hgap.skipBlanks_append cs p
  rw [hcs p'] at hskip
  refine ⟨p', ?_, ?_⟩
  · rcases ms with _ | ⟨_ | n, outer⟩
    · rfl
    · exact absurd rfl hms
    · rfl
  · simp [skip, Reader.skip, hskip]

/-- A gap at the end of a text is followed by the last token. -/
theorem run_gap {gap : List Char} (hgap : Gap gap) (p : Position) :
    (run ⟨⟨gap, p⟩, [], [], []⟩).1.map Token.kind = [.eof] ∧
      (run ⟨⟨gap, p⟩, [], [], []⟩).2 = [] := by
  have hblank (p : Position) : skipBlanks [] p = ⟨⟨[], p⟩, none⟩ := rfl
  have houtside : ([] : List Mode).head? ≠ some .text := by simp
  obtain ⟨p', hcode, hskip⟩ := step_gap hgap hblank houtside p
  rw [code_eq, hskip, List.append_nil] at hcode
  rw [run_of_finish hcode]
  exact ⟨rfl, rfl⟩

namespace Sends

theorem refl (cs : List Char) (ms : List Mode) : Sends cs ms [] cs ms :=
  fun p => ⟨p, rfl, rfl⟩

theorem trans {cs₁ cs₂ cs₃ : List Char} {ms₁ ms₂ ms₃ : List Mode} {ks ls : List Kind}
    (h₁ : Sends cs₁ ms₁ ks cs₂ ms₂) (h₂ : Sends cs₂ ms₂ ls cs₃ ms₃) :
    Sends cs₁ ms₁ (ks ++ ls) cs₃ ms₃ := by
  intro p
  obtain ⟨p₂, hk₁, hf₁⟩ := h₁ p
  obtain ⟨p₃, hk₂, hf₂⟩ := h₂ p₂
  refine ⟨p₃, ?_, hf₁.trans hf₂⟩
  rw [hk₁, hk₂, List.append_assoc]

/-- One step that sends a lexeme. -/
theorem of_step {cs rest : List Char} {ms ms' : List Mode} {k k' : Kind} {hole : Bool}
    (h : ∀ p, ∃ (t : Token) (l : Lexeme), t.kind = k' ∧ l.Is k hole rest ∧
      step ⟨⟨cs, p⟩, ms, [], []⟩ = .emit t ⟨l.next, ms', opening l.hole, []⟩) :
    Sends cs ms (k' :: if hole then [.holeStart] else []) rest ms' := by
  intro p
  obtain ⟨t, l, rfl, hl, hstep⟩ := h p
  obtain ⟨hkinds, hfaults⟩ := run_opening l.next ms' l.hole
  obtain ⟨-, hhole, hrest, -⟩ := hl
  have hnext : l.next = ⟨rest, l.next.pos⟩ := by rw [← hrest]
  refine ⟨l.next.pos, ?_⟩
  rw [run_of_emit hstep, List.map_cons, hkinds, hfaults, ← hnext, hhole]
  exact ⟨rfl, rfl⟩

/-- A lexeme behind a gap. -/
theorem lexeme {gap cs rest : List Char} {ms : List Mode} {k : Kind} {hole : Bool} (hgap : Gap gap)
    (hms : ms.head? ≠ some .text) (h : Lexeme.Reads cs k hole rest) :
    Sends (gap ++ cs) ms ((surround k ms).1 :: if hole then [.holeStart] else []) rest
      (surround k ms).2 := by
  refine of_step (k := k) fun p => ?_
  obtain ⟨p', hcode, hskip⟩ := step_gap hgap (fun p => (h p).1) hms p
  obtain ⟨-, l, hread, hl⟩ := h p'
  refine ⟨⟨(surround k ms).1, .upTo p' l.next.pos⟩, l, rfl, hl, ?_⟩
  have hfull : (⟨⟨cs, p'⟩, ms, [], []⟩ : Scanner).full = false := rfl
  rw [hcode, code_eq, hskip, hfull]
  cases cs with
  | nil => cases hread
  | cons c cs =>
    simp only [hread, accept, hl.kind, hl.faults, List.append_nil, Bool.false_eq_true, if_false]

/-- The text behind a hole. -/
theorem continuation {cs rest : List Char} {k : Kind} {hole : Bool}
    (h : ∀ p, (Lexeme.continuation ⟨cs, p⟩).Is k hole rest) (outer : List Mode) :
    Sends cs (.text :: outer) (k :: if hole then [.holeStart] else []) rest
      (if hole then .hole 0 :: outer else outer) := by
  refine of_step (k := k) fun p => ?_
  have hl := h p
  refine ⟨⟨k, .upTo p (Lexeme.continuation ⟨cs, p⟩).next.pos⟩, _, rfl, hl, ?_⟩
  have hstep : step ⟨⟨cs, p⟩, .text :: outer, [], []⟩ =
      resume ⟨⟨cs, p⟩, .text :: outer, [], []⟩ outer := rfl
  rw [hstep, resume]
  simp only [hl.kind, hl.hole, hl.faults, List.append_nil]

/-- The brace that closes a hole, behind a gap. -/
theorem holeEnd {gap : List Char} (hgap : Gap gap) (rest : List Char) (outer : List Mode) :
    Sends (gap ++ '}' :: rest) (.hole 0 :: outer) [.holeEnd] rest (.text :: outer) := by
  have hread : Lexeme.Reads ('}' :: rest) (.sym .rbrace) false rest := by
    intro p
    refine ⟨skipBlanks_of_start rfl (by decide) _ p, ?_⟩
    cases rest <;> exact ⟨_, rfl, rfl, rfl, rfl, rfl⟩
  exact lexeme hgap (by simp) hread

/-- A plain token that does not close the hole around it. -/
theorem plain {k : Kind} (hk : k.isPlain = true) {cs : List Char} (h : k.Spelled cs)
    {ms ms' : List Mode} (hms : Mode.Carries ms [k] ms') {gap : List Char} (hgap : Gap gap)
    {rest : List Char} (hrest : Stops rest) : Sends (gap ++ (cs ++ rest)) ms [k] rest ms' := by
  have hlexeme := lexeme hgap hms.left_ne_text (h.reads hrest)
  rcases Mode.Carries.surround_plain hk hms.left_ne_text with ⟨hkind, hms₁⟩ | ⟨outer, rfl, rfl, -⟩
  · rw [hkind, hms₁.unique hms] at hlexeme
    exact hlexeme
  · cases hms with
    | hole hn => cases hn

end Sends

end Scanner

/-! ### Trees -/

open Scanner (Sends)

theorem Mode.carries_of_match {ks : List Kind} (h : bracesMatch ks = true) (outer : List Mode) :
    Mode.Carries (.hole 0 :: outer) ks (.hole 0 :: outer) :=
  .hole (of_decide_eq_true h) outer

theorem Forest.Written.blank {f : Forest} {cs : List Char} (h : f.Written cs) {c : Char}
    (hc : isBlank c = true) : f.Written (c :: cs) := by
  cases f with
  | nil => exact Gap.blank hc h
  | cons t f =>
    obtain ⟨gap, tree, rest, hgap, htree, hrest, rfl⟩ := h
    exact ⟨c :: gap, tree, rest, .blank hc hgap, htree, hrest, rfl⟩

mutual

/-- A tree is sent from a text that writes it, behind a gap and in front of what ends a token. -/
theorem TokenTree.sends (t : TokenTree) {cs : List Char} (h : t.Written cs)
    (hb : t.balanced = true) {ms ms' : List Mode} (hms : Mode.Carries ms t.kinds ms')
    {gap : List Char} (hgap : Gap gap) {rest : List Char} (hrest : Stops rest) :
    Sends (gap ++ (cs ++ rest)) ms t.kinds rest ms' := by
  cases t with
  | plain k hk => exact .plain hk h hms hgap hrest
  | text start holes =>
    obtain ⟨text, tail, htext, htail, rfl⟩ := h
    obtain ⟨inside, ks, rfl, hks, hholes⟩ := holes.sends htail hb ms rest
    obtain rfl : ms' = ms := hms.unique (.text hms.left_ne_text hb)
    have hstart := Lexeme.reads_stringStart htext (inside ++ rest)
    rw [String.ofList_toList] at hstart
    have hopened : Sends _ ms' [.stringStart start, .holeStart] _ (.hole 0 :: ms') :=
      .lexeme hgap hms.left_ne_text hstart
    rw [TokenTree.kinds, hks]
    simpa using hopened.trans hholes

/-- Trees are sent from a text that writes them. A gap behind the last is left. -/
theorem Forest.sends (f : Forest) {cs : List Char} (h : f.Written cs) (hb : f.balanced = true)
    {ms ms' : List Mode} (hms : Mode.Carries ms f.kinds ms') {rest : List Char}
    (hrest : Stops rest) :
    ∃ gap, Gap gap ∧ Sends (cs ++ rest) ms f.kinds (gap ++ rest) ms' := by
  cases f with
  | nil =>
    obtain rfl : ms' = ms := hms.right_eq_of_nil
    exact ⟨cs, h, .refl _ _⟩
  | cons t f =>
    obtain ⟨gap, tree, tail, hgap, htree, htail, rfl⟩ := h
    rw [Forest.balanced, Bool.and_eq_true] at hb
    rw [Forest.kinds, Mode.Carries.append_iff] at hms
    obtain ⟨mid, hmid, hms'⟩ := hms
    simp only [Forest.kinds, List.append_assoc]
    rcases htail with ⟨rfl, rfl⟩ | ⟨blank, after, rfl, hblank, hafter⟩
    · obtain rfl : ms' = mid := hms'.right_eq_of_nil
      refine ⟨[], .nil, ?_⟩
      rw [Forest.kinds, List.append_nil]
      exact t.sends htree hb.1 hmid hgap hrest
    · have hfirst := t.sends htree hb.1 hmid hgap (stops_blank hblank (after ++ rest))
      obtain ⟨last, hlast, hothers⟩ := f.sends (hafter.blank hblank) hb.2 hms' hrest
      exact ⟨last, hlast, hfirst.trans hothers⟩

/-- The holes of a string are sent from a text that writes them, with the end of the string. -/
theorem Holes.sends (hs : Holes) {cs : List Char} (h : hs.Written cs) (hb : hs.balanced = true)
    (outer : List Mode) (rest : List Char) :
    ∃ inside ks, cs = '$' :: '{' :: inside ∧ hs.kinds = .holeStart :: ks ∧
      Sends (inside ++ rest) (.hole 0 :: outer) ks rest outer := by
  cases hs with
  | last hole stop =>
    obtain ⟨inside, text, hinside, htext, rfl⟩ := h
    rw [Holes.balanced, Bool.and_eq_true] at hb
    obtain ⟨gap, hgap, hhole⟩ := hole.sends hinside hb.2 (Mode.carries_of_match hb.1 outer)
      (stops_brace (text ++ '"' :: rest))
    have hstop := Sends.continuation (Lexeme.continuation_stringEnd htext rest) outer
    rw [String.ofList_toList] at hstop
    refine ⟨_, _, rfl, rfl, ?_⟩
    simpa using (hhole.trans (.holeEnd hgap _ outer)).trans hstop
  | more hole part holes =>
    obtain ⟨inside, text, tail, hinside, htext, htail, rfl⟩ := h
    rw [Holes.balanced, Bool.and_eq_true, Bool.and_eq_true] at hb
    obtain ⟨after, ks, rfl, hks, hholes⟩ := holes.sends htail hb.2 outer rest
    obtain ⟨gap, hgap, hhole⟩ := hole.sends hinside hb.1.2 (Mode.carries_of_match hb.1.1 outer)
      (stops_brace (text ++ '$' :: '{' :: (after ++ rest)))
    have hpart := Sends.continuation (Lexeme.continuation_stringPart htext (after ++ rest)) outer
    rw [String.ofList_toList] at hpart
    refine ⟨_, _, rfl, rfl, ?_⟩
    rw [hks]
    simpa using ((hhole.trans (.holeEnd hgap _ outer)).trans hpart).trans hholes

end

/-- Scanning a text that writes trees of tokens gives back these trees, and no fault. -/
theorem Token.scan_of_written {f : Forest} {text : String} (h : f.Written text.toList)
    (hb : f.balanced = true) :
    (Token.scan text).1.map Token.kind = f.kinds ++ [.eof] ∧ (Token.scan text).2 = [] := by
  have hend : Stops [] := by simp [Stops]
  obtain ⟨gap, hgap, hsends⟩ := f.sends h hb (.top f.kinds) hend
  obtain ⟨p', hkinds, hfaults⟩ := hsends .first
  obtain ⟨heof, hnone⟩ := Scanner.run_gap hgap p'
  rw [List.append_nil, List.append_nil] at hkinds hfaults
  rw [heof] at hkinds
  exact ⟨hkinds, hfaults.trans hnone⟩

/-- A string in a hole of a string, between braces, and a number. -/
def nestedTrees : Forest :=
  .cons (.text "a" (.last
    (.cons (.plain (.sym .lbrace) rfl)
      (.cons (.text "" (.last (.cons (.plain (.ident "x") rfl) .nil) ""))
        (.cons (.plain (.sym .rbrace) rfl) .nil))) "\n"))
    (.cons (.plain (.int 10) rfl) .nil)

/-- A text that writes them, with an escape, an underscore and a comment. -/
def nestedTreesText : String :=
  "\"a$\x7b \x7b \"$\x7bx\x7d\" \x7d \x7d\\n\" 1_0 //b\n"

theorem Token.scan_of_written_nestedTrees :
    (Token.scan nestedTreesText).1.map Token.kind = nestedTrees.kinds ++ [.eof] ∧
      (Token.scan nestedTreesText).2 = [] := by
  refine Token.scan_of_written ?_ (by decide)
  have hname : Forest.Written (.cons (.plain (.ident "x") rfl) .nil) ['x'] := by
    refine ⟨[], ['x'], [], .nil, ⟨rfl, ⟨⟨'x', rfl, rfl⟩, List.all_eq_true.mp rfl⟩, ?_⟩,
      .inl ⟨rfl, rfl⟩, rfl⟩
    intro w
    cases w <;> decide
  have hinner : TokenTree.Written (.text "" (.last (.cons (.plain (.ident "x") rfl) .nil) ""))
      ['"', '$', '{', 'x', '}', '"'] :=
    ⟨[], _, .nil, ⟨['x'], [], hname, .nil, rfl⟩, rfl⟩
  have hhole : Forest.Written (.cons (.plain (.sym .lbrace) rfl)
      (.cons (.text "" (.last (.cons (.plain (.ident "x") rfl) .nil) ""))
        (.cons (.plain (.sym .rbrace) rfl) .nil)))
      [' ', '{', ' ', '"', '$', '{', 'x', '}', '"', ' ', '}', ' '] := by
    refine ⟨[' '], ['{'], _, .blank rfl .nil, rfl, .inr ⟨' ', _, rfl, rfl, ?_⟩, rfl⟩
    refine ⟨[], _, _, .nil, hinner, .inr ⟨' ', _, rfl, rfl, ?_⟩, rfl⟩
    exact ⟨[], ['}'], _, .nil, rfl, .inr ⟨' ', [], rfl, rfl, .nil⟩, rfl⟩
  have hnumber : Forest.Written (.cons (.plain (.int 10) rfl) .nil)
      ['1', '_', '0', ' ', '/', '/', 'b', '\n'] := by
    refine ⟨[], ['1', '_', '0'], _, .nil, ⟨10, rfl, by decide, by decide, by decide⟩, ?_, rfl⟩
    exact .inr ⟨' ', _, rfl, rfl, @Gap.line ['b'] [] (by decide) .nil⟩
  exact ⟨[], _, _, .nil, ⟨['a'], _, .cons (.raw (by decide)) .nil,
      ⟨_, ['\\', 'n'], hhole, .cons (.escape rfl) .nil, rfl⟩, rfl⟩,
    .inr ⟨' ', _, rfl, rfl, hnumber⟩, by decide⟩

end CarvFront
