import CarvFront.Token.Lexer

/-! What a lexeme is read from. Every reader goes on over the characters it leaves behind, and a
lexeme without faults is written with exactly those. -/
namespace CarvFront
variable {cs : List Char} {l : Lexeme} {r : Reader}

/-! ### Passing over characters -/

/-- One reader comes behind another, with the characters `cs` between them. -/
structure Reader.Passes (r : Reader) (cs : List Char) (next : Reader) : Prop where
  rest : r.rest = cs ++ next.rest
  pos : next.pos = r.pos.advance cs

namespace Reader.Passes

theorem refl (r : Reader) : r.Passes [] r :=
  ⟨rfl, rfl⟩

theorem trans {r r' r'' : Reader} {as bs : List Char} (h : r.Passes as r') (h' : r'.Passes bs r'') :
    r.Passes (as ++ bs) r'' := by
  constructor
  · rw [h.rest, h'.rest, List.append_assoc]
  · rw [h'.pos, h.pos, Position.advance_append]

theorem cons {cs ds : List Char} {p : Position} {next : Reader} (c : Char)
    (h : (⟨cs, p.step c⟩ : Reader).Passes ds next) :
    (⟨c :: cs, p⟩ : Reader).Passes (c :: ds) next :=
  ⟨congrArg (c :: ·) h.rest, h.pos⟩

theorem advance (r : Reader) (n : Nat) : r.Passes (r.rest.take n) (r.advance n) :=
  ⟨(List.take_append_drop n r.rest).symm, rfl⟩

/-- A reader goes on over the characters that stand in front. -/
theorem advance_length {r : Reader} {cs rest : List Char} (h : r.rest = cs ++ rest) :
    r.Passes cs (r.advance cs.length) := by
  have hpass := advance r cs.length
  rwa [h, List.take_left] at hpass

end Reader.Passes

theorem passes_skipBlanks (cs : List Char) (p : Position) :
    ∃ gap, (⟨cs, p⟩ : Reader).Passes gap (skipBlanks cs p).next := by
  refine skipBlanks.induct
    (fun cs p => ∃ gap, (⟨cs, p⟩ : Reader).Passes gap (skipBlanks cs p).next)
    (fun start cs p => ∃ gap, (⟨cs, p⟩ : Reader).Passes gap (skipBlock start cs p).next)
    (fun cs p => ∃ gap, (⟨cs, p⟩ : Reader).Passes gap (skipLine cs p).next)
    ?_ ?_ ?_ ?_ (fun _ => ⟨_, .refl _⟩) ?_ ?_ (fun _ _ => ⟨_, .refl _⟩) ?_ ?_
    (fun _ => ⟨_, .refl _⟩) cs p
  · rintro cs p ⟨gap, h⟩
    exact ⟨_, .cons '/' (.cons '/' h)⟩
  · rintro cs p ⟨gap, h⟩
    exact ⟨_, .cons '/' (.cons '*' h)⟩
  · rintro c cs p hline hblock hblank ⟨gap, h⟩
    rw [skipBlanks.eq_3 p c cs hline hblock, if_pos hblank]
    exact ⟨_, .cons c h⟩
  · intro c cs p hline hblock hblank
    rw [skipBlanks.eq_3 p c cs hline hblock, if_neg hblank]
    exact ⟨_, .refl _⟩
  · rintro start cs p ⟨gap, h⟩
    exact ⟨_, .cons '*' (.cons '/' h)⟩
  · rintro start c cs p hend ⟨gap, h⟩
    rw [skipBlock.eq_2 start p c cs hend]
    exact ⟨_, .cons c h⟩
  · rintro cs p ⟨gap, h⟩
    exact ⟨_, .cons '\n' h⟩
  · rintro c cs p hc ⟨gap, h⟩
    rw [skipLine, if_neg hc]
    exact ⟨_, .cons c h⟩

theorem Reader.passes_skip (r : Reader) : ∃ gap, r.Passes gap r.skip.next :=
  passes_skipBlanks r.rest r.pos

/-! ### How tokens are written -/

/-- The characters that stand for a text between quotes. Inside them no hole opens. -/
inductive Unescapes : List Char → List Char → Prop
  | nil : Unescapes [] []
  | plain {c : Char} {cs text : List Char} (hc : c ≠ '"' ∧ c ≠ '\\' ∧ c ≠ '\n')
      (hhole : c = '$' → cs.head? ≠ some '{') (h : Unescapes cs text) :
      Unescapes (c :: cs) (c :: text)
  | escape {c d : Char} {cs text : List Char} (hc : unescape? c = some d) (h : Unescapes cs text) :
      Unescapes ('\\' :: c :: cs) (d :: text)

theorem unescape?_newline {c d : Char} (h : unescape? c = some d) : c ≠ '\n' := by
  rintro rfl
  cases h

theorem Unescapes.newline_not_mem {text : List Char} (h : Unescapes cs text) : '\n' ∉ cs := by
  induction h with
  | nil => exact List.not_mem_nil
  | plain hc _ _ ih => simp [ih, hc.2.2.symm]
  | escape hc _ ih => simp [ih, (unescape?_newline hc).symm]

/-- The characters between the quotes of a character literal. -/
def CharBody (c : Char) (body : List Char) : Prop :=
  body = [c] ∧ c ≠ '\n' ∨ ∃ e, body = ['\\', e] ∧ unescape? e = some c

/-- How a token is written. The parts of a text with holes take the `${` of the hole behind them. -/
def Kind.WrittenAs : Kind → List Char → Prop
  | .int n, cs => (∀ c ∈ cs, isNumberChar c) ∧ n = natOfDigits (digitsOf cs)
  | .float d, cs => ∃ whole part, cs = whole ++ '.' :: part ∧
      (∀ c ∈ whole ++ part, isNumberChar c) ∧
      d = Double.ofDecimal (natOfDigits (digitsOf whole ++ digitsOf part)) (digitsOf part).length
  | .string text, cs => ∃ body, Unescapes body text.toList ∧ cs = '"' :: (body ++ ['"'])
  | .char c, cs => ∃ body, CharBody c body ∧ cs = '\'' :: (body ++ ['\''])
  | .stringStart text, cs => ∃ body, Unescapes body text.toList ∧ cs = '"' :: (body ++ ['$', '{'])
  | .stringPart text, cs => ∃ body, Unescapes body text.toList ∧ cs = body ++ ['$', '{']
  | .stringEnd text, cs => ∃ body, Unescapes body text.toList ∧ cs = body ++ ['"']
  | .holeStart, cs => cs = ['$', '{']
  | .holeEnd, cs => cs = ['}']
  | .ident name, cs => cs = name.toList ∧ ∀ c ∈ cs, isNameChar c
  | .word w, cs => cs = w.text.toList
  | .sym s, cs => cs = s.text.toList
  | .eof, cs => cs = []

theorem newline_not_name : isNameChar '\n' = false := by decide +kernel

theorem newline_not_number : isNumberChar '\n' = false := by decide +kernel

theorem Keyword.newline_not_mem (w : Keyword) : '\n' ∉ w.text.toList := by
  cases w <;> decide +kernel

theorem Symbol.newline_not_mem (s : Symbol) : '\n' ∉ s.text.toList := by
  cases s <;> decide +kernel

/-- A token stands on one line. -/
theorem Kind.newline_not_mem {k : Kind} (h : k.WrittenAs cs) : '\n' ∉ cs := by
  cases k with
  | int n =>
    intro hmem
    exact Bool.false_ne_true (newline_not_number.symm.trans (h.1 _ hmem))
  | float d =>
    obtain ⟨whole, part, rfl, hall, -⟩ := h
    intro hmem
    have hmem' : '\n' ∈ whole ++ part := by simpa using hmem
    exact Bool.false_ne_true (newline_not_number.symm.trans (hall _ hmem'))
  | string text =>
    obtain ⟨body, hbody, rfl⟩ := h
    simpa using hbody.newline_not_mem
  | char c =>
    obtain ⟨body, ⟨rfl, hc⟩ | ⟨e, rfl, he⟩, rfl⟩ := h
    · simpa using hc.symm
    · simpa using (unescape?_newline he).symm
  | stringStart text =>
    obtain ⟨body, hbody, rfl⟩ := h
    simpa using hbody.newline_not_mem
  | stringPart text =>
    obtain ⟨body, hbody, rfl⟩ := h
    simpa using hbody.newline_not_mem
  | stringEnd text =>
    obtain ⟨body, hbody, rfl⟩ := h
    simpa using hbody.newline_not_mem
  | holeStart => rw [h]; decide
  | holeEnd => rw [h]; decide
  | ident name =>
    intro hmem
    exact Bool.false_ne_true (newline_not_name.symm.trans (h.2 _ hmem))
  | word w => rw [h]; exact w.newline_not_mem
  | sym s => rw [h]; exact s.newline_not_mem
  | eof => rw [h]; exact List.not_mem_nil

/-- How a token begins, whatever is wrong with it further on. -/
def Kind.Opens : Kind → List Char → Prop
  | .int _, cs | .float _, cs => ∃ d ∈ cs.head?, d.isDigit
  | .string _, cs | .stringStart _, cs => cs.head? = some '"'
  | .char _, cs => cs.head? = some '\''
  | .stringPart _, _ | .stringEnd _, _ => True
  | k, cs => k.WrittenAs cs

/-! ### Lexemes -/

/-- A lexeme is read from `r` over the characters `cs`. -/
structure Lexeme.Covers (l : Lexeme) (r : Reader) (cs : List Char) : Prop where
  passes : r.Passes cs l.next
  opens : l.kind.Opens cs
  /-- Without faults it is written with just these characters. -/
  written : l.faults = [] → l.kind.WrittenAs cs
  /-- Where it stops for a hole, the `${` of that is its end. -/
  hole : ∀ span ∈ l.hole, ∃ ds, cs = ds ++ ['$', '{'] ∧ span = .upTo (r.pos.advance ds) l.next.pos

/-- Most lexemes have no hole. -/
theorem Lexeme.Covers.ofPlain (passes : r.Passes cs l.next) (opens : l.kind.Opens cs)
    (written : l.faults = [] → l.kind.WrittenAs cs) (h : l.hole = none) : l.Covers r cs where
  passes := passes
  opens := opens
  written := written
  hole span hspan := by
    rw [h] at hspan
    cases hspan

/-- A name, reserved or not, is written as it is. -/
theorem Kind.writtenAs_ofName (h : ∀ c ∈ cs, isNameChar c) :
    (Kind.ofName (String.ofList cs)).WrittenAs cs := by
  unfold Kind.ofName
  split
  · next w hw =>
    have htext : w.text = String.ofList cs := by simpa using List.find?_some hw
    exact (htext ▸ String.toList_ofList).symm
  · exact ⟨String.toList_ofList.symm, h⟩

theorem Kind.opens_ofName (h : ∀ c ∈ cs, isNameChar c) :
    (Kind.ofName (String.ofList cs)).Opens cs := by
  have hwritten := Kind.writtenAs_ofName h
  unfold Kind.ofName at hwritten ⊢
  split
  · next w hw => rwa [hw] at hwritten
  · next hw => rwa [hw] at hwritten

theorem forall_mem_takeWhile {p : Char → Bool} (cs : List Char) : ∀ c ∈ cs.takeWhile p, p c :=
  List.all_eq_true.mp List.all_takeWhile

namespace Lexeme

theorem covers_name (r : Reader) :
    (Lexeme.name r).Covers r (r.rest.takeWhile isNameChar) := by
  have hall := forall_mem_takeWhile (p := isNameChar) r.rest
  exact .ofPlain (.advance_length (List.takeWhile_append_dropWhile (p := isNameChar)).symm)
    (Kind.opens_ofName hall) (fun _ => Kind.writtenAs_ofName hall) rfl

end Lexeme

theorem fractionRun_eq_some {part : List Char} (h : fractionRun cs = some part) :
    (∃ rest, cs = '.' :: part ++ rest) ∧ ∀ c ∈ part, isNumberChar c := by
  unfold fractionRun at h
  split at h
  · next d cs =>
    split at h
    · cases h
      refine ⟨⟨(d :: cs).dropWhile isNumberChar, ?_⟩, forall_mem_takeWhile _⟩
      rw [List.cons_append, List.takeWhile_append_dropWhile]
    · cases h
  · cases h

namespace Lexeme

theorem covers_number {r : Reader} {d : Char} {cs : List Char} (hr : r.rest = d :: cs)
    (hd : d.isDigit) : ∃ ds, (Lexeme.number r).Covers r ds := by
  have hd' : isNumberChar d = true := by simp [isNumberChar, hd]
  have hsplit := (List.takeWhile_append_dropWhile (p := isNumberChar) (l := r.rest)).symm
  have hhead : (r.rest.takeWhile isNumberChar).head? = some d := by simp [hr, hd']
  have hall := forall_mem_takeWhile (p := isNumberChar) r.rest
  have hdrop : r.rest.drop (r.rest.takeWhile isNumberChar).length = r.rest.dropWhile isNumberChar := by
    have hleft : (r.rest.takeWhile isNumberChar ++ r.rest.dropWhile isNumberChar).drop _ = _ :=
      List.drop_left
    rwa [← hsplit] at hleft
  unfold Lexeme.number
  dsimp only
  rw [hdrop]
  split
  · next part hpart =>
    obtain ⟨⟨rest, hrest⟩, hpart'⟩ := fractionRun_eq_some hpart
    rw [hrest, ← List.append_assoc] at hsplit
    refine ⟨r.rest.takeWhile isNumberChar ++ '.' :: part, .ofPlain ?_ ?_ ?_ rfl⟩
    · have hpass := Reader.Passes.advance_length hsplit
      rw [List.length_append, List.length_cons, Nat.add_comm part.length, ← Nat.add_assoc] at hpass
      exact hpass
    · exact ⟨d, by simp [hhead], hd⟩
    · intro _
      refine ⟨_, part, rfl, fun c hc => ?_, rfl⟩
      rcases List.mem_append.mp hc with hc | hc
      · exact hall c hc
      · exact hpart' c hc
  · refine ⟨r.rest.takeWhile isNumberChar, ?_⟩
    have hpass : r.Passes (r.rest.takeWhile isNumberChar) _ := .advance_length hsplit
    split
    · exact .ofPlain hpass ⟨d, hhead, hd⟩ (fun _ => ⟨hall, rfl⟩) rfl
    · exact .ofPlain hpass ⟨d, hhead, hd⟩ (fun h => absurd h (List.cons_ne_nil _ _)) rfl

end Lexeme

theorem passes_readEscape (hr : r.rest = '\\' :: cs) : ∃ body, r.Passes body (readEscape r).2.1 ∧
      ((readEscape r).2.2 = [] → ∃ c, (readEscape r).1 = some c ∧ CharBody c body) := by
  unfold readEscape
  split
  · next b c rest hrest =>
    obtain ⟨rfl, rfl⟩ := List.cons.inj (hr.symm.trans hrest)
    refine ⟨['\\', c], ?_⟩
    have hpass : r.Passes ['\\', c] (r.advance 2) := .advance_length hr
    dsimp only
    split
    · next d hd => exact ⟨hpass, fun _ => ⟨d, rfl, .inr ⟨c, rfl, hd⟩⟩⟩
    · exact ⟨hpass, fun h => absurd h (List.cons_ne_nil _ _)⟩
  · exact ⟨_, .advance r 1, fun h => absurd h (List.cons_ne_nil _ _)⟩

theorem passes_readChar (r : Reader) :
    ∃ body, r.Passes body (readChar r).2.1 ∧
      ((readChar r).2.2 = [] → (readChar r).2.1.rest.head? = some '\'' →
        r.rest.head? = some '\'' ∨ ∃ c, (readChar r).1 = some c ∧ CharBody c body) := by
  unfold readChar
  split
  · exact ⟨[], .refl r, fun _ h => .inl h⟩
  · exact ⟨[], .refl r, fun _ h => .inl h⟩
  · next cs hr =>
    obtain ⟨body, hpass, hbody⟩ := passes_readEscape hr
    exact ⟨body, hpass, fun h _ => .inr (hbody h)⟩
  · next c cs hnewline _ hr =>
    refine ⟨[c], .advance_length hr, fun _ _ => .inr ⟨c, rfl, .inl ⟨rfl, ?_⟩⟩⟩
    rintro rfl
    exact hnewline rfl

namespace Lexeme

theorem covers_char {r : Reader} {cs : List Char} (hr : r.rest = '\'' :: cs) :
    ∃ ds, (Lexeme.char r.pos (r.advance 1)).Covers r ds := by
  have hopen : r.Passes ['\''] (r.advance 1) := .advance_length hr
  unfold Lexeme.char
  split
  · next rest hrest =>
    have hclose : (r.advance 1).Passes ['\''] ((r.advance 1).advance 1) := .advance_length hrest
    exact ⟨_, .ofPlain (hopen.trans hclose) rfl (fun h => absurd h (List.cons_ne_nil _ _)) rfl⟩
  · next hempty =>
    obtain ⟨body, hpass, hbody⟩ := passes_readChar (r.advance 1)
    obtain ⟨⟨value, after, faults⟩, hread⟩ : ∃ x, readChar (r.advance 1) = x := ⟨_, rfl⟩
    rw [hread] at hpass hbody ⊢
    dsimp only at hpass hbody ⊢
    split
    · next rest hrest =>
      have hclose : after.Passes ['\''] (after.advance 1) := .advance_length hrest
      refine ⟨_, .ofPlain (hopen.trans (hpass.trans hclose)) rfl (fun h => ?_) rfl⟩
      rcases hbody h (by rw [hrest]; rfl) with hquote | ⟨c, rfl, hc⟩
      · obtain ⟨rest', hrest'⟩ := List.head?_eq_some_iff.mp hquote
        exact absurd hrest' (hempty rest')
      · exact ⟨body, hc, rfl⟩
    · refine ⟨_, .ofPlain (hopen.trans (hpass.trans (.advance after _))) rfl (fun h => ?_) rfl⟩
      exact absurd h (List.append_ne_nil_of_right_ne_nil _ (List.cons_ne_nil _ _))

end Lexeme

/-- What a run of text between quotes is read from. -/
structure TextRun.Covers (run : TextRun) (r : Reader) (cs : List Char) : Prop where
  passes : r.Passes cs run.next
  written : run.faults = [] → ∃ body, Unescapes body run.text ∧
    cs = body ++ if run.hole.isSome then ['$', '{'] else ['"']
  hole : ∀ span ∈ run.hole,
    ∃ ds, cs = ds ++ ['$', '{'] ∧ span = .upTo (r.pos.advance ds) run.next.pos

namespace TextRun.Covers

theorem unclosed (start : Position) (r : Reader) : (TextRun.unclosed start r).Covers r [] where
  passes := .refl r
  written h := absurd h (List.cons_ne_nil _ _)
  hole span h := by cases h

theorem fault (run : TextRun) (f : Fault) {r : Reader} {cs : List Char}
    (passes : r.Passes cs run.next) (hole : ∀ span ∈ run.hole,
      ∃ ds, cs = ds ++ ['$', '{'] ∧ span = .upTo (r.pos.advance ds) run.next.pos) :
    (run.fault f).Covers r cs where
  passes := passes
  written h := absurd h (List.cons_ne_nil _ _)
  hole := hole

/-- A hole behind `as` is a hole behind whatever stands in front of those. -/
theorem hole_append {run : TextRun} {r : Reader} {cs : List Char} {p : Position}
    (h : run.Covers r cs) (as : List Char) (hr : r.pos = p.advance as) (span : Span)
    (hspan : span ∈ run.hole) :
    ∃ ds, as ++ cs = ds ++ ['$', '{'] ∧ span = .upTo (p.advance ds) run.next.pos := by
  obtain ⟨ds, rfl, hds⟩ := h.hole span hspan
  refine ⟨as ++ ds, (List.append_assoc ..).symm, ?_⟩
  rw [Position.advance_append, ← hr]
  exact hds

end TextRun.Covers

/-- A text is read up to its quote, to the `${` of a hole or to the end of its line. -/
theorem TextRun.covers_read (start : Position) (cs : List Char) (p : Position) :
    ∃ ds, (read start cs p).Covers ⟨cs, p⟩ ds := by
  fun_induction read start cs p with
  | case1 cs p =>
    refine ⟨['"'], .cons '"' (.refl _), fun _ => ⟨[], .nil, rfl⟩, ?_⟩
    intro span h
    cases h
  | case2 c cs p next d hd ih =>
    obtain ⟨ds, h⟩ := ih
    refine ⟨'\\' :: c :: ds, .cons '\\' (.cons c h.passes), fun hnone => ?_,
      h.hole_append ['\\', c] rfl⟩
    obtain ⟨body, hbody, rfl⟩ := h.written hnone
    exact ⟨_, .escape hd hbody, rfl⟩
  | case3 c cs p next hc ih =>
    obtain ⟨ds, h⟩ := ih
    exact ⟨'\\' :: c :: ds, .fault ((read start cs next).cons c) _
      (.cons '\\' (.cons c h.passes)) (h.hole_append ['\\', c] rfl)⟩
  | case4 p next =>
    exact ⟨['\\'], .fault (unclosed start ⟨[], next⟩) _ (.cons '\\' (.refl _))
      (fun span h => by cases h)⟩
  | case5 cs p next =>
    refine ⟨['$', '{'], .cons '$' (.cons '{' (.refl _)), fun _ => ⟨[], .nil, rfl⟩, ?_⟩
    intro span h
    cases h
    exact ⟨[], rfl, rfl⟩
  | case6 cs p => exact ⟨[], .unclosed start _⟩
  | case7 p => exact ⟨[], .unclosed start _⟩
  | case8 c cs p hquote hescape hlast hhole hnewline ih =>
    obtain ⟨ds, h⟩ := ih
    refine ⟨c :: ds, .cons c h.passes, fun hnone => ?_, h.hole_append [c] rfl⟩
    obtain ⟨body, hbody, rfl⟩ := h.written hnone
    have hrest : cs = body ++ (_ ++ (read start cs (p.step c)).next.rest) :=
      h.passes.rest.trans (List.append_assoc ..)
    refine ⟨c :: body, .plain ⟨hquote, ?_, hnewline⟩ ?_ hbody, rfl⟩
    · intro hc
      cases hcs : cs with
      | nil => exact hlast hc hcs
      | cons d cs => exact hescape d cs hc hcs
    · intro hc hhead
      obtain ⟨rest, hbody'⟩ := List.head?_eq_some_iff.mp hhead
      rw [hbody', List.cons_append] at hrest
      exact hhole _ hc hrest

namespace Lexeme

theorem covers_string {r : Reader} {cs : List Char} (hr : r.rest = '"' :: cs) :
    ∃ ds, (Lexeme.string r.pos (r.advance 1)).Covers r ds := by
  have hopen : r.Passes ['"'] (r.advance 1) := .advance_length hr
  obtain ⟨ds, h⟩ := TextRun.covers_read r.pos (r.advance 1).rest (r.advance 1).pos
  unfold Lexeme.string
  refine ⟨'"' :: ds, hopen.trans h.passes, ?_, ?_, ?_⟩
  · dsimp only
    split <;> rfl
  · intro hnone
    obtain ⟨body, hbody, rfl⟩ := h.written hnone
    dsimp only
    split
    · exact ⟨body, by rwa [String.toList_ofList], rfl⟩
    · exact ⟨body, by rwa [String.toList_ofList], rfl⟩
  · exact h.hole_append ['"'] hopen.pos

theorem covers_continuation (r : Reader) : ∃ ds, (Lexeme.continuation r).Covers r ds := by
  obtain ⟨ds, h⟩ := TextRun.covers_read r.pos r.rest r.pos
  unfold Lexeme.continuation
  refine ⟨ds, h.passes, ?_, ?_, h.hole⟩
  · dsimp only
    split <;> trivial
  · intro hnone
    obtain ⟨body, hbody, rfl⟩ := h.written hnone
    dsimp only
    split
    · exact ⟨body, by rwa [String.toList_ofList], rfl⟩
    · exact ⟨body, by rwa [String.toList_ofList], rfl⟩

end Lexeme

namespace Symbol
variable {s : Symbol}

theorem text_of_ofTwo? {c d : Char} (h : ofTwo? c d = some s) : s.text.toList = [c, d] := by
  unfold ofTwo? at h
  split at h
  all_goals cases h
  all_goals decide +kernel

theorem text_of_ofOne? {c : Char} (h : ofOne? c = some s) : s.text.toList = [c] := by
  unfold ofOne? at h
  split at h
  all_goals cases h
  all_goals decide +kernel

/-- A sign is written at the start of the text it is read from. -/
theorem text_of_ofChars? {cs : List Char} {n : Nat} (h : ofChars? cs = some (s, n)) :
    n = s.text.toList.length ∧ ∃ rest, cs = s.text.toList ++ rest := by
  unfold ofChars? at h
  split at h
  · cases h
  · next c =>
    obtain ⟨s, hs, hpair⟩ := Option.map_eq_some_iff.mp h
    cases hpair
    rw [text_of_ofOne? hs]
    exact ⟨rfl, [], rfl⟩
  · next c d rest =>
    split at h
    · next s hs =>
      cases h
      rw [text_of_ofTwo? hs]
      exact ⟨rfl, rest, rfl⟩
    · obtain ⟨s, hs, hpair⟩ := Option.map_eq_some_iff.mp h
      cases hpair
      rw [text_of_ofOne? hs]
      exact ⟨rfl, d :: rest, rfl⟩

end Symbol

/-- Every lexeme is read over the characters it is written with. -/
theorem Lexeme.covers_read? (h : Lexeme.read? r = some l) : ∃ cs, l.Covers r cs := by
  unfold Lexeme.read? at h
  split at h
  · cases h
  · next c cs hr =>
    split at h
    · next hc =>
      cases h
      exact covers_string (hc ▸ hr)
    split at h
    · next hc =>
      cases h
      exact covers_char (hc ▸ hr)
    split at h
    · next hc =>
      cases h
      exact covers_number hr hc
    split at h
    · cases h
      exact ⟨_, covers_name r⟩
    · obtain ⟨⟨s, n⟩, hs, rfl⟩ := Option.map_eq_some_iff.mp h
      obtain ⟨rfl, rest, hrest⟩ := Symbol.text_of_ofChars? hs
      exact ⟨_, .ofPlain (.advance_length hrest) rfl (fun _ => rfl) rfl⟩

/-- A lexeme has at least one character. -/
theorem Lexeme.Covers.ne_nil (h : l.Covers r cs) (hread : Lexeme.read? r = some l) : cs ≠ [] := by
  rintro rfl
  have hlt := Lexeme.length_read?_lt hread
  rw [h.passes.rest] at hlt
  exact Nat.lt_irrefl _ hlt

end CarvFront
