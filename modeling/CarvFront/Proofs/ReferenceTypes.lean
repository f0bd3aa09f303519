import CarvFront.Proofs.KindsOnly
import CarvFront.Proofs.Positions
import CarvFront.Proofs.Soundness
import CarvFront.Proofs.TextOnly
import CarvFront.Proofs.TypeTokens
import CarvFront.Proofs.Writing

/-! References in type annotations: which texts may follow an ampersand. The grammar lets a reference
refer to any type, also to a reference, but two ampersands side by side are another sign. -/
namespace CarvFront
open CarvFront.Parser CarvFront.Grammar
variable {text : String} {t : TypeExpr} {c : Cursor} {ks : List Kind} {cs : List Char}

/-- The type of the one `let` that a text consists of, if nothing is wrong with it. -/
def Program.declared? (text : String) : Option TypeExpr :=
  let (tokens, lexical) := Token.scan text
  let (program, grammatical) := Program.ofTokens tokens
  if lexical.isEmpty && grammatical.isEmpty then
    match program.stmts with
    | [.bind _ false _ type _] => type
    | _ => none
  else none

/-- A text is right and consists of one `let` with the type `t`. -/
structure Program.Declares (text : String) (t : TypeExpr) : Prop where
  scanned : (Token.scan text).2 = []
  parsed : (Program.ofTokens (Token.scan text).1).2 = []
  stmts : ∃ span name value,
    (Program.ofTokens (Token.scan text).1).1.stmts = [.bind span false name (some t) value]

theorem Program.declared?_eq_some : Program.declared? text = some t ↔ Program.Declares text t := by
  unfold Program.declared?
  dsimp only
  constructor
  · intro h
    split at h
    · next hnone =>
      obtain ⟨hscan, hparse⟩ := (Bool.and_eq_true _ _).mp hnone
      split at h
      · next span name type value hstmts =>
        exact ⟨List.isEmpty_iff.mp hscan, List.isEmpty_iff.mp hparse, span, name, value, h ▸ hstmts⟩
      · cases h
    · cases h
  · rintro ⟨hscan, hparse, span, name, value, hstmts⟩
    rw [hscan, hparse, hstmts]
    rfl

/-! ### Programs of one binding -/

theorem Parser.eq_some_of_bind {α β : Type} {p : Parser α} {f : α → Parser β} {c'' : Cursor} {b : β}
    (h : (p >>= f) c = (some b, c'')) : ∃ a c', p c = (some a, c') ∧ f a c' = (some b, c'') := by
  rcases hres : p c with ⟨_ | a, c'⟩
  · rw [bind_of_none hres] at h
    cases h
  · rw [bind_of_some hres] at h
    exact ⟨a, c', rfl, h⟩

/-- A loop that gives nothing and finds nothing wrong does not move. -/
theorem Parser.allWithin_eq_self {α : Type} {stop : Kind → Bool} {item : Parser α} {n : Nat}
    (hkeeps : KeepsFaults item)
    (hfails : (item c).1 = none → c.faults.length < (item c).2.faults.length)
    (hnil : (allWithin stop item n c).1 = []) (hnone : (allWithin stop item n c).2.faults = []) :
    (allWithin stop item n c).2 = c := by
  cases n with
  | zero => rfl
  | succ n =>
    by_cases hgo : GoesOn stop c
    · rcases hres : item c with ⟨_ | a, c'⟩ <;> rw [hres] at hfails
      · rw [allWithin_of_none n hgo hres] at hnone
        have hkept := faults_course.allWithin stop hkeeps n c'.recover
        rw [hnone, List.prefix_nil] at hkept
        have hlt := hfails rfl
        rw [show c'.faults = [] from hkept] at hlt
        exact absurd hlt (Nat.not_lt_zero _)
      · rw [allWithin_of_some n hgo hres] at hnil
        cases hnil
    · rw [allWithin, if_pos (not_not.mp hgo)]

/-- A program of one statement: it is read up to the end, and nothing is wrong with it. -/
theorem Program.ofTokens_eq_single {ts : List Token} {s : Stmt} (hts : firstKind ts ≠ .eof) :
    (Program.ofTokens ts).1.stmts = [s] ∧ (Program.ofTokens ts).2 = [] ↔
      ∃ c, statement rules (.start ts) = (some s, c) ∧ c.kind = .eof ∧ c.faults = [] := by
  have hitem (c : Cursor) : Derives 1 stmtAt c (statement rules) :=
    derives_statement (sound_levels (maxNesting + 1)) c
  constructor
  · rintro ⟨hone, hnone⟩
    have hkeeps : KeepsFaults (statement rules) :=
      closed_statement keepsFaults_closed (closed_levels keepsFaults_closed _)
    rcases hres : statement rules (.start ts) with ⟨_ | a, c⟩
    · have hlt := (hitem (.start ts)).fails
      have hkept := Program.faults_of_none hts hres
      rw [hnone, List.prefix_nil] at hkept
      rw [hres, hkept] at hlt
      exact absurd (hlt rfl) (Nat.not_lt_zero _)
    · obtain ⟨hgo, left, hleft⟩ := goesOn_start hts
      have hall := allWithin_of_some left hgo hres
      rw [← hleft] at hall
      have hend := kind_allWithin (.start ts) Stmt.isSimple hitem starts_stmt (Nat.le_refl _) hnone
      have hstmts : (Program.ofTokens ts).1.stmts = _ := congrArg Prod.fst hall
      have hfaults : (Program.ofTokens ts).2 = _ := congrArg (·.2.faults) hall
      have hkind := congrArg (·.2.kind) hall
      obtain ⟨rfl, hnil⟩ := List.cons.inj (hstmts.symm.trans hone)
      have hself := allWithin_eq_self hkeeps (hitem c).fails hnil (hfaults.symm.trans hnone)
      dsimp only at hfaults hkind
      rw [hself] at hfaults hkind
      exact ⟨c, rfl, hkind.symm.trans hend, hfaults.symm.trans hnone⟩
  · rintro ⟨c, hread, hend, hnone⟩
    exact hnone ▸ Program.ofTokens_single hts hread hend

/-- The end of a binding, behind its type. -/
def bindingEnd (r : Rules) (start : Span) (name : Ident) (t : TypeExpr) : Parser Stmt := do
  sym .eq
  let value ← r.expr
  let stop ← before
  semicolon
  pure (.bind (start.merge stop) false name (some t) value)

theorem statement_annotated (r : Rules) {x : String}
    (hc : c.kinds = .word .letKw :: .ident x :: .sym .colon :: ks) :
    statement r c = (r.type >>= bindingEnd r c.span ⟨x, c.next.span⟩) c.next.next.next := by
  have hpeek : peek c = (some (.word .letKw), c) := by
    rw [← Cursor.kind_of_kinds hc]
    rfl
  have hconst : isAt (.word .constKw) c = (some false, c) := by
    rw [isAt, Cursor.kind_of_kinds hc]
    rfl
  have hident : ident c.next = (some ⟨x, c.next.span⟩, c.next.next) := by
    have hpeek : peek c.next = (some (.ident x), c.next) := by
      rw [← Cursor.kind_of_kinds (Cursor.kinds_next hc)]
      rfl
    rw [ident, bind_of_some hpeek]
    rfl
  have hcolon : eat (.sym .colon) c.next.next = (some true, c.next.next.next) :=
    if_pos (Cursor.kind_of_kinds (Cursor.kinds_next (Cursor.kinds_next hc)))
  have hnext : next c = (some c.span, c.next) := rfl
  rw [statement, bind_of_some hpeek]
  dsimp only
  rw [binding, bind_of_some hconst, bind_of_some hnext, bind_of_some hident, annotation, bind_assoc,
    bind_of_some hcolon, if_pos rfl, bind_assoc]
  rfl

theorem alike_bindingEnd {r : Rules} (hr : r.All Alike) (start start' : Span) (name name' : Ident)
    (t t' : TypeExpr) : Alike (bindingEnd r start name t) (bindingEnd r start' name' t') := by
  have h := alike_paired
  refine h.seq (h.sym _) fun _ _ => h.seq hr.expr fun _ _ => h.seq h.before fun _ _ => ?_
  exact h.seq h.semicolon fun _ _ => h.pure _ _

theorem ensures_bindingEnd (r : Rules) (start : Span) (name : Ident) (t : TypeExpr) (c : Cursor) :
    Ensures c (bindingEnd r start name t) fun s _ => ∃ span value,
      s = .bind span false name (some t) value := by
  refine .sym fun _ => .seq (Q := fun _ _ => True) (fun _ _ _ => trivial) fun value _ _ => .look ?_
  exact .seq (Q := fun _ _ => True) (fun _ _ _ => trivial) fun _ _ _ => .pure ⟨_, value, rfl⟩

/-! ### Scanned texts -/

/-- A word is wider than one place, and a parenthesis is not. -/
theorem Token.sized_scan (h : (Token.scan text).2 = []) : ∀ t ∈ (Token.scan text).1, t.Sized := by
  intro t ht
  obtain ⟨front, cs, hstands, hwritten⟩ := (Scanner.at_start text).stands_run ht
  obtain ⟨hcs, hne⟩ := hwritten h
  constructor
  · intro hkind
    rw [hkind] at hcs hne
    obtain rfl : cs = [')'] := hcs
    rw [Scanner.span_of_stands hstands (by simp [hkind]) (by simp) (by rw [hkind]; rfl)]
    simp
  · intro hkind
    rw [hkind] at hcs hne
    obtain rfl : cs = ['v', 'o', 'i', 'd'] := hcs.1
    rw [Scanner.span_of_stands hstands (by simp [hkind]) (by simp) (by rw [hkind]; exact hcs)]
    have hlt : Position.behind front < .behind (front ++ ['v']) := by
      rw [Position.behind_concat]
      exact Position.lt_step _ _
    have hle := Position.behind_le_append (front ++ ['v']) ['o', 'i']
    rw [List.append_assoc] at hle
    exact ne_of_lt (lt_of_lt_of_le hlt hle)

/-- The kinds of the tokens that a text is cut into, wherever it stands. -/
def kindsOf (cs : List Char) : List Kind :=
  (Scanner.run ⟨⟨cs, .first⟩, [], [], []⟩).1.map Token.kind

/-- What is wrong with the tokens of a text, wherever it stands. -/
def errorsOf (cs : List Char) : List SyntaxError :=
  (Scanner.run ⟨⟨cs, .first⟩, [], [], []⟩).2.map Fault.error

theorem run_eq_first (cs : List Char) (p : Position) :
    (Scanner.run ⟨⟨cs, p⟩, [], [], []⟩).1.map Token.kind = kindsOf cs ∧
      (Scanner.run ⟨⟨cs, p⟩, [], [], []⟩).2.map Fault.error = errorsOf cs :=
  Scanner.Like.run ⟨rfl, rfl, rfl, rfl⟩

theorem scan_eq_nil_iff : (Token.scan text).2 = [] ↔ errorsOf text.toList = [] :=
  List.map_eq_nil_iff.symm

/-- A token in front of a text. -/
theorem kindsOf_of_sends {cs' : List Char} (h : Scanner.Sends cs [] ks cs' []) :
    kindsOf cs = ks ++ kindsOf cs' ∧ errorsOf cs = errorsOf cs' := by
  obtain ⟨p, hkinds, hfaults⟩ := h .first
  obtain ⟨hkinds', herrors⟩ := run_eq_first cs' p
  exact ⟨hkinds.trans (hkinds' ▸ rfl), (congrArg (List.map Fault.error) hfaults).trans herrors⟩

theorem kindsOf_of_reads {rest : List Char} {k : Kind} (h : Lexeme.Reads cs k false rest)
    (hk : ∀ ms, Scanner.surround k ms = (k, ms)) :
    kindsOf cs = k :: kindsOf rest ∧ errorsOf cs = errorsOf rest := by
  have hmodes : ([] : List Mode).head? ≠ some .text := by simp
  have hsends := Scanner.Sends.lexeme .nil hmodes h
  rw [hk] at hsends
  exact kindsOf_of_sends hsends

theorem kindsOf_blank (cs : List Char) :
    kindsOf (' ' :: cs) = kindsOf cs ∧ errorsOf (' ' :: cs) = errorsOf cs := by
  have hblanks : skipBlanks (' ' :: cs) .first = skipBlanks cs (Position.first.step ' ') := by
    have hblank : isBlank ' ' = true := rfl
    rw [skipBlanks, if_pos hblank]
    · rintro _ ⟨⟩
    · rintro _ ⟨⟩
  have hskip : Scanner.skip ⟨⟨' ' :: cs, .first⟩, [], [], []⟩ =
      Scanner.skip ⟨⟨cs, Position.first.step ' '⟩, [], [], []⟩ := by
    simp only [Scanner.skip, Reader.skip, hblanks]
  have hstep : Scanner.step ⟨⟨' ' :: cs, .first⟩, [], [], []⟩ =
      Scanner.step ⟨⟨cs, Position.first.step ' '⟩, [], [], []⟩ := by
    change Scanner.code _ = Scanner.code _
    rw [Scanner.code_eq, Scanner.code_eq, hskip]
  have hrun : Scanner.run ⟨⟨' ' :: cs, .first⟩, [], [], []⟩ =
      Scanner.run ⟨⟨cs, Position.first.step ' '⟩, [], [], []⟩ := by
    rw [Scanner.run_eq, Scanner.run_eq, hstep]
  obtain ⟨hkinds, herrors⟩ := run_eq_first cs (Position.first.step ' ')
  rw [← hrun] at hkinds herrors
  exact ⟨hkinds, herrors⟩

/-- `let x: t = nil;` -/
def annotatedText (t : String) : String :=
  "let x: " ++ t ++ " = nil;"

/-- What stands behind the colon and a blank. -/
def annotationChars (t : String) : List Char :=
  (t ++ " = nil;").toList

theorem kindsOf_annotatedText (t : String) :
    kindsOf (annotatedText t).toList =
        .word .letKw :: .ident "x" :: .sym .colon :: kindsOf (annotationChars t) ∧
      errorsOf (annotatedText t).toList = errorsOf (annotationChars t) := by
  have htext : (annotatedText t).toList =
      'l' :: 'e' :: 't' :: ' ' :: 'x' :: ':' :: ' ' :: annotationChars t := by
    simp [annotatedText, annotationChars]
  have hlet (cs : List Char) :
      Lexeme.Reads ('l' :: 'e' :: 't' :: ' ' :: cs) (.word .letKw) false (' ' :: cs) :=
    fun p => ⟨skipBlanks_of_start rfl (by decide) _ p, _, rfl, rfl, rfl, rfl, rfl⟩
  have hname (cs : List Char) :
      Lexeme.Reads ('x' :: ':' :: cs) (.ident "x") false (':' :: cs) :=
    fun p => ⟨skipBlanks_of_start rfl (by decide) _ p, _, rfl, rfl, rfl, rfl, rfl⟩
  have hcolon (cs : List Char) : Lexeme.Reads (':' :: ' ' :: cs) (.sym .colon) false (' ' :: cs) :=
    fun p => ⟨skipBlanks_of_start rfl (by decide) _ p, _, rfl, rfl, rfl, rfl, rfl⟩
  obtain ⟨hk₁, he₁⟩ := kindsOf_of_reads (hlet ('x' :: ':' :: ' ' :: annotationChars t)) fun _ => rfl
  obtain ⟨hk₂, he₂⟩ := kindsOf_blank ('x' :: ':' :: ' ' :: annotationChars t)
  obtain ⟨hk₃, he₃⟩ := kindsOf_of_reads (hname (' ' :: annotationChars t)) fun _ => rfl
  obtain ⟨hk₄, he₄⟩ := kindsOf_of_reads (hcolon (annotationChars t)) fun _ => rfl
  obtain ⟨hk₅, he₅⟩ := kindsOf_blank (annotationChars t)
  rw [htext, hk₁, hk₂, hk₃, hk₄, hk₅, he₁, he₂, he₃, he₄, he₅]
  exact ⟨rfl, rfl⟩

theorem annotationChars_amp (t : String) : annotationChars ("&" ++ t) = '&' :: annotationChars t := by
  simp [annotationChars]

theorem head?_annotationChars {t : String} {c : Char} (hc : c ≠ ' ') :
    (annotationChars t).head? = some c ↔ t.toList.head? = some c := by
  rw [annotationChars, String.toList_append]
  cases t.toList with
  | nil => simp [hc.symm]
  | cons d ds => simp

/-! #### The first sign -/

theorem kindsOf_amp (hamp : cs.head? ≠ some '&') (heq : cs.head? ≠ some '=') :
    kindsOf ('&' :: cs) = .sym .amp :: kindsOf cs ∧ errorsOf ('&' :: cs) = errorsOf cs := by
  refine kindsOf_of_reads (fun p => ⟨skipBlanks_of_start rfl (by decide) _ p, ?_⟩) fun _ => rfl
  refine ⟨⟨.sym .amp, Reader.advance ⟨'&' :: cs, p⟩ 1, [], none⟩, ?_, rfl, rfl, rfl, rfl⟩
  cases cs with
  | nil => rfl
  | cons c cs =>
    have htwo : Symbol.ofTwo? '&' c = none := by
      unfold Symbol.ofTwo?
      split <;> simp_all
    simp [Lexeme.read?, Symbol.ofChars?, htwo, Symbol.ofOne?, isNameStart]

/-- Two ampersands are one sign. -/
theorem kindsOf_ampAmp (cs : List Char) :
    kindsOf ('&' :: '&' :: cs) = .sym .andAnd :: kindsOf cs ∧
      errorsOf ('&' :: '&' :: cs) = errorsOf cs := by
  refine kindsOf_of_reads (fun p => ?_) fun _ => rfl
  exact ⟨skipBlanks_of_start rfl (by decide) _ p, _, rfl, rfl, rfl, rfl, rfl⟩

/-- No type starts with an equals sign. -/
theorem startsType_eq (cs : List Char) : ((kindsOf ('=' :: cs)).headD .eof).startsType = false := by
  have hskip (p : Position) : skipBlanks ('=' :: cs) p = ⟨⟨'=' :: cs, p⟩, none⟩ :=
    skipBlanks_of_start rfl (by decide) cs p
  have hone (htwo : Symbol.ofChars? ('=' :: cs) = some (.eq, 1)) :
      Lexeme.Reads ('=' :: cs) (.sym .eq) false cs := by
    intro p
    refine ⟨hskip p, ⟨.sym .eq, Reader.advance ⟨'=' :: cs, p⟩ 1, [], none⟩, ?_, rfl, rfl, rfl, rfl⟩
    simp [Lexeme.read?, htwo, isNameStart]
  have heq (htwo : Symbol.ofChars? ('=' :: cs) = some (.eq, 1)) :
      ((kindsOf ('=' :: cs)).headD .eof).startsType = false := by
    rw [(kindsOf_of_reads (hone htwo) fun _ => rfl).1]
    rfl
  cases cs with
  | nil => exact heq rfl
  | cons c cs =>
    by_cases hc : c = '='
    · subst hc
      have htwo : Lexeme.Reads ('=' :: '=' :: cs) (.sym .eqEq) false cs :=
        fun p => ⟨hskip p, _, rfl, rfl, rfl, rfl, rfl⟩
      rw [(kindsOf_of_reads htwo fun _ => rfl).1]
      rfl
    · have htwo : Symbol.ofTwo? '=' c = none := by
        unfold Symbol.ofTwo?
        split <;> simp_all
      exact heq (by simp [Symbol.ofChars?, htwo, Symbol.ofOne?])

/-! ### Texts that are right -/

/-- From tokens of the kinds `ks` a binding goes on behind its type without faults and is the last
thing. -/
def EndsBinding (ks : List Kind) : Prop :=
  ∀ (c : Cursor) (start : Span) (name : Ident) (t : TypeExpr), c.kinds = ks → c.depth = 0 →
    c.faults = [] → ∃ s c', bindingEnd rules start name t c = (some s, c') ∧ c'.kind = .eof ∧
      c'.faults = []

theorem endsBinding {c' : Cursor} {start : Span} {name : Ident} {s : Stmt} (hdepth : c.depth = 0)
    (hfaults : c.faults = []) (h : bindingEnd rules start name t c = (some s, c'))
    (hend : c'.kind = .eof) (hnone : c'.faults = []) : EndsBinding c.kinds := by
  intro d start' name' t' hkinds hdepth' hfaults'
  have hlike : c.Like d :=
    ⟨hkinds.symm, hdepth.trans hdepth'.symm, by rw [hfaults, hfaults']⟩
  obtain ⟨hsome, hlast⟩ :=
    alike_bindingEnd (closed_levels alike_closed (maxNesting + 1)) start start' name name' t t' c d hlike
  change (bindingEnd rules start name t c).1.isSome = (bindingEnd rules start' name' t' d).1.isSome at hsome
  change (bindingEnd rules start name t c).2.Like (bindingEnd rules start' name' t' d).2 at hlast
  rw [h] at hsome hlast
  rcases hres : bindingEnd rules start' name' t' d with ⟨_ | s', d'⟩ <;> rw [hres] at hsome hlast
  · cases hsome
  · refine ⟨s', d', rfl, hlast.kind.symm.trans hend, ?_⟩
    have herrors := hlast.faults
    rw [hnone] at herrors
    exact List.map_eq_nil_iff.mp herrors.symm

theorem level_start (ts : List Token) :
    (Cursor.start ts).Level (Cursor.start ts).next.next.next :=
  ((Cursor.level_next _).trans (Cursor.level_next _)).trans (Cursor.level_next _)

/-- A type behind the third token is read, or there are too many levels in it. -/
theorem reading_third {ts : List Token} {rest : List Kind} (hheads : t.Heads ks rest)
    (hstops : rest.headD .eof ≠ .sym .question) (hks : (Cursor.start ts).next.next.next.kinds = ks)
    :
    ReadingAt (Cursor.start ts).next.next.next rest (t.nesting + 1) t.Same rules.type := by
  have hstart : Room (maxNesting + 1) (Cursor.start ts) := ⟨Nat.zero_le _, Nat.lt_succ_self _⟩
  exact hheads.leads.type hstops _ (hstart.level (level_start ts)) hks

namespace Program.Declares
variable {text x : String} {t : TypeExpr} {ks rest : List Kind}

theorem firstKind_ne (hks : kindsOf text.toList = .word .letKw :: ks) :
    firstKind (Token.scan text).1 ≠ .eof := by
  have hkinds : (Cursor.start (Token.scan text).1).kinds = _ := hks
  have hstart := Cursor.kind_of_kinds hkinds
  rw [Cursor.kind_eq] at hstart
  exact hstart ▸ (by simp)

/-- The type of a `let` is in front of the tokens behind the colon. -/
theorem heads (h : Program.Declares text t)
    (hks : kindsOf text.toList = .word .letKw :: .ident x :: .sym .colon :: ks) :
    ∃ rest, t.Heads ks rest ∧ rest.headD .eof ≠ .sym .question ∧ EndsBinding rest := by
  obtain ⟨hscan, hparse, span, name, value, hstmts⟩ := h
  have hkinds : (Cursor.start (Token.scan text).1).kinds = _ := hks
  have hkinds₃ := Cursor.kinds_next (Cursor.kinds_next (Cursor.kinds_next hkinds))
  obtain ⟨c', hread, hend, hnone⟩ :=
    (Program.ofTokens_eq_single (firstKind_ne hks)).mp ⟨hstmts, hparse⟩
  rw [statement_annotated rules hkinds] at hread
  obtain ⟨t', c₄, htype, hrest⟩ := eq_some_of_bind hread
  obtain ⟨_, _, hbind⟩ := ensures_bindingEnd rules _ _ t' c₄ _ _ hrest
  cases hbind
  have hsized : (Cursor.start (Token.scan text).1).Sized := Token.sized_scan hscan
  have hread₄ := ensures_type (maxNesting + 1) hsized.next.next.next t c₄ htype
  have hheads := hread₄.heads
  rw [hkinds₃] at hheads
  refine ⟨c₄.kinds, hheads, hread₄.stops, ?_⟩
  -- what is in front is read up to the same place without faults
  have hlevel := level_start (Token.scan text).1
  cases reading_third hheads hread₄.stops hkinds₃ with
  | tooDeep hfails =>
    rw [htype] at hfails
    cases hfails
  | read hreads hc₄ =>
    rw [htype] at hreads
    cases hreads
    exact endsBinding (hc₄.depth.trans hlevel.depth) (hc₄.faults.trans hlevel.faults) hrest hend
      hnone

/-- What is in front of the tokens behind the colon is the type of the `let`. -/
theorem of_heads (herrors : errorsOf text.toList = [])
    (hks : kindsOf text.toList = .word .letKw :: .ident x :: .sym .colon :: ks)
    (hheads : t.Heads ks rest) (hstops : rest.headD .eof ≠ .sym .question)
    (hends : EndsBinding rest) (hfits : t.nesting < maxNesting) :
    ∃ t', Program.Declares text t' ∧ t.Same t' := by
  have hkinds : (Cursor.start (Token.scan text).1).kinds = _ := hks
  have hkinds₃ := Cursor.kinds_next (Cursor.kinds_next (Cursor.kinds_next hkinds))
  have hlevel := level_start (Token.scan text).1
  have hdepth : (Cursor.start (Token.scan text).1).next.next.next.depth = 0 := hlevel.depth
  cases reading_third hheads hstops hkinds₃ with
  | tooDeep _ beyond => omega
  | @read t' c₄ htype hc₄ hrest _ hsame =>
    obtain ⟨s, c', hread, hend, hnone⟩ := hends c₄ (Cursor.start (Token.scan text).1).span
      ⟨x, (Cursor.start (Token.scan text).1).next.span⟩ t' hrest (hc₄.depth.trans hlevel.depth)
      (hc₄.faults.trans hlevel.faults)
    have hstatement : statement rules (.start (Token.scan text).1) = (some s, c') := by
      rw [statement_annotated rules hkinds, bind_of_some htype]
      exact hread
    obtain ⟨span, value, rfl⟩ := ensures_bindingEnd rules _ _ t' c₄ _ _ hread
    obtain ⟨hstmts, hparse⟩ :=
      (Program.ofTokens_eq_single (firstKind_ne hks)).mpr ⟨c', hstatement, hend, hnone⟩
    exact ⟨t', ⟨scan_eq_nil_iff.mpr herrors, hparse, span, _, value, hstmts⟩, hsame⟩

end Program.Declares

/-- A type of which `let x: t = nil;` is right can be referred to by an ampersand right in front of
it, if there is a level left, unless it starts with an ampersand itself. -/
theorem Program.declared_reference_iff {t : String} {type : TypeExpr}
    (h : Program.declared? (annotatedText t) = some type) (hfits : type.nesting + 1 < maxNesting) :
    (∃ type', Program.declared? (annotatedText ("&" ++ t)) = some type' ∧
      (TypeExpr.ref .nowhere false type).Same type') ↔ t.toList.head? ≠ some '&' := by
  obtain ⟨hkinds, herrors⟩ := kindsOf_annotatedText t
  obtain ⟨hkinds', herrors'⟩ := kindsOf_annotatedText ("&" ++ t)
  rw [annotationChars_amp] at hkinds' herrors'
  have hdeclares := Program.declared?_eq_some.mp h
  obtain ⟨rest, hheads, hstops, hends⟩ := hdeclares.heads hkinds
  have hblank : '&' ≠ ' ' := by decide
  rw [ne_eq, ← head?_annotationChars hblank]
  constructor
  · rintro ⟨type', h', -⟩ hamp
    obtain ⟨cs, hcs⟩ := List.head?_eq_some_iff.mp hamp
    rw [hcs, (kindsOf_ampAmp cs).1] at hkinds'
    obtain ⟨_, hheads', -⟩ := (Program.declared?_eq_some.mp h').heads hkinds'
    cases hheads'.starts
  · intro hamp
    have heq : (annotationChars t).head? ≠ some '=' := by
      intro heq
      obtain ⟨cs, hcs⟩ := List.head?_eq_some_iff.mp heq
      have hstarts := hheads.starts
      rw [hcs, startsType_eq] at hstarts
      cases hstarts
    obtain ⟨hk, he⟩ := kindsOf_amp hamp heq
    rw [hk] at hkinds'
    have hnone : errorsOf (annotatedText ("&" ++ t)).toList = [] := by
      rw [herrors', he, ← herrors]
      exact scan_eq_nil_iff.mp hdeclares.scanned
    obtain ⟨type', hdeclares', hsame⟩ := Program.Declares.of_heads hnone hkinds'
      (.ref .nowhere hheads hstops) hstops hends hfits
    exact ⟨type', Program.declared?_eq_some.mpr hdeclares', hsame⟩

/-- A blank keeps the ampersands apart. -/
theorem Program.declared_reference_apart : ∃ type,
    Program.declared? (annotatedText " &mut chan<fn(string) -> [int]?>") = some type ∧
      type.nesting + 1 < maxNesting ∧
      ∃ type', Program.declared? (annotatedText ("&" ++ " &mut chan<fn(string) -> [int]?>")) =
        some type' ∧ (TypeExpr.ref .nowhere false type).Same type' := by
  have hright : (Program.declared? (annotatedText " &mut chan<fn(string) -> [int]?>")).map
      TypeExpr.nesting = some 4 := by decide +kernel
  obtain ⟨type, htype, hnesting⟩ := Option.map_eq_some_iff.mp hright
  have hfits : type.nesting + 1 < maxNesting := by
    rw [hnesting]
    decide
  exact ⟨type, htype, hfits, (Program.declared_reference_iff htype hfits).mpr (by simp)⟩

/-- Side by side they are no reference to a reference. -/
theorem Program.declared_adjacentReferences :
    (∃ type, Program.declared? (annotatedText "&int") = some type ∧
      type.nesting + 1 < maxNesting) ∧
      Program.declared? (annotatedText ("&" ++ "&int")) = none := by
  have hright : (Program.declared? (annotatedText "&int")).map TypeExpr.nesting = some 1 := by
    decide +kernel
  have hwrong : (Program.declared? (annotatedText ("&" ++ "&int"))).isNone = true := by
    decide +kernel
  obtain ⟨type, htype, hnesting⟩ := Option.map_eq_some_iff.mp hright
  refine ⟨⟨type, htype, ?_⟩, Option.isNone_iff_eq_none.mp hwrong⟩
  rw [hnesting]
  decide

end CarvFront
