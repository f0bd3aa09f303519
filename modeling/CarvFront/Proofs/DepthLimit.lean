import CarvFront.Proofs.Heights
import CarvFront.Proofs.Reading

/-! How far the limit on nesting bounds the paths of a tree. Every level that is entered adds so many
nodes at most. Question marks behind types and conditionals behind `else` enter none: of these any
number may stand one below the other. -/
namespace CarvFront
open CarvFront.Parser CarvFront.Grammar

/-! ### Programs with long paths -/

/-- A token at the start of a text. -/
def Kind.token (k : Kind) : Token := ⟨k, .point .first⟩

/-- Some question marks behind a type, and the end of the class around it. -/
def questionMarks (n : Nat) : List Token :=
  List.replicate n (Kind.token (.sym .question)) ++ [Kind.token (.sym .rbrace)]

/-- `x: int?…? }` -/
def optionalField (n : Nat) : List Token :=
  Kind.token (.ident "x") :: Kind.token (.sym .colon) :: Kind.token (.ident "int") ::
    questionMarks n

/-- `class C { x: int?…? }` -/
def optionalClass (n : Nat) : List Token :=
  Kind.token (.word .classKw) :: Kind.token (.ident "C") :: Kind.token (.sym .lbrace) ::
    optionalField n

/-- Every question mark is one more node on top. -/
theorem Grammar.optionalWithin_questionMarks (start : Span) (depth : Nat) {n m : Nat} (hm : n ≤ m)
    {t : TypeExpr} {path : List Vertex} (hpath : Path [.type t] path) :
    ∃ t' path', optionalWithin start m t ⟨questionMarks n, .point .first, depth, []⟩ =
      (some t', ⟨questionMarks 0, .point .first, depth, []⟩) ∧
      Path [.type t'] path' ∧ path'.countP Vertex.isOptional = path.countP Vertex.isOptional + n := by
  induction n generalizing m t path with
  | zero =>
    refine ⟨t, path, ?_, hpath, rfl⟩
    cases m <;> rfl
  | succ n ih =>
    obtain ⟨m, rfl⟩ := Nat.exists_eq_add_of_lt hm
    have hopt : Path [.type (.optional (start.merge (.point .first)) t)]
        (.type (.optional (start.merge (.point .first)) t) :: path) :=
      .cons List.mem_cons_self hpath
    obtain ⟨t', path', hread, hpath', hcount⟩ := ih (Nat.le_add_right n m) hopt
    refine ⟨t', path', hread, hpath', ?_⟩
    rw [hcount, List.countP_cons_of_pos rfl, Nat.add_assoc, Nat.add_comm 1]

theorem Grammar.type_questionMarks (n : Nat) : ∃ t path,
    rules.type (.start (Kind.token (.ident "int") :: questionMarks n)) =
      (some t, .start (questionMarks 0)) ∧ Path [.type t] path ∧ path.countP Vertex.isOptional = n := by
  have hbasic : Path [.type (.basic ((Span.point .first).merge (.point .first)) .int)] [_] :=
    .cons List.mem_cons_self (.nil _)
  have henough : n ≤ (questionMarks n).length := by simp [questionMarks]
  obtain ⟨t, path, hread, hpath, hcount⟩ :=
    optionalWithin_questionMarks (.point .first) 1 henough hbasic
  refine ⟨t, path, ?_, hpath, hcount.trans (Nat.zero_add n)⟩
  have htype : typeExpr (Rules.levels maxNesting).type
      ⟨Kind.token (.ident "int") :: questionMarks n, .point .first, 1, []⟩ =
        (some t, ⟨questionMarks 0, .point .first, 1, []⟩) := hread
  have hroom : ¬ maxNesting < 0 + 1 := by decide
  have hrules : rules.type = nested (typeExpr (Rules.levels maxNesting).type) := rfl
  rw [hrules, nested, Cursor.start, if_neg hroom, htype]
  rfl

theorem Grammar.classItem_optionalField (n : Nat) : ∃ f path,
    classItem rules (.start (optionalField n)) = (some (.field f), .start (questionMarks 0)) ∧
      Path f.vertices path ∧ path.countP Vertex.isOptional = n := by
  obtain ⟨t, path, hread, hpath, hcount⟩ := type_questionMarks n
  have hname : ident (.start (optionalField n)) = (some ⟨"x", .point .first⟩,
      .start (Kind.token (.sym .colon) :: Kind.token (.ident "int") :: questionMarks n)) := rfl
  have hcolon : sym .colon
      (.start (Kind.token (.sym .colon) :: Kind.token (.ident "int") :: questionMarks n)) =
      (some (), .start (Kind.token (.ident "int") :: questionMarks n)) := rfl
  have hfield : field rules (.start (optionalField n)) =
      (some ⟨⟨"x", .point .first⟩, t, none, (Span.point .first).merge (.point .first)⟩,
        .start (questionMarks 0)) := by
    rw [field, bind_of_some hname, bind_of_some hcolon, bind_of_some hread]
    rfl
  exact ⟨_, path, bind_of_some hfield _, hpath, hcount⟩

theorem Grammar.statement_optionalClass (n : Nat) : ∃ s path,
    statement rules (.start (optionalClass n)) = (some s, .start []) ∧
      Path [.stmt s] path ∧ path.countP Vertex.isOptional = n := by
  obtain ⟨f, path, hitem, hpath, hcount⟩ := classItem_optionalField n
  have hgo : GoesOn (· = .sym .rbrace) (.start (optionalField n)) := of_decide_eq_false rfl
  have hitems : allInBraces (classItem rules) (.start (optionalField n)) =
      (some [.field f], .start (questionMarks 0)) :=
    congrArg (fun found => (some found.1, found.2))
      (allWithin_of_some (optionalField n).tail.length hgo hitem)
  have hword : next (.start (optionalClass n)) = (some (.point .first),
      .start (Kind.token (.ident "C") :: Kind.token (.sym .lbrace) :: optionalField n)) := rfl
  have hname : ident (.start (Kind.token (.ident "C") :: Kind.token (.sym .lbrace) ::
      optionalField n)) = (some ⟨"C", .point .first⟩,
      .start (Kind.token (.sym .lbrace) :: optionalField n)) := rfl
  have hopen : sym .lbrace (.start (Kind.token (.sym .lbrace) :: optionalField n)) =
      (some (), .start (optionalField n)) := rfl
  have hclass : classDecl rules (.start (optionalClass n)) = (some (.classDecl
      ((Span.point .first).merge (.point .first)) ⟨"C", .point .first⟩ [f] []), .start []) := by
    rw [classDecl, bind_of_some hword, bind_of_some hname, bind_of_some hopen, bind_of_some hitems]
    rfl
  refine ⟨_, _, hclass, .cons List.mem_cons_self ?_, hcount⟩
  change Path ([f].flatMap Field.vertices ++ []) path
  rwa [List.flatMap_singleton, List.append_nil]

theorem Program.path_optionalClass (n : Nat) :
    ∃ path, (Program.ofTokens (optionalClass n)).2 = [] ∧
      (Program.ofTokens (optionalClass n)).1.Path path ∧ path.countP Vertex.isOptional = n := by
  obtain ⟨s, path, hread, hpath, hcount⟩ := statement_optionalClass n
  obtain ⟨hstmts, hfaults⟩ := Program.ofTokens_single (of_decide_eq_false rfl) hread rfl
  refine ⟨path, hfaults, ?_, hcount⟩
  rwa [Program.Path, hstmts]

/-- `if nil { } else if nil { } …` with `n` further conditionals -/
def conditionals : Nat → List Token
  | 0 => [.word .ifKw, .word .nilKw, .sym .lbrace, .sym .rbrace].map Kind.token
  | n + 1 => [.word .ifKw, .word .nilKw, .sym .lbrace, .sym .rbrace, .word .elseKw].map Kind.token ++
    conditionals n

theorem lt_length_conditionals (n : Nat) : n < (conditionals n).length := by
  induction n with
  | zero => decide
  | succ n ih =>
    simp only [conditionals, List.length_append, List.length_map, List.length_cons]
    omega

/-- Every further conditional is one more node below. -/
theorem Grammar.conditionalWithin_conditionals {n m : Nat} (hm : n < m) : ∃ c path,
    conditionalWithin rules m (.start (conditionals n)) = (some c, .start []) ∧
      Path c.vertices path ∧ path.countP Vertex.isElseIf = n := by
  have hword (ts : List Token) : expect (.word .ifKw) (.start (Kind.token (.word .ifKw) :: ts)) =
      (some (.point .first), .start ts) := rfl
  have hexpr (ts : List Token) : rules.expr (.start (Kind.token (.word .nilKw) ::
      Kind.token (.sym .lbrace) :: ts)) =
      (some (.nil (.point .first)), .start (Kind.token (.sym .lbrace) :: ts)) := rfl
  have hblock (ts : List Token) : block rules (.start (Kind.token (.sym .lbrace) ::
      Kind.token (.sym .rbrace) :: ts)) = (some ⟨.point .first, []⟩, .start ts) := rfl
  induction n generalizing m with
  | zero =>
    obtain ⟨m, rfl⟩ := Nat.exists_eq_add_of_lt hm
    refine ⟨⟨.point .first, .nil (.point .first), ⟨.point .first, []⟩, .none⟩, [], ?_, .nil _, rfl⟩
    rw [conditionalWithin, conditionals, List.map_cons, bind_of_some (hword _)]
    refine (bind_of_some (hexpr _) _).trans ?_
    exact bind_of_some (hblock _) _
  | succ n ih =>
    obtain ⟨m, rfl⟩ := Nat.exists_eq_add_of_lt hm
    obtain ⟨c, path, hread, hpath, hcount⟩ := ih (m := n + 1 + m) (by omega)
    have helse : eat (.word .elseKw) (.start (Kind.token (.word .elseKw) :: conditionals n)) =
        (some true, .start (conditionals n)) := rfl
    have hif : isAt (.word .ifKw) (.start (conditionals n)) =
        (some true, .start (conditionals n)) := by
      cases n <;> rfl
    refine ⟨⟨.point .first, .nil (.point .first), ⟨.point .first, []⟩, .elseIf c⟩, .elseIf c :: path,
      ?_, .cons (by simp [Conditional.vertices, Otherwise.vertices]) hpath, ?_⟩
    · rw [conditionalWithin, conditionals, List.map_cons, List.cons_append, bind_of_some (hword _)]
      refine (bind_of_some (hexpr _) _).trans ((bind_of_some (hblock _) _).trans ?_)
      refine (bind_of_some helse _).trans ((bind_of_some hif _).trans ?_)
      exact bind_of_some hread _
    · rw [List.countP_cons_of_pos rfl, hcount]

theorem Program.path_conditionals (n : Nat) :
    ∃ path, (Program.ofTokens (conditionals n)).2 = [] ∧
      (Program.ofTokens (conditionals n)).1.Path path ∧ path.countP Vertex.isElseIf = n := by
  obtain ⟨c, path, hread, hpath, hcount⟩ := conditionalWithin_conditionals (lt_length_conditionals n)
  have hstart : (Cursor.start (conditionals n)).kind = .word .ifKw := by
    cases n <;> rfl
  have hstmt : statement rules (.start (conditionals n)) = (some (.cond c), .start []) := by
    have hpeek : peek (.start (conditionals n)) = (some (.word .ifKw), .start (conditionals n)) :=
      congrArg (some ·, _) hstart
    rw [statement, bind_of_some hpeek]
    exact bind_of_some hread _
  have hfirst : firstKind (conditionals n) ≠ .eof := by cases n <;> nofun
  obtain ⟨hstmts, hfaults⟩ := Program.ofTokens_single hfirst hstmt rfl
  refine ⟨.stmt (.cond c) :: path, hfaults, ?_, ?_⟩
  · rw [Program.Path, hstmts]
    exact .cons List.mem_cons_self hpath
  · rwa [List.countP_cons_of_neg Bool.false_ne_true]

/-! ### What the limit bounds -/

theorem Program.shallow_ofTokens (w : Nat) (ts : List Token) :
    Shallow w (24386 + w * ts.countP (·.kind.isFree)) ((Program.ofTokens ts).1.stmts.map .stmt) := by
  unfold Program.ofTokens
  rcases hres : Grammar.program (.start ts) with ⟨_ | p, c⟩
  · exact shallow_nil w _
  · obtain ⟨-, s, hs, hp⟩ := Grammar.grows_program (w := w) (.start ts) rfl p c hres
    have hpaid : s ≤ w * ts.countP (·.kind.isFree) := Nat.le_trans (Nat.le_add_right _ _) hs
    exact Shallow.mono hp (Nat.add_le_add_left hpaid _)

/-- Each token list is read into a tree whose paths have at most 24386 nodes that are not free; with
the free ones they are no longer than that and the tokens that free nodes are read from. -/
theorem Program.path_bounded {ts : List Token} {path : List Vertex}
    (h : (Program.ofTokens ts).1.Path path) :
    path.countP (fun v => !v.isFree) ≤ 24386 ∧
      path.length ≤ 24386 + ts.countP (·.kind.isFree) := by
  constructor
  · have hzero := Program.shallow_ofTokens 0 ts path h
    rwa [weight_zero, Nat.zero_mul] at hzero
  · have hone := Program.shallow_ofTokens 1 ts path h
    rwa [weight_one, Nat.one_mul] at hone

theorem Program.path_bounded_optionalClass :
    ∃ path, (Program.ofTokens (optionalClass 100)).1.Path path ∧
      path.countP Vertex.isOptional = 100 ∧ path.countP (fun v => !v.isFree) ≤ 24386 ∧
      path.length ≤ 24386 + (optionalClass 100).countP (·.kind.isFree) := by
  obtain ⟨path, -, hpath, hcount⟩ := path_optionalClass 100
  exact ⟨path, hpath, hcount, Program.path_bounded hpath⟩

/-- No number bounds the paths of all programs: without any fault there can be any number of types
with a question mark, or of conditionals behind an `else`, one below the other. -/
theorem Program.path_unbounded :
    (¬ ∃ b, ∀ ts path, (Program.ofTokens ts).1.Path path → path.length ≤ b) ∧
    ∀ b, (∃ ts path, (Program.ofTokens ts).2 = [] ∧ (Program.ofTokens ts).1.Path path ∧
        path.countP Vertex.isOptional = b) ∧
      ∃ ts path, (Program.ofTokens ts).2 = [] ∧ (Program.ofTokens ts).1.Path path ∧
        path.countP Vertex.isElseIf = b := by
  constructor
  · rintro ⟨b, hb⟩
    obtain ⟨path, -, hpath, hcount⟩ := path_optionalClass (b + 1)
    have hle := hb _ path hpath
    have hlength : path.countP Vertex.isOptional ≤ path.length := List.countP_le_length
    omega
  · exact fun b => ⟨⟨_, path_optionalClass b⟩, ⟨_, path_conditionals b⟩⟩

end CarvFront
