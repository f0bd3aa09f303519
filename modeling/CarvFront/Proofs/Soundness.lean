import CarvFront.Proofs.ExpressionSoundness

/-! What the grammar reads without a fault is a phrase of the tree it returns: declarations,
statements and programs. -/
namespace CarvFront.Grammar
open CarvFront.Parser CarvFront.Phrases
variable {L : Phrases}

/-! ### What phrases start with -/

theorem starts_tok {k : Kind} (hk : ¬closes k) : Starts (tok k) := by
  rintro _ rfl
  exact ⟨k, [], rfl, hk⟩

theorem starts_word (w : Keyword) : Starts (key w) :=
  starts_tok (by simp [closes])

theorem starts_called (name : String) : Starts (called name) :=
  starts_tok (by simp [closes])

theorem starts_add {M : Phrases} (hL : Starts L) (hM : Starts M) : Starts (L + M) := by
  rintro w (hw | hw)
  · exact hL w hw
  · exact hM w hw

theorem starts_of_le {M : Phrases} (h : L ≤ M) (hM : Starts M) : Starts L :=
  fun w hw => hM w (h hw)

theorem starts_given (p : Prop) (hL : Starts L) : Starts (given p * L) :=
  starts_of_le (given_mul_le p L) hL

theorem starts_async (sig : Signature) (hL : Starts L) : Starts (sig.asyncWord * L) := by
  rw [Signature.asyncWord]
  cases sig.async with
  | true => exact starts_mul (starts_word _) L
  | false => rwa [upon_false, one_mul]

theorem starts_partPhrases {start : String → Kind} (hstart : ∀ s, ¬closes (start s)) (s : String)
    (ps : List Part) : Starts (partPhrases start s ps) := by
  induction ps generalizing s with
  | nil =>
    rw [partPhrases]
    exact starts_tok (by simp [closes])
  | cons p ps ih =>
    cases p with
    | text t =>
      rw [partPhrases]
      exact starts_given _ (ih t)
    | hole e =>
      simp only [partPhrases, mul_assoc]
      exact starts_mul (starts_tok (hstart s)) _

theorem starts_expr (e : Expr) : Starts e.phrases := by
  cases e with
  | int | float | string | char | nil | bool =>
    rw [Expr.phrases]
    exact starts_tok (by simp [closes])
  | ident =>
    rw [Expr.phrases]
    exact starts_add (starts_called _) (starts_given _ (starts_word _))
  | interp =>
    rw [Expr.phrases]
    exact starts_given _ (starts_partPhrases (by simp [closes]) _ _)
  | array | map | borrow | deref | await | new | paren =>
    simp only [Expr.phrases, mul_assoc]
    exact starts_mul (starts_tok (by simp [closes])) _
  | unary _ op =>
    rw [Expr.phrases]
    exact starts_mul (starts_tok (by cases op <;> simp [closes, UnaryOp.symbol])) _
  | lambda =>
    simp only [Expr.phrases, mul_assoc]
    exact starts_async _ (starts_mul (starts_word _) _)
  -- what starts with an operand starts as that does
  | call _ e | member _ e | index _ e | binary _ _ e | pipe _ e | assign _ _ e =>
    simp only [Expr.phrases, Expr.tight, mul_assoc]
    exact starts_given _ (starts_mul (starts_expr e) _)

theorem starts_block (b : Block) : Starts b.phrases := by
  obtain ⟨span, stmts⟩ := b
  simp only [Block.phrases, mul_assoc]
  exact starts_mul (starts_tok (by simp [closes])) _

theorem starts_stmt (s : Stmt) : Starts s.phrases := by
  cases s with
  | bind | ret | forLoop | forIn | whileLoop | loop | classDecl | interfaceDecl | implDecl
  | require | brk | cont =>
    simp only [Stmt.phrases, mul_assoc]
    first
    | exact starts_mul (starts_word _) _
    | exact starts_word _
  | fn =>
    simp only [Stmt.phrases, mul_assoc]
    exact starts_async _ (starts_mul (starts_word _) _)
  | cond c =>
    obtain ⟨span, test, body, otherwise⟩ := c
    simp only [Stmt.phrases, Conditional.phrases, mul_assoc]
    exact starts_mul (starts_word _) _
  | block b =>
    rw [Stmt.phrases]
    exact starts_block b
  | expr _ e =>
    rw [Stmt.phrases]
    exact starts_expr e

theorem starts_method (m : Method) : Starts m.phrases := by
  obtain ⟨name, who, sig, body, span⟩ := m
  simp only [Method.phrases, mul_assoc]
  exact starts_async _ (starts_mul (starts_word _) _)

theorem starts_field (f : Field) : Starts f.phrases := by
  obtain ⟨name, type, default, span⟩ := f
  simp only [Field.phrases, mul_assoc]
  exact starts_mul (starts_called _) _

theorem starts_methodHead (m : MethodHead) : Starts m.phrases := by
  simp only [MethodHead.phrases, mul_assoc]
  exact starts_given _ (starts_mul (starts_word _) _)

/-- A statement with what may follow it, by the token behind that. -/
def stmtAt (s : Stmt) (k : Kind) : Phrases :=
  s.phrases * ending s.isSimple k

section
variable {r : Rules} (hr : r.Sound) (c : Cursor)
variable {k : Kind}
include hr

/-! ### Declarations -/

omit hr in
theorem le_stmtAt {s : Stmt} (h : s.isSimple = false) {L : Phrases} (hL : L ≤ s.phrases) :
    L ≤ stmtAt s k := by
  rwa [stmtAt, h, ending, upon_false, mul_one]

omit hr in
theorem mul_le_stmtAt {s : Stmt} (h : s.isSimple = true) {L : Phrases} (hL : L ≤ s.phrases) :
    L * (sign .semicolon + given (closes k)) ≤ stmtAt s k := by
  rw [stmtAt, h]
  exact mul_le_mul_left hL _

theorem derives_functionDecl : Derives 1 stmtAt c (functionDecl r) := by
  refine .look Cursor.span (.seq (derives_eat_word c .asyncKw) fun async c₁ => ?_)
  refine .seq (derives_word c₁ .fnKw) fun _ c₂ => .seq (derives_ident c₂) fun name c₃ => ?_
  refine .seq (derives_sym c₃ .lparen) fun _ c₄ => ?_
  refine .seq (derives_signature hr c₄ async) fun sig c₅ => ?_
  refine .seq (derives_block hr c₅) fun body c₆ => .pure (le_stmtAt rfl ?_)
  have hle := given_async_le sig async
    (key .fnKw * called name.name * sign .lparen) body.phrases
  rw [Stmt.phrases, one_mul]
  simpa only [mul_assoc] using hle

omit hr in
theorem kind_next_of_lookAhead (h : c.lookAhead 1 = k) (hk : k ≠ .eof) : c.next.kind = k := by
  obtain ⟨_ | ⟨t, _ | ⟨t', ts⟩⟩, prev, depth, faults⟩ := c
  · exact absurd h.symm hk
  · exact absurd h.symm hk
  · exact h

omit hr in
theorem lookAhead_next (h : c.lookAhead 2 = k) (hk : k ≠ .eof) : c.next.lookAhead 1 = k := by
  obtain ⟨_ | ⟨t, _ | ⟨t', ts⟩⟩, prev, depth, faults⟩ := c
  · exact absurd h.symm hk
  · exact absurd h.symm hk
  · exact h

omit hr in
theorem derives_receiver : Derives 1 (fun who _ => who.phrases) c receiver := by
  refine .peek fun k hk => .lookAhead 1 fun k₁ hk₁ => .lookAhead 2 fun k₂ hk₂ => ?_
  -- the comma behind a receiver may be left out
  have hself {c : Cursor} {who : Receiver} (L : Phrases)
      (hwho : who.phrases = L * key .selfKw * (1 + sign .comma)) (hkind : c.kind = .word .selfKw) :
      Derives L (fun who _ => who.phrases) c (do
        let _ ← next
        let _ ← eat (.sym .comma)
        pure who) := by
    refine .seq (derives_next hkind nofun) fun _ c₁ => ?_
    refine .seq (derives_eat_sym c₁ .comma) fun comma c₂ => .pure ?_
    rw [hwho]
    exact mul_le_mul_right (upon_le comma _) _
  split
  · exact hself 1 (by rw [Receiver.phrases, one_mul]) hk
  · refine .next hk nofun (hself _ ?_ (kind_next_of_lookAhead c hk₁ nofun))
    rw [Receiver.phrases, one_mul]
  · refine .next hk nofun (.next (kind_next_of_lookAhead c hk₁ nofun) nofun (hself _ ?_ ?_))
    · rw [Receiver.phrases, one_mul]
    · exact kind_next_of_lookAhead c.next (lookAhead_next c hk₂ nofun) nofun
  · exact .pure le_rfl

theorem derives_method : Derives 1 (fun m _ => m.phrases) c (method r) := by
  refine .look Cursor.span (.seq (derives_eat_word c .asyncKw) fun async c₁ => ?_)
  refine .seq (derives_word c₁ .fnKw) fun _ c₂ => .seq (derives_ident c₂) fun name c₃ => ?_
  refine .seq (derives_sym c₃ .lparen) fun _ c₄ => .seq (derives_receiver c₄) fun who c₅ => ?_
  refine .seq (derives_signature hr c₅ async) fun sig c₆ => ?_
  refine .seq (derives_block hr c₆) fun body c₇ => .pure ?_
  have hle := given_async_le sig async
    (key .fnKw * called name.name * sign .lparen * who.phrases) body.phrases
  rw [Method.phrases, one_mul]
  simpa only [mul_assoc] using hle

theorem derives_methodHead :
    Derives 1 (fun m k => m.phrases * ending true k) c (methodHead r) := by
  refine .look Cursor.span (.seq (derives_word c .fnKw) fun _ c₁ => ?_)
  refine .seq (derives_ident c₁) fun name c₂ => .seq (derives_sym c₂ .lparen) fun _ c₃ => ?_
  refine .seq (derives_receiver c₃) fun who c₄ => ?_
  refine .seq (derives_signature hr c₄ false) fun sig c₅ => .look Cursor.prev ?_
  refine .seq (derives_semicolon c₅) fun _ c₆ => .pure ?_
  rw [MethodHead.phrases, ending, upon_true, one_mul]
  by_cases h : sig.async = false
  · rw [given_of h, one_mul, one_mul]
  · rw [given_not h, zero_mul, mul_zero, zero_mul]
    exact bot_le

theorem derives_field : Derives 1 (fun f _ => f.phrases) c (field r) := by
  refine .seq (derives_ident c) fun name c₁ => .seq (derives_sym c₁ .colon) fun _ c₂ => ?_
  refine .seq (hr.type c₂) fun type c₃ => ?_
  have hlast (default : Option Expr) (c : Cursor) :
      Derives (called name.name * sign .colon * type.phrases * defaultPhrases default)
        (fun (f : Field) _ => f.phrases) c (do
          let stop ← before
          if ← eat (.sym .comma) then pure ()
          else
            let _ ← eat (.sym .semicolon)
          pure ⟨name, type, default, name.span.merge stop⟩) := by
    refine .look Cursor.prev (.seq (derives_eat_sym c .comma) fun comma c₁ => ?_)
    cases comma with
    | true =>
      refine .pure ?_
      rw [Field.phrases]
      exact mul_le_mul_right (le_add_self.trans le_self_add) _
    | false =>
      refine .seq (derives_eat_sym c₁ .semicolon) fun semi c₂ => .pure ?_
      rw [Field.phrases, upon_false, mul_one]
      refine mul_le_mul_right ((upon_le semi _).trans ?_) _
      gcongr
      exact le_self_add
  refine .seq (derives_eat_sym c₃ .eq) fun eq c₄ => ?_
  cases eq with
  | true =>
    refine .seq (hr.expr c₄) fun e c₅ => .look (fun _ => some e) ((hlast (some e) c₅).le ?_)
    rw [defaultPhrases, one_mul, upon_true, mul_assoc (_ * _ * _)]
  | false =>
    refine .look (fun _ => none) ((hlast none c₄).le ?_)
    rw [defaultPhrases, one_mul, upon_false]

/-- Fields and methods, each where it stands. -/
def ClassItem.phrases : ClassItem → Phrases
  | .field f => f.phrases
  | .method m => m.phrases

theorem derives_classItem : Derives 1 (fun i _ => i.phrases) c (classItem r) := by
  refine .peek fun k hk => ?_
  split
  · exact .seq (derives_method hr c) fun m c₁ => .pure (one_mul _).le
  · exact .seq (derives_method hr c) fun m c₁ => .pure (one_mul _).le
  · exact .seq (derives_field hr c) fun f c₁ => .pure (one_mul _).le
  · exact .fail _

omit hr in
theorem starts_classItem (i : ClassItem) : Starts i.phrases := by
  cases i with
  | field f => exact starts_field f
  | method m => exact starts_method m

omit hr in
/-- Items without semicolons simply follow each other. -/
theorem series_not_ended {α : Type} (body : α → Phrases) (as : List α) :
    series (as.map fun a => (body a, false)) = (as.map body).prod := by
  induction as with
  | nil => rfl
  | cons a as ih =>
    have hcons : series ((a :: as).map fun a => (body a, false)) =
        body a * series (as.map fun a => (body a, false)) := by
      cases as with
      | nil => rfl
      | cons b as => exact congrArg (· * _) (mul_one (body a))
    rw [hcons, ih, List.map_cons, List.prod_cons]

omit hr in
theorem fieldPhrases_eq (fs : List Field) : fieldPhrases fs = fs.map Field.phrases := by
  induction fs with
  | nil => rfl
  | cons f fs ih => rw [fieldPhrases, ih, List.map_cons]

omit hr in
theorem methodPhrases_eq (ms : List Method) : methodPhrases ms = ms.map Method.phrases := by
  induction ms with
  | nil => rfl
  | cons m ms ih => rw [methodPhrases, ih, List.map_cons]

omit hr in
theorem interleaved_left (f : Phrases) (fs ms : List Phrases) :
    f * interleaved fs ms ≤ interleaved (f :: fs) ms := by
  cases ms with
  | nil =>
    have hfs : interleaved fs [] = fs.prod := by cases fs <;> simp [interleaved]
    rw [hfs, interleaved, List.prod_cons]
    simp
  | cons m ms =>
    rw [interleaved]
    exact le_self_add

omit hr in
theorem interleaved_right (m : Phrases) (fs ms : List Phrases) :
    m * interleaved fs ms ≤ interleaved fs (m :: ms) := by
  cases fs with
  | nil => rw [interleaved, interleaved, List.prod_cons]
  | cons f fs =>
    rw [interleaved.eq_3]
    exact le_add_self

omit hr in
theorem prod_le_interleaved (is : List ClassItem) :
    (is.map ClassItem.phrases).prod ≤
      interleaved ((is.filterMap ClassItem.field?).map Field.phrases)
        ((is.filterMap ClassItem.method?).map Method.phrases) := by
  induction is with
  | nil => rw [List.filterMap_nil, List.filterMap_nil, List.map_nil, List.map_nil, interleaved]; rfl
  | cons i is ih =>
    rw [List.map_cons, List.prod_cons]
    refine (mul_le_mul_right ih _).trans ?_
    cases i with
    | field f => exact interleaved_left _ _ _
    | method m => exact interleaved_right _ _ _

theorem derives_classDecl (hk : c.kind = .word .classKw) :
    Derives 1 stmtAt c (classDecl r) := by
  refine .seq (derives_next hk nofun) fun start c₁ => .seq (derives_ident c₁) fun name c₂ => ?_
  refine .seq (derives_sym c₂ .lbrace) fun _ c₃ => ?_
  have hitem (c : Cursor) :
      Derives 1 (fun i k => ClassItem.phrases i * ending false k) c (classItem r) :=
    (derives_classItem hr c).imp fun i k => (mul_one i.phrases).ge
  refine .seq (derives_all c₃ (fun _ => false) hitem starts_classItem _) fun items c₄ => ?_
  refine .seq (derives_sym c₄ .rbrace) fun _ c₅ => .look Cursor.prev (.pure (le_stmtAt rfl ?_))
  rw [Stmt.phrases, one_mul, series_not_ended, fieldPhrases_eq, methodPhrases_eq]
  gcongr
  exact prod_le_interleaved items

theorem derives_interfaceDecl (hk : c.kind = .word .interfaceKw) :
    Derives 1 stmtAt c (interfaceDecl r) := by
  refine .seq (derives_next hk nofun) fun start c₁ => .seq (derives_ident c₁) fun name c₂ => ?_
  refine .seq (derives_sym c₂ .lbrace) fun _ c₃ => ?_
  refine .seq (derives_all c₃ (fun _ => true) (derives_methodHead hr) starts_methodHead _)
    fun methods c₄ => ?_
  refine .seq (derives_sym c₄ .rbrace) fun _ c₅ => .look Cursor.prev (.pure (le_stmtAt rfl ?_))
  rw [Stmt.phrases, one_mul]

theorem derives_implDecl (hk : c.kind = .word .implKw) :
    Derives 1 stmtAt c (implDecl r) := by
  refine .seq (derives_next hk nofun) fun start c₁ => .seq (derives_ident c₁) fun interface c₂ => ?_
  refine .seq (derives_word c₂ .forKw) fun _ c₃ => .seq (derives_ident c₃) fun target c₄ => ?_
  refine .seq (derives_sym c₄ .lbrace) fun _ c₅ => ?_
  have hitem (c : Cursor) : Derives 1 (fun m k => Method.phrases m * ending false k) c (method r) :=
    (derives_method hr c).imp fun m k => (mul_one m.phrases).ge
  refine .seq (derives_all c₅ (fun _ => false) hitem starts_method _) fun methods c₆ => ?_
  refine .seq (derives_sym c₆ .rbrace) fun _ c₇ => .look Cursor.prev (.pure (le_stmtAt rfl ?_))
  rw [Stmt.phrases, one_mul, series_not_ended, methodPhrases_eq]

omit hr in
theorem derives_required :
    Derives 1 (fun what _ => Import.phrases what.1 what.2) c required := by
  refine .peek fun k hk => ?_
  split
  · refine .seq (derives_next hk nofun) fun _ c₁ => .seq (derives_word c₁ .fromKw) fun _ c₂ => ?_
    refine .seq (derives_stringLiteral c₂) fun path c₃ => .pure ?_
    rw [Import.phrases, one_mul]
  · refine .seq (derives_next hk nofun) fun _ c₁ => ?_
    refine .seq (derives_items c₁ derives_ident .rbrace) fun names c₂ => ?_
    refine .seq (derives_word c₂ .fromKw) fun _ c₃ => ?_
    refine .seq (derives_stringLiteral c₃) fun path c₄ => .pure ?_
    rw [Import.phrases, one_mul]
    simp only [mul_assoc, le_refl]
  · refine .seq (derives_stringLiteral c) fun path c₁ => ?_
    refine .seq (derives_eat_word c₁ .asKw) fun renamed c₂ => ?_
    cases renamed with
    | true =>
      refine .seq (derives_ident c₂) fun newName c₃ => .pure ?_
      rw [Import.phrases, one_mul, upon_true]
    | false =>
      refine .pure ?_
      rw [Import.phrases, one_mul, upon_false, mul_one]

omit hr in
theorem derives_require (hk : c.kind = .word .requireKw) : Derives 1 stmtAt c require := by
  refine .seq (derives_next hk nofun) fun start c₁ => .seq (derives_required c₁) fun what c₂ => ?_
  refine .look Cursor.prev (.seq (derives_semicolon c₂) fun _ c₃ => .pure (mul_le_stmtAt rfl ?_))
  rw [Stmt.phrases, one_mul]

/-! ### Statements -/

theorem derives_binding (hk : c.kind = .word .letKw ∨ c.kind = .word .constKw) :
    Derives 1 (fun s k => given (s.isInit = true) * stmtAt s k) c (binding r) := by
  refine .look (fun c => decide (c.kind = .word .constKw)) ?_
  have hword : c.kind = .word (if decide (c.kind = .word .constKw) then .constKw else .letKw) := by
    rcases hk with hk | hk <;> simp [hk]
  refine .seq (derives_next hword nofun) fun start c₁ => .seq (derives_ident c₁) fun name c₂ => ?_
  refine .seq (derives_annotated hr c₂) fun type c₃ => .seq (derives_sym c₃ .eq) fun _ c₄ => ?_
  refine .seq (hr.expr c₄) fun value c₅ => .look Cursor.prev ?_
  refine .seq (derives_semicolon c₅) fun _ c₆ => .pure (le_given_mul rfl (mul_le_stmtAt rfl ?_))
  rw [Stmt.phrases, one_mul]

theorem derives_expressionUnless (stops : List Kind) :
    Derives 1 (fun e _ => optionalPhrases e) c (expressionUnless r stops) := by
  refine .peek fun k hk => ?_
  split
  · exact .pure (by rw [optionalPhrases])
  · refine .seq (hr.expr c) fun e c₁ => .pure ?_
    rw [optionalPhrases, one_mul]

theorem derives_returnStmt (hk : c.kind = .word .returnKw) : Derives 1 stmtAt c (returnStmt r) := by
  refine .seq (derives_next hk nofun) fun start c₁ => ?_
  refine .seq (derives_expressionUnless hr c₁ _) fun value c₂ => .look Cursor.prev ?_
  refine .seq (derives_semicolon c₂) fun _ c₃ => .pure (mul_le_stmtAt rfl ?_)
  rw [Stmt.phrases, one_mul]

omit hr in
theorem derives_jump {w : Keyword} (hk : c.kind = .word w) {make : Span → Stmt}
    (hmake : ∀ s, (make s).isSimple = true ∧ (make s).phrases = key w) :
    Derives 1 stmtAt c (jump make) := by
  refine .seq (derives_next hk nofun) fun span c₁ => ?_
  refine .seq (derives_semicolon c₁) fun _ c₂ => .pure (mul_le_stmtAt (hmake span).1 ?_)
  rw [(hmake span).2, one_mul]

theorem derives_conditionalWithin (n : Nat) :
    Derives 1 (fun c _ => c.phrases) c (conditionalWithin r n) := by
  induction n generalizing c with
  | zero => exact .peek fun _ _ => .fail _
  | succ n ih =>
    refine .seq (derives_expect (k := .word .ifKw) nofun c) fun start c₁ => ?_
    refine .seq (hr.expr c₁) fun test c₂ => .seq (derives_block hr c₂) fun body c₃ => ?_
    refine .seq (derives_eat_word c₃ .elseKw) fun found c₄ => ?_
    have hlast (otherwise : Otherwise) (c : Cursor) :
        Derives (key .ifKw * test.phrases * body.phrases * otherwise.phrases)
          (fun (c : Conditional) _ => c.phrases) c (pure otherwise >>= fun otherwise => before >>=
            fun stop => (pure ⟨start.merge stop, test, body, otherwise⟩ : Parser Conditional)) := by
      refine .look (fun _ => otherwise) (.look Cursor.prev (.pure ?_))
      rw [Conditional.phrases]
    cases found with
    | true =>
      refine .look (fun c => decide (c.kind = .word .ifKw)) ?_
      split
      · refine .seq (ih c₄) fun next c₅ => (hlast (.elseIf next) c₅).le ?_
        rw [Otherwise.phrases, one_mul, upon_true, mul_assoc (_ * _ * _)]
      · refine .seq (derives_block hr c₄) fun b c₅ => (hlast (.block b) c₅).le ?_
        rw [Otherwise.phrases, one_mul, upon_true, mul_assoc (_ * _ * _)]
    | false =>
      refine (hlast .none c₄).le ?_
      rw [Otherwise.phrases, one_mul, upon_false]

theorem derives_conditional : Derives 1 stmtAt c (conditional r) := by
  refine .look (·.rest.length) (.seq (derives_conditionalWithin hr c _) fun cond c₁ => ?_)
  refine .pure (le_stmtAt rfl ?_)
  rw [Stmt.phrases, one_mul]

omit hr in
theorem given_isInit_mul (s : Stmt) (k : Kind) :
    given (s.isInit = true) * stmtAt s k =
      given (s.isInit = true) * s.phrases * (sign .semicolon + given (closes k)) := by
  by_cases h : s.isInit = true
  · have hsimple : s.isSimple = true := by
      cases s with
      | bind | expr => rfl
      | _ => cases h
    rw [stmtAt, hsimple, mul_assoc]
    rfl
  · rw [given_not h, zero_mul, zero_mul, zero_mul]

theorem derives_loopInit :
    Derives 1 (fun init k => loopInitPhrases init * (sign .semicolon + given (closes k))) c
      (loopInit r) := by
  have hbinding (hk : c.kind = .word .letKw ∨ c.kind = .word .constKw) :
      Derives 1 (fun init k => loopInitPhrases init * (sign .semicolon + given (closes k))) c
        (binding r >>= fun s => pure (some s)) := by
    refine .seq (derives_binding hr c hk) fun s c₁ => .pure ?_
    rw [one_mul, loopInitPhrases, given_isInit_mul]
  refine .peek fun k hk => ?_
  split
  · refine .seq (derives_next hk nofun) fun _ c₁ => .pure ?_
    rw [loopInitPhrases, one_mul, one_mul]
    exact le_self_add
  · exact hbinding (.inl hk)
  · exact hbinding (.inr hk)
  · refine .seq (hr.expr c) fun e c₁ => .seq (derives_sym c₁ .semicolon) fun _ c₂ => .pure ?_
    rw [loopInitPhrases, one_mul, mul_assoc, Stmt.phrases]
    exact le_given_mul rfl (mul_le_mul_right le_self_add _)

theorem derives_loopTest :
    Derives 1 (fun e _ => given (¬closes c.kind) * optionalPhrases e) c
      (expressionUnless r [.sym .semicolon]) := by
  refine .peek fun k hk => ?_
  split
  · next hstop =>
    obtain rfl : k = .sym .semicolon := by simpa using hstop
    refine .pure (le_given_mul ?_ (by rw [optionalPhrases]))
    simp [hk, closes]
  · refine .seq ((hr.expr c).guarded c starts_expr) fun e c₁ => .pure ?_
    rw [optionalPhrases, one_mul]

omit hr in
/-- What follows the first part of a loop header shows that its semicolon is not left out. -/
theorem loopHeader_le (A init test : Phrases) (k : Kind) :
    A * (init * (sign .semicolon + given (closes k))) * (given (¬closes k) * test) ≤
      A * init * sign .semicolon * test := by
  by_cases h : closes k
  · rw [given_not (not_not.mpr h), zero_mul, mul_zero]
    exact bot_le
  · rw [given_of h, given_not h, add_zero, one_mul, ← mul_assoc A]

theorem derives_forStmt (hk : c.kind = .word .forKw) : Derives 1 stmtAt c (forStmt r) := by
  refine .seq (derives_next hk nofun) fun start c₁ => ?_
  refine .seq (derives_eat_sym c₁ .lparen) fun found c₂ => ?_
  cases found with
  | true =>
    refine .seq (derives_loopInit hr c₂) fun init c₃ => ?_
    refine .seq (derives_loopTest hr c₃) fun test c₄ => ?_
    refine .seq (derives_sym c₄ .semicolon) fun _ c₅ => ?_
    refine .seq (derives_expressionUnless hr c₅ _) fun post c₆ => ?_
    refine .seq (derives_sym c₆ .rparen) fun _ c₇ => ?_
    refine .seq (derives_block hr c₇) fun body c₈ => .pure (le_stmtAt rfl ?_)
    rw [Stmt.phrases, one_mul, upon_true]
    gcongr ?_ * sign .semicolon * optionalPhrases post * sign .rparen * body.phrases
    exact loopHeader_le _ _ _ _
  | false =>
    refine .seq (derives_ident c₂) fun item c₃ => .seq (derives_word c₃ .inKw) fun _ c₄ => ?_
    refine .seq (hr.expr c₄) fun iterable c₅ => ?_
    refine .seq (derives_block hr c₅) fun body c₆ => .pure (le_stmtAt rfl ?_)
    rw [Stmt.phrases, one_mul, upon_false, mul_one]

theorem derives_whileStmt (hk : c.kind = .word .whileKw) : Derives 1 stmtAt c (whileStmt r) := by
  refine .seq (derives_next hk nofun) fun start c₁ => .seq (hr.expr c₁) fun test c₂ => ?_
  refine .seq (derives_block hr c₂) fun body c₃ => .pure (le_stmtAt rfl ?_)
  rw [Stmt.phrases, one_mul]

theorem derives_loopStmt (hk : c.kind = .word .loopKw) : Derives 1 stmtAt c (loopStmt r) := by
  refine .seq (derives_next hk nofun) fun start c₁ => ?_
  refine .seq (derives_block hr c₁) fun body c₂ => .pure (le_stmtAt rfl ?_)
  rw [Stmt.phrases, one_mul]

theorem derives_expressionStmt : Derives 1 stmtAt c (expressionStmt r) := by
  refine .seq (hr.expr c) fun e c₁ => .seq (derives_semicolon c₁) fun _ c₂ => ?_
  refine .pure (mul_le_stmtAt rfl ?_)
  rw [Stmt.phrases, one_mul]

theorem derives_statement : Derives 1 stmtAt c (statement r) := by
  have hbinding (hk : c.kind = .word .letKw ∨ c.kind = .word .constKw) :
      Derives 1 stmtAt c (binding r) :=
    (derives_binding hr c hk).imp fun _ _ => given_mul_le _ _
  refine .peek fun k hk => ?_
  split
  · exact hbinding (.inl hk)
  · exact hbinding (.inr hk)
  · refine .lookAhead 1 fun k₁ _ => ?_
    split
    · exact derives_functionDecl hr c
    · exact derives_expressionStmt hr c
  · refine .lookAhead 1 fun k₁ _ => .lookAhead 2 fun k₂ _ => ?_
    split
    · exact derives_functionDecl hr c
    · exact derives_expressionStmt hr c
  · exact derives_returnStmt hr c hk
  · exact derives_jump c hk fun _ => ⟨rfl, by rw [Stmt.phrases]⟩
  · exact derives_jump c hk fun _ => ⟨rfl, by rw [Stmt.phrases]⟩
  · exact derives_conditional hr c
  · exact derives_forStmt hr c hk
  · exact derives_whileStmt hr c hk
  · exact derives_loopStmt hr c hk
  · refine .seq (derives_block hr c) fun b c₁ => .pure (le_stmtAt rfl ?_)
    rw [Stmt.phrases, one_mul]
  · exact derives_classDecl hr c hk
  · exact derives_interfaceDecl hr c hk
  · exact derives_implDecl hr c hk
  · exact derives_require c hk
  · exact derives_expressionStmt hr c

end

theorem stmtPhrases_eq (ss : List Stmt) :
    stmtPhrases ss = ss.map fun s => (s.phrases, s.isSimple) := by
  induction ss with
  | nil => rfl
  | cons s ss ih => rw [stmtPhrases, ih, List.map_cons]

theorem sound_outside {r : Rules} (hr : r.Sound) : r.outside.Sound := by
  refine ⟨fun c => ?_, fun c => ?_, fun c => ?_, fun c => ?_⟩ <;> dsimp only [Rules.outside]
  · exact .nested (derives_typeExpr hr.type _)
  · exact .nested (derives_expression hr _)
  · exact .nested (derives_unary hr _)
  · refine .nested ((derives_all _ Stmt.isSimple (derives_statement hr) starts_stmt _).imp ?_)
    intro ss k
    rw [stmtPhrases_eq]

theorem sound_levels (n : Nat) : (Rules.levels n).Sound := by
  induction n with
  | zero => exact ⟨fun c => .fail _, fun c => .fail _, fun c => .fail _, fun c => .fail _⟩
  | succ n ih => exact sound_outside ih

end CarvFront.Grammar

namespace CarvFront

/-- Tokens that are parsed without a fault are, up to the end, a phrase of the program they are
parsed to. -/
theorem Program.spelt_ofTokens {ts : List Token} (h : (Program.ofTokens ts).2 = []) :
    ∃ phrase ∈ (Program.ofTokens ts).1.phrases,
      Spelt phrase ((ts.map Token.kind).takeWhile (· ≠ .eof)) [] := by
  have hitem := Grammar.derives_statement (Grammar.sound_levels (maxNesting + 1))
  obtain ⟨-, hreads⟩ := Parser.derives_allWithin (.start ts) Stmt.isSimple hitem Grammar.starts_stmt
    (fun _ => false) ts.length
  obtain ⟨phrase, hphrase, hspelt⟩ := hreads (congrArg List.length h)
  have hend := Parser.kind_allWithin (.start ts) Stmt.isSimple hitem Grammar.starts_stmt
    (Nat.le_refl _) h
  rw [← Grammar.stmtPhrases_eq] at hphrase
  exact ⟨phrase, hphrase, hspelt.takeWhile ((Cursor.headD_kinds _).trans hend)⟩

/-- A method between two fields. Signs that close a generic type go on, and a reserved word is the
name of a member. -/
def splitText : String :=
  "class C \x7b a: chan<chan<int>>, fn m(&self) -> fn() \x7b return self.if \x7d" ++
    " b: chan<int>= c \x7d"

theorem Program.spelt_ofTokens_splitText :
    (Program.ofTokens (Token.scan splitText).1).2 = [] ∧
      ∃ phrase ∈ (Program.ofTokens (Token.scan splitText).1).1.phrases,
        Spelt phrase (((Token.scan splitText).1.map Token.kind).takeWhile (· ≠ .eof)) [] := by
  have hnone : (Program.ofTokens (Token.scan splitText).1).2 = [] := by decide +kernel
  exact ⟨hnone, Program.spelt_ofTokens hnone⟩

end CarvFront
