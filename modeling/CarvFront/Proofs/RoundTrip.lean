import CarvFront.Proofs.Precedence

/-! Reading an expression in canonical form gives it back. Each kind of expression is read on its own
level if its parts are; the levels around follow. -/
namespace CarvFront.Grammar
open CarvFront.Parser

variable {m n : Nat} {stop : Kind → Bool} {e l r : Expr} {ks : List Kind}
variable {span : Span} {es : List Expr} {k : Kind} {ps : List Part}

/-! ### Operators with operands on both sides -/

theorem operator?_symbol (op : BinOp) :
    operator? (levels.getD op.level []) (.sym op.symbol) = some op := by
  cases op <;> rfl

theorem stops_symbol (op : BinOp) : stops (op.level + 3) (.sym op.symbol) = true := by
  cases op <;> decide

theorem begins_of_left (h : Begins l) (htokens : e.tokens = l.tokens ++ ks)
    (hlevel : 13 ≤ e.level → 13 ≤ l.level) : Begins e := by
  obtain ⟨k, ks', hk, hfirst, hsign⟩ := h
  refine ⟨k, ks' ++ ks, ?_, hfirst, fun h => hsign (hlevel h)⟩
  rw [htokens, hk]
  rfl

theorem ready_binary {op : BinOp} (hl : Ready l) (hr : Ready r) (hll : op.level + 2 ≤ l.level)
    (hrl : op.level + 3 ≤ r.level) : Ready (.binary span op l r) := by
  have hop := opLevel_le op
  have hfold : folding (op.level + 2) = true := by
    simp only [folding, Bool.or_eq_true, Bool.and_eq_true, decide_eq_true_eq]
    omega
  refine ready_of_feeds hfold (begins_of_left hl.begins rfl fun h => ?_) fun m => ?_
  · change 13 ≤ op.level + 2 at h
    omega
  · have hfeeds := hl.feeds m (op.level + 2) hfold hll
    have hfolds : (Expr.binary span op l r).foldsAt (op.level + 2) =
        l.foldsAt (op.level + 2) + 1 := if_pos rfl
    have hloop : loopAt (.levels m) (op.level + 2) = binaryWithin (levels.getD op.level [])
        (ruleAt (.levels m) (op.level + 3)) := by
      have hrule : ruleAt (.levels m) (op.level + 3) =
          binary (.levels m) (levels.drop (op.level + 1)) := if_pos (by omega)
      rw [hrule]
      exact if_pos hop
    change Feeds m _ _ _ _ ((Expr.binary span op l r).foldsAt (op.level + 2))
    rw [hfolds]
    refine hfeeds.step (stops_symbol op) rfl rfl fun stop n ks ok hends hloops => ?_
    refine loops_turn (next >>= fun _ => ruleAt (.levels m) (op.level + 3))
      (fun l' r' => .binary (l'.span.merge r'.span) op l' r')
      (Reads.next fun _ => hr.reads m _ hrl) ?_ ?_ hends hloops
    · intro l' r' hl' hr'
      simp only [Expr.Same, Expr.bare] at hl' hr' ⊢
      rw [hl', hr']
    · intro fuel l' c hk
      rw [hloop, binaryWithin, bind_of_some (rfl : peek c = (some c.kind, c)), hk,
        operator?_symbol, bind_assoc]

theorem ready_pipe (hl : Ready l) (hr : Ready r) (hll : 1 ≤ l.level) (hrl : 2 ≤ r.level) :
    Ready (.pipe span l r) := by
  refine ready_of_feeds rfl (begins_of_left hl.begins rfl fun h => ?_) fun m => ?_
  · change 13 ≤ 1 at h
    omega
  · have hfeeds := hl.feeds m 1 rfl hll
    have hfolds : (Expr.pipe span l r).foldsAt 1 = l.foldsAt 1 + 1 := if_pos rfl
    have hk : stops 2 (.sym .pipeGt) = true := by decide
    have hright : Reads m (stops 2) (binary (.levels m) levels) r.nesting r.tokens (·.Same r) :=
      hr.reads m 2 hrl
    have hloop : loopAt (.levels m) 1 = pipeWithin (.levels m) := rfl
    change Feeds m _ _ _ _ ((Expr.pipe span l r).foldsAt 1)
    rw [hfolds]
    refine hfeeds.step hk rfl rfl fun stop n ks ok hends hloops => ?_
    refine loops_turn_behind (binary (.levels m) levels)
      (fun l' r' => .pipe (l'.span.merge r'.span) l' r') hright ?_ ?_ hends hloops
    · intro l' r' hl' hr'
      simp only [Expr.Same, Expr.bare] at hl' hr' ⊢
      rw [hl', hr']
    · intro fuel l' c hk
      have heat : eat (.sym .pipeGt) c = (some true, c.next) := if_pos hk
      rw [hloop, pipeWithin, bind_of_some heat, if_pos rfl]

theorem assignOp?_symbol (op : AssignOp) : assignOp? (.sym op.symbol) = some op := by
  cases op <;> rfl

theorem stops_assign (op : AssignOp) : stops 1 (.sym op.symbol) = true := by
  cases op <;> decide

theorem ready_assign {op : AssignOp} (hl : Ready l) (hr : Ready r) (hll : 1 ≤ l.level) :
    Ready (.assign span op l r) := by
  refine ready_of_reads rfl (begins_of_left hl.begins rfl fun h => ?_) fun m => ?_
  · change 13 ≤ 0 at h
    omega
  · have hleft : Reads m (stops 1) (pipe (.levels m)) l.nesting l.tokens (·.Same l) :=
      hl.reads m 1 hll
    change Reads m (stops 0) (expression (.levels m)) (max l.nesting (r.nesting + 1))
      (l.tokens ++ .sym op.symbol :: r.tokens) _
    unfold expression
    refine hleft.seq (stops_assign op) fun l' hl' => Reads.peek ?_
    rw [assignOp?_symbol]
    refine Reads.next fun _ => (hr.expr m).andThen fun r' hr' => Reads.pure ?_
    simp only [Expr.Same, Expr.bare] at hl' hr' ⊢
    rw [hl', hr']

/-! ### Operators in front -/

theorem ready_prefixed (k : Kind) (make : Span → Expr → Expr) (hmake : prefixed? k = some make)
    (hk : k ≠ .sym .amp) (hfirst : neverFirst k = false) (he : Ready e) (hel : 12 ≤ e.level)
    {e' : Expr} (hlevel : e'.level = 12) (htokens : e'.tokens = k :: e.tokens)
    (hnesting : e'.nesting = e.nesting + 1)
    (hsame : ∀ span operand, operand.Same e → (make span operand).Same e') : Ready e' := by
  refine ready_of_reads (hlevel ▸ rfl) ⟨k, e.tokens, htokens, hfirst, fun h => ?_⟩ fun m => ?_
  · omega
  · rw [hlevel, htokens, hnesting]
    change Reads m (stops 12) (unary (.levels m)) (e.nesting + 1) (k :: e.tokens) _
    refine Reads.look fun start => Reads.peek ?_
    split
    · exact absurd rfl hk
    · rw [hmake]
      refine Reads.next fun _ => (he.operand hel m).andThen fun operand ho => ?_
      exact Reads.pure (hsame _ operand ho)

theorem ready_borrow {mutable : Bool} (he : Ready e) (hel : 12 ≤ e.level) :
    Ready (.borrow span mutable e) := by
  refine ready_of_reads rfl ⟨.sym .amp, _, rfl, rfl, fun h => ?_⟩ fun m => ?_
  · change 13 ≤ 12 at h
    omega
  · change Reads m (stops 12) (unary (.levels m)) (e.nesting + 1)
      (.sym .amp :: if mutable then .word .mutKw :: e.tokens else e.tokens) _
    refine Reads.look fun start => Reads.peek (Reads.next fun _ => ?_)
    have hthen : Reads m (stops 12) ((Rules.levels m).operand >>= fun operand =>
        pure (Expr.borrow (start.merge operand.span) mutable operand)) (e.nesting + 1) e.tokens
        fun e' => e'.Same (.borrow span mutable e) := by
      refine (he.operand hel m).andThen fun operand ho => Reads.pure ?_
      simp only [Expr.Same, Expr.bare] at ho ⊢
      rw [ho]
    cases mutable with
    | true => exact Reads.eat hthen
    | false =>
      -- the operand's first token is looked at for a `mut`, which no expression starts with
      obtain ⟨k, ks, htokens, hfirst, -⟩ := he.begins
      have hne : k ≠ .word .mutKw := by
        rintro rfl
        cases hfirst
      rw [htokens] at hthen
      rw [if_neg Bool.false_ne_true, htokens]
      exact Reads.eat_other hne hthen

/-! ### Lists -/

theorem stops_fourteen (k : Kind) : stops 14 k = true := rfl

theorem reads_listOf {α β : Type} {p : Parser α} {s : Symbol} (item : β → Item α) {as : List β}
    (hstop : stops 0 (.sym s) = true) (hne : s ≠ .comma)
    (h : ∀ a ∈ as, (item a).Readable m (stops 0) p (.sym s)) :
    Reads m (stops 14) (items s p) (deepest (as.map item))
      (commas ((as.map item).map Item.tokens) ++ [.sym s]) (List.Forall₂ Item.ok (as.map item)) := by
  have hreadable : ∀ i ∈ as.map item, i.Readable m (stops 0) p (.sym s) := by
    intro i hi
    obtain ⟨a, ha, rfl⟩ := List.mem_map.mp hi
    exact h a ha
  have hcomma : stops 0 (.sym .comma) = true := by decide
  exact (reads_items (as.map item) hcomma hstop hne hreadable).weaken fun k _ => rfl

def exprItem (e : Expr) : Item Expr :=
  ⟨e.tokens, e.nesting + 1, (·.Same e)⟩

theorem tokensAll_eq (es : List Expr) : tokensAll es = (es.map exprItem).map Item.tokens := by
  induction es with
  | nil => rfl
  | cons e es ih => rw [tokensAll, ih]; rfl

theorem nestingAll_eq (es : List Expr) : nestingAll es = deepest (es.map exprItem) := by
  induction es with
  | nil => rfl
  | cons e es ih => rw [nestingAll, ih]; rfl

theorem bareAll_of_forall₂ {es' : List Expr} (h : List.Forall₂ Item.ok (es.map exprItem) es') :
    bareAll es' = bareAll es := by
  induction es generalizing es' with
  | nil =>
    cases h
    rfl
  | cons e es ih =>
    obtain ⟨e', es', he, hes, rfl⟩ := List.forall₂_cons_left_iff.mp h
    have hbare : e'.bare = e.bare := he
    rw [bareAll, bareAll, hbare, ih hes]

theorem Ready.readable (h : Ready e) (m : Nat) {close : Kind} (hclose : neverFirst close = true) :
    (exprItem e).Readable m (stops 0) (Rules.levels m).expr close where
  reads := h.expr m
  starts := by
    obtain ⟨k, ks, htokens, hfirst, -⟩ := h.begins
    refine ⟨k, ks, htokens, ?_, ?_⟩
    · rintro rfl
      rw [hfirst] at hclose
      cases hclose
    · rintro rfl
      cases hfirst

theorem reads_exprs (h : ∀ e ∈ es, Ready e) (m : Nat) {s : Symbol} (hs : neverFirst (.sym s) = true)
    (hstop : stops 0 (.sym s) = true) (hne : s ≠ .comma) :
    Reads m (stops 14) (items s (Rules.levels m).expr) (nestingAll es)
      (commas (tokensAll es) ++ [.sym s]) fun es' => bareAll es' = bareAll es := by
  rw [nestingAll_eq, tokensAll_eq]
  have hlist := reads_listOf exprItem hstop hne fun e he => (h e he).readable m hs
  exact hlist.imp fun _ => bareAll_of_forall₂

def entryItem (en : Expr × Expr) : Item (Expr × Expr) :=
  ⟨en.1.tokens ++ .sym .colon :: en.2.tokens, max (en.1.nesting + 1) (en.2.nesting + 1),
    fun en' => en'.1.Same en.1 ∧ en'.2.Same en.2⟩

theorem entryTokens_eq (es : List (Expr × Expr)) :
    entryTokens es = (es.map entryItem).map Item.tokens := by
  induction es with
  | nil => rfl
  | cons en es ih => rw [entryTokens, ih]; rfl

theorem entryNesting_eq (es : List (Expr × Expr)) :
    entryNesting es = deepest (es.map entryItem) := by
  induction es with
  | nil => rfl
  | cons en es ih => rw [entryNesting, ih]; rfl

theorem bareEntries_of_forall₂ {es es' : List (Expr × Expr)}
    (h : List.Forall₂ Item.ok (es.map entryItem) es') : bareEntries es' = bareEntries es := by
  induction es generalizing es' with
  | nil =>
    cases h
    rfl
  | cons en es ih =>
    obtain ⟨en', es', he, hes, rfl⟩ := List.forall₂_cons_left_iff.mp h
    have hkey : en'.1.bare = en.1.bare := he.1
    have hvalue : en'.2.bare = en.2.bare := he.2
    rw [bareEntries, bareEntries, hkey, hvalue, ih hes]

theorem readable_entry {key value : Expr} (hkey : Ready key) (hvalue : Ready value) (m : Nat) :
    (entryItem (key, value)).Readable m (stops 0) (entry (.levels m)) (.sym .rbrace) where
  reads := by
    refine (hkey.expr m).seq (by decide) fun key' hk => Reads.sym ?_
    exact (hvalue.expr m).andThen fun value' hv => Reads.pure ⟨hk, hv⟩
  starts := by
    have hstarts : ∃ k ks, key.tokens = k :: ks ∧ k ≠ .sym .rbrace ∧ k ≠ .eof :=
      (hkey.readable m rfl).starts
    obtain ⟨k, ks, htokens, hne, heof⟩ := hstarts
    refine ⟨k, ks ++ .sym .colon :: value.tokens, ?_, hne, heof⟩
    rw [entryItem, htokens]
    rfl

def fieldItem (f : Ident × Expr) : Item (Ident × Expr) :=
  ⟨.ident f.1.name :: .sym .colon :: f.2.tokens, f.2.nesting + 1,
    fun f' => f'.1.bare = f.1.bare ∧ f'.2.Same f.2⟩

theorem fieldTokens_eq (fs : List (Ident × Expr)) :
    fieldTokens fs = (fs.map fieldItem).map Item.tokens := by
  induction fs with
  | nil => rfl
  | cons f fs ih => rw [fieldTokens, ih]; rfl

theorem fieldNesting_eq (fs : List (Ident × Expr)) :
    fieldNesting fs = deepest (fs.map fieldItem) := by
  induction fs with
  | nil => rfl
  | cons f fs ih => rw [fieldNesting, ih]; rfl

theorem bareFields_of_forall₂ {fs fs' : List (Ident × Expr)}
    (h : List.Forall₂ Item.ok (fs.map fieldItem) fs') : bareFields fs' = bareFields fs := by
  induction fs generalizing fs' with
  | nil =>
    cases h
    rfl
  | cons f fs ih =>
    obtain ⟨f', fs', hf, hfs, rfl⟩ := List.forall₂_cons_left_iff.mp h
    have hvalue : f'.2.bare = f.2.bare := hf.2
    rw [bareFields, bareFields, hf.1, hvalue, ih hfs]

theorem readable_field (name : Ident) {value : Expr} (hvalue : Ready value) (m : Nat) :
    (fieldItem (name, value)).Readable m (stops 0) (fieldInit (.levels m)) (.sym .rbrace) where
  reads := by
    refine Reads.ident fun span => Reads.sym ?_
    exact (hvalue.expr m).andThen fun value' hv => Reads.pure ⟨rfl, hv⟩
  starts := ⟨_, _, rfl, by simp, by simp⟩

/-! ### Calls, members and indices -/

/-- What stands behind an object: `q` reads it and `make` puts it on top. -/
theorem ready_of_turn {α : Type} {seg : List Kind} {d : Nat} {fits : α → Prop}
    (q : Rules → Parser α) (make : Expr → α → Expr) (hl : Ready l) (hll : 13 ≤ l.level)
    (hlevel : e.level = 13) (htokens : e.tokens = l.tokens ++ k :: seg)
    (hfolds : e.folds = l.foldsAt 13 + 1)
    (hnesting : e.nesting = max l.nesting (l.foldsAt 13 + 1 + d))
    (hq : ∀ m, Reads m (stops 14) (q (.levels m)) d (k :: seg) fits)
    (hmake : ∀ l' a, l'.Same l → fits a → (make l' a).Same e)
    (hloop : ∀ r fuel l' (c : Cursor), c.kind = k → postfixWithin r (fuel + 1) l' c =
      nested (q r >>= fun a => postfixWithin r fuel (make l' a)) c) : Ready e := by
  refine ready_of_feeds (hlevel ▸ rfl) (begins_of_left hl.begins htokens fun _ => hll) fun m => ?_
  have hfeeds := hl.feeds m 13 rfl hll
  have hat : e.foldsAt 13 = l.foldsAt 13 + 1 := (if_pos hlevel).trans hfolds
  rw [hlevel, hat]
  refine hfeeds.step (stops_fourteen k) htokens hnesting fun stop n ks ok hends hloops => ?_
  exact loops_turn (q (.levels m)) make (hq m) hmake (hloop (.levels m)) hends hloops

/-- The arguments of a call with their parentheses, and where the closing one stands. -/
def arguments (r : Rules) : Parser (List Expr × Span) := do
  let _ ← next
  let args ← items .rparen r.expr
  let close ← before
  pure (args, close)

theorem ready_call {args : List Expr} (hl : Ready l) (hll : 13 ≤ l.level)
    (hargs : ∀ e ∈ args, Ready e) : Ready (.call span l args) := by
  have hq (m : Nat) : Reads m (stops 14) (arguments (.levels m)) (nestingAll args)
      (.sym .lparen :: (commas (tokensAll args) ++ [.sym .rparen]))
      fun a => bareAll a.1 = bareAll args := by
    refine Reads.next fun _ => ?_
    refine (reads_exprs hargs m rfl (by decide) (by decide)).andThen fun args' h => ?_
    exact Reads.look fun _ => Reads.pure h
  refine ready_of_turn arguments (fun l' a => .call (l'.span.merge a.2) l' a.1) hl hll rfl ?_ rfl
    rfl hq ?_ ?_
  · rw [Expr.tokens, List.append_assoc]
    rfl
  · intro l' a hl' ha
    simp only [Expr.Same, Expr.bare] at hl' ⊢
    rw [hl', ha]
  · intro r fuel l' c hk
    rw [postfixWithin, bind_of_some (rfl : peek c = (some c.kind, c)), hk]
    simp only [arguments, bind_assoc, pure_bind]

def selection : Parser Ident := do
  let _ ← next
  memberName

theorem reads_selection {name : String} (m : Nat) :
    Reads m (stops 14) selection 0 [.sym .dot, memberKind name] fun i => i.name = name := by
  refine Reads.next fun _ => ?_
  have hend (i : Ident) (hi : i.name = name) :
      Reads m (stops 14) (pure i) 0 [] fun i => i.name = name := Reads.pure hi
  rw [← bind_pure memberName]
  unfold memberKind
  cases hw : Keyword.ofText? name with
  | none => exact Reads.memberName_ident fun _ => hend _ rfl
  | some w =>
    have htext : w.text = name := by
      simpa using List.find?_some hw
    exact Reads.memberName_word fun _ => hend _ htext

theorem ready_member {name : Ident} (hl : Ready l) (hll : 13 ≤ l.level) :
    Ready (.member span l name) := by
  refine ready_of_turn (fun _ => selection) (fun l' i => .member (l'.span.merge i.span) l' i) hl
    hll rfl rfl rfl rfl (fun m => reads_selection m) ?_ ?_
  · intro l' i hl' hi
    simp only [Expr.Same, Expr.bare, Ident.bare] at hl' ⊢
    rw [hl', hi]
  · intro r fuel l' c hk
    rw [postfixWithin, bind_of_some (rfl : peek c = (some c.kind, c)), hk]
    simp only [selection, bind_assoc]

/-- An index with its brackets, and where the closing one stands. -/
def subscript (r : Rules) : Parser (Expr × Span) := do
  let _ ← next
  let i ← r.expr
  sym .rbracket
  let close ← before
  pure (i, close)

theorem ready_index {i : Expr} (hl : Ready l) (hll : 13 ≤ l.level) (hi : Ready i) :
    Ready (.index span l i) := by
  have hq (m : Nat) : Reads m (stops 14) (subscript (.levels m)) (i.nesting + 1)
      (.sym .lbracket :: (i.tokens ++ [.sym .rbracket])) fun a => a.1.Same i := by
    have hclose : stops 0 (.sym .rbracket) = true := by decide
    refine Reads.next fun _ => (hi.expr m).closedBy hclose fun i' h => Reads.sym ?_
    exact Reads.look fun _ => Reads.pure h
  refine ready_of_turn subscript (fun l' a => .index (l'.span.merge a.2) l' a.1) hl hll rfl ?_ rfl
    rfl hq ?_ ?_
  · rw [Expr.tokens, List.append_assoc]
    rfl
  · intro l' a hl' ha
    simp only [Expr.Same, Expr.bare] at hl' ha ⊢
    rw [hl', ha]
  · intro r fuel l' c hk
    rw [postfixWithin, bind_of_some (rfl : peek c = (some c.kind, c)), hk]
    simp only [subscript, bind_assoc, pure_bind]

/-! ### Expressions that need nothing around them -/

theorem ready_atom (hlambda : k ≠ .word .fnKw ∧ k ≠ .word .asyncKw) (hfirst : neverFirst k = false)
    (hsign : signs k = false) (hlevel : e.level = 14) (htokens : e.tokens = k :: ks)
    (h : ∀ m, Reads m (stops 14) (atom (.levels m) k) e.nesting (k :: ks)
      fun make => ∀ span, (make span).Same e) : Ready e := by
  refine ready_of_reads (hlevel ▸ rfl) ⟨k, ks, htokens, hfirst, fun _ => hsign⟩ fun m => ?_
  rw [hlevel, htokens]
  change Reads m (stops 14) (primary (.levels m)) e.nesting (k :: ks) _
  refine Reads.peek ?_
  split
  · exact absurd rfl hlambda.1
  · exact absurd rfl hlambda.2
  · refine Reads.look fun start => (h m).andThen fun make hmake => ?_
    exact Reads.look fun last => Reads.pure (hmake _)

theorem starts_of_literal {make : Span → Expr} (h : literal? k = some make) :
    (k ≠ .word .fnKw ∧ k ≠ .word .asyncKw) ∧ neverFirst k = false ∧ signs k = false := by
  cases k with
  | word w => cases w <;> first | (cases h; done) | exact ⟨⟨nofun, nofun⟩, rfl, rfl⟩
  | int _ | float _ | string _ | char _ | ident _ => exact ⟨⟨nofun, nofun⟩, rfl, rfl⟩
  | _ => cases h

theorem ready_literal (k : Kind) (make : Span → Expr) (hmake : literal? k = some make)
    (hlevel : e.level = 14) (htokens : e.tokens = [k]) (hnesting : e.nesting = 0)
    (hsame : ∀ span, (make span).Same e) : Ready e := by
  obtain ⟨hlambda, hfirst, hsign⟩ := starts_of_literal hmake
  refine ready_atom hlambda hfirst hsign hlevel htokens fun m => ?_
  unfold atom
  rw [hnesting, hmake]
  exact Reads.next fun _ => Reads.pure hsame

theorem ready_paren (he : Ready e) : Ready (.paren span e) := by
  refine ready_atom (k := .sym .lparen) ⟨nofun, nofun⟩ rfl rfl rfl rfl fun m => ?_
  have hclose : stops 0 (.sym .rparen) = true := by decide
  refine Reads.next fun _ => (he.expr m).closedBy hclose fun e' h => ?_
  refine Reads.sym (Reads.pure fun _ => ?_)
  simp only [Expr.Same, Expr.bare] at h ⊢
  rw [h]

theorem ready_array (h : ∀ e ∈ es, Ready e) : Ready (.array span es) := by
  refine ready_atom (k := .sym .lbracket) ⟨nofun, nofun⟩ rfl rfl rfl rfl fun m => ?_
  refine Reads.next fun _ => ?_
  refine (reads_exprs h m rfl (by decide) (by decide)).andThen fun es' hes => Reads.pure fun _ => ?_
  simp only [Expr.Same, Expr.bare]
  rw [hes]

theorem ready_map {es : List (Expr × Expr)} (h : ∀ en ∈ es, Ready en.1 ∧ Ready en.2) :
    Ready (.map span es) := by
  refine ready_atom (k := .sym .lbrace) ⟨nofun, nofun⟩ rfl rfl rfl rfl fun m => ?_
  have hclose : stops 0 (.sym .rbrace) = true := by decide
  have hlist := reads_listOf entryItem hclose nofun fun en hen =>
    readable_entry (h en hen).1 (h en hen).2 m
  rw [← entryNesting_eq, ← entryTokens_eq] at hlist
  refine Reads.next fun _ => hlist.andThen fun es' hes => Reads.pure fun _ => ?_
  simp only [Expr.Same, Expr.bare]
  rw [bareEntries_of_forall₂ hes]

theorem ready_new {cls : Ident} {fs : List (Ident × Expr)} (h : ∀ f ∈ fs, Ready f.2) :
    Ready (.new span cls fs) := by
  refine ready_atom (k := .word .newKw) ⟨nofun, nofun⟩ rfl rfl rfl rfl fun m => ?_
  have hclose : stops 0 (.sym .rbrace) = true := by decide
  have hlist := reads_listOf fieldItem hclose nofun fun f hf => readable_field f.1 (h f hf) m
  rw [← fieldNesting_eq, ← fieldTokens_eq] at hlist
  refine Reads.next fun _ => Reads.ident fun place => Reads.sym ?_
  refine hlist.andThen fun fs' hfs => Reads.pure fun _ => ?_
  simp only [Expr.Same, Expr.bare]
  rw [bareFields_of_forall₂ hfs]
  rfl

/-! ### Strings with holes -/

theorem bareParts_textPart (s : String) (ps : List Part) :
    bareParts (textPart s ++ ps) = textPart s ++ bareParts ps := by
  unfold textPart
  split <;> rfl

theorem partNesting_textPart (s : String) (ps : List Part) :
    partNesting (textPart s ++ ps) = partNesting ps := by
  unfold textPart
  split <;> rfl

/-- The tokens of a string start with a text. Either it is all there is, or a hole follows. -/
theorem partTokens_cases (start : String → Kind) (h : Part.separated ps = true) :
    (∃ s, ps = textPart s ∧ partTokens start "" ps = [.stringEnd s]) ∨
      ∃ s e rest, ps = textPart s ++ .hole e :: rest ∧ Part.separated rest = true ∧
        partTokens start "" ps =
          start s :: .holeStart :: e.tokens ++ .holeEnd :: partTokens .stringPart "" rest := by
  have htext {t : String} (ht : (!t.isEmpty) = true) : [Part.text t] = textPart t := by
    simp only [Bool.not_eq_true', textPart] at ht ⊢
    rw [ht]
    rfl
  match ps, h with
  | [], _ => exact .inl ⟨"", rfl, rfl⟩
  | .hole e :: rest, h => exact .inr ⟨"", e, rest, rfl, h, rfl⟩
  | [.text t], h =>
    obtain ⟨ht, -⟩ := Bool.and_eq_true_iff.mp h
    refine .inl ⟨t, htext ht, ?_⟩
    rw [partTokens, String.empty_append, partTokens]
  | .text t :: .hole e :: rest, h =>
    obtain ⟨ht, hrest⟩ := Bool.and_eq_true_iff.mp h
    refine .inr ⟨t, e, rest, ?_, hrest, ?_⟩
    · rw [← htext ht]
      rfl
    · rw [partTokens, String.empty_append, partTokens]

/-- A hole and the pieces of the string behind it. -/
theorem outcome_holes (he : Ready e) (hps : ∀ e, .hole e ∈ ps → Ready e)
    (hsep : Part.separated ps = true) {fuel : Nat} {c : Cursor} {rest : List Token} (hr : Room m c)
    (hs : Spells (.holeStart :: e.tokens ++ .holeEnd :: partTokens .stringPart "" ps) c.rest rest)
    (hfuel : c.rest.length ≤ fuel) :
    Outcome c.depth c.faults rest (max (e.nesting + 1) (partNesting ps))
      (fun ps' => bareParts ps' = .hole e.bare :: bareParts ps)
      (holesWithin (.levels m) fuel c) := by
  -- on the number of parts: with a text between two holes, the next hole is two parts on
  induction hn : ps.length using Nat.strongRecOn generalizing e ps fuel c with
  | ind n ih =>
    have hd := hr.depth_le
    obtain ⟨ts, last, depth, faults⟩ := c
    obtain ⟨t₀, ts₀, rfl, ht₀, hs⟩ := hs
    obtain ⟨mid, hexpr, t₁, ts₁, rfl, ht₁, htail⟩ := spells_append.mp hs
    have hlen := hexpr.length_eq
    rw [List.length_cons] at hfuel hlen
    obtain ⟨fuel, rfl⟩ : ∃ n, fuel = n + 1 := ⟨fuel - 1, by omega⟩
    have hstop : stops 0 (firstKind (t₁ :: ts₁)) = true := by
      rw [firstKind, ht₁]
      decide
    rw [holesWithin, bind_of_some (expect_of_eq ht₀ ts₀ last)]
    refine (he.expr m ⟨ts₀, t₀.span, depth, faults⟩ (t₁ :: ts₁) ⟨hd, hr.enough⟩ hexpr hstop).bind
      fun e' last he' => ?_
    have hbare : e'.bare = e.bare := he'
    rw [bind_of_some (expect_of_eq ht₁ ts₁ last)]
    rcases partTokens_cases .stringPart hsep with ⟨s, rfl, htok⟩ | ⟨s, e₂, ps₂, rfl, hsep₂, htok⟩
    · rw [htok] at htail
      obtain ⟨t₂, ts₂, rfl, ht₂, rfl⟩ := htail
      rw [bind_of_some (peek_of_eq ht₂ ts₂ t₁.span)]
      have hflat : partNesting (textPart s) = 0 := by
        unfold textPart
        split <;> rfl
      rw [hflat]
      change Outcome depth faults ts₂ 0 _
        (some (.hole e' :: textPart s), ⟨ts₂, t₂.span, depth, faults⟩)
      refine .read _ _ hd ?_
      rw [bareParts, hbare]
    · rw [htok] at htail
      obtain ⟨t₂, ts₂, rfl, ht₂, htail⟩ := htail
      rw [bind_of_some (peek_of_eq ht₂ ts₂ t₁.span), partNesting_textPart, bareParts_textPart]
      have hshort : ps₂.length < n := by
        rw [← hn, List.length_append, List.length_cons]
        omega
      have hready (e : Expr) (h : Part.hole e ∈ .hole e₂ :: ps₂) : Ready e :=
        hps e (List.mem_append_right _ h)
      have hrest : Outcome depth faults rest (max (e₂.nesting + 1) (partNesting ps₂))
          (fun ps' => bareParts ps' = .hole e₂.bare :: bareParts ps₂)
          (holesWithin (.levels m) fuel ⟨ts₂, t₂.span, depth, faults⟩) := by
        rw [List.length_cons] at hlen
        refine ih ps₂.length hshort (hready e₂ List.mem_cons_self)
          (fun e h => hready e (List.mem_cons_of_mem _ h)) hsep₂
          (c := ⟨ts₂, t₂.span, depth, faults⟩) ⟨hd, hr.enough⟩ htail ?_ rfl
        dsimp only
        omega
      refine hrest.map (fun ps' => .hole e' :: textPart s ++ ps') fun ps' h => ?_
      rw [List.cons_append, bareParts, bareParts_textPart, h, hbare]
      rfl

theorem ready_interp (hany : ps.any Part.isHole = true) (hsep : Part.separated ps = true)
    (h : ∀ e, .hole e ∈ ps → Ready e) : Ready (.interp span ps) := by
  rcases partTokens_cases .stringStart hsep with ⟨s, rfl, -⟩ | ⟨s, e, rest, rfl, hrest, htok⟩
  · unfold textPart at hany
    split at hany <;> cases hany
  · refine ready_atom (k := .stringStart s) ⟨nofun, nofun⟩ rfl rfl rfl htok fun m => ?_
    refine Reads.next fun _ c behind hr hs hstop => ?_
    have hmem : Part.hole e ∈ textPart s ++ .hole e :: rest :=
      List.mem_append_right _ List.mem_cons_self
    have hholes := outcome_holes (h e hmem)
      (fun e' he' => h e' (List.mem_append_right _ (List.mem_cons_of_mem _ he'))) hrest hr hs
      (Nat.le_refl _)
    rw [Expr.nesting, partNesting_textPart]
    refine hholes.map (fun ps' place => Expr.interp place (textPart s ++ ps'))
      fun ps' hps' place => ?_
    simp only [Expr.Same, Expr.bare]
    rw [bareParts_textPart, bareParts_textPart, hps']
    rfl

/-! ### All expressions -/

mutual

/-- Every expression in canonical form is read as it should. -/
theorem ready : ∀ e : Expr, e.canonical = true → Ready e
  | .int _ n, _ => ready_literal (.int n) (.int · n) rfl rfl rfl rfl fun _ => rfl
  | .float _ d, _ => ready_literal (.float d) (.float · d) rfl rfl rfl rfl fun _ => rfl
  | .string _ s, _ => ready_literal (.string s) (.string · s) rfl rfl rfl rfl fun _ => rfl
  | .char _ c, _ => ready_literal (.char c) (.char · c) rfl rfl rfl rfl fun _ => rfl
  | .bool _ true, _ => ready_literal (.word .trueKw) (.bool · true) rfl rfl rfl rfl fun _ => rfl
  | .bool _ false, _ => ready_literal (.word .falseKw) (.bool · false) rfl rfl rfl rfl fun _ => rfl
  | .nil _, _ => ready_literal (.word .nilKw) .nil rfl rfl rfl rfl fun _ => rfl
  | .ident span name, _ => by
    by_cases hself : name = Keyword.selfKw.text
    · refine ready_literal (.word .selfKw) (.ident · Keyword.selfKw.text) rfl rfl ?_ rfl fun _ => ?_
      · rw [Expr.tokens, if_pos hself]
      · rw [hself]
        rfl
    · refine ready_literal (.ident name) (.ident · name) rfl rfl ?_ rfl fun _ => rfl
      rw [Expr.tokens, if_neg hself]
  | .interp _ ps, h => by
    simp only [Expr.canonical, Bool.and_eq_true] at h
    obtain ⟨⟨hany, hsep⟩, hps⟩ := h
    exact ready_interp hany hsep (readyParts ps hps)
  | .array _ es, h => ready_array (readyAll es h)
  | .map _ es, h => ready_map (readyEntries es h)
  | .call _ f args, h => by
    simp only [Expr.canonical, Bool.and_eq_true, decide_eq_true_eq] at h
    obtain ⟨⟨hlevel, hf⟩, hargs⟩ := h
    exact ready_call (ready f hf) hlevel (readyAll args hargs)
  | .member _ object _, h => by
    simp only [Expr.canonical, Bool.and_eq_true, decide_eq_true_eq] at h
    exact ready_member (ready object h.2) h.1
  | .index _ object i, h => by
    simp only [Expr.canonical, Bool.and_eq_true, decide_eq_true_eq] at h
    obtain ⟨⟨hlevel, hobject⟩, hi⟩ := h
    exact ready_index (ready object hobject) hlevel (ready i hi)
  | .binary _ op l r, h => by
    simp only [Expr.canonical, Bool.and_eq_true, decide_eq_true_eq] at h
    obtain ⟨⟨⟨hll, hrl⟩, hl⟩, hr⟩ := h
    exact ready_binary (ready l hl) (ready r hr) hll hrl
  | .unary _ op e, h => by
    simp only [Expr.canonical, Bool.and_eq_true, decide_eq_true_eq] at h
    have hop : prefixed? (.sym op.symbol) = some (.unary · op) ∧ Kind.sym op.symbol ≠ .sym .amp ∧
        neverFirst (.sym op.symbol) = false := by
      cases op <;> exact ⟨rfl, nofun, rfl⟩
    exact ready_prefixed _ _ hop.1 hop.2.1 hop.2.2 (ready e h.2) h.1 rfl rfl rfl
      fun _ _ ho => congrArg (Expr.unary .nowhere op) ho
  | .borrow _ _ e, h => by
    simp only [Expr.canonical, Bool.and_eq_true, decide_eq_true_eq] at h
    exact ready_borrow (ready e h.2) h.1
  | .deref _ e, h => by
    simp only [Expr.canonical, Bool.and_eq_true, decide_eq_true_eq] at h
    exact ready_prefixed (.sym .star) .deref rfl nofun rfl (ready e h.2) h.1 rfl rfl rfl
      fun _ _ ho => congrArg (Expr.deref .nowhere) ho
  | .await _ e, h => by
    simp only [Expr.canonical, Bool.and_eq_true, decide_eq_true_eq] at h
    exact ready_prefixed (.word .awaitKw) .await rfl nofun rfl (ready e h.2) h.1 rfl rfl rfl
      fun _ _ ho => congrArg (Expr.await .nowhere) ho
  | .pipe _ l r, h => by
    simp only [Expr.canonical, Bool.and_eq_true, decide_eq_true_eq] at h
    obtain ⟨⟨⟨hll, hrl⟩, hl⟩, hr⟩ := h
    exact ready_pipe (ready l hl) (ready r hr) hll hrl
  | .assign _ _ target value, h => by
    simp only [Expr.canonical, Bool.and_eq_true, decide_eq_true_eq] at h
    obtain ⟨⟨hlevel, htarget⟩, hvalue⟩ := h
    exact ready_assign (ready target htarget) (ready value hvalue) hlevel
  | .new _ _ fs, h => ready_new (readyFields fs h)
  | .lambda _ _ _, h => nomatch h
  | .paren _ e, h => ready_paren (ready e h)

theorem readyAll : ∀ es : List Expr, canonicalAll es = true → ∀ e ∈ es, Ready e
  | [], _ => nofun
  | e :: es, h => by
    simp only [canonicalAll, Bool.and_eq_true] at h
    exact List.forall_mem_cons.mpr ⟨ready e h.1, readyAll es h.2⟩

theorem readyEntries : ∀ es : List (Expr × Expr), canonicalEntries es = true →
    ∀ en ∈ es, Ready en.1 ∧ Ready en.2
  | [], _ => nofun
  | (key, value) :: es, h => by
    simp only [canonicalEntries, Bool.and_eq_true] at h
    exact List.forall_mem_cons.mpr
      ⟨⟨ready key h.1.1, ready value h.1.2⟩, readyEntries es h.2⟩

theorem readyFields : ∀ fs : List (Ident × Expr), canonicalFields fs = true →
    ∀ f ∈ fs, Ready f.2
  | [], _ => nofun
  | (name, e) :: fs, h => by
    simp only [canonicalFields, Bool.and_eq_true] at h
    exact List.forall_mem_cons.mpr ⟨ready e h.1, readyFields fs h.2⟩

theorem readyParts : ∀ ps : List Part, canonicalParts ps = true → ∀ e, .hole e ∈ ps → Ready e
  | [], _ => nofun
  | .text s :: ps, h => by
    have hps := readyParts ps h
    intro e he
    rcases List.mem_cons.mp he with heq | he
    · cases heq
    · exact hps e he
  | .hole e :: ps, h => by
    simp only [canonicalParts, Bool.and_eq_true] at h
    have hready := ready e h.1
    have hps := readyParts ps h.2
    intro e' he
    rcases List.mem_cons.mp he with heq | he
    · cases heq
      exact hready
    · exact hps e' he

end

/-! ### Bindings -/

/-- A `let` of that name without a type and with that value, spans apart. -/
def Lets (x : String) (e : Expr) : Stmt → Prop
  | .bind _ const name type value =>
    const = false ∧ name.name = x ∧ type = none ∧ value.Same e
  | _ => False

/-- How `let x = e;` is written. -/
def letTokens (x : String) (e : Expr) : List Kind :=
  .word .letKw :: .ident x :: .sym .eq :: e.tokens ++ [.sym .semicolon]

theorem reads_binding (he : Ready e) (x : String) (m : Nat) :
    Reads m (fun _ => true) (binding (.levels m)) (e.nesting + 1) (letTokens x e) (Lets x e) := by
  have hvalue (start : Span) (name : Ident) (hname : name.name = x) :
      Reads m (fun _ => true) (do
        let value ← (Rules.levels m).expr
        let stop ← before
        semicolon
        pure (.bind (start.merge stop) false name none value)) (e.nesting + 1)
        (e.tokens ++ [.sym .semicolon]) (Lets x e) := by
    have hclose : stops 0 (.sym .semicolon) = true := by decide
    refine (he.expr m).closedBy hclose fun value hsame => Reads.look fun stop => ?_
    rw [semicolon, bind_assoc]
    exact Reads.eat (Reads.pure ⟨rfl, hname, rfl, hsame⟩)
  have hconst : decide (Kind.word .letKw = .word .constKw) = false := by decide
  refine Reads.isAt (hconst ▸ Reads.next fun start => Reads.ident fun span => ?_)
  rw [ annotation, bind_assoc]
  have hne : Kind.sym .eq ≠ .sym .colon := nofun
  refine Reads.eat_other hne ?_
  exact Reads.sym (hvalue start ⟨x, span⟩ rfl)

theorem reads_statement (he : Ready e) (x : String) (m : Nat) :
    Reads m (fun _ => true) (statement (.levels m)) (e.nesting + 1) (letTokens x e) (Lets x e) :=
  Reads.peek (reads_binding he x m)

end CarvFront.Grammar

namespace CarvFront
open CarvFront.Parser CarvFront.Grammar

/-- A program of one statement. -/
theorem Program.ofTokens_of_outcome {ts rest : List Token} {n : Nat} {ok : Stmt → Prop}
    (h : Outcome 0 [] rest n ok (statement rules (.start ts))) (hfirst : firstKind ts ≠ .eof)
    (hrest : firstKind rest = .eof) :
    if n ≤ maxNesting then
      ∃ s, (Program.ofTokens ts).1.stmts = [s] ∧ ok s ∧ (Program.ofTokens ts).2 = []
    else
      ∃ f, (Program.ofTokens ts).2.head? = some f ∧ f.error.code = .nestingLimit := by
  generalize hres : statement rules (.start ts) = res at h
  cases h with
  | read s last fits hs =>
    obtain ⟨hstmts, hfaults⟩ := Program.ofTokens_single hfirst hres (by rwa [Cursor.kind_eq])
    rw [if_pos (by omega)]
    exact ⟨s, hstmts, hs, hfaults⟩
  | tooDeep c beyond h =>
    -- reading goes on after the failure, and what was noted first stays first
    obtain ⟨span, hspan⟩ := h
    obtain ⟨later, hlater⟩ := Program.faults_of_none hfirst hres
    rw [if_neg (by omega), ← hlater, hspan]
    exact ⟨⟨.nestingLimit, span⟩, rfl, rfl⟩

/-- Reading inverts writing: `let x = e;` is read as a `let` of `x` to `e` and nothing else, without
faults, unless it nests too deep, which is the first thing said then. -/
theorem Program.ofTokens_let (x : String) (e : Expr) (he : e.canonical = true) (ts : List Token)
    (hts : ts.map Token.kind = letTokens x e ++ [.eof]) :
    if e.nesting < maxNesting then
      ∃ s, (Program.ofTokens ts).1.stmts = [s] ∧ Lets x e s ∧ (Program.ofTokens ts).2 = []
    else
      ∃ f, (Program.ofTokens ts).2.head? = some f ∧ f.error.code = .nestingLimit := by
  have hspell := spells_map_kind ts
  rw [hts] at hspell
  obtain ⟨rest, hlet, hend⟩ := spells_append.mp hspell
  have hroom : Room (maxNesting + 1) (.start ts) := ⟨Nat.zero_le _, Nat.lt_succ_self _⟩
  have hout := reads_statement (ready e he) x (maxNesting + 1) (.start ts) rest hroom hlet rfl
  have hfirst : firstKind ts ≠ .eof := by
    rw [firstKind_of_spells hlet]
    nofun
  exact Program.ofTokens_of_outcome hout hfirst (firstKind_of_spells hend)

/-- The expression `a.b[0](-c * (d + 1), &mut e) |> f |> g = "t{h}"`. -/
def Expr.pipeline : Expr :=
  let var (name : String) : Expr := .ident .nowhere name
  let sum : Expr := .binary .nowhere .add (var "d") (.int .nowhere 1)
  let product : Expr := .binary .nowhere .mul (.unary .nowhere .neg (var "c")) (.paren .nowhere sum)
  let callee : Expr := .index .nowhere (.member .nowhere (var "a") ⟨"b", .nowhere⟩) (.int .nowhere 0)
  let call : Expr := .call .nowhere callee [product, .borrow .nowhere true (var "e")]
  .assign .nowhere .assign (.pipe .nowhere (.pipe .nowhere call (var "f")) (var "g"))
    (.interp .nowhere [.text "t", .hole (var "h")])

/-- Parentheses around a number. -/
def Expr.wrapped (n : Nat) : Expr :=
  Nat.repeat (Expr.paren .nowhere) n (.int .nowhere 0)

/-- The tokens of `let x = e;` and the end, all at one place. -/
def letProgram (x : String) (e : Expr) : List Token :=
  (letTokens x e ++ [Kind.eof]).map (⟨·, .nowhere⟩)

theorem kinds_letProgram (x : String) (e : Expr) :
    (letProgram x e).map Token.kind = letTokens x e ++ [.eof] := by
  rw [letProgram, List.map_map]
  exact List.map_id _

theorem Program.ofTokens_let_pipeline :
    Expr.pipeline.canonical = true ∧
    (∃ s, (Program.ofTokens (letProgram "x" .pipeline)).1.stmts = [s] ∧ Lets "x" .pipeline s ∧
      (Program.ofTokens (letProgram "x" .pipeline)).2 = []) ∧
    (Expr.wrapped 64).canonical = true ∧
    ∃ f, (Program.ofTokens (letProgram "x" (.wrapped 64))).2.head? = some f ∧
      f.error.code = .nestingLimit := by
  have hpipeline := Program.ofTokens_let "x" .pipeline (by decide) _ (kinds_letProgram _ _)
  have hwrapped := Program.ofTokens_let "x" (.wrapped 64) (by decide) _ (kinds_letProgram _ _)
  rw [if_pos (by decide)] at hpipeline
  rw [if_neg (by decide)] at hwrapped
  exact ⟨by decide, hpipeline, by decide, hwrapped⟩

end CarvFront
