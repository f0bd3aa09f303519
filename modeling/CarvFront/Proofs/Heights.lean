import CarvFront.Proofs.Budget

/-! How high the trees of each rule are. A level adds at most a chain of calls, a chain of operators of
each binary level and a chain of pipes, and no chain is longer than there are levels left. -/
namespace CarvFront.Grammar
open CarvFront.Parser

variable {w n k : Nat}

/-- How high anything is that is read with `n` levels left. -/
def heightLimit : Nat → Nat
  | 0 => 0
  | n + 1 => heightLimit n + 12 * n + 3

theorem heightLimit_mono {m n : Nat} (h : m ≤ n) : heightLimit m ≤ heightLimit n := by
  induction h with
  | refl => exact Nat.le_refl _
  | step _ ih =>
    rw [heightLimit]
    omega

/-- How high an expression is that is read with `n` levels left, if its operators are of `i` kinds:
besides a chain of each kind there is one of calls, members and indices. -/
def levelLimit (i n : Nat) : Nat :=
  heightLimit n + (i + 1) * n + 2

theorem levelLimit_succ (i n : Nat) : levelLimit (i + 1) n = levelLimit i n + n := by
  rw [levelLimit, levelLimit, Nat.succ_mul (i + 1)]
  omega

theorem levelLimit_mono (i : Nat) {m n : Nat} (h : m ≤ n) : levelLimit i m ≤ levelLimit i n := by
  have hlimit := heightLimit_mono h
  have hchains := Nat.mul_le_mul_left (i + 1) h
  rw [levelLimit, levelLimit]
  omega

/-! ### Types -/

theorem shallow_basic (w k : Nat) (span : Span) (t : BasicType) :
    Shallow w (k + 1) [.type (.basic span t)] :=
  Shallow.over (shallow_nil w k) rfl (Nat.le_refl _)

section
variable {type : Parser TypeExpr} (ht : Grows w n k (fun t => [.type t]) type)
include ht

theorem grows_angled : Grows w n k (fun t => [.type t]) (angled type) := by
  have h := modest_steps w
  refine .sym fun _ => .seq ht fun inner s hinner => .peek fun got => ?_
  split
  · exact .skip (h.become _ (by decide)) fun _ => .pure hinner
  · exact .skip (h.become _ (by decide)) fun _ => .pure hinner
  · exact .sym fun _ => .pure hinner

theorem gives_namedType (name : String) : Gives w n (namedType type name) fun s make =>
    ∀ span, Shallow w (k + 2 + s) [.type (make span)] := by
  unfold namedType
  split
  · exact .pure fun span => shallow_basic w (k + 1) span _
  refine .isAt fun generic => ?_
  split
  · refine .seq (grows_angled ht) fun inner s hinner => .pure fun _ => ?_
    exact hinner.over rfl (by omega)
  split
  · refine .seq (grows_angled ht) fun inner s hinner => .pure fun _ => ?_
    exact hinner.over rfl (by omega)
  · exact .pure fun _ => Shallow.over (shallow_nil w k) rfl (by omega)

/-- The type that is left out without an arrow is a node at the same level. -/
theorem gives_functionType : Gives w n (functionType type) fun s make =>
    ∀ span, Shallow w (k + 2 + s) [.type (make span)] := by
  have hnode {params : List TypeExpr} {ret : TypeExpr} {l s : Nat}
      (hps : Shallow w (k + s) (params.map .type)) (hret : Shallow w l [.type ret]) (span : Span) :
      Shallow w (max (k + s) l + 1) [.type (.fn span params ret)] := by
    refine Shallow.over ?_ rfl (Nat.le_refl _)
    change Shallow w _ ((params ++ [ret]).map .type)
    rw [List.map_append]
    exact hps.append hret
  refine .sym fun _ => .seq (grows_list .rparen ht) fun params s hps => ?_
  refine .before fun close => .eat fun arrow => ?_
  split
  · refine .seq ht fun ret s' hret => .pure fun span => ?_
    exact (hnode hps hret span).mono (by omega)
  · refine .pure fun span => ?_
    exact (hnode hps (shallow_basic w 0 close .void) span).mono (by omega)

theorem gives_bareType : Gives w n (bareType type) fun s make =>
    ∀ span, Shallow w (k + 2 + s) [.type (make span)] := by
  refine .peek fun got => ?_
  split
  · exact .next fun _ => .pure fun span => shallow_basic w (k + 1) span _
  · refine .next fun _ => .seq ht fun elem s helem => .sym fun _ => ?_
    exact .pure fun _ => helem.over rfl (by omega)
  · refine .next fun _ => .seq ht fun key s hkey => .sym fun _ => ?_
    refine .seq ht fun value s' hvalue => .sym fun _ => .pure fun _ => ?_
    exact (hkey.append hvalue).over rfl (by omega)
  · exact .next fun _ => gives_functionType ht
  · refine .next fun _ => .eat fun mutable => .seq ht fun inner s hinner => ?_
    exact .pure fun _ => hinner.over rfl (by omega)
  · exact .next fun _ => gives_namedType ht _
  · exact .fail _

omit ht in
/-- Every question mark pays for the node that it makes. -/
theorem grows_optionalWithin (start : Span) (m : Nat) {t : TypeExpr} (h : Shallow w k [.type t]) :
    Grows w n k (fun t => [.type t]) (optionalWithin start m t) := by
  induction m generalizing t k with
  | zero => exact .pure h
  | succ m ih =>
    refine Gives.pay rfl ?_ ?_
    · rw [if_pos rfl]
      refine .before fun stop => ?_
      have hopt : Shallow w (k + w) [.type (.optional (start.merge stop) t)] := h.free rfl
      exact .imp (ih hopt) fun s t hs => hs.mono (by omega)
    · rw [if_neg Bool.false_ne_true]
      exact .pure h

theorem grows_typeExpr : Grows w n (k + 2) (fun t => [.type t]) (typeExpr type) := by
  refine .here fun start => .seq (gives_bareType ht) fun make s hmake => ?_
  refine .before fun stop => .remaining fun m => ?_
  refine .imp (grows_optionalWithin start m (hmake _)) fun s' t hs => ?_
  exact hs.mono (by omega)

end

/-- A statement is at most as high as its parts, with a block between. -/
abbrev GrowsStmt (w n : Nat) (p : Parser Stmt) : Prop :=
  Grows w n (heightLimit n + 2) (fun s => [.stmt s]) p

/-- What the rules for one level deeper read is bounded by the levels left. -/
structure Rules.Bounded (w : Nat) (r : Rules) : Prop where
  modest : r.All (Parser.Alone (Modest w))
  type (n : Nat) : Grows w n (heightLimit n) (fun t => [.type t]) r.type
  expr (n : Nat) : Grows w n (heightLimit n) (fun e => [.expr e]) r.expr
  operand (n : Nat) : Grows w n (heightLimit n) (fun e => [.expr e]) r.operand
  stmts (n : Nat) : Grows w n (heightLimit n) (·.map .stmt) r.stmts

section
variable {r : Rules} (hr : r.Bounded w)
variable {e : Expr}
include hr

/-! ### Expressions -/

theorem grows_block : Grows w n (heightLimit n + 1) (fun b => [.block b]) (block r) := by
  refine .here fun start => .sym fun _ => .seq (hr.stmts n) fun stmts s hs => ?_
  refine .sym fun _ => .before fun stop => .pure ?_
  exact hs.over rfl (by omega)

/-- The type behind a sign, or nothing. -/
theorem grows_typeBehind (sign : Symbol) : Grows w n (heightLimit n) (·.toList.map .type) (do
    if ← eat (.sym sign) then
      let t ← r.type
      pure (some t)
    else pure none) := by
  refine .eat fun found => ?_
  split
  · exact .seq (hr.type n) fun t s ht => .pure ht
  · exact .pure (shallow_nil w _)

theorem grows_param : Grows w n (heightLimit n) (·.type.toList.map .type) (param r) := by
  refine .ident fun name => .seq (grows_typeBehind hr .colon) fun type s ht => ?_
  exact .before fun stop => .pure ht

theorem grows_signature (async : Bool) :
    Grows w n (heightLimit n) Signature.vertices (signature r async) := by
  refine .seq (grows_items .rparen (grows_param hr)) fun params s hps => ?_
  refine .seq (grows_typeBehind hr .arrow) fun ret s' hret => .pure ?_
  exact (hps.append hret).mono (by omega)

omit hr in
/-- A body with its signature, as functions, methods and lambdas have it. -/
theorem shallow_body {sig : Signature} {body : Block} {s s' : Nat}
    (hsig : Shallow w (heightLimit n + s) sig.vertices)
    (hbody : Shallow w (heightLimit n + 1 + s') [.block body]) :
    Shallow w (heightLimit n + 1 + (s + s')) (sig.vertices ++ [.block body]) :=
  (hsig.append hbody).mono (by omega)

theorem grows_lambda : Grows w n (heightLimit n + 2) (fun e => [.expr e]) (lambda r) := by
  refine .here fun start => .eat fun async => ?_
  refine .word fun _ => .sym fun _ => ?_
  refine .seq (grows_signature hr async) fun sig s hsig => ?_
  refine .seq (grows_block hr) fun body s' hbody => .pure ?_
  exact Shallow.over (shallow_body hsig hbody) rfl (by omega)

omit hr in
theorem vertices_textPart (text : String) : (textPart text).flatMap Part.vertices = [] := by
  unfold textPart
  split <;> rfl

theorem grows_holesWithin (m : Nat) :
    Grows w n (heightLimit n) (·.flatMap Part.vertices) (holesWithin r m) := by
  have h := modest_steps w
  have hexpect (k : Kind) : Modest w (expect k) := h.paired.expect_of_fail modest_fail k
  induction m with
  | zero => exact .peek fun _ => .fail _
  | succ m ih =>
    refine .skip (hexpect _) fun _ => .seq (hr.expr n) fun e s he => .skip (hexpect _) fun _ => ?_
    refine .peek fun got => ?_
    split
    · refine .next fun _ => .seq ih fun parts s' hparts => .pure ?_
      change Shallow w _ ([.expr e] ++ (textPart _ ++ parts).flatMap Part.vertices)
      rw [List.flatMap_append, vertices_textPart]
      exact (he.append hparts).mono (by omega)
    · refine .next fun _ => .pure ?_
      change Shallow w _ ([.expr e] ++ (textPart _).flatMap Part.vertices)
      rw [vertices_textPart]
      exact he
    · exact .fail _

theorem grows_entry : Grows w n (heightLimit n) (fun e => [.expr e.1, .expr e.2]) (entry r) := by
  refine .seq (hr.expr n) fun key s hkey => .sym fun _ => ?_
  refine .seq (hr.expr n) fun value s' hvalue => .pure ?_
  exact (hkey.append hvalue).mono (by omega)

theorem grows_fieldInit : Grows w n (heightLimit n) (fun f => [.expr f.2]) (fieldInit r) := by
  refine .ident fun name => .sym fun _ => ?_
  exact .seq (hr.expr n) fun value s hvalue => .pure hvalue

omit hr in
theorem shallow_of_literal? {k : Kind} {make : Span → Expr} (h : literal? k = some make) {l : Nat}
    (span : Span) : Shallow w (l + 1) [.expr (make span)] := by
  have hleaf : (make span).vertices = [] := by
    cases k with
    | int n | float d | string s | char c | ident name =>
      cases h
      rfl
    | word w =>
      cases w with
      | trueKw | falseKw | nilKw | selfKw =>
        cases h
        rfl
      | _ => cases h
    | _ => cases h
  refine Shallow.over ?_ rfl (Nat.le_refl _)
  rw [Vertex.children, hleaf]
  exact shallow_nil w l

theorem gives_atom (got : Kind) : Gives w n (atom r got) fun s make =>
    ∀ span, Shallow w (heightLimit n + 1 + s) [.expr (make span)] := by
  unfold atom
  split
  · next make hmake => exact .next fun _ => .pure fun span => shallow_of_literal? hmake span
  · next text _ =>
    refine .next fun _ => .remaining fun m => ?_
    refine .seq (grows_holesWithin hr m) fun parts s hparts => .pure fun span => ?_
    have hall : Shallow w (heightLimit n + s) ((textPart text ++ parts).flatMap Part.vertices) := by
      rw [List.flatMap_append, vertices_textPart]
      exact hparts
    exact hall.over rfl (by omega)
  · refine .next fun _ => .seq (grows_list .rbracket (hr.expr n)) fun elems s helems => ?_
    exact .pure fun _ => helems.over rfl (by omega)
  · refine .next fun _ => .seq (grows_items .rbrace (grows_entry hr)) fun es s hes => ?_
    exact .pure fun _ => hes.over rfl (by omega)
  · refine .next fun _ => .ident fun cls => .sym fun _ => ?_
    refine .seq (grows_list .rbrace (grows_fieldInit hr)) fun fields s hfields => ?_
    exact .pure fun _ => hfields.over rfl (by omega)
  · refine .next fun _ => .seq (hr.expr n) fun inner s hinner => .sym fun _ => ?_
    exact .pure fun _ => hinner.over rfl (by omega)
  · exact .fail _

theorem grows_primary : Grows w n (heightLimit n + 2) (fun e => [.expr e]) (primary r) := by
  refine .peek fun got => ?_
  split
  · exact grows_lambda hr
  · exact grows_lambda hr
  · refine .here fun start => .seq (gives_atom hr _) fun make s hmake => ?_
    exact .before fun stop => .pure ((hmake _).mono (by omega))

/-- Every call, member and index enters a level, so there are at most `n`. -/
theorem grows_postfixWithin (m : Nat) (hk : heightLimit n ≤ k) (he : Shallow w k [.expr e]) :
    Grows w n (k + n) (fun e => [.expr e]) (postfixWithin r m e) := by
  have h := modest_steps w
  induction m generalizing n k e with
  | zero => exact .pure (he.mono (by omega))
  | succ m ih =>
    have hrest {j s : Nat} {e : Expr} (hj : n = j + 1) (he : Shallow w (k + s + 1) [.expr e]) :
        Gives w j (postfixWithin r m e) fun s' e => Shallow w (k + n + (s + s')) [.expr e] := by
      have hle : heightLimit j ≤ heightLimit n := heightLimit_mono (by omega)
      exact .imp (ih (by omega) he) fun s' e he => he.mono (by omega)
    refine .peek fun got => ?_
    split
    · refine Gives.nested fun j hj => .next fun _ => ?_
      have hle : heightLimit j ≤ heightLimit n := heightLimit_mono (by omega)
      refine .seq (grows_list .rparen (hr.expr j)) fun args s hargs => .before fun stop => ?_
      exact hrest hj ((he.append hargs).over rfl (by omega))
    · refine Gives.nested fun j hj => .next fun _ => .skip h.memberName fun name => ?_
      have hmember : Shallow w (k + 0 + 1) [.expr (.member (e.span.merge name.span) e name)] :=
        he.over rfl (Nat.le_refl _)
      exact .imp (hrest (s := 0) hj hmember) fun s' _ hs => by rwa [Nat.zero_add] at hs
    · refine Gives.nested fun j hj => .next fun _ => ?_
      have hle : heightLimit j ≤ heightLimit n := heightLimit_mono (by omega)
      refine .seq (hr.expr j) fun index s hindex => .sym fun _ => .before fun _ => ?_
      exact hrest hj ((he.append hindex).over rfl (by omega))
    · exact .pure (he.mono (by omega))

theorem grows_postfixed : Grows w n (levelLimit 0 n) (fun e => [.expr e]) (postfixed r) := by
  refine .seq (grows_primary hr) fun e s he => .remaining fun m => ?_
  refine .imp (grows_postfixWithin hr m (by omega) he) fun s' e he => he.mono ?_
  rw [levelLimit]
  omega

omit hr in
theorem shallow_of_prefixed? {k : Kind} {make : Span → Expr → Expr} (h : prefixed? k = some make)
    {l : Nat} (he : Shallow w l [.expr e]) (span : Span) :
    Shallow w (l + 1) [.expr (make span e)] := by
  have hone : (make span e).vertices = [.expr e] := by
    unfold prefixed? at h
    split at h <;> cases h <;> rfl
  refine Shallow.over ?_ rfl (Nat.le_refl _)
  rwa [Vertex.children, hone]

theorem grows_unary : Grows w n (levelLimit 0 n) (fun e => [.expr e]) (unary r) := by
  have hle : heightLimit n + 1 ≤ levelLimit 0 n := by
    rw [levelLimit]
    omega
  refine .here fun start => .peek fun got => ?_
  split
  · refine .next fun _ => .eat fun mutable => ?_
    exact .seq (hr.operand n) fun operand s he => .pure (he.over rfl (by omega))
  split
  · next make hmake =>
    refine .next fun _ => .seq (hr.operand n) fun operand s he => .pure ?_
    exact (shallow_of_prefixed? hmake he _).mono (by omega)
  · exact grows_postfixed hr

omit hr in
/-- Every operator enters a level, so a chain of one kind has at most `n`. -/
theorem grows_binaryWithin (ops : List (Symbol × BinOp)) {operand : Parser Expr} {bound : Nat → Nat}
    (hoperand : ∀ n, Grows w n (bound n) (fun e => [.expr e]) operand) (m : Nat)
    (hk : ∀ j ≤ n, bound j ≤ k) (he : Shallow w k [.expr e]) :
    Grows w n (k + n) (fun e => [.expr e]) (binaryWithin ops operand m e) := by
  induction m generalizing n k e with
  | zero => exact .pure (he.mono (by omega))
  | succ m ih =>
    refine .peek fun got => ?_
    split
    · refine Gives.nested fun j hj => .next fun _ => .seq (hoperand j) fun right s hright => ?_
      have hle := hk j (by omega)
      have hnode (span : Span) (op : BinOp) : Shallow w (k + s + 1) [.expr (.binary span op e right)] :=
        (he.append hright).over rfl (by omega)
      refine .imp (ih (fun i hi => ?_) (hnode _ _)) fun s' e he => he.mono (by omega)
      exact Nat.le_trans (hk i (by omega)) (by omega)
    · exact .pure (he.mono (by omega))

theorem grows_binary (ls : List (List (Symbol × BinOp))) (n : Nat) :
    Grows w n (levelLimit ls.length n) (fun e => [.expr e]) (binary r ls) := by
  induction ls generalizing n with
  | nil => exact grows_unary hr
  | cons ops tighter ih =>
    refine .seq (ih n) fun e s he => .remaining fun m => ?_
    have hle (j : Nat) (hj : j ≤ n) : levelLimit tighter.length j ≤ levelLimit tighter.length n + s :=
      Nat.le_trans (levelLimit_mono _ hj) (Nat.le_add_right _ _)
    refine .imp (grows_binaryWithin ops ih m hle he) fun s' e he => he.mono ?_
    rw [List.length_cons, levelLimit_succ]
    omega

theorem grows_pipeWithin (m : Nat) (hk : levelLimit 10 n ≤ k) (he : Shallow w k [.expr e]) :
    Grows w n (k + n) (fun e => [.expr e]) (pipeWithin r m e) := by
  induction m generalizing n k e with
  | zero => exact .pure (he.mono (by omega))
  | succ m ih =>
    refine .eat fun found => ?_
    split
    · refine Gives.nested fun j hj => .seq (grows_binary hr levels j) fun right s hright => ?_
      have hle : levelLimit 10 j ≤ levelLimit 10 n := levelLimit_mono 10 (by omega)
      have hnode (span : Span) : Shallow w (k + s + 1) [.expr (.pipe span e right)] := by
        refine (he.append hright).over rfl ?_
        change max k (levelLimit 10 j + s) + 1 ≤ k + s + 1
        omega
      exact .imp (ih (by omega) (hnode _)) fun s' e he => he.mono (by omega)
    · exact .pure (he.mono (by omega))

theorem grows_pipe : Grows w n (levelLimit 11 n) (fun e => [.expr e]) (pipe r) := by
  refine .seq (grows_binary hr levels n) fun e s he => .remaining fun m => ?_
  have hle : levelLimit 10 n ≤ levelLimit levels.length n + s := Nat.le_add_right _ _
  refine .imp (grows_pipeWithin hr m hle he) fun s' e he => he.mono ?_
  change levelLimit 10 n + s + n + s' ≤ levelLimit 11 n + (s + s')
  rw [levelLimit_succ 10]
  omega

theorem grows_expression :
    Grows w n (heightLimit (n + 1)) (fun e => [.expr e]) (expression r) := by
  have hlimit : levelLimit 11 n + 1 = heightLimit (n + 1) := rfl
  refine .seq (grows_pipe hr) fun target s htarget => .peek fun got => ?_
  split
  · refine .next fun _ => .seq (hr.expr n) fun value s' hvalue => .pure ?_
    have hle : heightLimit n ≤ levelLimit 11 n := by
      rw [levelLimit]
      omega
    exact (htarget.append hvalue).over rfl (by omega)
  · exact .pure (htarget.mono (by omega))

/-! ### Declarations -/

theorem grows_functionDecl : GrowsStmt w n (functionDecl r) := by
  refine .here fun start => .eat fun async => .word fun _ => ?_
  refine .ident fun name => .sym fun _ => ?_
  refine .seq (grows_signature hr async) fun sig s hsig => ?_
  refine .seq (grows_block hr) fun body s' hbody => .pure ?_
  exact Shallow.over (shallow_body hsig hbody) rfl (by omega)

theorem grows_method : Grows w n (heightLimit n + 1) Method.vertices (method r) := by
  refine .here fun start => .eat fun async => .word fun _ => ?_
  refine .ident fun name => .sym fun _ => ?_
  refine .skip (closed_receiver (modest_closed w)) fun who => ?_
  refine .seq (grows_signature hr async) fun sig s hsig => ?_
  exact .seq (grows_block hr) fun body s' hbody => .pure (shallow_body hsig hbody)

theorem grows_methodHead :
    Grows w n (heightLimit n) (·.sig.vertices) (methodHead r) := by
  refine .here fun start => .word fun _ => .ident fun name => ?_
  refine .sym fun _ => .skip (closed_receiver (modest_closed w)) fun who => ?_
  refine .seq (grows_signature hr false) fun sig s hsig => .before fun stop => ?_
  exact .semicolon fun _ => .pure hsig

theorem grows_field : Grows w n (heightLimit n) Field.vertices (field r) := by
  refine .ident fun name => .sym fun _ => .seq (hr.type n) fun type s htype => ?_
  have hlast (make : Span → Field) {Q : Nat → Field → Prop} (hmake : ∀ stop, Q 0 (make stop)) :
      Gives w n (do
        let stop ← before
        if ← eat (.sym .comma) then pure ()
        else
          let _ ← eat (.sym .semicolon)
        pure (make stop)) Q := by
    refine .before fun stop => .eat fun comma => ?_
    split
    · exact .pure (hmake stop)
    · exact .eat fun _ => .pure (hmake stop)
  refine .eat fun eq => ?_
  split
  · refine .seq (hr.expr n) fun e s' he => ?_
    rw [pure_bind]
    refine hlast _ fun stop => ?_
    exact (htype.append he).mono (by omega)
  · rw [pure_bind]
    exact hlast _ fun stop => htype

/-- The fields and methods of a class are among its items. -/
def ClassItem.vertices : ClassItem → List Vertex
  | .field f => f.vertices
  | .method m => m.vertices

omit hr in
theorem ClassItem.vertices_subset (items : List ClassItem) :
    (items.filterMap ClassItem.field?).flatMap Field.vertices ++
      (items.filterMap ClassItem.method?).flatMap Method.vertices ⊆
      items.flatMap ClassItem.vertices := by
  intro v hv
  simp only [List.mem_append, List.mem_flatMap, List.mem_filterMap] at hv ⊢
  rcases hv with ⟨f, ⟨i, hi, hf⟩, hv⟩ | ⟨m, ⟨i, hi, hm⟩, hv⟩
  · cases i with
    | field f' =>
      cases hf
      exact ⟨_, hi, hv⟩
    | method m => cases hf
  · cases i with
    | field f => cases hm
    | method m' =>
      cases hm
      exact ⟨_, hi, hv⟩

theorem grows_classItem :
    Grows w n (heightLimit n + 1) ClassItem.vertices (classItem r) := by
  refine .peek fun got => ?_
  split
  · exact .seq (grows_method hr) fun m s hm => .pure hm
  · exact .seq (grows_method hr) fun m s hm => .pure hm
  · exact .seq (grows_field hr) fun f s hf => .pure (hf.mono (by omega))
  · exact .fail _

theorem grows_classDecl : GrowsStmt w n (classDecl r) := by
  refine .next fun start => .ident fun name => .sym fun _ => ?_
  have hitem := closed_classItem (modest_closed w) hr.modest
  refine .seq (grows_all _ (grows_classItem hr) hitem) fun items s hitems => ?_
  refine .sym fun _ => .before fun stop => .pure ?_
  refine Shallow.over (hitems.subset ?_) rfl (by omega)
  exact ClassItem.vertices_subset items

theorem grows_interfaceDecl : GrowsStmt w n (interfaceDecl r) := by
  refine .next fun start => .ident fun name => .sym fun _ => ?_
  have hitem := closed_methodHead (modest_closed w) hr.modest
  refine .seq (grows_all _ (grows_methodHead hr) hitem) fun methods s hmethods => ?_
  refine .sym fun _ => .before fun stop => .pure ?_
  exact hmethods.over rfl (by omega)

theorem grows_implDecl : GrowsStmt w n (implDecl r) := by
  refine .next fun start => .ident fun interface => .word fun _ => ?_
  refine .ident fun target => .sym fun _ => ?_
  have hitem := closed_method (modest_closed w) hr.modest
  refine .seq (grows_all _ (grows_method hr) hitem) fun methods s hmethods => ?_
  refine .sym fun _ => .before fun stop => .pure ?_
  exact hmethods.over rfl (by omega)

omit hr in
theorem grows_require : Grows w n (k + 1) (fun s => [.stmt s]) require := by
  refine .next fun start => .skip (closed_required (modest_closed w)) fun what => ?_
  refine .before fun stop => .semicolon fun _ => .pure ?_
  exact Shallow.over (shallow_nil w k) rfl (Nat.le_refl _)

/-! ### Statements -/

theorem grows_binding : Grows w n (heightLimit n + 1) (fun s => [.stmt s]) (binding r) := by
  refine .isAt fun const => .next fun start => .ident fun name => ?_
  refine .seq (grows_typeBehind hr .colon) fun type s htype => .sym fun _ => ?_
  refine .seq (hr.expr n) fun value s' hvalue => .before fun stop => ?_
  refine .semicolon fun _ => .pure ?_
  exact (htype.append hvalue).over rfl (by omega)

theorem grows_expressionUnless (stops : List Kind) :
    Grows w n (heightLimit n) (·.toList.map .expr) (expressionUnless r stops) := by
  refine .peek fun got => ?_
  split
  · exact .pure (shallow_nil w _)
  · exact .seq (hr.expr n) fun e s he => .pure he

theorem grows_returnStmt :
    Grows w n (heightLimit n + 1) (fun s => [.stmt s]) (returnStmt r) := by
  refine .next fun start => .seq (grows_expressionUnless hr _) fun value s hvalue => ?_
  refine .before fun stop => .semicolon fun _ => .pure ?_
  exact hvalue.over rfl (by omega)

omit hr in
theorem grows_jump {make : Span → Stmt} (hmake : ∀ span, (make span).vertices = []) :
    Grows w n (k + 1) (fun s => [.stmt s]) (jump make) := by
  refine .next fun span => .semicolon fun _ => .pure (Shallow.over ?_ rfl (Nat.le_refl _))
  rw [Vertex.children, hmake]
  exact shallow_nil w k

/-- The word in front of a further conditional pays for it. -/
theorem grows_conditionalWithin (m : Nat) :
    Grows w n (heightLimit n + 1) Conditional.vertices (conditionalWithin r m) := by
  have h := modest_steps w
  induction m with
  | zero => exact .peek fun _ => .fail _
  | succ m ih =>
    refine .skip (h.paired.expect _ nofun) fun start => .seq (hr.expr n) fun test s htest => ?_
    refine .seq (grows_block hr) fun body s' hbody => ?_
    have hlast {l : Nat} (otherwise : Otherwise) (hl : s + s' ≤ l)
        (ho : Shallow w (heightLimit n + 1 + l) otherwise.vertices) :
        Gives w n (before >>= fun stop =>
          (pure ⟨start.merge stop, test, body, otherwise⟩ : Parser Conditional))
        fun s'' c => Shallow w (heightLimit n + 1 + (l + s'')) c.vertices := by
      refine .before fun stop => .pure ?_
      exact ((htest.append hbody).append ho).mono (by omega)
    refine Gives.pay rfl ?_ ?_
    · rw [if_pos rfl]
      refine .isAt fun again => ?_
      split
      · refine .seq ih fun c s'' hc => ?_
        have helse : Shallow w (heightLimit n + 1 + s'' + w) [.elseIf c] := hc.free rfl
        have hall := hlast (l := s + (s' + (w + s''))) (.elseIf c) (by omega) (helse.mono (by omega))
        rw [pure_bind]
        exact hall.imp fun _ _ hc => hc.mono (by omega)
      · refine .seq (grows_block hr) fun b s'' hb => ?_
        have hall := hlast (l := s + (s' + (w + s''))) (.block b) (by omega) (hb.mono (by omega))
        rw [pure_bind]
        exact hall.imp fun _ _ hc => hc.mono (by omega)
    · rw [if_neg Bool.false_ne_true, pure_bind]
      have hall := hlast .none (Nat.le_refl _) (shallow_nil w _)
      exact hall.imp fun _ _ hc => hc.mono (by omega)

theorem grows_conditional : GrowsStmt w n (conditional r) := by
  refine .remaining fun m => ?_
  exact .seq (grows_conditionalWithin hr m) fun c s hc => .pure (hc.over rfl (by omega))

theorem grows_loopInit :
    Grows w n (heightLimit n + 1) (·.toList.map .stmt) (loopInit r) := by
  refine .peek fun got => ?_
  split
  · exact .next fun _ => .pure (shallow_nil w _)
  · exact .seq (grows_binding hr) fun init s hinit => .pure hinit
  · exact .seq (grows_binding hr) fun init s hinit => .pure hinit
  · refine .seq (hr.expr n) fun e s he => .sym fun _ => .pure ?_
    exact he.over rfl (by omega)

theorem grows_forStmt : GrowsStmt w n (forStmt r) := by
  refine .next fun start => .eat fun found => ?_
  split
  · refine .seq (grows_loopInit hr) fun init s hinit => ?_
    refine .seq (grows_expressionUnless hr _) fun test s₁ htest => .sym fun _ => ?_
    refine .seq (grows_expressionUnless hr _) fun post s₂ hpost => .sym fun _ => ?_
    refine .seq (grows_block hr) fun body s₃ hbody => .pure ?_
    exact (((hinit.append htest).append hpost).append hbody).over rfl (by omega)
  · refine .ident fun item => .word fun _ => .seq (hr.expr n) fun e s he => ?_
    refine .seq (grows_block hr) fun body s' hbody => .pure ?_
    exact (he.append hbody).over rfl (by omega)

theorem grows_whileStmt : GrowsStmt w n (whileStmt r) := by
  refine .next fun start => .seq (hr.expr n) fun test s htest => ?_
  refine .seq (grows_block hr) fun body s' hbody => .pure ?_
  exact (htest.append hbody).over rfl (by omega)

theorem grows_loopStmt : GrowsStmt w n (loopStmt r) := by
  refine .next fun start => ?_
  exact .seq (grows_block hr) fun body s hbody => .pure (hbody.over rfl (by omega))

theorem grows_expressionStmt : GrowsStmt w n (expressionStmt r) := by
  refine .seq (hr.expr n) fun e s he => .semicolon fun _ => .pure ?_
  exact he.over rfl (by omega)

theorem grows_statement : GrowsStmt w n (statement r) := by
  have hle : heightLimit n + 1 ≤ heightLimit n + 2 := Nat.le_succ _
  refine .peek fun got => ?_
  split
  · exact (grows_binding hr).mono hle
  · exact (grows_binding hr).mono hle
  · refine .lookAhead fun k => ?_
    split
    · exact grows_functionDecl hr
    · exact grows_expressionStmt hr
  · refine .lookAhead fun k => .lookAhead fun k' => ?_
    split
    · exact grows_functionDecl hr
    · exact grows_expressionStmt hr
  · exact (grows_returnStmt hr).mono hle
  · exact grows_jump fun _ => rfl
  · exact grows_jump fun _ => rfl
  · exact grows_conditional hr
  · exact grows_forStmt hr
  · exact grows_whileStmt hr
  · exact grows_loopStmt hr
  · exact .seq (grows_block hr) fun b s hb => .pure (hb.over rfl (by omega))
  · exact grows_classDecl hr
  · exact grows_interfaceDecl hr
  · exact grows_implDecl hr
  · exact grows_require
  · exact grows_expressionStmt hr

omit hr in
theorem grows_nested {α : Type} {f : α → List Vertex} {p : Parser α}
    (hp : ∀ m, Grows w m (heightLimit (m + 1)) f p) (n : Nat) :
    Grows w n (heightLimit n) f (nested p) := by
  refine Gives.nested fun m hm => ?_
  subst hm
  exact hp m

theorem bounded_outside : (Rules.outside r).Bounded w := by
  have htype := grows_nested fun m => (grows_typeExpr (hr.type m)).mono (by
    rw [heightLimit]
    omega)
  have hexpr := grows_nested fun m => grows_expression (n := m) hr
  have hoperand := grows_nested fun m => (grows_unary (n := m) hr).mono (by
    rw [levelLimit, heightLimit]
    omega)
  have hstmts := grows_nested fun m => Grows.mono
    (grows_allOf (· = .sym .rbrace) (grows_statement (n := m) hr)
      (closed_statement (modest_closed w) hr.modest)) (by
    rw [heightLimit]
    omega)
  exact ⟨closed_outside (modest_closed w) hr.modest, htype, hexpr, hoperand, hstmts⟩

end

theorem bounded_levels (w n : Nat) : (Rules.levels n).Bounded w := by
  induction n with
  | zero =>
    exact ⟨closed_levels (modest_closed w) 0, fun _ => .fail _, fun _ => .fail _, fun _ => .fail _,
      fun _ => .fail _⟩
  | succ n ih => exact bounded_outside ih

theorem grows_program : Grows w maxNesting 24386 (·.stmts.map .stmt) program := by
  have hr := bounded_levels w (maxNesting + 1)
  have hall := grows_allOf (fun _ => false) (grows_statement (n := maxNesting) hr)
    (closed_statement (modest_closed w) hr.modest)
  have hlimit : heightLimit maxNesting + 2 = 24386 := rfl
  refine .here fun start => .seq hall fun stmts s hstmts => .before fun stop => .pure ?_
  exact hstmts.mono (by omega)

end CarvFront.Grammar
