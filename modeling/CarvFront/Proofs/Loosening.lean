import CarvFront.Proofs.Congruence
import CarvFront.Proofs.StatePrecision

/-! Programs in which some annotations, or parts of them, are replaced by `any`. -/
namespace CarvFront

/-! ### Annotations -/

/-- The second annotation is the first with parts of it, or all of it, replaced by `any`. -/
inductive TypeExpr.Loosens : TypeExpr → TypeExpr → Prop
  | any (t : TypeExpr) (span : Span) : Loosens t (.basic span .any)
  | basic (span : Span) (t : BasicType) : Loosens (.basic span t) (.basic span t)
  | named (span : Span) (name : String) : Loosens (.named span name) (.named span name)
  | array {span : Span} {t t' : TypeExpr} (h : Loosens t t') :
    Loosens (.array span t) (.array span t')
  | map {span : Span} {k v k' v' : TypeExpr} (hk : Loosens k k') (hv : Loosens v v') :
    Loosens (.map span k v) (.map span k' v')
  | fn {span : Span} {ps ps' : List TypeExpr} {r r' : TypeExpr} (hp : List.Forall₂ Loosens ps ps')
    (hr : Loosens r r') : Loosens (.fn span ps r) (.fn span ps' r')
  | chan {span : Span} {t t' : TypeExpr} (h : Loosens t t') :
    Loosens (.chan span t) (.chan span t')
  | future {span : Span} {t t' : TypeExpr} (h : Loosens t t') :
    Loosens (.future span t) (.future span t')
  | optional {span : Span} {t t' : TypeExpr} (h : Loosens t t') :
    Loosens (.optional span t) (.optional span t')
  | ref {span : Span} {mutable : Bool} {t t' : TypeExpr} (h : Loosens t t') :
    Loosens (.ref span mutable t) (.ref span mutable t')

/-- The same parameter, with its type loosened if it has one. -/
structure Param.Loosens (p p' : Param) : Prop where
  name : p'.name = p.name
  type : Option.Rel TypeExpr.Loosens p.type p'.type
  span : p'.span = p.span

/-- The same signature with its annotations loosened. -/
structure Signature.Loosens (sig sig' : Signature) : Prop where
  async : sig'.async = sig.async
  params : List.Forall₂ Param.Loosens sig.params sig'.params
  ret : Option.Rel TypeExpr.Loosens sig.ret sig'.ret

/-- The same method of an interface with its annotations loosened. -/
structure MethodHead.Loosens (m m' : MethodHead) : Prop where
  name : m'.name = m.name
  receiver : m'.receiver = m.receiver
  sig : m.sig.Loosens m'.sig
  span : m'.span = m.span

/-! ### Code -/

mutual

/-- The same expression with the annotations in it loosened. -/
inductive Expr.Loosens : Expr → Expr → Prop
  | int (span : Span) (n : Int) : Expr.Loosens (.int span n) (.int span n)
  | float (span : Span) (d : Double) : Expr.Loosens (.float span d) (.float span d)
  | string (span : Span) (text : String) : Expr.Loosens (.string span text) (.string span text)
  | char (span : Span) (c : Char) : Expr.Loosens (.char span c) (.char span c)
  | bool (span : Span) (b : Bool) : Expr.Loosens (.bool span b) (.bool span b)
  | nil (span : Span) : Expr.Loosens (.nil span) (.nil span)
  | ident (span : Span) (name : String) : Expr.Loosens (.ident span name) (.ident span name)
  | interp {span : Span} {ps ps' : List Part} (h : List.Forall₂ Part.Loosens ps ps') :
    Expr.Loosens (.interp span ps) (.interp span ps')
  | array {span : Span} {es es' : List Expr} (h : List.Forall₂ Expr.Loosens es es') :
    Expr.Loosens (.array span es) (.array span es')
  | map {span : Span} {es es' : List (Expr × Expr)} (h : List.Forall₂ Entry.Loosens es es') :
    Expr.Loosens (.map span es) (.map span es')
  | call {span : Span} {f f' : Expr} {es es' : List Expr} (hf : Expr.Loosens f f')
    (h : List.Forall₂ Expr.Loosens es es') : Expr.Loosens (.call span f es) (.call span f' es')
  | member {span : Span} {e e' : Expr} (h : Expr.Loosens e e') (name : Ident) :
    Expr.Loosens (.member span e name) (.member span e' name)
  | index {span : Span} {e e' i i' : Expr} (h : Expr.Loosens e e') (hi : Expr.Loosens i i') :
    Expr.Loosens (.index span e i) (.index span e' i')
  | binary {span : Span} (op : BinOp) {l l' r r' : Expr} (hl : Expr.Loosens l l')
    (hr : Expr.Loosens r r') : Expr.Loosens (.binary span op l r) (.binary span op l' r')
  | unary {span : Span} (op : UnaryOp) {e e' : Expr} (h : Expr.Loosens e e') :
    Expr.Loosens (.unary span op e) (.unary span op e')
  | borrow {span : Span} (mutable : Bool) {e e' : Expr} (h : Expr.Loosens e e') :
    Expr.Loosens (.borrow span mutable e) (.borrow span mutable e')
  | deref {span : Span} {e e' : Expr} (h : Expr.Loosens e e') :
    Expr.Loosens (.deref span e) (.deref span e')
  | await {span : Span} {e e' : Expr} (h : Expr.Loosens e e') :
    Expr.Loosens (.await span e) (.await span e')
  | pipe {span : Span} {l l' r r' : Expr} (hl : Expr.Loosens l l') (hr : Expr.Loosens r r') :
    Expr.Loosens (.pipe span l r) (.pipe span l' r')
  | assign {span : Span} (op : AssignOp) {t t' e e' : Expr} (ht : Expr.Loosens t t')
    (h : Expr.Loosens e e') : Expr.Loosens (.assign span op t e) (.assign span op t' e')
  | new {span : Span} (cls : Ident) {fields fields' : List (Ident × Expr)}
    (h : List.Forall₂ Initialiser.Loosens fields fields') :
    Expr.Loosens (.new span cls fields) (.new span cls fields')
  | lambda {span : Span} {sig sig' : Signature} {b b' : Block} (hsig : sig.Loosens sig')
    (h : Block.Loosens b b') : Expr.Loosens (.lambda span sig b) (.lambda span sig' b')
  | paren {span : Span} {e e' : Expr} (h : Expr.Loosens e e') :
    Expr.Loosens (.paren span e) (.paren span e')

/-- A key and its value. -/
inductive Entry.Loosens : Expr × Expr → Expr × Expr → Prop
  | mk {k k' v v' : Expr} (hk : Expr.Loosens k k') (hv : Expr.Loosens v v') :
    Entry.Loosens (k, v) (k', v')

/-- A field and its value. -/
inductive Initialiser.Loosens : Ident × Expr → Ident × Expr → Prop
  | mk (field : Ident) {e e' : Expr} (h : Expr.Loosens e e') :
    Initialiser.Loosens (field, e) (field, e')

inductive Part.Loosens : Part → Part → Prop
  | text (text : String) : Part.Loosens (.text text) (.text text)
  | hole {e e' : Expr} (h : Expr.Loosens e e') : Part.Loosens (.hole e) (.hole e')

inductive Block.Loosens : Block → Block → Prop
  | mk (span : Span) {ss ss' : List Stmt} (h : List.Forall₂ Stmt.Loosens ss ss') :
    Block.Loosens ⟨span, ss⟩ ⟨span, ss'⟩

/-- The same statement with the annotations in it loosened. -/
inductive Stmt.Loosens : Stmt → Stmt → Prop
  | bind (span : Span) (const : Bool) (name : Ident) {type type' : Option TypeExpr} {e e' : Expr}
    (ht : Option.Rel TypeExpr.Loosens type type') (h : Expr.Loosens e e') :
    Stmt.Loosens (.bind span const name type e) (.bind span const name type' e')
  | fn (span : Span) (name : Ident) {sig sig' : Signature} {b b' : Block}
    (hsig : sig.Loosens sig') (h : Block.Loosens b b') :
    Stmt.Loosens (.fn span name sig b) (.fn span name sig' b')
  | ret (span : Span) {e e' : Option Expr} (h : Option.Rel Expr.Loosens e e') :
    Stmt.Loosens (.ret span e) (.ret span e')
  | brk (span : Span) : Stmt.Loosens (.brk span) (.brk span)
  | cont (span : Span) : Stmt.Loosens (.cont span) (.cont span)
  | cond {c c' : Conditional} (h : Conditional.Loosens c c') : Stmt.Loosens (.cond c) (.cond c')
  | forLoop (span : Span) {init init' : Option Stmt} {test test' post post' : Option Expr}
    {b b' : Block} (hi : Option.Rel Stmt.Loosens init init')
    (ht : Option.Rel Expr.Loosens test test') (hp : Option.Rel Expr.Loosens post post')
    (h : Block.Loosens b b') :
    Stmt.Loosens (.forLoop span init test post b) (.forLoop span init' test' post' b')
  | forIn (span : Span) (item : Ident) {e e' : Expr} {b b' : Block} (he : Expr.Loosens e e')
    (h : Block.Loosens b b') : Stmt.Loosens (.forIn span item e b) (.forIn span item e' b')
  | whileLoop (span : Span) {e e' : Expr} {b b' : Block} (he : Expr.Loosens e e')
    (h : Block.Loosens b b') : Stmt.Loosens (.whileLoop span e b) (.whileLoop span e' b')
  | loop (span : Span) {b b' : Block} (h : Block.Loosens b b') :
    Stmt.Loosens (.loop span b) (.loop span b')
  | block {b b' : Block} (h : Block.Loosens b b') : Stmt.Loosens (.block b) (.block b')
  | classDecl (span : Span) (name : Ident) {fields fields' : List Field} {ms ms' : List Method}
    (hf : List.Forall₂ Field.Loosens fields fields') (hm : List.Forall₂ Method.Loosens ms ms') :
    Stmt.Loosens (.classDecl span name fields ms) (.classDecl span name fields' ms')
  | interfaceDecl (span : Span) (name : Ident) {heads heads' : List MethodHead}
    (h : List.Forall₂ MethodHead.Loosens heads heads') :
    Stmt.Loosens (.interfaceDecl span name heads) (.interfaceDecl span name heads')
  | implDecl (span : Span) (interface target : Ident) {ms ms' : List Method}
    (h : List.Forall₂ Method.Loosens ms ms') :
    Stmt.Loosens (.implDecl span interface target ms) (.implDecl span interface target ms')
  | require (span : Span) (path : String) (imports : Import) :
    Stmt.Loosens (.require span path imports) (.require span path imports)
  | expr (span : Span) {e e' : Expr} (h : Expr.Loosens e e') :
    Stmt.Loosens (.expr span e) (.expr span e')

inductive Conditional.Loosens : Conditional → Conditional → Prop
  | mk (span : Span) {test test' : Expr} {b b' : Block} {rest rest' : Otherwise}
    (ht : Expr.Loosens test test') (hb : Block.Loosens b b') (hr : Otherwise.Loosens rest rest') :
    Conditional.Loosens ⟨span, test, b, rest⟩ ⟨span, test', b', rest'⟩

inductive Otherwise.Loosens : Otherwise → Otherwise → Prop
  | none : Otherwise.Loosens .none .none
  | block {b b' : Block} (h : Block.Loosens b b') : Otherwise.Loosens (.block b) (.block b')
  | elseIf {c c' : Conditional} (h : Conditional.Loosens c c') :
    Otherwise.Loosens (.elseIf c) (.elseIf c')

inductive Field.Loosens : Field → Field → Prop
  | mk (name : Ident) {t t' : TypeExpr} {e e' : Option Expr} (span : Span) (ht : t.Loosens t')
    (he : Option.Rel Expr.Loosens e e') : Field.Loosens ⟨name, t, e, span⟩ ⟨name, t', e', span⟩

inductive Method.Loosens : Method → Method → Prop
  | mk (name : Ident) (receiver : Receiver) {sig sig' : Signature} {b b' : Block} (span : Span)
    (hsig : sig.Loosens sig') (h : Block.Loosens b b') :
    Method.Loosens ⟨name, receiver, sig, b, span⟩ ⟨name, receiver, sig', b', span⟩

end

/-- The same program with any of its annotations, or parts of them, replaced by `any`. -/
structure Program.Loosens (p p' : Program) : Prop where
  stmts : List.Forall₂ Stmt.Loosens p.stmts p'.stmts
  span : p'.span = p.span

namespace Expr.Loosens
variable {e e' : Expr} (h : e.Loosens e')
include h

theorem span : e'.span = e.span := by
  cases h <;> rfl

theorem ident? : e'.ident? = e.ident? := by
  cases h <;> rfl

theorem callee : e'.callee = e.callee := by
  cases h <;> rfl

theorem isPlace : e'.isPlace = e.isPlace := by
  cases h <;> rfl

theorem ne_call (hn : ∀ s f as, e ≠ .call s f as) (s : Span) (f : Expr) (as : List Expr) :
    e' ≠ .call s f as := by
  rintro rfl
  cases h
  exact hn _ _ _ rfl

end Expr.Loosens

/-! ### Types of annotations -/

private theorem append_subset_append {α : Type} {as as' bs bs' : List α} (ha : as' ⊆ as)
    (hb : bs' ⊆ bs) : as' ++ bs' ⊆ as ++ bs :=
  List.append_subset.mpr
    ⟨List.subset_append_of_subset_left bs ha, List.subset_append_of_subset_right as hb⟩

namespace TypeExpr
variable {known : String → Option Ty}

mutual

theorem Loosens.ty : ∀ {t t' : TypeExpr}, t.Loosens t' → (t.ty known).Loosens (t'.ty known)
  | _, _, .any _ _ => Ty.loosens_of_isDynamic _ rfl
  | _, _, .basic _ _ => refl _
  | _, _, .named _ _ => refl _
  | .array _ _, _, .array h | .chan _ _, _, .chan h | .future _ _, _, .future h
  | .optional _ _, _, .optional h | .ref _ _ _, _, .ref h => .inr ⟨_, rfl, h.ty⟩
  | .map _ _ _, _, .map hk hv => .inr ⟨_, _, rfl, hk.ty, hv.ty⟩
  | .fn _ _ _, _, .fn hp hr => .inr ⟨_, _, rfl, Ty.loosensAll_iff.mpr (loosens_tys hp), hr.ty⟩

theorem loosens_tys : ∀ {ts ts' : List TypeExpr}, List.Forall₂ Loosens ts ts' →
    List.Forall₂ Ty.Loosens (tys known ts) (tys known ts')
  | [], _, .nil => .nil
  | _ :: _, _, .cons h hs => .cons h.ty (loosens_tys hs)

end

mutual

/-- No name comes in. -/
theorem Loosens.names : ∀ {t t' : TypeExpr}, t.Loosens t' → t'.names ⊆ t.names
  | _, _, .any _ _ => List.nil_subset _
  | _, _, .basic _ _ => List.Subset.refl _
  | _, _, .named _ _ => List.Subset.refl _
  | .array _ _, _, .array h | .chan _ _, _, .chan h | .future _ _, _, .future h
  | .optional _ _, _, .optional h | .ref _ _ _, _, .ref h => h.names
  | .map _ _ _, _, .map hk hv => append_subset_append hk.names hv.names
  | .fn _ _ _, _, .fn hp hr => append_subset_append (namesAll_subset hp) hr.names

theorem namesAll_subset : ∀ {ts ts' : List TypeExpr}, List.Forall₂ Loosens ts ts' →
    namesAll ts' ⊆ namesAll ts
  | [], _, .nil => List.nil_subset _
  | _ :: _, _, .cons h hs => append_subset_append h.names (namesAll_subset hs)

end

theorem names_subset_of_rel {t t' : Option TypeExpr} (h : Option.Rel Loosens t t') :
    (t'.map (·.names)).getD [] ⊆ (t.map (·.names)).getD [] := by
  cases h with
  | none => exact List.nil_subset _
  | some h => exact h.names

theorem loosens_of_rel {t t' : Option TypeExpr} (h : Option.Rel Loosens t t') (usual : Ty) :
    ((t.map (·.ty known)).getD usual).Loosens ((t'.map (·.ty known)).getD usual) := by
  cases h with
  | none => exact refl usual
  | some h => exact h.ty

end TypeExpr

namespace Signature.Loosens
variable {sig sig' : Signature} (h : sig.Loosens sig')
include h

theorem fnTy (known : String → Option Ty) : (sig.fnTy known).Loosens (sig'.fnTy known) where
  params := by
    refine List.forall₂_map_left_iff.mpr (List.forall₂_map_right_iff.mpr ?_)
    exact h.params.imp fun _ _ hp => TypeExpr.loosens_of_rel hp.type .any
  ret := by
    simp only [Signature.fnTy, h.async]
    split
    · exact .inr ⟨_, rfl, TypeExpr.loosens_of_rel h.ret .void⟩
    · exact TypeExpr.loosens_of_rel h.ret .void

theorem names : sig'.names ⊆ sig.names := by
  have hparams : ∀ {ps ps' : List Param}, List.Forall₂ Param.Loosens ps ps' →
      ps'.flatMap (fun p => (p.type.map (·.names)).getD []) ⊆
        ps.flatMap (fun p => (p.type.map (·.names)).getD []) := by
    intro ps ps' hps
    induction hps with
    | nil => exact List.nil_subset _
    | cons hp _ ih => exact append_subset_append (TypeExpr.names_subset_of_rel hp.type) ih
  exact append_subset_append (hparams h.params) (TypeExpr.names_subset_of_rel h.ret)

/-- What the body of a function has to return says less. -/
theorem expected? {f f' : FnTy} (hf : f.Loosens f') :
    Option.Rel Ty.Loosens (f.expected? sig) (f'.expected? sig') := by
  unfold FnTy.expected?
  rw [isSome_eq_of_rel h.ret, h.async]
  split
  · split
    · exact .some hf.ret.output
    · exact .some hf.ret
  · exact .none

end Signature.Loosens

theorem noErrors_unknownTypes {known : String → Option Ty} {names names' : List Ident}
    (hn : names' ⊆ names) (h : NoErrors (unknownTypes known names)) :
    NoErrors (unknownTypes known names') := by
  intro f hf
  obtain ⟨n, hmem, rfl⟩ := List.mem_map.mp hf
  obtain ⟨hmem, hn'⟩ := List.mem_filter.mp hmem
  exact h _ (List.mem_map.mpr ⟨n, List.mem_filter.mpr ⟨hn hmem, hn'⟩, rfl⟩)

end CarvFront
