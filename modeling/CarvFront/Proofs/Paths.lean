import CarvFront.Syntax.Tree

/-! Paths down a syntax tree: from a statement to a part of it, to a part of that part and so on. -/
namespace CarvFront

/-- A node of a tree. A conditional behind an `else` is a node of its own. -/
inductive Vertex where
  | type (t : TypeExpr)
  | expr (e : Expr)
  | stmt (s : Stmt)
  | block (b : Block)
  | elseIf (c : Conditional)

/-! ### The nodes below a node -/

def TypeExpr.inside : TypeExpr → List TypeExpr
  | .basic _ _ | .named _ _ => []
  | .array _ t | .chan _ t | .future _ t | .optional _ t | .ref _ _ t => [t]
  | .map _ key value => [key, value]
  | .fn _ params ret => params ++ [ret]

def Signature.vertices (sig : Signature) : List Vertex :=
  (sig.params.flatMap fun p => p.type.toList.map .type) ++ sig.ret.toList.map .type

def Part.vertices : Part → List Vertex
  | .text _ => []
  | .hole e => [.expr e]

def Field.vertices (f : Field) : List Vertex :=
  .type f.type :: f.default.toList.map .expr

def Method.vertices (m : Method) : List Vertex :=
  m.sig.vertices ++ [.block m.body]

def Otherwise.vertices : Otherwise → List Vertex
  | .none => []
  | .block b => [.block b]
  | .elseIf c => [.elseIf c]

def Conditional.vertices (c : Conditional) : List Vertex :=
  [.expr c.test, .block c.body] ++ c.otherwise.vertices

def Expr.vertices : Expr → List Vertex
  | .int _ _ | .float _ _ | .string _ _ | .char _ _ | .bool _ _ | .nil _ | .ident _ _ => []
  | .interp _ parts => parts.flatMap Part.vertices
  | .array _ elems => elems.map .expr
  | .map _ entries => entries.flatMap fun e => [.expr e.1, .expr e.2]
  | .call _ callee args => .expr callee :: args.map .expr
  | .new _ _ fields => fields.map fun f => .expr f.2
  | .index _ a b | .binary _ _ a b | .pipe _ a b | .assign _ _ a b => [.expr a, .expr b]
  | .member _ e _ | .unary _ _ e | .borrow _ _ e | .deref _ e | .await _ e | .paren _ e => [.expr e]
  | .lambda _ sig body => sig.vertices ++ [.block body]

def Stmt.vertices : Stmt → List Vertex
  | .bind _ _ _ type value => type.toList.map .type ++ [.expr value]
  | .fn _ _ sig body => sig.vertices ++ [.block body]
  | .ret _ value => value.toList.map .expr
  | .brk _ | .cont _ | .require _ _ _ => []
  | .cond c => c.vertices
  | .forLoop _ init test post body =>
    init.toList.map .stmt ++ test.toList.map .expr ++ post.toList.map .expr ++ [.block body]
  | .forIn _ _ e body | .whileLoop _ e body => [.expr e, .block body]
  | .loop _ body | .block body => [.block body]
  | .classDecl _ _ fields methods =>
    fields.flatMap Field.vertices ++ methods.flatMap Method.vertices
  | .interfaceDecl _ _ methods => methods.flatMap fun m => m.sig.vertices
  | .implDecl _ _ _ methods => methods.flatMap Method.vertices
  | .expr _ e => [.expr e]

namespace Vertex

/-- The nodes right below a node. -/
def children : Vertex → List Vertex
  | .type t => t.inside.map .type
  | .expr e => e.vertices
  | .stmt s => s.vertices
  | .block b => b.stmts.map .stmt
  | .elseIf c => c.vertices

/-- A type with a question mark behind it. -/
def isOptional : Vertex → Bool
  | .type (.optional _ _) => true
  | _ => false

/-- A conditional behind an `else`. -/
def isElseIf : Vertex → Bool
  | .elseIf _ => true
  | _ => false

/-- Nodes that are read without going one level deeper. -/
def isFree (v : Vertex) : Bool :=
  v.isOptional || v.isElseIf

end Vertex

/-! ### Paths -/

/-- A path down from one of some nodes. It may end anywhere. -/
inductive Path : List Vertex → List Vertex → Prop
  | nil (roots : List Vertex) : Path roots []
  | cons {roots path : List Vertex} {v : Vertex} (hv : v ∈ roots) (h : Path v.children path) :
      Path roots (v :: path)

/-- A path in a program. -/
def Program.Path (p : Program) (path : List Vertex) : Prop :=
  CarvFront.Path (p.stmts.map .stmt) path

/-- The weight of a path, if free nodes count `w` and all others one. -/
def weight (w : Nat) : List Vertex → Nat
  | [] => 0
  | v :: path => (if v.isFree then w else 1) + weight w path

theorem weight_zero (path : List Vertex) : weight 0 path = path.countP fun v => !v.isFree := by
  induction path with
  | nil => rfl
  | cons v path ih =>
    rw [weight, List.countP_cons, ih, Nat.add_comm]
    cases v.isFree <;> rfl

theorem weight_one (path : List Vertex) : weight 1 path = path.length := by
  induction path with
  | nil => rfl
  | cons v path ih => rw [weight, List.length_cons, ih, ite_self, Nat.add_comm]

/-- No path down from some nodes weighs more than `k`. -/
def Shallow (w k : Nat) (roots : List Vertex) : Prop :=
  ∀ path, Path roots path → weight w path ≤ k

section Shallow
variable {w k l : Nat} {v : Vertex} {as bs : List Vertex}

theorem shallow_nil (w k : Nat) : Shallow w k [] := by
  intro path h
  cases h with
  | nil => exact Nat.zero_le k
  | cons hv => cases hv

theorem Shallow.mono (h : Shallow w k as) (hk : k ≤ l) : Shallow w l as :=
  fun path hpath => Nat.le_trans (h path hpath) hk

theorem Shallow.append (h : Shallow w k as) (h' : Shallow w l bs) :
    Shallow w (max k l) (as ++ bs) := by
  intro path hpath
  cases hpath with
  | nil => exact Nat.zero_le _
  | cons hv hpath =>
    rcases List.mem_append.mp hv with hv | hv
    · exact Nat.le_trans (h _ (.cons hv hpath)) (Nat.le_max_left k l)
    · exact Nat.le_trans (h' _ (.cons hv hpath)) (Nat.le_max_right k l)

theorem Shallow.subset (h : Shallow w k as) (hsub : bs ⊆ as) : Shallow w k bs := by
  intro path hpath
  cases hpath with
  | nil => exact Nat.zero_le k
  | cons hv hpath => exact h _ (.cons (hsub hv) hpath)

theorem Shallow.below (h : Shallow w k v.children) :
    Shallow w (k + if v.isFree then w else 1) [v] := by
  intro path hpath
  cases hpath with
  | nil => exact Nat.zero_le _
  | cons hmem hpath =>
    rw [List.mem_singleton.mp hmem] at hpath ⊢
    rw [weight, Nat.add_comm]
    exact Nat.add_le_add_right (h _ hpath) _

/-- A node that is not free, over nodes that are less high by one. -/
theorem Shallow.over (h : Shallow w k v.children) (hv : v.isFree = false) (hl : k + 1 ≤ l) :
    Shallow w l [v] := by
  have hbelow := h.below
  rw [if_neg (by rw [hv]; exact Bool.false_ne_true)] at hbelow
  exact hbelow.mono hl

theorem Shallow.free (h : Shallow w k v.children) (hv : v.isFree = true) :
    Shallow w (k + w) [v] := by
  have hbelow := h.below
  rwa [if_pos hv] at hbelow

end Shallow
end CarvFront
