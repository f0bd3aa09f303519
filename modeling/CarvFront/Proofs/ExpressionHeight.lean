import CarvFront.Proofs.DepthLimit

/-! How high expressions get. A chain of operators leaves its levels where it ends, so chains that
bind tighter add to the height of those that bind looser, and again inside parentheses; but all this
is bounded. -/
namespace CarvFront

/-! ### The height of an expression -/

mutual

/-- The number of steps from an expression down to an expression in it, where most can be taken. No
step goes into a lambda. -/
def Expr.height : Expr → Nat
  | .int _ _ | .float _ _ | .string _ _ | .char _ _ | .bool _ _ | .nil _ | .ident _ _
  | .lambda _ _ _ => 0
  | .interp _ parts => heightOverParts parts
  | .array _ elems => heightOver elems
  | .map _ entries => heightOverEntries entries
  | .new _ _ fields => heightOverInits fields
  | .call _ callee args => max (callee.height + 1) (heightOver args)
  | .index _ a b | .binary _ _ a b | .pipe _ a b | .assign _ _ a b =>
    max (a.height + 1) (b.height + 1)
  | .member _ e _ | .unary _ _ e | .borrow _ _ e | .deref _ e | .await _ e | .paren _ e =>
    e.height + 1

def heightOver : List Expr → Nat
  | [] => 0
  | e :: es => max (e.height + 1) (heightOver es)

def heightOverParts : List Part → Nat
  | [] => 0
  | .text _ :: ps => heightOverParts ps
  | .hole e :: ps => max (e.height + 1) (heightOverParts ps)

def heightOverEntries : List (Expr × Expr) → Nat
  | [] => 0
  | (k, v) :: es => max (max (k.height + 1) (v.height + 1)) (heightOverEntries es)

def heightOverInits : List (Ident × Expr) → Nat
  | [] => 0
  | (_, e) :: es => max (e.height + 1) (heightOverInits es)

end

/-- Among some nodes there is an expression that is less high by one, if any step is counted. -/
def Reached (n : Nat) (vs : List Vertex) : Prop :=
  n = 0 ∨ ∃ e, .expr e ∈ vs ∧ n = e.height + 1

section
variable {n m : Nat} {vs ws : List Vertex}

theorem reached_expr (e : Expr) : Reached (e.height + 1) [.expr e] :=
  .inr ⟨e, List.mem_singleton_self _, rfl⟩

theorem Reached.append (h : Reached n vs) (h' : Reached m ws) : Reached (max n m) (vs ++ ws) := by
  rcases Nat.le_total n m with hle | hle
  · rw [Nat.max_eq_right hle]
    exact h'.imp_right fun ⟨e, he, heq⟩ => ⟨e, List.mem_append_right vs he, heq⟩
  · rw [Nat.max_eq_left hle]
    exact h.imp_right fun ⟨e, he, heq⟩ => ⟨e, List.mem_append_left ws he, heq⟩

end

theorem reached_exprs (es : List Expr) : Reached (heightOver es) (es.map .expr) := by
  induction es with
  | nil => exact .inl rfl
  | cons e es ih => exact (reached_expr e).append ih

theorem reached_parts (ps : List Part) :
    Reached (heightOverParts ps) (ps.flatMap Part.vertices) := by
  induction ps with
  | nil => exact .inl rfl
  | cons p ps ih =>
    cases p with
    | text s => exact ih
    | hole e => exact (reached_expr e).append ih

theorem reached_entries (es : List (Expr × Expr)) :
    Reached (heightOverEntries es) (es.flatMap fun e => [.expr e.1, .expr e.2]) := by
  induction es with
  | nil => exact .inl rfl
  | cons e es ih => exact ((reached_expr e.1).append (reached_expr e.2)).append ih

theorem reached_inits (es : List (Ident × Expr)) :
    Reached (heightOverInits es) (es.map fun e => .expr e.2) := by
  induction es with
  | nil => exact .inl rfl
  | cons e es ih => exact (reached_expr e.2).append ih

theorem Expr.reached_height (e : Expr) : Reached e.height e.vertices := by
  cases e with
  | interp _ parts => exact reached_parts parts
  | array _ elems => exact reached_exprs elems
  | map _ entries => exact reached_entries entries
  | new _ _ fields => exact reached_inits fields
  | call _ callee args => exact (reached_expr callee).append (reached_exprs args)
  | index _ a b | binary _ _ a b | pipe _ a b | assign _ _ a b =>
    exact (reached_expr a).append (reached_expr b)
  | member _ e _ | unary _ _ e | borrow _ _ e | deref _ e | await _ e | paren _ e =>
    exact reached_expr e
  | _ => exact .inl rfl

/-! ### Heights and paths -/

theorem Path.of_mem {roots path : List Vertex} {v : Vertex} (h : Path [v] path) (hv : v ∈ roots) :
    Path roots path := by
  cases h with
  | nil => exact .nil roots
  | cons hmem h => exact .cons (List.mem_singleton.mp hmem ▸ hv) h

/-- A path may go on otherwise from one of its nodes. -/
theorem Path.exists_append {roots path path' : List Vertex} {v : Vertex} (h : Path roots path)
    (hv : v ∈ path) (h' : Path [v] path') : ∃ before, Path roots (before ++ path') := by
  induction h with
  | nil => cases hv
  | @cons roots path v₀ hmem _ ih =>
    rcases List.mem_cons.mp hv with rfl | hv
    · exact ⟨[], h'.of_mem hmem⟩
    · obtain ⟨before, hbefore⟩ := ih hv
      exact ⟨v₀ :: before, .cons hmem hbefore⟩

theorem weight_le_append (w : Nat) (before path : List Vertex) :
    weight w path ≤ weight w (before ++ path) := by
  induction before with
  | nil => exact Nat.le_refl _
  | cons v before ih => exact Nat.le_trans ih (Nat.le_add_left _ _)

/-- As many steps as an expression is high can be taken down from it. -/
theorem Expr.exists_path (e : Expr) :
    ∃ path, Path [.expr e] path ∧ weight 0 path = e.height + 1 := by
  -- on the height and not on the tree: the highest part of an expression is one less high
  induction hn : e.height generalizing e with
  | zero => exact ⟨[.expr e], .cons (List.mem_singleton_self _) (.nil _), rfl⟩
  | succ n ih =>
    rcases hn ▸ e.reached_height with h | ⟨e', hmem, h⟩
    · cases h
    · obtain ⟨path, hpath, hweight⟩ := ih e' (Nat.succ.inj h).symm
      have hbelow : Path (Vertex.children (.expr e)) path := hpath.of_mem hmem
      refine ⟨.expr e :: path, .cons (List.mem_singleton_self _) hbelow, ?_⟩
      rw [weight, hweight, Nat.add_comm]
      rfl

/-- Whatever the tokens, no expression in the tree that they are read into is higher than 24385. -/
theorem Program.height_le {ts : List Token} {path : List Vertex} {e : Expr}
    (h : (Program.ofTokens ts).1.Path path) (he : .expr e ∈ path) : e.height ≤ 24385 := by
  obtain ⟨down, hdown, hweight⟩ := e.exists_path
  obtain ⟨before, hpath⟩ := Path.exists_append h he hdown
  have hbound := Program.shallow_ofTokens 0 ts _ hpath
  have hle := weight_le_append 0 before down
  omega

/-- `x.x.x … * x * x … + x + x …`, with `n` members and `n` operators of each sort -/
def chains (n : Nat) : List Token :=
  let chain (s : Symbol) := (List.replicate n [Kind.sym s, .ident "x"]).flatten
  (.ident "x" :: chain .dot ++ chain .star ++ chain .plus).map Kind.token

/-- The height of the expression that is the only statement. -/
def heightOfOnly : List Stmt → Option Nat
  | [.expr _ e] => some e.height
  | _ => none

theorem exists_of_heightOfOnly {stmts : List Stmt} {n : Nat} (h : heightOfOnly stmts = some n) :
    ∃ span e, stmts = [.expr span e] ∧ e.height = n := by
  unfold heightOfOnly at h
  split at h
  · exact ⟨_, _, rfl, Option.some.inj h⟩
  · cases h

/-- The tighter chain is the left end of the looser one, so their heights add up. -/
theorem Program.height_le_chains : ∃ path e, (Program.ofTokens (chains 63)).1.Path path ∧
    .expr e ∈ path ∧ e.height = 189 ∧ e.height ≤ 24385 := by
  have hread : heightOfOnly (Program.ofTokens (chains 63)).1.stmts = some 189 := by decide +kernel
  obtain ⟨span, e, hstmts, hheight⟩ := exists_of_heightOfOnly hread
  have hpath : (Program.ofTokens (chains 63)).1.Path [.stmt (.expr span e), .expr e] := by
    rw [Program.Path, hstmts]
    exact .cons (List.mem_singleton_self _) (.cons (List.mem_singleton_self _) (.nil _))
  have hmem : Vertex.expr e ∈ [.stmt (.expr span e), .expr e] := .tail _ (.head _)
  exact ⟨_, e, hpath, hmem, hheight, Program.height_le hpath hmem⟩

end CarvFront
