import Mathlib.Tactic.Order
import CarvFront.Grammar.Program
import CarvFront.Proofs.Positions

/-! The outline of a tree: the spans of its nodes. In a nested outline a node covers its children,
and children do not overlap, so that a span tells which expression or function is meant. -/
namespace CarvFront

namespace Span
variable {s t : Span} {p : Position}

/-- One span covers another. -/
structure Covers (s t : Span) : Prop where
  start : s.start ≤ t.start
  stop : t.stop ≤ s.stop

theorem Covers.refl (s : Span) : s.Covers s :=
  ⟨le_rfl, le_rfl⟩

theorem Covers.trans {u : Span} (h : s.Covers t) (h' : t.Covers u) : s.Covers u :=
  ⟨le_trans h.start h'.start, le_trans h'.stop h.stop⟩

theorem Covers.antisymm (h : s.Covers t) (h' : t.Covers s) : s = t := by
  obtain ⟨start, stop⟩ := s
  have hstart := le_antisymm h.start h'.start
  have hstop := le_antisymm h'.stop h.stop
  simp only at hstart hstop
  rw [hstart, hstop]

/-- One span ends before the other starts. -/
def Before (s t : Span) : Prop :=
  s.stop < t.start

theorem merge_start_le_left (s t : Span) : (s.merge t).start ≤ s.start := by
  unfold merge
  dsimp only
  split <;> order

theorem left_le_merge_stop (s t : Span) : s.stop ≤ (s.merge t).stop := by
  unfold merge
  dsimp only
  split <;> order

theorem right_le_merge_stop (s t : Span) : t.stop ≤ (s.merge t).stop := by
  unfold merge
  dsimp only
  split <;> order

theorem lt_merge_start (hs : p < s.start) (ht : p < t.start) : p < (s.merge t).start := by
  unfold merge
  dsimp only
  split <;> assumption

theorem le_merge_start (hs : p ≤ s.start) (ht : p ≤ t.start) : p ≤ (s.merge t).start := by
  unfold merge
  dsimp only
  split <;> assumption

theorem merge_stop_le (hs : s.stop ≤ p) (ht : t.stop ≤ p) : (s.merge t).stop ≤ p := by
  unfold merge
  dsimp only
  split <;> assumption

end Span

/-! ### Outlines -/

/-- What a node is: an expression, a declaration of a function or a method, or anything else. -/
inductive Role where
  | expr
  | decl
  | other
deriving DecidableEq

/-- The spans of a tree. The children of a node are in source order; a class has its methods in a
list of their own, since they may stand between its fields. -/
inductive Outline where
  | node (role : Role) (span : Span) (children methods : List Outline)

namespace Outline
variable {k : Role} {s : Span} {o : Outline}

def role : Outline → Role
  | .node role _ _ _ => role

def span : Outline → Span
  | .node _ span _ _ => span

def children : Outline → List Outline
  | .node _ _ children methods => children ++ methods

/-- A node without children. -/
def leaf (role : Role) (span : Span) : Outline :=
  .node role span [] []

mutual

/-- The spans of all nodes of a role. -/
def spans (k : Role) : Outline → List Span
  | .node role span children methods =>
    (if role = k then [span] else []) ++ (spansAll k children ++ spansAll k methods)

def spansAll (k : Role) : List Outline → List Span
  | [] => []
  | o :: os => o.spans k ++ spansAll k os

end

/-- One node is somewhere inside another. -/
inductive Inside : Outline → Outline → Prop
  | child {o p : Outline} (h : o ∈ p.children) : Inside o p
  | deeper {o p q : Outline} (h : Inside o p) (hp : p ∈ q.children) : Inside o q

/-- Every node covers its children, and an expression or a function is longer than each of them. The
children of a list stand one behind the other; a method and a field do not overlap. -/
inductive Nested : Outline → Prop
  | node {role : Role} {span : Span} {children methods : List Outline}
      (ordered : span.start ≤ span.stop)
      (covers : ∀ o ∈ children ++ methods, span.Covers o.span)
      (strict : role ≠ .other → ∀ o ∈ children ++ methods, span ≠ o.span)
      (sorted : children.Pairwise fun o p => o.span.Before p.span)
      (sortedMethods : methods.Pairwise fun o p => o.span.Before p.span)
      (apart : ∀ o ∈ children, ∀ p ∈ methods, o.span.Before p.span ∨ p.span.Before o.span)
      (nested : ∀ o ∈ children ++ methods, Nested o) : Nested (.node role span children methods)

namespace Nested
variable {o p : Outline}

theorem ordered_span (h : o.Nested) : o.span.start ≤ o.span.stop := by
  cases h with
  | node ordered => exact ordered

theorem of_mem_children (h : o.Nested) (hp : p ∈ o.children) :
    p.Nested ∧ o.span.Covers p.span ∧ (o.role ≠ .other → o.span ≠ p.span) := by
  cases h with
  | node _ covers strict _ _ _ nested =>
    exact ⟨nested p hp, covers p hp, fun hrole => strict hrole p hp⟩

/-- What is inside a nested outline is nested and covered by it. -/
theorem of_inside (h : o.Nested) (hp : p.Inside o) : p.Nested ∧ o.span.Covers p.span := by
  induction hp with
  | child hchild =>
    obtain ⟨hnested, hcovers, -⟩ := h.of_mem_children hchild
    exact ⟨hnested, hcovers⟩
  | deeper _ hchild ih =>
    obtain ⟨hnested, hcovers, -⟩ := h.of_mem_children hchild
    obtain ⟨hp, hcovers'⟩ := ih hnested
    exact ⟨hp, hcovers.trans hcovers'⟩

/-- What is inside an expression or a function is shorter than it. -/
theorem ne_of_inside (h : o.Nested) (hrole : o.role ≠ .other) (hp : p.Inside o) :
    o.span ≠ p.span := by
  cases hp with
  | child hchild => exact (h.of_mem_children hchild).2.2 hrole
  | deeper hinside hchild =>
    obtain ⟨hnested, hcovers, hne⟩ := h.of_mem_children hchild
    intro heq
    -- the child between them would be as long as both
    have hback : Span.Covers _ o.span := heq ▸ (hnested.of_inside hinside).2
    exact hne hrole (hcovers.antisymm hback)

end Nested

theorem mem_spansAll {os : List Outline} : s ∈ spansAll k os ↔ ∃ o ∈ os, s ∈ o.spans k := by
  induction os with
  | nil => simp [spansAll]
  | cons o os ih => simp [spansAll, ih]

theorem Nested.covers_spans (h : o.Nested) (hs : s ∈ o.spans k) :
    o.span.Covers s ∧ s.start ≤ s.stop := by
  induction h with
  | @node role span children methods ordered covers _ _ _ _ _ ih =>
    rw [spans, List.mem_append, List.mem_append, mem_spansAll, mem_spansAll] at hs
    rcases hs with hs | ⟨p, hp, hs⟩ | ⟨p, hp, hs⟩
    · split at hs
      · rw [List.mem_singleton.mp hs]
        exact ⟨.refl span, ordered⟩
      · cases hs
    · obtain ⟨hcovers, hordered⟩ := ih p (List.mem_append_left _ hp) hs
      exact ⟨(covers p (List.mem_append_left _ hp)).trans hcovers, hordered⟩
    · obtain ⟨hcovers, hordered⟩ := ih p (List.mem_append_right _ hp) hs
      exact ⟨(covers p (List.mem_append_right _ hp)).trans hcovers, hordered⟩

/-- Nodes of two outlines that do not overlap have different spans. -/
theorem Nested.ne_of_before {p : Outline} (ho : o.Nested) (hp : p.Nested)
    (hbefore : o.span.Before p.span) {t : Span} (hs : s ∈ o.spans k) (ht : t ∈ p.spans k) :
    s ≠ t := by
  rintro rfl
  obtain ⟨hs, hordered⟩ := ho.covers_spans hs
  obtain ⟨ht, -⟩ := hp.covers_spans ht
  have hstop := hs.stop
  have hstart := ht.start
  have hlt : o.span.stop < p.span.start := hbefore
  order

theorem nodup_spansAll {os : List Outline} (hnested : ∀ o ∈ os, o.Nested)
    (hsorted : os.Pairwise fun o p => o.span.Before p.span) (hnodup : ∀ o ∈ os, (o.spans k).Nodup) :
    (spansAll k os).Nodup := by
  induction os with
  | nil => exact List.nodup_nil
  | cons o os ih =>
    obtain ⟨hfirst, hrest⟩ := List.pairwise_cons.mp hsorted
    rw [List.forall_mem_cons] at hnested hnodup
    rw [spansAll, List.nodup_append]
    refine ⟨hnodup.1, ih hnested.2 hrest hnodup.2, fun s hs t ht => ?_⟩
    obtain ⟨p, hp, ht⟩ := mem_spansAll.mp ht
    exact hnested.1.ne_of_before (hnested.2 p hp) (hfirst p hp) hs ht

/-- In a nested outline no two expressions have the same span, and no two functions have. -/
theorem Nested.nodup_spans (hk : k ≠ .other) (h : o.Nested) : (o.spans k).Nodup := by
  induction h with
  | @node role span children methods _ covers strict sorted sortedMethods apart nested ih =>
    have hchildren := nodup_spansAll (fun o ho => nested o (List.mem_append_left _ ho)) sorted
      (fun o ho => ih o (List.mem_append_left _ ho))
    have hmethods := nodup_spansAll (fun o ho => nested o (List.mem_append_right _ ho)) sortedMethods
      (fun o ho => ih o (List.mem_append_right _ ho))
    have hinner : (spansAll k children ++ spansAll k methods).Nodup := by
      rw [List.nodup_append]
      refine ⟨hchildren, hmethods, fun s hs t ht => ?_⟩
      obtain ⟨o, ho, hs⟩ := mem_spansAll.mp hs
      obtain ⟨p, hp, ht⟩ := mem_spansAll.mp ht
      have hno := nested o (List.mem_append_left _ ho)
      have hnp := nested p (List.mem_append_right _ hp)
      rcases apart o ho p hp with hbefore | hbefore
      · exact hno.ne_of_before hnp hbefore hs ht
      · exact (hnp.ne_of_before hno hbefore ht hs).symm
    rw [spans]
    split
    · next hrole =>
      rw [List.singleton_append]
      refine List.nodup_cons.mpr ⟨fun hmem => ?_, hinner⟩
      -- a node as long as this one would be in a child that is as long, too
      obtain ⟨o, ho, hs⟩ : ∃ o ∈ children ++ methods, span ∈ o.spans k := by
        rcases List.mem_append.mp hmem with hmem | hmem
        · obtain ⟨o, ho, hs⟩ := mem_spansAll.mp hmem
          exact ⟨o, List.mem_append_left _ ho, hs⟩
        · obtain ⟨o, ho, hs⟩ := mem_spansAll.mp hmem
          exact ⟨o, List.mem_append_right _ ho, hs⟩
      have hback := ((nested o ho).covers_spans hs).1
      exact strict (hrole ▸ hk) o ho ((covers o ho).antisymm hback)
    · exact hinner

/-! ### Rows -/

/-- Nested outlines between two places, one behind the other. -/
structure Row (lo hi : Position) (os : List Outline) : Prop where
  within : ∀ o ∈ os, lo < o.span.start ∧ o.span.stop ≤ hi
  sorted : os.Pairwise fun o p => o.span.Before p.span
  nested : ∀ o ∈ os, o.Nested

namespace Row
variable {lo hi a b : Position} {o : Outline} {os ps : List Outline}
variable {t : Span}

theorem nil (lo hi : Position) : Row lo hi [] :=
  ⟨fun _ h => absurd h List.not_mem_nil, .nil, fun _ h => absurd h List.not_mem_nil⟩

theorem single (hlo : lo < o.span.start) (hhi : o.span.stop ≤ hi) (h : o.Nested) :
    Row lo hi [o] := by
  constructor
  · intro p hp
    rw [List.mem_singleton.mp hp]
    exact ⟨hlo, hhi⟩
  · exact List.pairwise_singleton _ _
  · intro p hp
    rwa [List.mem_singleton.mp hp]

theorem mono (h : Row a b os) (ha : lo ≤ a) (hb : b ≤ hi) : Row lo hi os := by
  refine ⟨fun o ho => ?_, h.sorted, h.nested⟩
  obtain ⟨hstart, hstop⟩ := h.within o ho
  exact ⟨lt_of_le_of_lt ha hstart, le_trans hstop hb⟩

theorem append (h : Row lo a os) (h' : Row b hi ps) (ha : lo ≤ a) (hab : a ≤ b) (hb : b ≤ hi) :
    Row lo hi (os ++ ps) := by
  constructor
  · intro o ho
    rcases List.mem_append.mp ho with ho | ho
    · exact (h.mono le_rfl (le_trans hab hb)).within o ho
    · exact (h'.mono (le_trans ha hab) le_rfl).within o ho
  · refine List.pairwise_append.mpr ⟨h.sorted, h'.sorted, fun o ho p hp => ?_⟩
    have hstop := (h.within o ho).2
    have hstart := (h'.within p hp).1
    change o.span.stop < p.span.start
    order
  · intro o ho
    rcases List.mem_append.mp ho with ho | ho
    · exact h.nested o ho
    · exact h'.nested o ho

theorem of_sublist (h : Row lo hi os) (hsub : ps.Sublist os) : Row lo hi ps :=
  ⟨fun o ho => h.within o (hsub.mem ho), h.sorted.sublist hsub, fun o ho => h.nested o (hsub.mem ho)⟩

/-- A single outline in a row takes some room. -/
theorem lt_of_single (h : Row lo hi [o]) : lo < o.span.start ∧ o.span.stop ≤ hi ∧ lo < hi := by
  obtain ⟨hstart, hstop⟩ := h.within o List.mem_cons_self
  have hordered := (h.nested o List.mem_cons_self).ordered_span
  exact ⟨hstart, hstop, by order⟩

variable {role : Role} {span : Span}

/-- A node that starts in front of all its children and methods. -/
theorem node_methods (h : Row a b os) (hps : Row a b ps)
    (hapart : ∀ o ∈ os, ∀ p ∈ ps, o.span.Before p.span ∨ p.span.Before o.span)
    (hstart : span.start ≤ a) (hstop : b ≤ span.stop) (hspan : span.start ≤ span.stop) :
    (Outline.node role span os ps).Nested := by
  have hwithin : ∀ o ∈ os ++ ps, span.start < o.span.start ∧ o.span.stop ≤ span.stop := by
    intro o ho
    rcases List.mem_append.mp ho with ho | ho
    · exact (h.mono hstart hstop).within o ho
    · exact (hps.mono hstart hstop).within o ho
  constructor
  · exact hspan
  · intro o ho
    obtain ⟨hlt, hle⟩ := hwithin o ho
    exact ⟨le_of_lt hlt, hle⟩
  · intro _ o ho heq
    exact ne_of_lt (hwithin o ho).1 (congrArg Span.start heq)
  · exact h.sorted
  · exact hps.sorted
  · exact hapart
  · intro o ho
    rcases List.mem_append.mp ho with ho | ho
    · exact h.nested o ho
    · exact hps.nested o ho

/-- A node that starts in front of all its children. -/
theorem node (h : Row a b os) (hstart : span.start ≤ a) (hstop : b ≤ span.stop)
    (hspan : span.start ≤ span.stop) : (Outline.node role span os []).Nested :=
  h.node_methods (nil a b) (fun _ _ _ hp => absurd hp List.not_mem_nil) hstart hstop hspan

/-- A node that starts with its first child and goes on behind it. -/
theorem node_left (ho : Row lo a [o]) (h : Row b hi os) (hab : a ≤ b)
    (hstart : span.start ≤ o.span.start) (ha : a < span.stop) (hhi : hi ≤ span.stop) :
    (Outline.node role span (o :: os) []).Nested := by
  obtain ⟨hlo, hfirst, hlt⟩ := ho.lt_of_single
  have hordered := (ho.nested o List.mem_cons_self).ordered_span
  have hrest : ∀ p ∈ os, o.span.Before p.span := fun p hp => by
    have hp := (h.within p hp).1
    change o.span.stop < p.span.start
    order
  constructor
  · order
  · rw [List.append_nil, List.forall_mem_cons]
    refine ⟨⟨hstart, by order⟩, fun p hp => ⟨?_, le_trans (h.within p hp).2 hhi⟩⟩
    have hp : o.span.stop < p.span.start := hrest p hp
    order
  · rw [List.append_nil, List.forall_mem_cons]
    intro _
    refine ⟨fun heq => ?_, fun p hp heq => ?_⟩
    · rw [heq] at ha
      order
    · have hp : o.span.stop < p.span.start := hrest p hp
      rw [heq] at hstart
      order
  · exact List.pairwise_cons.mpr ⟨hrest, h.sorted⟩
  · exact .nil
  · intro o _ p hp
    cases hp
  · rw [List.append_nil, List.forall_mem_cons]
    exact ⟨ho.nested o List.mem_cons_self, h.nested⟩

/-- A node that may be no longer than a child. -/
theorem node_cover (h : Row a b os) (hcovers : ∀ o ∈ os, span.Covers o.span)
    (hspan : span.start ≤ span.stop) : (Outline.node .other span os []).Nested := by
  constructor
  · exact hspan
  · rw [List.append_nil]
    exact hcovers
  · intro hrole
    exact absurd rfl hrole
  · exact h.sorted
  · exact .nil
  · intro o _ p hp
    cases hp
  · rw [List.append_nil]
    exact h.nested

theorem fit (h : Row lo hi [o]) : Row lo o.span.stop [o] := by
  obtain ⟨hstart, -, -⟩ := h.lt_of_single
  exact .single hstart le_rfl (h.nested o List.mem_cons_self)

/-- A node from its first token to its last, with everything else between. -/
theorem around {s : Span} (hs : lo < s.start) (hs' : s.start ≤ s.stop) (h : Row s.stop t.stop os)
    (ht : lo < t.start) (hst : s.stop ≤ hi) (hhi : t.stop ≤ hi) :
    Row lo hi [.node role (s.merge t) os []] := by
  have hstart := Span.merge_start_le_left s t
  have hleft := Span.left_le_merge_stop s t
  have hright := Span.right_le_merge_stop s t
  apply single
  · exact Span.lt_merge_start hs ht
  · exact Span.merge_stop_le hst hhi
  · exact h.node (by order) hright (by order)

/-- A row ends where its last outline does. -/
theorem fit_last (h : Row lo hi (os ++ [o])) : Row lo o.span.stop (os ++ [o]) := by
  refine ⟨fun p hp => ⟨(h.within p hp).1, ?_⟩, h.sorted, h.nested⟩
  rcases List.mem_append.mp hp with hp | hp
  · have hbefore : p.span.stop < o.span.start :=
      (List.pairwise_append.mp h.sorted).2.2 p hp o List.mem_cons_self
    have hordered := (h.nested o (List.mem_append_right _ List.mem_cons_self)).ordered_span
    order
  · rw [List.mem_singleton.mp hp]

/-- A node from its first token to its last child. -/
theorem upTo {s : Span} (hs : lo < s.start) (hs' : s.start ≤ s.stop)
    (h : Row s.stop hi (os ++ [o])) : Row lo hi [.node role (s.merge o.span) (os ++ [o]) []] := by
  obtain ⟨hstart, hstop⟩ := h.within o (List.mem_append_right _ List.mem_cons_self)
  have hordered := (h.nested o (List.mem_append_right _ List.mem_cons_self)).ordered_span
  exact .around hs hs' h.fit_last (by order) (by order) hstop

/-- A node from its first child on. -/
theorem behind (ho : Row lo a [o]) (h : Row b t.stop os) (hab : a ≤ b) (ht : b < t.start)
    (ht' : t.start ≤ t.stop) (hhi : t.stop ≤ hi) :
    Row lo hi [.node role (o.span.merge t) (o :: os) []] := by
  obtain ⟨hstart, hstop, hlt⟩ := ho.lt_of_single
  have hleft := Span.merge_start_le_left o.span t
  have hright := Span.right_le_merge_stop o.span t
  apply single
  · exact Span.lt_merge_start hstart (by order)
  · exact Span.merge_stop_le (by order) hhi
  · exact ho.node_left h hab hleft (by order) hright

/-- A node from its first child to its second. -/
theorem operands {p : Outline} (ho : Row lo a [o]) (hp : Row a hi [p]) :
    Row lo hi [.node role (o.span.merge p.span) [o, p] []] := by
  obtain ⟨hstart, hstop, -⟩ := hp.lt_of_single
  have hordered := (hp.nested p List.mem_cons_self).ordered_span
  exact ho.behind hp.fit le_rfl hstart hordered hstop

/-- A node from its first part to its last token. It may be no longer than that part. -/
theorem from_first (h : Row lo t.stop (o :: os)) (ht : lo < t.start) :
    Row lo t.stop [.node .other (o.span.merge t) (o :: os) []] := by
  obtain ⟨hstart, hstop⟩ := h.within o List.mem_cons_self
  have hordered := (h.nested o List.mem_cons_self).ordered_span
  have hleft := Span.merge_start_le_left o.span t
  have hleft' := Span.left_le_merge_stop o.span t
  have hright := Span.right_le_merge_stop o.span t
  apply single
  · exact Span.lt_merge_start hstart ht
  · exact Span.merge_stop_le hstop le_rfl
  · apply h.node_cover
    · rw [List.forall_mem_cons]
      refine ⟨⟨hleft, hleft'⟩, fun p hp => ?_⟩
      have hbefore : o.span.stop < p.span.start := (List.pairwise_cons.mp h.sorted).1 p hp
      have hlast := (h.within p (List.mem_cons_of_mem o hp)).2
      exact ⟨by order, by order⟩
    · order

end Row

theorem nested_leaf {role : Role} {span : Span} (h : span.start ≤ span.stop) :
    (leaf role span).Nested :=
  (Row.nil span.start span.stop).node le_rfl le_rfl h

end Outline

/-! ### The outlines of trees -/

def Ident.outline (i : Ident) : Outline :=
  .leaf .other i.span

mutual

def TypeExpr.outline : TypeExpr → Outline
  | .basic s _ | .named s _ => .leaf .other s
  | .array s t | .chan s t | .future s t | .optional s t | .ref s _ t =>
    .node .other s [t.outline] []
  | .map s k v => .node .other s [k.outline, v.outline] []
  | .fn s params ret => .node .other s (typeOutlines params ++ [ret.outline]) []

def typeOutlines : List TypeExpr → List Outline
  | [] => []
  | t :: ts => t.outline :: typeOutlines ts

end

/-- The outline of something that may be left out. -/
def outlineIfAny {α : Type} (f : α → Outline) (a : Option α) : List Outline :=
  (a.map f).toList

def Param.outline (p : Param) : Outline :=
  .node .other p.span (p.name.outline :: outlineIfAny TypeExpr.outline p.type) []

/-- Signatures have no span of their own. -/
def Signature.outlines (sig : Signature) : List Outline :=
  sig.params.map Param.outline ++ outlineIfAny TypeExpr.outline sig.ret

def MethodHead.outline (m : MethodHead) : Outline :=
  .node .decl m.span (m.name.outline :: m.sig.outlines) []

def Import.outlines : Import → List Outline
  | .module newName => outlineIfAny Ident.outline newName
  | .named names => names.map Ident.outline
  | .wildcard => []

mutual

def Expr.outline : Expr → Outline
  | .int s _ | .float s _ | .string s _ | .char s _ | .bool s _ | .nil s | .ident s _ => .leaf .expr s
  | .interp s parts => .node .expr s (partOutlines parts) []
  | .array s es => .node .expr s (exprOutlines es) []
  | .map s es => .node .expr s (entryOutlines es) []
  | .call s callee args => .node .expr s (callee.outline :: exprOutlines args) []
  | .member s e name => .node .expr s [e.outline, name.outline] []
  | .index s e f | .binary s _ e f | .pipe s e f | .assign s _ e f =>
    .node .expr s [e.outline, f.outline] []
  | .unary s _ e | .borrow s _ e | .deref s e | .await s e | .paren s e =>
    .node .expr s [e.outline] []
  | .new s cls fields => .node .expr s (cls.outline :: initOutlines fields) []
  | .lambda s sig b => .node .expr s (sig.outlines ++ [b.outline]) []

def exprOutlines : List Expr → List Outline
  | [] => []
  | e :: es => e.outline :: exprOutlines es

def entryOutlines : List (Expr × Expr) → List Outline
  | [] => []
  | (k, v) :: es => k.outline :: v.outline :: entryOutlines es

def initOutlines : List (Ident × Expr) → List Outline
  | [] => []
  | (name, e) :: fields => name.outline :: e.outline :: initOutlines fields

def partOutlines : List Part → List Outline
  | [] => []
  | .text _ :: ps => partOutlines ps
  | .hole e :: ps => e.outline :: partOutlines ps

/-- A conditional or a block that is a statement is one node. -/
def Stmt.outline : Stmt → Outline
  | .bind s _ name type e =>
    .node .other s (name.outline :: outlineIfAny TypeExpr.outline type ++ [e.outline]) []
  | .fn s name sig b => .node .decl s (name.outline :: sig.outlines ++ [b.outline]) []
  | .ret s e => .node .other s (optionOutlines e) []
  | .brk s | .cont s => .leaf .other s
  | .cond c => c.outline
  | .forLoop s init test post b =>
    .node .other s (startOutlines init ++ optionOutlines test ++ optionOutlines post ++ [b.outline]) []
  | .forIn s item e b => .node .other s [item.outline, e.outline, b.outline] []
  | .whileLoop s e b => .node .other s [e.outline, b.outline] []
  | .loop s b => .node .other s [b.outline] []
  | .block b => b.outline
  | .classDecl s name fields methods =>
    .node .other s (name.outline :: fieldOutlines fields) (methodOutlines methods)
  | .interfaceDecl s name methods => .node .other s (name.outline :: methods.map MethodHead.outline) []
  | .implDecl s interface target methods =>
    .node .other s (interface.outline :: target.outline :: methodOutlines methods) []
  | .require s _ imports => .node .other s imports.outlines []
  | .expr s e => .node .other s [e.outline] []

def optionOutlines : Option Expr → List Outline
  | none => []
  | some e => [e.outline]

def startOutlines : Option Stmt → List Outline
  | none => []
  | some s => [s.outline]

def stmtOutlines : List Stmt → List Outline
  | [] => []
  | s :: ss => s.outline :: stmtOutlines ss

def Block.outline : Block → Outline
  | ⟨s, ss⟩ => .node .other s (stmtOutlines ss) []

def Conditional.outline : Conditional → Outline
  | ⟨s, test, b, rest⟩ => .node .other s (test.outline :: b.outline :: rest.outlines) []

def Otherwise.outlines : Otherwise → List Outline
  | .none => []
  | .block b => [b.outline]
  | .elseIf c => [c.outline]

def Field.outline : Field → Outline
  | ⟨name, type, e, s⟩ => .node .other s (name.outline :: type.outline :: optionOutlines e) []

def fieldOutlines : List Field → List Outline
  | [] => []
  | f :: fs => f.outline :: fieldOutlines fs

def Method.outline : Method → Outline
  | ⟨name, _, sig, b, s⟩ => .node .decl s (name.outline :: sig.outlines ++ [b.outline]) []

def methodOutlines : List Method → List Outline
  | [] => []
  | m :: ms => m.outline :: methodOutlines ms

end

theorem partOutlines_textPart (s : String) : partOutlines (Grammar.textPart s) = [] := by
  unfold Grammar.textPart
  split <;> rfl

theorem typeOutlines_eq (ts : List TypeExpr) :
    typeOutlines ts = ts.flatMap fun t => [t.outline] := by
  induction ts with
  | nil => rfl
  | cons t ts ih => rw [typeOutlines, ih, List.flatMap_cons, List.singleton_append]

theorem exprOutlines_eq (es : List Expr) : exprOutlines es = es.flatMap fun e => [e.outline] := by
  induction es with
  | nil => rfl
  | cons e es ih => rw [exprOutlines, ih, List.flatMap_cons, List.singleton_append]

theorem entryOutlines_eq (es : List (Expr × Expr)) :
    entryOutlines es = es.flatMap fun e => [e.1.outline, e.2.outline] := by
  induction es with
  | nil => rfl
  | cons e es ih => rw [entryOutlines, ih, List.flatMap_cons]; rfl

theorem initOutlines_eq (fields : List (Ident × Expr)) :
    initOutlines fields = fields.flatMap fun f => [f.1.outline, f.2.outline] := by
  induction fields with
  | nil => rfl
  | cons f fields ih => rw [initOutlines, ih, List.flatMap_cons]; rfl

theorem stmtOutlines_eq (ss : List Stmt) : stmtOutlines ss = ss.flatMap fun s => [s.outline] := by
  induction ss with
  | nil => rfl
  | cons s ss ih => rw [stmtOutlines, ih, List.flatMap_cons, List.singleton_append]

theorem fieldOutlines_eq (fs : List Field) : fieldOutlines fs = fs.map Field.outline := by
  induction fs with
  | nil => rfl
  | cons f fs ih => rw [fieldOutlines, ih, List.map_cons]

theorem methodOutlines_eq (ms : List Method) : methodOutlines ms = ms.map Method.outline := by
  induction ms with
  | nil => rfl
  | cons m ms ih => rw [methodOutlines, ih, List.map_cons]

theorem partOutlines_append (ps qs : List Part) :
    partOutlines (ps ++ qs) = partOutlines ps ++ partOutlines qs := by
  induction ps with
  | nil => rfl
  | cons p ps ih =>
    cases p with
    | text s => exact ih
    | hole e => exact congrArg (e.outline :: ·) ih

theorem Expr.span_outline (e : Expr) : e.outline.span = e.span := by
  cases e <;> rw [Expr.outline] <;> rfl

theorem Block.span_outline (b : Block) : b.outline.span = b.span := by
  cases b
  rw [Block.outline]
  rfl

def Program.outline (p : Program) : Outline :=
  .node .other p.span (stmtOutlines p.stmts) []

end CarvFront
