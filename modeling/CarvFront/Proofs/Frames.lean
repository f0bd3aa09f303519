import CarvFront.Proofs.Snapshots
import CarvFront.Proofs.Congruence

/-! Frames and blocks leave no trace. Whatever a loop or the body of a function binds, moves or
borrows is gone when it is left; a block keeps only what it moved. -/
namespace CarvFront

/-- The places that leaving a region goes back to: in the moves, if it does, and in the borrows. -/
def Region.marks : Region → Option Checkpoint × Checkpoint
  | .frame o b => (some o, b)
  | .block b _ => (none, b)

/-- The records that the bindings of a block hide. -/
def Region.hidden? : Region → Option (List (String × Option Holding))
  | .frame _ _ => none
  | .block _ hidden => some hidden

/-- The hidden records of all blocks around, the innermost first. -/
def Custody.shadowed (c : Custody) : List (List (String × Option Holding)) :=
  c.regions.filterMap Region.hidden?

/-- What a step of a walk may change: the names of the innermost scope, what is moved and borrowed,
and what the innermost block hides. Where a frame is open, the changes can be undone. -/
structure Custody.Extends (c c' : Custody) : Prop where
  ownership : c.ownership.records.Extends c'.ownership.records
  borrows : c.borrows.loans.Extends c'.borrows.loans
  marks : c'.regions.map Region.marks = c.regions.map Region.marks

namespace Custody
variable {c c' : Custody}

theorem Extends.refl (c : Custody) : c.Extends c :=
  ⟨.refl _, .refl _, rfl⟩

theorem Extends.trans {a b : Custody} (h : a.Extends b) (h' : b.Extends c) : a.Extends c :=
  ⟨h.ownership.trans h'.ownership, h.borrows.trans h'.borrows, h'.marks.trans h.marks⟩

theorem marks_hide (c : Custody) (name : String) (regions : List Region) :
    (c.hide name regions).map Region.marks = regions.map Region.marks := by
  unfold hide
  split
  · split <;> rfl
  · rfl

theorem extends_track (o : Ownership) (name : String) (ty : Ty) :
    o.records.Extends (o.track name ty).records := by
  unfold Ownership.track
  split
  · exact (Journal.changed_insert _ _ _).extends
  · exact (Journal.changed_erase _ _).extends

theorem extends_restore (o : Ownership) (name : String) (record : Option Holding) :
    o.records.Extends (o.restore name record).records := by
  cases record with
  | some h => exact (Journal.changed_insert _ _ _).extends
  | none => exact (Journal.changed_erase _ _).extends

theorem extends_restoreAll (hidden : List (String × Option Holding)) (o : Ownership) :
    o.records.Extends (hidden.foldl (fun o (name, record) => o.restore name record) o).records := by
  induction hidden generalizing o with
  | nil => exact .refl _
  | cons e hidden ih => exact (extends_restore o e.1 e.2).trans (ih _)

theorem extends_bind (c : Custody) (name : String) (ty : Ty) : c.Extends (c.bind name ty) :=
  ⟨extends_track _ _ _, .refl _, marks_hide _ _ _⟩

theorem extends_move (c : Custody) (name : String) (site : MoveSite) :
    c.Extends (c.move name site) := by
  refine ⟨?_, .refl _, rfl⟩
  unfold move Ownership.markMoved
  split
  · exact (Journal.changed_insert _ _ _).extends
  · exact .refl _

theorem extends_borrow (c : Custody) (name : String) (mutable : Bool) :
    c.Extends (c.borrow name mutable).2 := by
  refine ⟨.refl _, ?_, rfl⟩
  have hupdate (j : Journal Loans) : j.Extends (j.update name (·.add mutable)).2 :=
    (Journal.changed_update _ _ _).extends
  change c.borrows.loans.Extends
    ((if c.borrows.loans.contains name then c.borrows.loans
      else c.borrows.loans.insert name .none).update name (·.add mutable)).2
  split
  · exact hupdate _
  · exact (Journal.changed_insert _ _ _).extends.trans (hupdate _)

/-- Leaving a frame gives back what was there when it was entered. -/
theorem leaveFrame_restores (h : c.enterFrame.Extends c') :
    c'.leaveFrame.ownership = c.ownership ∧ c'.leaveFrame.borrows = c.borrows ∧
      c'.leaveFrame.regions.map Region.marks = c.regions.map Region.marks := by
  obtain ⟨ho, hb, hm⟩ := h
  obtain ⟨ownership, borrows, regions⟩ := c'
  cases regions with
  | nil => cases hm
  | cons r regions =>
    cases r with
    | block b hidden => cases (List.cons.inj hm).1
    | frame o b =>
      obtain ⟨hr, hrest⟩ := List.cons.inj hm
      cases hr
      refine ⟨?_, ?_, hrest⟩
      · exact congrArg Ownership.mk ho.pop_push
      · exact congrArg Borrows.mk hb.pop_push

/-- Leaving a block gives back the borrows, and a frame around can still undo its moves. -/
theorem leaveBlock_restores (h : c.enterBlock.Extends c') :
    c'.leaveBlock.borrows = c.borrows ∧ c.Extends c'.leaveBlock := by
  obtain ⟨ho, hb, hm⟩ := h
  obtain ⟨ownership, borrows, regions⟩ := c'
  cases regions with
  | nil => cases hm
  | cons r regions =>
    cases r with
    | frame o b => cases (List.cons.inj hm).1
    | block b hidden =>
      obtain ⟨hr, hrest⟩ := List.cons.inj hm
      cases hr
      have hborrows : borrows.pop c.borrows.loans.push.1 = c.borrows :=
        congrArg Borrows.mk hb.pop_push
      refine ⟨hborrows, ho.trans (extends_restoreAll hidden ownership), ?_, hrest⟩
      change c.borrows.loans.Extends (borrows.pop c.borrows.loans.push.1).loans
      rw [hborrows]
      exact .refl _

theorem length_shadowed (h : c.Extends c') : c'.shadowed.length = c.shadowed.length := by
  have hblock (r : Region) : r.hidden?.isSome = r.marks.1.isNone := by
    cases r <;> rfl
  have hcount (regions : List Region) :
      (regions.filterMap Region.hidden?).length =
        (regions.map Region.marks).countP fun m => m.1.isNone := by
    rw [List.length_filterMap_eq_countP, List.countP_map]
    exact List.countP_congr fun r _ => by rw [Function.comp, hblock]
  rw [shadowed, shadowed, hcount, hcount, h.marks]

end Custody

/-- What a step of a walk leaves alone: the scopes around the innermost one, and what the functions
around have to return. -/
structure State.Extends (s s' : State Custody) : Prop where
  outer : s'.scopes.outer = s.scopes.outer
  kind : s'.scopes.inner.kind = s.scopes.inner.kind
  returns : s'.returns = s.returns
  tracking : s.tracking.Extends s'.tracking

/-- Scopes, moves and borrows are what they were. -/
structure State.Restored (s s' : State Custody) : Prop where
  scopes : s'.scopes = s.scopes
  ownership : s'.tracking.ownership = s.tracking.ownership
  borrows : s'.tracking.borrows = s.tracking.borrows

namespace State

theorem Extends.refl (s : State Custody) : s.Extends s :=
  ⟨rfl, rfl, rfl, .refl _⟩

theorem Extends.trans {a b c : State Custody} (h : a.Extends b) (h' : b.Extends c) : a.Extends c :=
  ⟨h'.outer.trans h.outer, h'.kind.trans h.kind, h'.returns.trans h.returns,
    h.tracking.trans h'.tracking⟩

/-- How many functions are around, and how many blocks. -/
def heights (s : State Custody) : Nat × Nat :=
  (s.returns.length, s.tracking.shadowed.length)

theorem Extends.heights {s s' : State Custody} (h : s.Extends s') : s'.heights = s.heights := by
  rw [State.heights, State.heights, h.returns, Custody.length_shadowed h.tracking]

theorem pop_eq_of_extends {scopes : Scopes} {kind : ScopeKind} {scopes' : Scopes}
    (h : scopes'.outer = (scopes.push kind).outer) : scopes'.pop = scopes := by
  unfold Scopes.pop
  rw [h]
  rfl

end State

namespace Check
variable {τ : Type} {m m' : Check Custody Unit}

/-- What is known after a step. -/
def after {τ α : Type} (m : Check τ α) (s : State τ) : State τ :=
  (m.run s).2

theorem after_bind {α β : Type} (m : Check τ α) (k : α → Check τ β) (s : State τ) :
    (m >>= k).after s = (k (m.run s).1).after (m.after s) :=
  rfl

theorem after_get {α : Type} (k : State τ → Check τ α) (s : State τ) :
    (get >>= k).after s = (k s).after s :=
  rfl

/-- What every report, move and borrow keeps to, the elementary steps of expressions keep to. -/
theorem calm_of_states [Tracking τ] {R : State τ → State τ → Prop} (refl : ∀ s, R s s)
    (trans : ∀ {s s' s''}, R s s' → R s' s'' → R s s'')
    (reported : ∀ s fs ts, R s { s with findings := fs ++ s.findings, types := ts })
    (moved : ∀ s name site, R s { s with tracking := Tracking.move name site s.tracking })
    (borrowed : ∀ s name mutable,
      R s { s with tracking := (Tracking.borrow name mutable s.tracking).2 }) :
    Calm fun ⦃α⦄ (m _ : Check τ α) => ∀ s, R s (m.after s) := by
  have hreport (fs : List Finding) (s : State τ) : R s ((report fs).after s) :=
    reported s fs.reverse s.types
  have hdemand (ok : Bool) (cause : Cause) (span : Span) (s : State τ) :
      R s ((demand ok cause span).after s) := by
    rw [demand_eq_report]
    exact hreport _ s
  exact
    { pure := fun _ => refl
      seq := fun hm hk s => trans (hm s) (hk _ _)
      get := fun hk s => hk s s (.refl s) s
      report := hreport
      note := fun span ty s => reported s [] ((span, ty) :: s.types)
      move := fun name site s => moved s name site
      warnIfMoved := fun name span s => by
        rw [after, run_warnIfMoved]
        exact hreport _ s
      borrow := fun name mutable span s => by
        rw [after, run_borrow]
        split
        · exact hreport _ s
        · exact trans (borrowed s name mutable) (hreport _ _)
      demandFree := fun name span s => hdemand _ _ span s
      demandNoBorrows := fun span s => hdemand _ _ span s }

/-- A step that changes no more than it may. -/
def Contained ⦃α : Type⦄ (m _ : Check Custody α) : Prop :=
  ∀ s : State Custody, s.Extends (m.after s)

/-- In a frame nothing lasts. -/
theorem Contained.inFrame_restores (hm : Contained m m') (kind : ScopeKind) (s : State Custody) :
    s.Restored ((inFrame kind m).after s) := by
  have h := hm (s.enterFrame kind)
  obtain ⟨ho, hb, -⟩ := Custody.leaveFrame_restores h.tracking
  exact ⟨State.pop_eq_of_extends h.outer, ho, hb⟩

theorem Contained.inFrame (hm : Contained m m') (kind : ScopeKind) :
    Contained (inFrame kind m) (inFrame kind m') := by
  intro s
  have h := hm (s.enterFrame kind)
  obtain ⟨hs, ho, hb⟩ := hm.inFrame_restores kind s
  refine ⟨congrArg Scopes.outer hs, congrArg (·.inner.kind) hs, h.returns, ?_⟩
  refine ⟨?_, ?_, (Custody.leaveFrame_restores h.tracking).2.2⟩
  · exact ho ▸ .refl _
  · exact hb ▸ .refl _

/-- A block has its own names and borrows. -/
theorem Contained.inBlock_restores (hm : Contained m m') (s : State Custody) :
    ((inBlock m).after s).scopes = s.scopes ∧
      ((inBlock m).after s).tracking.borrows = s.tracking.borrows := by
  have h := hm s.enterBlock
  exact ⟨State.pop_eq_of_extends h.outer, (Custody.leaveBlock_restores h.tracking).1⟩

theorem Contained.inBlock (hm : Contained m m') : Contained (inBlock m) (inBlock m') := by
  intro s
  have h := hm s.enterBlock
  obtain ⟨hs, -⟩ := hm.inBlock_restores s
  exact ⟨congrArg Scopes.outer hs, congrArg (·.inner.kind) hs, h.returns,
    (Custody.leaveBlock_restores h.tracking).2⟩

/-- Every elementary step changes no more than it may. -/
theorem contained_congruence : Congruence Contained where
  toCalm := calm_of_states .refl .trans (fun _ _ _ => ⟨rfl, rfl, rfl, .refl _⟩)
    (fun _ _ _ => ⟨rfl, rfl, rfl, Custody.extends_move _ _ _⟩)
    (fun _ _ _ => ⟨rfl, rfl, rfl, Custody.extends_borrow _ _ _⟩)
  kept _ _ _ hk s := hk s s (.refl s) rfl s
  signatures _ _ := ⟨rfl, rfl, rfl, .refl _⟩
  declare _ _ := ⟨rfl, rfl, rfl, .refl _⟩
  openNames _ := ⟨rfl, rfl, rfl, .refl _⟩
  bind _ _ _ := ⟨rfl, rfl, rfl, Custody.extends_bind _ _ _⟩
  inFrame := fun kind _ _ hm => hm.inFrame kind
  inBlock hm := hm.inBlock
  returning := fun expected _ _ hm s => by
    obtain ⟨ho, hk, hr, ht⟩ := hm { s with returns := expected :: s.returns }
    exact ⟨ho, hk, congrArg List.tail hr, ht⟩

/-! ### Frame discipline -/

theorem function_restores (sig : Signature) (f : FnTy) (self? : Option Ty) (b : Block)
    (s : State Custody) : s.Restored ((function sig f self? (body b)).after s) := by
  have hbody := contained_congruence.body b
  have hinner := contained_congruence.seq (contained_congruence.bindAll sig.params f.params)
    fun _ => contained_congruence.returning (f.expected? sig) hbody
  cases self? with
  | none => exact hinner.inFrame_restores _ s
  | some ty =>
    have hself := contained_congruence.seq (contained_congruence.bind "self" ty) fun _ => hinner
    exact hself.inFrame_restores _ s

theorem declaredSignature_restores (span : Span) (sig : Signature) (s : State Custody) :
    s.Restored ((declaredSignature span sig).after s) := by
  rw [Check.after, declaredSignature, StateT.run_bind, StateT.run_get, pure_bind]
  dsimp only
  cases s.signature? span with
  | some f => exact ⟨rfl, rfl, rfl⟩
  | none => exact ⟨rfl, rfl, rfl⟩

/-- A declared function leaves its name, and no record under it: functions are not given away. -/
theorem fn_leaves_name (span : Span) (name : Ident) (sig : Signature) (b : Block)
    (s : State Custody) :
    ∃ f : FnTy,
      ((stmt (.fn span name sig b)).after s).scopes = s.scopes.define name.name f.toTy ∧
      ((stmt (.fn span name sig b)).after s).tracking.ownership.records.entries =
        s.tracking.ownership.records.entries.erase name.name ∧
      ((stmt (.fn span name sig b)).after s).tracking.borrows = s.tracking.borrows := by
  let f := ((declaredSignature span sig : Check Custody FnTy).run s).1
  let s₁ := (declaredSignature span sig : Check Custody FnTy).after s
  have hs₁ : s.Restored s₁ := declaredSignature_restores span sig s
  have hbody : (s₁.bind name.name f.toTy).Restored
      ((function sig f none (body b)).after (s₁.bind name.name f.toTy)) :=
    function_restores sig f none b _
  have hafter : (stmt (.fn span name sig b)).after s =
      (function sig f none (body b)).after (s₁.bind name.name f.toTy) := by
    rw [stmt]
    rfl
  rw [hafter]
  refine ⟨f, ?_, ?_, ?_⟩
  · rw [hbody.scopes, ← hs₁.scopes]
    rfl
  · rw [hbody.ownership, ← hs₁.ownership]
    exact Journal.entries_erase _ _
  · rw [hbody.borrows, ← hs₁.borrows]
    rfl

/-- Loops, lambdas and the bodies of functions and methods leave scopes, moves and borrows as they
were, and a declared function adds its name only. A block restores scopes and borrows. After every
statement and every expression as many functions and blocks are around as before. -/
theorem frame_discipline (s : State Custody) :
    (∀ span test b, s.Restored ((stmt (.whileLoop span test b)).after s)) ∧
    (∀ span b, s.Restored ((stmt (.loop span b)).after s)) ∧
    (∀ span init test post b, s.Restored ((stmt (.forLoop span init test post b)).after s)) ∧
    (∀ span item e b, s.Restored ((stmt (.forIn span item e b)).after s)) ∧
    (∀ span sig b, s.Restored ((expr (.lambda span sig b)).after s)) ∧
    (∀ sig f self? b, s.Restored ((function sig f self? (body b)).after s)) ∧
    (∀ span name sig b, ∃ f : FnTy,
      ((stmt (.fn span name sig b)).after s).scopes = s.scopes.define name.name f.toTy ∧
      ((stmt (.fn span name sig b)).after s).tracking.ownership.records.entries =
        s.tracking.ownership.records.entries.erase name.name ∧
      ((stmt (.fn span name sig b)).after s).tracking.borrows = s.tracking.borrows) ∧
    (∀ b, ((stmt (.block b)).after s).scopes = s.scopes ∧
      ((stmt (.block b)).after s).tracking.borrows = s.tracking.borrows) ∧
    (∀ st : Stmt, ((stmt st).after s).heights = s.heights) ∧
    (∀ e : Expr, ((expr e).after s).heights = s.heights) := by
  have h := contained_congruence
  refine ⟨?_, ?_, ?_, ?_, ?_, ?_, ?_, ?_, ?_, ?_⟩
  · intro span test b
    rw [stmt]
    have hm := h.seq (h.expr test) fun ty =>
      h.seq (h.demand (ty.fits .bool) (.conditionNotBool .whileStmt ty) test.span) fun _ => h.block b
    exact hm.inFrame_restores .loop s
  · intro span b
    rw [stmt]
    exact (h.block b).inFrame_restores .loop s
  · intro span init test post b
    rw [stmt]
    have hm := h.seq (h.loopInit init) fun _ => h.seq (h.loopTest test) fun _ =>
      h.seq (h.block b) fun _ => h.loopPost post
    exact hm.inFrame_restores .loop s
  · intro span item e b
    rw [stmt]
    exact Contained.inFrame_restores
      (h.seq (h.expr e) fun ty => h.seq (h.bind item.name _) fun _ => h.block b) .loop s
  · intro span sig b
    rw [expr]
    let s₁ := (signature sig : Check Custody FnTy).after s
    have hf := function_restores sig ((signature sig : Check Custody FnTy).run s).1 none b s₁
    exact ⟨hf.scopes, hf.ownership, hf.borrows⟩
  · intro sig f self? b
    exact function_restores sig f self? b s
  · intro span name sig b
    exact fn_leaves_name span name sig b s
  · intro b
    rw [stmt]
    obtain ⟨bspan, ss⟩ := b
    rw [block]
    exact (h.stmts ss).inBlock_restores s
  · intro st
    exact (h.stmt st s).heights
  · intro e
    exact (h.expr e s).heights

end Check
end CarvFront
