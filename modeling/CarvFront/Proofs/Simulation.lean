import CarvFront.Proofs.Congruence

/-! Two ways to keep track of moves and borrows side by side. Nothing but the answers to questions
about moves and borrows can make their findings differ; where the answers are the same, so are the
reports. -/
namespace CarvFront

/-- A relation between the records and findings of two walks that outlasts every step in which no
question is asked. -/
structure Tracking.Kept {τ₁ τ₂ : Type} [Tracking τ₁] [Tracking τ₂]
    (R : τ₁ → List Finding → τ₂ → List Finding → Prop) : Prop where
  report {a : τ₁} {b : τ₂} {x y : List Finding} (h : R a x b y) (fs : List Finding) :
    R a (fs ++ x) b (fs ++ y)
  enterFrame {a : τ₁} {b : τ₂} {x y : List Finding} (h : R a x b y) :
    R (Tracking.enterFrame a) x (Tracking.enterFrame b) y
  leaveFrame {a : τ₁} {b : τ₂} {x y : List Finding} (h : R a x b y) :
    R (Tracking.leaveFrame a) x (Tracking.leaveFrame b) y
  enterBlock {a : τ₁} {b : τ₂} {x y : List Finding} (h : R a x b y) :
    R (Tracking.enterBlock a) x (Tracking.enterBlock b) y
  leaveBlock {a : τ₁} {b : τ₂} {x y : List Finding} (h : R a x b y) :
    R (Tracking.leaveBlock a) x (Tracking.leaveBlock b) y
  bind {a : τ₁} {b : τ₂} {x y : List Finding} (h : R a x b y) (name : String) (ty : Ty) :
    R (Tracking.bind name ty a) x (Tracking.bind name ty b) y
  move {a : τ₁} {b : τ₂} {x y : List Finding} (h : R a x b y) (name : String) (site : MoveSite) :
    R (Tracking.move name site a) x (Tracking.move name site b) y

/-- The same state but for moves, borrows and findings, which are in relation. -/
structure State.Related {τ₁ τ₂ : Type} (R : τ₁ → List Finding → τ₂ → List Finding → Prop)
    (s₁ : State τ₁) (s₂ : State τ₂) : Prop where
  alike : s₁.Alike s₂
  types : s₁.types = s₂.types
  tracking : R s₁.tracking s₁.findings s₂.tracking s₂.findings

namespace State.Related
variable {τ₁ τ₂ : Type} [Tracking τ₁] [Tracking τ₂]
  {R : τ₁ → List Finding → τ₂ → List Finding → Prop} {s₁ : State τ₁} {s₂ : State τ₂}

theorem enterFrame (h : Related R s₁ s₂) (hR : Tracking.Kept R) (kind : ScopeKind) :
    Related R (s₁.enterFrame kind) (s₂.enterFrame kind) := by
  refine ⟨?_, h.types, hR.enterFrame h.tracking⟩
  exact congrArg (fun k : Knowledge => { k with scopes := k.scopes.push kind }) h.alike

theorem enterBlock (h : Related R s₁ s₂) (hR : Tracking.Kept R) :
    Related R s₁.enterBlock s₂.enterBlock := by
  refine ⟨?_, h.types, hR.enterBlock h.tracking⟩
  exact congrArg (fun k : Knowledge => { k with scopes := k.scopes.push .block }) h.alike

omit [Tracking τ₁] [Tracking τ₂] in
theorem expecting (h : Related R s₁ s₂) (expected : Option Ty) :
    Related R { s₁ with returns := expected :: s₁.returns }
      { s₂ with returns := expected :: s₂.returns } := by
  refine ⟨?_, h.types, h.tracking⟩
  exact congrArg (fun k : Knowledge => { k with returns := expected :: k.returns }) h.alike

end State.Related

namespace Check
variable {τ₁ τ₂ : Type} [Tracking τ₁] [Tracking τ₂]
  {R : τ₁ → List Finding → τ₂ → List Finding → Prop}

/-- Steps with the same result on related states. -/
def Related (R : τ₁ → List Finding → τ₂ → List Finding → Prop) ⦃α : Type⦄ (m₁ : Check τ₁ α)
    (m₂ : Check τ₂ α) : Prop :=
  ∀ s₁ s₂, State.Related R s₁ s₂ →
    (m₁.run s₁).1 = (m₂.run s₂).1 ∧ State.Related R (m₁.run s₁).2 (m₂.run s₂).2

theorem related_report (hR : Tracking.Kept R) (fs : List Finding) :
    Related R (report fs) (report fs) :=
  fun _ _ h => ⟨rfl, h.alike, h.types, hR.report h.tracking fs.reverse⟩

theorem related_demand (hR : Tracking.Kept R) (ok : Bool) (cause : Cause) (span : Span) :
    Related R (demand ok cause span) (demand ok cause span) := by
  cases ok with
  | true => exact fun _ _ h => ⟨rfl, h⟩
  | false => exact related_report hR _

/-- The questions about moves and borrows, after which two walks are still in relation. -/
structure Answered (R : τ₁ → List Finding → τ₂ → List Finding → Prop) : Prop where
  warnIfMoved (name : String) (span : Span) :
    Related R (warnIfMoved name span) (warnIfMoved name span)
  borrow (name : String) (mutable : Bool) (span : Span) :
    Related R (borrow name mutable span) (borrow name mutable span)
  demandFree (name : String) (span : Span) :
    Related R (demandFree name span) (demandFree name span)
  demandNoBorrows (span : Span) : Related R (demandNoBorrows span) (demandNoBorrows span)

/-- Every elementary step gives the same on both sides. -/
theorem related_congruence (hR : Tracking.Kept R) (hA : Answered R) : Congruence (Related R) where
  pure _ _ _ h := ⟨rfl, h⟩
  seq := fun {α β m₁ m₂ k₁ k₂} hm hk s₁ s₂ h => by
    obtain ⟨ha, hs⟩ := hm s₁ s₂ h
    have hrest := hk (m₁.run s₁).1 _ _ hs
    change ((k₁ (m₁.run s₁).1).run (m₁.run s₁).2).1 = ((k₂ (m₂.run s₂).1).run (m₂.run s₂).2).1 ∧
      State.Related R ((k₁ (m₁.run s₁).1).run (m₁.run s₁).2).2
        ((k₂ (m₂.run s₂).1).run (m₂.run s₂).2).2
    rw [← ha]
    exact hrest
  get hk s₁ s₂ h := hk s₁ s₂ h.alike.akin s₁ s₂ h
  kept span _ _ hk s₁ s₂ h := by
    have hkept : s₁.signature? span = s₂.signature? span := by
      simp only [State.signature?, h.alike.signatures]
    exact hk s₁ s₂ h.alike.akin hkept s₁ s₂ h
  report := related_report hR
  note span ty _ _ h := ⟨rfl, h.alike, congrArg ((span, ty) :: ·) h.types, h.tracking⟩
  signatures f _ _ h := by
    refine ⟨rfl, ?_, h.types, h.tracking⟩
    exact congrArg (fun k : Knowledge =>
      { k with declared := { k.declared with signatures := f k.declared.signatures } }) h.alike
  declare f _ _ h := by
    refine ⟨rfl, ?_, h.types, h.tracking⟩
    exact congrArg (fun k : Knowledge => { k with declared := f k.declared }) h.alike
  openNames _ _ h := by
    refine ⟨rfl, ?_, h.types, h.tracking⟩
    exact congrArg (fun k : Knowledge => { k with openNames := true }) h.alike
  bind name ty _ _ h := by
    refine ⟨rfl, ?_, h.types, hR.bind h.tracking name ty⟩
    exact congrArg (fun k : Knowledge =>
      { k with
        replaced :=
          if k.scopes.atGlobal && Builtin.isVariadic name then name :: k.replaced else k.replaced
        scopes := k.scopes.define name ty }) h.alike
  move name site _ _ h := ⟨rfl, h.alike, h.types, hR.move h.tracking name site⟩
  warnIfMoved := hA.warnIfMoved
  borrow := hA.borrow
  demandFree := hA.demandFree
  demandNoBorrows := hA.demandNoBorrows
  inFrame := fun kind m₁ m₂ hm s₁ s₂ h => by
    obtain ⟨-, hout⟩ := hm _ _ (h.enterFrame hR kind)
    refine ⟨rfl, ?_, hout.types, hR.leaveFrame hout.tracking⟩
    exact congrArg (fun k : Knowledge => { k with scopes := k.scopes.pop }) hout.alike
  inBlock hm s₁ s₂ h := by
    obtain ⟨-, hout⟩ := hm _ _ (h.enterBlock hR)
    refine ⟨rfl, ?_, hout.types, hR.leaveBlock hout.tracking⟩
    exact congrArg (fun k : Knowledge => { k with scopes := k.scopes.pop }) hout.alike
  returning := fun expected m₁ m₂ hm s₁ s₂ h => by
    obtain ⟨-, hout⟩ := hm _ _ (h.expecting expected)
    refine ⟨rfl, ?_, hout.types, hout.tracking⟩
    exact congrArg (fun k : Knowledge => { k with returns := k.returns.tail }) hout.alike

/-- Walks that start in relation end in relation. -/
theorem related_finalState (hR : Tracking.Kept R) (hA : Answered R)
    (hstart : R Tracking.empty [] Tracking.empty []) (p : Program) :
    State.Related R (p.finalState τ₁) (p.finalState τ₂) :=
  ((related_congruence hR hA).program p .start .start ⟨rfl, rfl, hstart⟩).2

end Check

/-! ### The same answers -/

/-- A relation between two ways to keep track that every operation keeps, and under which every
question has one answer. -/
structure Tracking.Simulation {τ₁ τ₂ : Type} [Tracking τ₁] [Tracking τ₂] (R : τ₁ → τ₂ → Prop) :
    Prop where
  empty : R Tracking.empty Tracking.empty
  enterFrame {a : τ₁} {b : τ₂} (h : R a b) : R (Tracking.enterFrame a) (Tracking.enterFrame b)
  leaveFrame {a : τ₁} {b : τ₂} (h : R a b) : R (Tracking.leaveFrame a) (Tracking.leaveFrame b)
  enterBlock {a : τ₁} {b : τ₂} (h : R a b) : R (Tracking.enterBlock a) (Tracking.enterBlock b)
  leaveBlock {a : τ₁} {b : τ₂} (h : R a b) : R (Tracking.leaveBlock a) (Tracking.leaveBlock b)
  bind {a : τ₁} {b : τ₂} (h : R a b) (name : String) (ty : Ty) :
    R (Tracking.bind name ty a) (Tracking.bind name ty b)
  move {a : τ₁} {b : τ₂} (h : R a b) (name : String) (site : MoveSite) :
    R (Tracking.move name site a) (Tracking.move name site b)
  movedAt? {a : τ₁} {b : τ₂} (h : R a b) (name : String) :
    Tracking.movedAt? a name = Tracking.movedAt? b name
  borrow {a : τ₁} {b : τ₂} (h : R a b) (name : String) (mutable : Bool) :
    (Tracking.borrow name mutable a).1 = (Tracking.borrow name mutable b).1 ∧
      R (Tracking.borrow name mutable a).2 (Tracking.borrow name mutable b).2
  isBorrowed {a : τ₁} {b : τ₂} (h : R a b) (name : String) :
    Tracking.isBorrowed a name = Tracking.isBorrowed b name
  borrowed {a : τ₁} {b : τ₂} (h : R a b) : Tracking.borrowed a = Tracking.borrowed b

namespace Tracking.Simulation
variable {τ₁ τ₂ : Type} [Tracking τ₁] [Tracking τ₂] {R : τ₁ → τ₂ → Prop}

theorem kept (hR : Tracking.Simulation R) :
    Tracking.Kept fun (a : τ₁) x (b : τ₂) y => R a b ∧ x = y where
  report h fs := ⟨h.1, congrArg (fs ++ ·) h.2⟩
  enterFrame h := ⟨hR.enterFrame h.1, h.2⟩
  leaveFrame h := ⟨hR.leaveFrame h.1, h.2⟩
  enterBlock h := ⟨hR.enterBlock h.1, h.2⟩
  leaveBlock h := ⟨hR.leaveBlock h.1, h.2⟩
  bind h name ty := ⟨hR.bind h.1 name ty, h.2⟩
  move h name site := ⟨hR.move h.1 name site, h.2⟩

theorem answered (hR : Tracking.Simulation R) :
    Check.Answered fun (a : τ₁) x (b : τ₂) y => R a b ∧ x = y where
  warnIfMoved name span s₁ s₂ h := by
    rw [Check.run_warnIfMoved, Check.run_warnIfMoved, hR.movedAt? h.tracking.1]
    exact Check.related_report hR.kept _ s₁ s₂ h
  borrow name mutable span s₁ s₂ h := by
    obtain ⟨hc, ht⟩ := hR.borrow h.tracking.1 name mutable
    rw [Check.run_borrow, Check.run_borrow, hR.movedAt? h.tracking.1, hc]
    split
    · exact Check.related_report hR.kept _ s₁ s₂ h
    · exact Check.related_report hR.kept _ _ _ ⟨h.alike, h.types, ht, h.tracking.2⟩
  demandFree name span s₁ s₂ h := by
    rw [Check.run_demandFree, Check.run_demandFree, hR.isBorrowed h.tracking.1]
    exact Check.related_demand hR.kept _ _ _ s₁ s₂ h
  demandNoBorrows span s₁ s₂ h := by
    rw [Check.run_demandNoBorrows, Check.run_demandNoBorrows, hR.borrowed h.tracking.1]
    exact Check.related_demand hR.kept _ _ _ s₁ s₂ h

end Tracking.Simulation
end CarvFront
