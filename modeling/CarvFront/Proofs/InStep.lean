import CarvFront.Grammar.Program
import CarvFront.Proofs.Visits

/-! Scopes and ownership stay in step: at every point of a program exactly the names that stand for a
value to give away have a record. So no name of any other type is ever warned about. -/
namespace CarvFront

/-- Whether the first of some scopes that binds a name binds it to a value that can be given away. -/
def Scope.gives (scopes : List Scope) (name : String) : Bool :=
  (scopes.findSome? fun scope => scope.names.find? name).any Ty.isMove

/-- Exactly the names whose visible binding has a type that is given away have a record. -/
def State.InStep (s : State Custody) : Prop :=
  ∀ name, (s.tracking.ownership.state? name).isSome ↔
    ∃ ty, s.scopes.lookup name = some ty ∧ ty.category = .move

/-- A block hides records of the code around it, of all names that are bound in it. -/
structure Scopes.Hides (s : Scopes) (hidden : List (String × Option Holding)) : Prop where
  own : ∀ name, name ∉ hidden.map Prod.fst → s.inner.names.find? name = none
  outer : ∀ e ∈ hidden, e.2.isSome = Scope.gives s.outer e.1

/-- Scopes and records are in step, and will be again when the innermost block is left. -/
structure State.Balanced (s : State Custody) : Prop where
  records : ∀ name, (s.tracking.ownership.state? name).isSome = Scope.gives s.scopes.toList name
  block : ∀ b hidden regions, s.tracking.regions = .block b hidden :: regions →
    s.scopes.Hides hidden

/-! ### Records -/

namespace Ownership

theorem state?_restore (o : Ownership) (name other : String) (record : Option Holding) :
    (o.restore name record).state? other = if name = other then record else o.state? other := by
  cases record with
  | some h =>
    rw [restore, state?, Journal.find?, Journal.entries_insert, Table.find?_insert]
    rfl
  | none =>
    rw [restore, state?, Journal.find?, Journal.entries_erase, Table.find?_erase]
    rfl

theorem isSome_track (o : Ownership) (name other : String) (ty : Ty) :
    ((o.track name ty).state? other).isSome =
      if name = other then ty.isMove else (o.state? other).isSome := by
  unfold track Ty.isMove
  cases ty.category with
  | move =>
    change ((o.restore name (some .owned)).state? other).isSome = _
    rw [state?_restore]
    split <;> rfl
  | copy =>
    change ((o.restore name none).state? other).isSome = _
    rw [state?_restore]
    split <;> rfl

theorem isSome_markMoved (o : Ownership) (name other : String) (line : Nat) (destination : String) :
    ((o.markMoved name line destination).2.state? other).isSome = (o.state? other).isSome := by
  unfold markMoved
  split
  · next h =>
    change ((o.restore name (some _)).state? other).isSome = _
    rw [state?_restore]
    split
    · next heq =>
      rw [← heq, state?, h]
      rfl
    · rfl
  · rfl

/-- When all that was hidden comes back, what it tells of a name is what is told of it outside. -/
theorem isSome_restoreAll {outside : String → Bool} {hidden : List (String × Option Holding)}
    (hh : ∀ e ∈ hidden, e.2.isSome = outside e.1) (name : String) {o : Ownership}
    (ho : name ∉ hidden.map Prod.fst → (o.state? name).isSome = outside name) :
    ((hidden.foldl (fun o (name, record) => o.restore name record) o).state? name).isSome =
      outside name := by
  induction hidden generalizing o with
  | nil => exact ho List.not_mem_nil
  | cons e hidden ih =>
    apply ih fun e' he' => hh e' (List.mem_cons_of_mem e he')
    intro hn
    rw [state?_restore]
    split
    · next heq => rw [← heq, hh e List.mem_cons_self]
    · next hne => exact ho (mt List.mem_cons.mp (not_or.mpr ⟨Ne.symm hne, hn⟩))

end Ownership

/-! ### Steps -/

namespace Custody

theorem regions_leaveFrame {c c' : Custody} (h : c.enterFrame.Extends c')
    (ht : c'.regions.tail = c.regions) : c'.leaveFrame.regions = c.regions := by
  obtain ⟨ownership, borrows, regions⟩ := c'
  cases regions with
  | nil => cases h.marks
  | cons r regions =>
    cases r with
    | block b hidden => cases (List.cons.inj h.marks).1
    | frame o b => exact ht

/-- A block that is left gives back what it hides. -/
theorem exists_hidden {c c' : Custody} (h : c.enterBlock.Extends c')
    (ht : c'.regions.tail = c.regions) :
    ∃ b hidden, c'.regions = .block b hidden :: c.regions ∧ c'.leaveBlock.regions = c.regions ∧
      c'.leaveBlock.ownership =
        hidden.foldl (fun o (name, record) => o.restore name record) c'.ownership := by
  obtain ⟨ownership, borrows, regions⟩ := c'
  cases regions with
  | nil => cases h.marks
  | cons r regions =>
    cases r with
    | frame o b => cases (List.cons.inj h.marks).1
    | block b hidden => exact ⟨b, hidden, congrArg _ ht, ht, rfl⟩

theorem tail_hide (c : Custody) (name : String) (regions : List Region) :
    (c.hide name regions).tail = regions.tail := by
  unfold hide
  split
  · split <;> rfl
  · rfl

end Custody

namespace Scope

theorem gives_define (s : Scopes) (name other : String) (ty : Ty) :
    gives (s.define name ty).toList other =
      if name = other then ty.isMove else gives s.toList other := by
  have h := s.lookup_define name other ty
  unfold gives
  unfold Scopes.lookup at h
  rw [h]
  split <;> rfl

/-- A name that the innermost scope does not bind is the same as around it. -/
theorem gives_of_absent {s : Scopes} {name : String} (h : s.inner.names.find? name = none) :
    gives s.toList name = gives s.outer name := by
  unfold gives Scopes.toList
  rw [List.findSome?_cons, h]

end Scope

namespace Scopes

/-- A name that was hidden before is bound again. -/
theorem Hides.define {s : Scopes} {hidden : List (String × Option Holding)} (h : s.Hides hidden)
    {name : String} (hm : name ∈ hidden.map Prod.fst) (ty : Ty) : (s.define name ty).Hides hidden := by
  refine ⟨fun other hother => ?_, h.outer⟩
  have hne : name ≠ other := fun heq => hother (heq ▸ hm)
  change (s.inner.names.insert name ty).find? other = none
  rw [Table.find?_insert, if_neg hne]
  exact h.own other hother

/-- A name is hidden when it is bound for the first time. -/
theorem Hides.add {s : Scopes} {hidden : List (String × Option Holding)} (h : s.Hides hidden)
    {name : String} {record : Option Holding} (hr : record.isSome = Scope.gives s.outer name) :
    s.Hides (hidden ++ [(name, record)]) := by
  constructor
  · intro other hother
    rw [List.map_append] at hother
    exact h.own other (mt (List.mem_append_left _) hother)
  · intro e he
    rcases List.mem_append.mp he with he | he
    · exact h.outer e he
    · rw [List.mem_singleton.mp he]
      exact hr

end Scopes

namespace State
variable {s : State Custody}

theorem Balanced.inStep (h : s.Balanced) : s.InStep := by
  intro name
  rw [h.records name, Scope.gives, Option.any_eq_true]
  simp [Scopes.lookup, Ty.isMove]

/-- Scopes, records and hidden records alone decide. -/
theorem Balanced.congr {s' : State Custody} (h : s.Balanced) (hs : s'.scopes = s.scopes)
    (ho : s'.tracking.ownership = s.tracking.ownership)
    (hr : s'.tracking.regions = s.tracking.regions) : s'.Balanced := by
  constructor
  · rw [hs, ho]
    exact h.records
  · rw [hs, hr]
    exact h.block

theorem Balanced.bind (h : s.Balanced) (name : String) (ty : Ty) : (s.bind name ty).Balanced := by
  constructor
  · intro other
    change ((s.tracking.ownership.track name ty).state? other).isSome =
      Scope.gives (s.scopes.define name ty).toList other
    rw [Ownership.isSome_track, Scope.gives_define, h.records other]
  · intro b hidden regions hr
    change s.tracking.hide name s.tracking.regions = _ at hr
    cases hold : s.tracking.regions with
    | nil => rw [hold] at hr; cases hr
    | cons r rest =>
      cases r with
      | frame o b' => rw [hold] at hr; cases hr
      | block b' before =>
        have hb := h.block b' before rest hold
        rw [hold, Custody.hide] at hr
        split at hr
        · next hany =>
          obtain ⟨e, he, heq⟩ := List.any_eq_true.mp hany
          cases hr
          exact hb.define (List.mem_map.mpr ⟨e, he, of_decide_eq_true heq⟩) ty
        · next hany =>
          cases hr
          have hnew : name ∉ before.map Prod.fst := by
            intro hm
            obtain ⟨e, he, heq⟩ := List.mem_map.mp hm
            exact hany (List.any_eq_true.mpr ⟨e, he, decide_eq_true heq⟩)
          have hrecord := (h.records name).trans (Scope.gives_of_absent (hb.own name hnew))
          exact (hb.add hrecord).define (by simp) ty

theorem Balanced.enterFrame (h : s.Balanced) (kind : ScopeKind) : (s.enterFrame kind).Balanced := by
  constructor
  · exact h.records
  · intro b hidden regions hr
    cases hr

theorem Balanced.enterBlock (h : s.Balanced) : s.enterBlock.Balanced := by
  constructor
  · exact h.records
  · intro b hidden regions hr
    cases hr
    refine ⟨fun name _ => Table.find?_empty name, fun e he => ?_⟩
    cases he

/-- What a step of a walk leaves alone, and that it keeps scopes and records in step. -/
structure Evens (s s' : State Custody) : Prop where
  kept : s.Extends s'
  around : s'.tracking.regions.tail = s.tracking.regions.tail
  balanced : s.Balanced → s'.Balanced

namespace Evens

theorem refl (s : State Custody) : s.Evens s :=
  ⟨.refl s, rfl, id⟩

theorem trans {a b c : State Custody} (h : a.Evens b) (h' : b.Evens c) : a.Evens c :=
  ⟨h.kept.trans h'.kept, h'.around.trans h.around, fun ha => h'.balanced (h.balanced ha)⟩

theorem bind (s : State Custody) (name : String) (ty : Ty) : s.Evens (s.bind name ty) :=
  ⟨⟨rfl, rfl, rfl, Custody.extends_bind _ _ _⟩, Custody.tail_hide _ _ _, fun h => h.bind name ty⟩

theorem move (s : State Custody) (name : String) (site : MoveSite) :
    s.Evens { s with tracking := s.tracking.move name site } := by
  refine ⟨⟨rfl, rfl, rfl, Custody.extends_move _ _ _⟩, rfl, fun h => ⟨fun other => ?_, h.block⟩⟩
  exact (Ownership.isSome_markMoved _ _ _ _ _).trans (h.records other)

/-- After a frame all is as it was before. -/
theorem leaveFrame {s s' : State Custody} (kind : ScopeKind) (h : (s.enterFrame kind).Evens s') :
    s.Evens s'.leaveFrame := by
  have hscopes : s'.scopes.pop = s.scopes := pop_eq_of_extends h.kept.outer
  obtain ⟨ho, hb, hm⟩ := Custody.leaveFrame_restores h.kept.tracking
  have hregions : s'.leaveFrame.tracking.regions = s.tracking.regions :=
    Custody.regions_leaveFrame h.kept.tracking h.around
  have htracking : s.tracking.Extends s'.leaveFrame.tracking :=
    ⟨ho ▸ .refl _, hb ▸ .refl _, hm⟩
  exact ⟨⟨congrArg Scopes.outer hscopes, congrArg (·.inner.kind) hscopes, h.kept.returns, htracking⟩,
    congrArg List.tail hregions, fun hs => hs.congr hscopes ho hregions⟩

/-- After a block the records that it hid are back. -/
theorem leaveBlock {s s' : State Custody} (h : s.enterBlock.Evens s') : s.Evens s'.leaveBlock := by
  have hscopes : s'.scopes.pop = s.scopes := pop_eq_of_extends h.kept.outer
  obtain ⟨b, hidden, hr, hregions, howned⟩ := Custody.exists_hidden h.kept.tracking h.around
  refine ⟨⟨congrArg Scopes.outer hscopes, congrArg (·.inner.kind) hscopes, h.kept.returns,
    (Custody.leaveBlock_restores h.kept.tracking).2⟩, congrArg List.tail hregions, fun hs => ?_⟩
  have hinner := h.balanced hs.enterBlock
  have hhides := hinner.block b hidden _ hr
  constructor
  · intro name
    have houter : Scope.gives s'.leaveBlock.scopes.toList name = Scope.gives s'.scopes.outer name := by
      rw [h.kept.outer]
      exact congrArg (Scope.gives ·.toList name) hscopes
    rw [houter]
    change (s'.tracking.leaveBlock.ownership.state? name).isSome = _
    rw [howned]
    apply Ownership.isSome_restoreAll hhides.outer
    intro hn
    exact (hinner.records name).trans (Scope.gives_of_absent (hhides.own name hn))
  · intro b' hidden' regions' hr'
    change s'.scopes.pop.Hides hidden'
    rw [hscopes]
    exact hs.block b' hidden' regions' (hregions.symm.trans hr')

end Evens
end State

namespace Check

/-- A step that keeps scopes and records in step. -/
def Even ⦃α : Type⦄ (m _ : Check Custody α) : Prop :=
  ∀ s : State Custody, s.Evens (m.after s)

/-- Steps that touch neither scopes nor the records of moves. -/
theorem evens_of_eq {s s' : State Custody} (h : s.Extends s') (hs : s'.scopes = s.scopes)
    (ho : s'.tracking.ownership = s.tracking.ownership)
    (hr : s'.tracking.regions = s.tracking.regions) : s.Evens s' :=
  ⟨h, congrArg List.tail hr, fun hb => hb.congr hs ho hr⟩

theorem evens_report (fs : List Finding) (s : State Custody) : s.Evens ((report fs).after s) :=
  evens_of_eq (contained_congruence.report fs s) rfl rfl rfl

/-- All elementary steps keep scopes and records in step. -/
theorem even_congruence : Congruence Even where
  toCalm := calm_of_states .refl .trans
    (fun _ _ _ => evens_of_eq ⟨rfl, rfl, rfl, .refl _⟩ rfl rfl rfl) .move
    fun _ _ _ => evens_of_eq ⟨rfl, rfl, rfl, Custody.extends_borrow _ _ _⟩ rfl rfl rfl
  kept _ _ _ hk s := hk s s (.refl s) rfl s
  signatures _ s := evens_of_eq ⟨rfl, rfl, rfl, .refl _⟩ rfl rfl rfl
  declare _ s := evens_of_eq ⟨rfl, rfl, rfl, .refl _⟩ rfl rfl rfl
  openNames s := evens_of_eq ⟨rfl, rfl, rfl, .refl _⟩ rfl rfl rfl
  bind name ty s := .bind s name ty
  inFrame := fun kind _ _ hm s => .leaveFrame kind (hm (s.enterFrame kind))
  inBlock hm s := .leaveBlock (hm s.enterBlock)
  returning := fun expected _ _ hm s => by
    obtain ⟨⟨ho, hk, hr, ht⟩, ha, hb⟩ := hm { s with returns := expected :: s.returns }
    refine ⟨⟨ho, hk, congrArg List.tail hr, ht⟩, ha, fun hs => ?_⟩
    exact (hb (hs.congr rfl rfl rfl)).congr rfl rfl rfl

theorem balanced_invariant : Invariant Even State.Balanced where
  toCongruence := even_congruence
  keeps hm s := (hm s).balanced
  enterFrame kind _ _ hs := hs.enterFrame kind
  enterBlock _ hs := hs.enterBlock
  expecting _ _ hs := hs.congr rfl rfl rfl

end Check

/-- Functions are not given away. -/
theorem Scope.gives_defineAll (fs : List (String × FnTy)) {s : Scopes}
    (h : ∀ name, gives s.toList name = false) (name : String) :
    gives (fs.foldl (fun s (name, f) => s.define name f.toTy) s).toList name = false := by
  induction fs generalizing s with
  | nil => exact h name
  | cons e fs ih =>
    apply ih
    intro other
    rw [gives_define]
    split
    · rfl
    · exact h other

theorem State.balanced_start : (State.start : State Custody).Balanced := by
  constructor
  · intro name
    rw [State.start, Scope.gives_defineAll _ fun _ => rfl]
    rfl
  · intro b hidden regions hr
    cases hr

/-! ### Names that are never warned about -/

/-- A way to keep track in which only names that stand for a value to give away can have lost it: it
knows the types of all names in the scopes around, the innermost first. -/
structure Guarded (τ : Type) where
  scopes : List (Table Ty)
  inner : τ

namespace Guarded
variable {τ : Type} [Tracking τ]

/-- Enter or leave a piece of code, with a scope of its own. -/
def enter (step : τ → τ) (t : Guarded τ) : Guarded τ :=
  ⟨∅ :: t.scopes, step t.inner⟩

def leave (step : τ → τ) (t : Guarded τ) : Guarded τ :=
  ⟨t.scopes.tail, step t.inner⟩

/-- Whether the visible binding of a name has a type that is given away. -/
def gives (t : Guarded τ) (name : String) : Bool :=
  (t.scopes.findSome? (·.find? name)).any Ty.isMove

instance tracking : Tracking (Guarded τ) where
  empty := ⟨(State.start : State τ).scopes.toList.map Scope.names, Tracking.empty⟩
  enterFrame := enter Tracking.enterFrame
  leaveFrame := leave Tracking.leaveFrame
  enterBlock := enter Tracking.enterBlock
  leaveBlock := leave Tracking.leaveBlock
  bind name ty t := ⟨t.scopes.modifyHead (·.insert name ty), Tracking.bind name ty t.inner⟩
  move name site t := ⟨t.scopes, Tracking.move name site t.inner⟩
  movedAt? t name := if t.gives name then Tracking.movedAt? t.inner name else none
  borrow name mutable t :=
    let (conflicts, inner) := Tracking.borrow name mutable t.inner
    (conflicts, ⟨t.scopes, inner⟩)
  isBorrowed t := Tracking.isBorrowed t.inner
  borrowed t := Tracking.borrowed t.inner

end Guarded

namespace State
variable {s : State Custody} {scopes : Scopes} {kind : ScopeKind}

/-- The same state, with guarded records. -/
def guarded (s : State Custody) : State (Guarded Custody) where
  scopes := s.scopes
  tracking := ⟨s.scopes.toList.map Scope.names, s.tracking⟩
  classes := s.classes
  interfaces := s.interfaces
  impls := s.impls
  signatures := s.signatures
  returns := s.returns
  replaced := s.replaced
  openNames := s.openNames
  findings := s.findings
  types := s.types

theorem akin_guarded (s : State Custody) : s.Akin s.guarded :=
  ⟨rfl, rfl, rfl, rfl, rfl, fun _ => rfl, rfl⟩

theorem guarded_gives (s : State Custody) (name : String) :
    s.guarded.tracking.gives name = Scope.gives s.scopes.toList name :=
  congrArg (Option.any Ty.isMove) List.findSome?_map

/-- Where scopes and records are in step the guard makes no difference. -/
theorem Balanced.movedAt?_guarded (h : s.Balanced) (name : String) :
    Tracking.movedAt? s.guarded.tracking name = Tracking.movedAt? s.tracking name := by
  change (if s.guarded.tracking.gives name then s.tracking.ownership.movedAt? name else none) =
    s.tracking.ownership.movedAt? name
  rw [guarded_gives, ← h.records name]
  unfold Ownership.movedAt?
  cases s.tracking.ownership.state? name with
  | none => rfl
  | some record => rfl

section
variable (h : s.scopes.outer = (scopes.push kind).outer)
include h

/-- The names that are left when a scope is left. -/
theorem names_pop :
    s.scopes.pop.toList.map Scope.names = (s.scopes.toList.map Scope.names).tail := by
  rw [pop_eq_of_extends h, Scopes.toList.eq_1 s.scopes, h]
  rfl

theorem guarded_leaveFrame : s.leaveFrame.guarded = s.guarded.leaveFrame :=
  congrArg (fun names => ({ s.guarded with
    scopes := s.scopes.pop, tracking := ⟨names, s.tracking.leaveFrame⟩ } : State (Guarded Custody)))
      (names_pop h)

theorem guarded_leaveBlock : s.leaveBlock.guarded = s.guarded.leaveBlock :=
  congrArg (fun names => ({ s.guarded with
    scopes := s.scopes.pop, tracking := ⟨names, s.tracking.leaveBlock⟩ } : State (Guarded Custody)))
      (names_pop h)

end

end State

namespace Check

/-- A step does the same with guarded records, where scopes and records are in step. -/
def Guards ⦃α : Type⦄ (m₁ : Check Custody α) (m₂ : Check (Guarded Custody) α) : Prop :=
  ∀ s : State Custody, s.Evens (m₁.after s) ∧
    (s.Balanced → m₂.run s.guarded = ((m₁.run s).1, (m₁.after s).guarded))

theorem guards_report (fs : List Finding) : Guards (report fs) (report fs) :=
  fun s => ⟨evens_report fs s, fun _ => rfl⟩

theorem guards_demand (ok : Bool) (cause : Cause) (span : Span) :
    Guards (demand ok cause span) (demand ok cause span) := by
  rw [demand_eq_report, demand_eq_report]
  exact guards_report _

theorem guards_congruence : Congruence Guards where
  pure _ s := ⟨.refl s, fun _ => rfl⟩
  seq hm hk s := by
    refine ⟨(hm s).1.trans (hk _ _).1, fun hs => ?_⟩
    rw [StateT.run_bind, (hm s).2 hs]
    exact (hk _ _).2 ((hm s).1.balanced hs)
  get hk s := hk s s.guarded s.akin_guarded s
  kept _ _ _ hk s := hk s s.guarded s.akin_guarded rfl s
  report := guards_report
  note span ty s := ⟨even_congruence.note span ty s, fun _ => rfl⟩
  signatures f s := ⟨even_congruence.signatures f s, fun _ => rfl⟩
  declare f s := ⟨even_congruence.declare f s, fun _ => rfl⟩
  openNames s := ⟨even_congruence.openNames s, fun _ => rfl⟩
  bind name ty s := ⟨.bind s name ty, fun _ => rfl⟩
  move name site s := ⟨.move s name site, fun _ => rfl⟩
  warnIfMoved name span s := by
    refine ⟨even_congruence.warnIfMoved name span s, fun hs => ?_⟩
    rw [after, run_warnIfMoved, run_warnIfMoved, hs.movedAt?_guarded]
    rfl
  borrow name mutable span s := by
    refine ⟨even_congruence.borrow name mutable span s, fun hs => ?_⟩
    rw [after, run_borrow, run_borrow, hs.movedAt?_guarded]
    split <;> rfl
  demandFree name span s := guards_demand _ _ span s
  demandNoBorrows span s := guards_demand _ _ span s
  inFrame := fun kind m₁ m₂ hm s => by
    have h := hm (s.enterFrame kind)
    refine ⟨.leaveFrame kind h.1, fun hs => ?_⟩
    change ((), (m₂.run (s.enterFrame kind).guarded).2.leaveFrame) =
      ((), (m₁.after (s.enterFrame kind)).leaveFrame.guarded)
    rw [h.2 (hs.enterFrame kind), State.guarded_leaveFrame h.1.kept.outer]
  inBlock := fun {m₁ m₂} hm s => by
    have h := hm s.enterBlock
    refine ⟨.leaveBlock h.1, fun hs => ?_⟩
    change ((), (m₂.run s.enterBlock.guarded).2.leaveBlock) =
      ((), (m₁.after s.enterBlock).leaveBlock.guarded)
    rw [h.2 hs.enterBlock, State.guarded_leaveBlock h.1.kept.outer]
  returning := fun expected m₁ m₂ hm s => by
    have heven : Even m₁ m₁ := fun s => (hm s).1
    refine ⟨even_congruence.returning expected heven s, fun hs => ?_⟩
    let s' : State Custody := { s with returns := expected :: s.returns }
    have hrun := (hm s').2 (hs.congr rfl rfl rfl)
    change ((), { (m₂.run s'.guarded).2 with returns := (m₂.run s'.guarded).2.returns.tail }) = _
    rw [hrun]
    rfl

end Check

namespace State

/-- Whatever is read or borrowed under a name, its value is not found to be given away. -/
def Spares (s : State Custody) (name : String) : Prop :=
  ∀ (span : Span) (mutable : Bool), (Check.warnIfMoved name span).after s = s ∧
    ∀ f ∈ ((Check.borrow name mutable span).after s).findings,
      f ∈ s.findings ∨ f.cause.code = .borrowConflict

theorem spares_of_unmoved {s : State Custody} {name : String}
    (h : Tracking.movedAt? s.tracking name = none) : s.Spares name := by
  intro span mutable
  constructor
  · rw [Check.after, Check.run_warnIfMoved, h]
    rfl
  · intro f hf
    rw [Check.after, Check.run_borrow, h, Option.isSome_none,
      if_neg Bool.false_ne_true] at hf
    rcases List.mem_append.mp hf with hf | hf
    · obtain ⟨c, -, rfl⟩ := List.mem_map.mp (List.mem_reverse.mp hf)
      exact .inr rfl
    · exact .inl hf

/-- A name whose value cannot be given away has no record to tell that it was. -/
theorem InStep.spares {s : State Custody} (h : s.InStep) {name : String} {ty : Ty}
    (hty : s.scopes.lookup name = some ty) (hcopy : ty.category = .copy) : s.Spares name := by
  have hnone : s.tracking.ownership.state? name = none := by
    apply Option.not_isSome_iff_eq_none.mp
    intro hsome
    obtain ⟨ty', hty', hmove⟩ := (h name).mp hsome
    rw [hty] at hty'
    cases hty'
    rw [hcopy] at hmove
    cases hmove
  apply spares_of_unmoved
  change s.tracking.ownership.movedAt? name = none
  rw [Ownership.movedAt?, hnone]

end State

namespace Program

theorem finalState_guarded (p : Program) :
    p.finalState (Guarded Custody) = (p.finalState Custody).guarded :=
  congrArg Prod.snd ((Check.guards_congruence.program p .start).2 State.balanced_start)

/-- Wherever a piece of code is entered or left, exactly the names whose visible binding has a type
that is given away have a record, and no other name is found to have lost its value. The report is
that of a check in which other names cannot lose it. -/
theorem scopes_in_step (p : Program) :
    (∀ s : State Custody, p.Passes s → s.InStep ∧
      ∀ name ty, s.scopes.lookup name = some ty → ty.category = .copy → s.Spares name) ∧
    ∀ o : Options, p.check o = (p.finalState (Guarded Custody)).report o := by
  constructor
  · intro s hs
    have h := (hs.keeps Check.balanced_invariant State.balanced_start).inStep
    exact ⟨h, fun name ty hty hcopy => h.spares hty hcopy⟩
  · intro o
    rw [finalState_guarded]
    rfl

/-- A list that is given away and read once more, and numbers of the same name. -/
def reusedName : Program :=
  (Program.ofSource
    ⟨"", "let a = [1]; let b = a; \x7b let a = 2; &a; \x7d let c = [a]; let a = 3; a;"⟩).1

theorem scopes_in_step_reusedName :
    reusedName.Passes (reusedName.finalState Custody) ∧
    (reusedName.finalState Custody).scopes.lookup "a" = some .int ∧
    (reusedName.check {}).warnings.length = 1 ∧
    ((reusedName.finalState Custody).tracking.ownership.state? "b").isSome ∧
    (reusedName.finalState Custody).InStep ∧ (reusedName.finalState Custody).Spares "a" ∧
    reusedName.check {} = (reusedName.finalState (Guarded Custody)).report {} := by
  have hp : reusedName.Passes (reusedName.finalState Custody) :=
    ⟨_, _, .whole, .inr (finalState_eq reusedName)⟩
  have hfacts : (reusedName.finalState Custody).scopes.lookup "a" = some .int ∧
      (reusedName.check {}).warnings.length = 1 ∧
      ((reusedName.finalState Custody).tracking.ownership.state? "b").isSome := by
    decide +kernel
  obtain ⟨ha, hwarnings, hb⟩ := hfacts
  obtain ⟨hin, hspares⟩ := (scopes_in_step reusedName).1 _ hp
  exact ⟨hp, ha, hwarnings, hb, hin, hspares "a" .int ha rfl, (scopes_in_step reusedName).2 {}⟩

end Program
end CarvFront
