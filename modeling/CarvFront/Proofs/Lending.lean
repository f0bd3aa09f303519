import CarvFront.Grammar.Program
import CarvFront.Proofs.Bindings

/-! Borrows are recorded by name. As long as no name is bound again while it is borrowed, what is
recorded of a name are the borrows of the binding that it stands for. A binding that takes over a
borrowed name is taken to be borrowed as well. -/
namespace CarvFront

/-- What a name stands for: a binding, or something that the program did not bind. -/
structure Referent where
  name : String
  binding? : Option Binding
deriving DecidableEq

/-- A piece of code that was entered, or the program itself: its own bindings, and what was borrowed
in it. -/
structure Extent where
  isFrame : Bool
  bindings : List Binding := []
  borrowed : List Referent := []

namespace Extent

def addBinding (i : Binding) (e : Extent) : Extent :=
  { e with bindings := i :: e.bindings }

def addBorrow (r : Referent) (e : Extent) : Extent :=
  { e with borrowed := r :: e.borrowed }

/-- What can be named in some code and the code around it, the innermost first. -/
def scope (es : List Extent) : List Binding :=
  es.flatMap bindings

/-- What was borrowed in code that is still open. -/
def live (es : List Extent) : List Referent :=
  es.flatMap borrowed

/-- What a name stands for in the innermost code. -/
def referent (es : List Extent) (name : String) : Referent :=
  ⟨name, Bindings.resolve (scope es) name⟩

/-- Leave the innermost code, if it is a frame or a block as expected. The program is not left. -/
def leave (isFrame : Bool) : List Extent → List Extent
  | e :: e' :: es => if e.isFrame = isFrame then e' :: es else e :: e' :: es
  | es => es

end Extent

/-- A way to keep track that follows another one, but speaks of a borrow only if it has seen the
binding itself borrowed in code that is still open. -/
structure Witnessed (τ : Type) where
  inner : τ
  next : Nat
  /-- The code around, the innermost first and the program last. -/
  extents : List Extent
  /-- Names that were said to be borrowed when they were just bound. -/
  stale : List String
  /-- Names that were bound while a binding of the same name was borrowed. -/
  rebound : List String

namespace Witnessed
variable {τ : Type} [Tracking τ]

/-- Whether the binding that a name stands for was borrowed in code that is still open. -/
def sawBorrow (w : Witnessed τ) (name : String) : Bool :=
  (Extent.live w.extents).contains (Extent.referent w.extents name)

/-- Every time a name is bound there is a new binding. A function is bound before the walk, and again
where it is come to. -/
def bind (name : String) (ty : Ty) (w : Witnessed τ) : Witnessed τ where
  inner := Tracking.bind name ty w.inner
  next := w.next + 1
  extents := w.extents.modifyHead (Extent.addBinding ⟨name, w.next⟩)
  stale :=
    if Tracking.isBorrowed (Tracking.bind name ty w.inner) name then name :: w.stale else w.stale
  rebound :=
    if (Extent.live w.extents).any (·.name = name) then name :: w.rebound else w.rebound

def borrow (name : String) (mutable : Bool) (w : Witnessed τ) :
    List BorrowConflict × Witnessed τ :=
  let (conflicts, inner) := Tracking.borrow name mutable w.inner
  (if w.sawBorrow name then conflicts else [],
    { w with
      inner
      extents := w.extents.modifyHead (Extent.addBorrow (Extent.referent w.extents name)) })

instance tracking : Tracking (Witnessed τ) where
  empty := ⟨Tracking.empty, 0, [⟨false, [], []⟩], [], []⟩
  enterFrame w :=
    { w with inner := Tracking.enterFrame w.inner, extents := ⟨true, [], []⟩ :: w.extents }
  leaveFrame w :=
    { w with inner := Tracking.leaveFrame w.inner, extents := Extent.leave true w.extents }
  enterBlock w :=
    { w with inner := Tracking.enterBlock w.inner, extents := ⟨false, [], []⟩ :: w.extents }
  leaveBlock w :=
    { w with inner := Tracking.leaveBlock w.inner, extents := Extent.leave false w.extents }
  bind := bind
  move name site w := { w with inner := Tracking.move name site w.inner }
  movedAt? w := Tracking.movedAt? w.inner
  borrow := borrow
  isBorrowed w name := Tracking.isBorrowed w.inner name && w.sawBorrow name
  borrowed w := Tracking.borrowed w.inner

end Witnessed

/-! ### Records by name and the borrows that were seen -/

theorem Loans.isActive_add (l : Loans) (mutable : Bool) : (l.add mutable).isActive := by
  cases mutable <;> simp [add, isActive]

theorem Loans.conflicts_of_not_isActive {l : Loans} (h : ¬ l.isActive) (mutable : Bool) :
    l.conflicts mutable = [] := by
  simp only [isActive, Bool.or_eq_true, decide_eq_true_eq, not_or] at h
  simp [conflicts, h.1, h.2]

namespace Extent
variable {es : List Extent}

/-- A table has borrows under the names of the bindings that were borrowed. -/
def Accounts (t : Table Loans) (rs : List Referent) : Prop :=
  ∀ name, ((t.find? name).getD .none).isActive ↔ ∃ r ∈ rs, r.name = name

theorem accounts_empty : Accounts ∅ [] := by
  intro name
  apply iff_of_false Bool.false_ne_true
  simp

theorem Accounts.insert {t : Table Loans} {rs : List Referent} (h : Accounts t rs) (r : Referent)
    {l : Loans} (hl : l.isActive) : Accounts (t.insert r.name l) (r :: rs) := by
  intro name
  rw [Table.find?_insert]
  by_cases hname : r.name = name
  · simp [hname, hl]
  · simp [hname, h name]

/-- The table of borrows, and the tables that come back when the code around is left, account for
what was borrowed up to there. -/
inductive Backed : List (Option Checkpoint × Checkpoint) → Table Loans → List (Table Loans) →
    List Extent → Prop
  | top {t : Table Loans} {e : Extent} (h : Accounts t (live [e])) : Backed [] t [] [e]
  | inside {mark : Option Checkpoint × Checkpoint} {marks : List (Option Checkpoint × Checkpoint)}
      {t u : Table Loans} {saved : List (Table Loans)} {e : Extent} {es : List Extent}
      (kind : mark.1.isSome = e.isFrame) (h : Accounts t (live (e :: es)))
      (rest : Backed marks u saved es) : Backed (mark :: marks) t (u :: saved) (e :: es)

section Backed
variable {mark : Option Checkpoint × Checkpoint} {marks : List (Option Checkpoint × Checkpoint)}
  {t u : Table Loans} {saved : List (Table Loans)} {es : List Extent}

theorem Backed.accounts (h : Backed marks t saved es) : Accounts t (live es) := by
  cases h with
  | top h => exact h
  | inside _ h _ => exact h

theorem Backed.ne_nil (h : Backed marks t saved es) : es ≠ [] := by
  cases h <;> exact List.cons_ne_nil _ _

theorem Backed.modifyHead (h : Backed marks t saved es) {f : Extent → Extent}
    (hf : ∀ e, (f e).isFrame = e.isFrame) (hu : Accounts u (live (es.modifyHead f))) :
    Backed marks u saved (es.modifyHead f) := by
  cases h with
  | top _ => exact .top hu
  | inside kind _ rest => exact .inside (kind.trans (hf _).symm) hu rest

theorem Backed.leave (h : Backed (mark :: marks) t (u :: saved) es) :
    Backed marks u saved (leave mark.1.isSome es) := by
  cases h with
  | inside kind _ rest =>
    obtain ⟨e', es, rfl⟩ := List.exists_cons_of_ne_nil rest.ne_nil
    rw [Extent.leave, if_pos kind.symm]
    exact rest

theorem Backed.leave_eq (h : Backed marks t saved es) {isFrame : Bool}
    (hmarks : ∀ mark ∈ marks.head?, mark.1.isSome ≠ isFrame) : Extent.leave isFrame es = es := by
  cases h with
  | top _ => rfl
  | inside kind _ rest =>
    obtain ⟨e', es, rfl⟩ := List.exists_cons_of_ne_nil rest.ne_nil
    rw [Extent.leave, if_neg (kind ▸ hmarks _ rfl)]

end Backed

/-! ### Borrows of what names stand for -/

/-- In the innermost code and in all code around, every borrow is one of what its name stands for. -/
def Current (es : List Extent) : Prop :=
  ∀ outer, outer <:+ es → ∀ r ∈ live outer, referent outer r.name = r

theorem leave_suffix (isFrame : Bool) (es : List Extent) : leave isFrame es <:+ es := by
  unfold leave
  split
  · split
    · exact List.suffix_cons _ _
    · exact List.suffix_rfl
  · exact List.suffix_rfl

theorem Current.of_suffix {outer : List Extent} (h : Current es) (hsuffix : outer <:+ es) :
    Current outer :=
  fun _ hout => h _ (hout.trans hsuffix)

/-- Only the innermost code can make a difference. -/
theorem current_cons {e : Extent} (hes : Current es)
    (he : ∀ r ∈ live (e :: es), referent (e :: es) r.name = r) : Current (e :: es) := by
  intro outer houter
  rcases List.suffix_cons_iff.mp houter with rfl | houter
  · exact he
  · exact hes outer houter

theorem current_nil : Current [] := by
  intro outer houter r hr
  rw [List.suffix_nil.mp houter] at hr
  cases hr

theorem Current.enter (h : Current es) (isFrame : Bool) : Current (⟨isFrame, [], []⟩ :: es) :=
  current_cons h (h es List.suffix_rfl)

/-- A new binding takes its name over, and no other name. -/
theorem Current.addBinding (h : Current es) {i : Binding} (hi : ∀ r ∈ live es, r.name ≠ i.name) :
    Current (es.modifyHead (addBinding i)) := by
  cases es with
  | nil => exact h
  | cons e es =>
    -- The code around does not see the new binding, and its borrows are not judged by it.
    apply current_cons (h.of_suffix (List.suffix_cons e es))
    intro r hr
    have hsame : Bindings.resolve (i :: scope (e :: es)) r.name =
        Bindings.resolve (scope (e :: es)) r.name := by
      rw [Bindings.resolve_cons, if_neg (hi r hr).symm]
    have hbefore := h (e :: es) List.suffix_rfl r hr
    rw [referent, ← hsame] at hbefore
    exact hbefore

theorem Current.addBorrow (h : Current es) (name : String) :
    Current (es.modifyHead (addBorrow (referent es name))) := by
  cases es with
  | nil => exact h
  | cons e es =>
    apply current_cons (h.of_suffix (List.suffix_cons e es))
    intro r hr
    rcases List.mem_cons.mp hr with rfl | hr
    · rfl
    · exact h (e :: es) List.suffix_rfl r hr

end Extent

/-! ### The two ways side by side -/

namespace Witnessed
open Extent

/-- Records of borrows by name account for the borrows in some code and the code around it. -/
def Backs (c : Custody) (es : List Extent) : Prop :=
  ∃ m, c.borrows.loans.Represents ((c.regions.map Region.marks).map Prod.snd) m ∧
    Backed (c.regions.map Region.marks) m.table m.saved es

section Backs
variable {c : Custody} {es : List Extent} (h : Backs c es)
include h

theorem Backs.isBorrowed_iff (name : String) :
    c.borrows.isBorrowed name ↔ ∃ r ∈ live es, r.name = name := by
  obtain ⟨m, hm, hb⟩ := h
  rw [Borrows.isBorrowed, Borrows.of, Journal.find?, hm.table]
  exact hb.accounts name

theorem Backs.enterFrame : Backs c.enterFrame (⟨true, [], []⟩ :: es) := by
  obtain ⟨m, hm, hb⟩ := h
  exact ⟨m.push, hm.push, .inside rfl hb.accounts hb⟩

theorem Backs.enterBlock : Backs c.enterBlock (⟨false, [], []⟩ :: es) := by
  obtain ⟨m, hm, hb⟩ := h
  exact ⟨m.push, hm.push, .inside rfl hb.accounts hb⟩

omit h in
theorem Backs.leave {r : Region} {regions : List Region} {ownership after : Ownership}
    {borrows : Borrows} (h : Backs ⟨ownership, borrows, r :: regions⟩ es) :
    Backs ⟨after, borrows.pop r.marks.2, regions⟩ (Extent.leave r.marks.1.isSome es) := by
  obtain ⟨⟨t, saved⟩, hm, hb⟩ := h
  -- There is a copy for every region, so one is left to go back to.
  cases saved with
  | nil => cases hb
  | cons u saved => exact ⟨⟨u, saved⟩, hm.pop, hb.leave⟩

/-- Where a frame should be left and the innermost code is a block, or the other way round, all stays
as it is. -/
theorem Backs.leave_eq (isFrame : Bool)
    (hkind : ∀ r ∈ c.regions.head?, r.marks.1.isSome ≠ isFrame) :
    Extent.leave isFrame es = es := by
  obtain ⟨m, -, hb⟩ := h
  apply hb.leave_eq
  rw [List.head?_map]
  intro mark hmark
  obtain ⟨r, hr, rfl⟩ := Option.map_eq_some_iff.mp hmark
  exact hkind r hr

theorem Backs.leaveFrame : Backs c.leaveFrame (Extent.leave true es) := by
  obtain ⟨ownership, borrows, regions⟩ := c
  cases regions with
  | nil =>
    rw [h.leave_eq true nofun]
    exact h
  | cons r regions =>
    cases r with
    | frame o b => exact h.leave
    | block b hidden =>
      rw [h.leave_eq true (by simp [Region.marks])]
      exact h

theorem Backs.leaveBlock : Backs c.leaveBlock (Extent.leave false es) := by
  obtain ⟨ownership, borrows, regions⟩ := c
  cases regions with
  | nil =>
    rw [h.leave_eq false nofun]
    exact h
  | cons r regions =>
    cases r with
    | frame o b =>
      rw [h.leave_eq false (by simp [Region.marks])]
      exact h
    | block b hidden => exact h.leave

theorem Backs.bind (name : String) (ty : Ty) (i : Binding) :
    Backs (c.bind name ty) (es.modifyHead (addBinding i)) := by
  obtain ⟨m, hm, hb⟩ := h
  have hmarks : (c.bind name ty).regions.map Region.marks = c.regions.map Region.marks :=
    Custody.marks_hide c name c.regions
  have hlive : live (es.modifyHead (addBinding i)) = live es := by
    cases es <;> rfl
  unfold Backs
  rw [hmarks]
  refine ⟨m, hm, hb.modifyHead (fun _ => rfl) ?_⟩
  rw [hlive]
  exact hb.accounts

theorem Backs.borrow (name : String) (mutable : Bool) :
    Backs (c.borrow name mutable).2 (es.modifyHead (addBorrow (referent es name))) := by
  obtain ⟨m, hm, hb⟩ := h
  have hlive : live (es.modifyHead (addBorrow (referent es name))) =
      referent es name :: live es := by
    obtain ⟨e, rest, rfl⟩ := List.exists_cons_of_ne_nil hb.ne_nil
    rfl
  refine ⟨_, Borrows.represents_borrow hm name mutable, hb.modifyHead (fun _ => rfl) ?_⟩
  rw [hlive]
  exact hb.accounts.insert (referent es name) (Loans.isActive_add _ mutable)

end Backs

/-- The records that are followed account for all borrows that were seen, and these are borrows of
what their names stand for, unless a borrowed name was bound again. -/
structure Follows (c : Custody) (w : Witnessed Custody) : Prop where
  inner : w.inner = c
  backs : Backs c w.extents
  stale : w.stale = w.rebound
  current : w.rebound = [] → Current w.extents

variable {c : Custody} {w : Witnessed Custody}

theorem follows_empty : Follows Tracking.empty Tracking.empty where
  inner := rfl
  backs := ⟨.empty, Journal.represents_empty, .top accounts_empty⟩
  stale := rfl
  current _ := current_nil.enter false

theorem rebound_of_bind {name : String} {ty : Ty} (h : (w.bind name ty).rebound = []) :
    w.rebound = [] ∧ ∀ r ∈ live w.extents, r.name ≠ name := by
  change (if (live w.extents).any (·.name = name) then name :: w.rebound else w.rebound) = [] at h
  split at h
  · cases h
  · next hnone => exact ⟨h, by simpa using hnone⟩

section
variable (h : Follows c w)
include h

theorem Follows.bind (name : String) (ty : Ty) : Follows (c.bind name ty) (w.bind name ty) where
  inner := congrArg (Custody.bind name ty) h.inner
  backs := h.backs.bind name ty _
  stale := by
    have hsame : Tracking.isBorrowed (Tracking.bind name ty w.inner) name =
        (live w.extents).any (·.name = name) := by
      rw [h.inner, Bool.eq_iff_iff]
      exact (h.backs.isBorrowed_iff name).trans (by simp)
    change (if _ then _ else _) = (if _ then _ else _)
    rw [hsame, h.stale]
  current hnone := by
    obtain ⟨hbefore, hnames⟩ := rebound_of_bind hnone
    exact (h.current hbefore).addBinding hnames

theorem Follows.borrow (name : String) (mutable : Bool) :
    Follows (c.borrow name mutable).2 (w.borrow name mutable).2 where
  inner := congrArg (fun c => (Custody.borrow name mutable c).2) h.inner
  backs := h.backs.borrow name mutable
  stale := h.stale
  current hnone := (h.current hnone).addBorrow name

theorem Follows.enterFrame : Follows c.enterFrame (Tracking.enterFrame w) where
  inner := congrArg Custody.enterFrame h.inner
  backs := h.backs.enterFrame
  stale := h.stale
  current hnone := (h.current hnone).enter true

theorem Follows.enterBlock : Follows c.enterBlock (Tracking.enterBlock w) where
  inner := congrArg Custody.enterBlock h.inner
  backs := h.backs.enterBlock
  stale := h.stale
  current hnone := (h.current hnone).enter false

theorem Follows.leaveFrame : Follows c.leaveFrame (Tracking.leaveFrame w) where
  inner := congrArg Custody.leaveFrame h.inner
  backs := h.backs.leaveFrame
  stale := h.stale
  current hnone := (h.current hnone).of_suffix (leave_suffix true _)

theorem Follows.leaveBlock : Follows c.leaveBlock (Tracking.leaveBlock w) where
  inner := congrArg Custody.leaveBlock h.inner
  backs := h.backs.leaveBlock
  stale := h.stale
  current hnone := (h.current hnone).of_suffix (leave_suffix false _)

theorem Follows.move (name : String) (site : MoveSite) :
    Follows (c.move name site) (Tracking.move name site w) :=
  ⟨congrArg (Custody.move name site) h.inner, h.backs, h.stale, h.current⟩

theorem Follows.movedAt? (name : String) : Tracking.movedAt? c name = Tracking.movedAt? w name :=
  congrArg (fun c => Tracking.movedAt? c name) h.inner.symm

theorem Follows.borrowed : Tracking.borrowed c = Tracking.borrowed w :=
  congrArg Tracking.borrowed h.inner.symm

/-- As long as no borrowed name was bound again, what is recorded as borrowed was seen. -/
theorem Follows.sawBorrow (hnone : w.rebound = []) {name : String} (hb : c.borrows.isBorrowed name)
    :
    w.sawBorrow name := by
  obtain ⟨r, hr, rfl⟩ := (h.backs.isBorrowed_iff name).mp hb
  have hself := h.current hnone w.extents List.suffix_rfl r hr
  rw [Witnessed.sawBorrow, hself]
  exact List.contains_iff_mem.mpr hr

theorem Follows.isBorrowed (hnone : w.rebound = []) (name : String) :
    Tracking.isBorrowed c name = Tracking.isBorrowed w name := by
  change c.borrows.isBorrowed name = (w.inner.borrows.isBorrowed name && w.sawBorrow name)
  rw [h.inner]
  cases hb : c.borrows.isBorrowed name with
  | false => rfl
  | true => rw [h.sawBorrow hnone hb]; rfl

theorem Follows.conflicts (hnone : w.rebound = []) (name : String) (mutable : Bool) :
    (Tracking.borrow name mutable c).1 = (Tracking.borrow name mutable w).1 := by
  change (c.borrows.of name).conflicts mutable =
    if w.sawBorrow name then (w.inner.borrows.of name).conflicts mutable else []
  rw [h.inner]
  split
  · rfl
  · -- What was not seen is not recorded either, so there was no conflict to begin with.
    next hunseen => exact Loans.conflicts_of_not_isActive (mt (h.sawBorrow hnone) hunseen) mutable

end

/-- The walks differ only in findings, and only once a borrowed name was bound again. -/
def Beside (c : Custody) (x : List Finding) (w : Witnessed Custody) (y : List Finding) : Prop :=
  Follows c w ∧ (w.rebound = [] → x = y)

theorem beside_kept : Tracking.Kept Beside where
  report h fs := ⟨h.1, fun hnone => congrArg (fs ++ ·) (h.2 hnone)⟩
  enterFrame h := ⟨h.1.enterFrame, h.2⟩
  leaveFrame h := ⟨h.1.leaveFrame, h.2⟩
  enterBlock h := ⟨h.1.enterBlock, h.2⟩
  leaveBlock h := ⟨h.1.leaveBlock, h.2⟩
  bind h name ty := ⟨h.1.bind name ty, fun hnone => h.2 (rebound_of_bind hnone).1⟩
  move h name site := ⟨h.1.move name site, h.2⟩

/-- Different reports matter only as long as no borrowed name was bound again. -/
theorem beside_report {s₁ : State Custody} {s₂ : State (Witnessed Custody)}
    (h : s₁.Related Beside s₂) {fs gs : List Finding}
    (hfs : s₂.tracking.rebound = [] → fs = gs) :
    ((Check.report fs).after s₁).Related Beside ((Check.report gs).after s₂) := by
  refine ⟨h.alike, h.types, h.tracking.1, ?_⟩
  intro hnone
  change fs.reverse ++ s₁.findings = gs.reverse ++ s₂.findings
  rw [hfs hnone, h.tracking.2 hnone]

theorem beside_answered : Check.Answered Beside where
  warnIfMoved name span s₁ s₂ h := by
    rw [Check.run_warnIfMoved, Check.run_warnIfMoved, h.tracking.1.movedAt?]
    exact ⟨rfl, beside_report h fun _ => rfl⟩
  borrow name mutable span s₁ s₂ h := by
    obtain ⟨hfollows, hsame⟩ := h.tracking
    rw [Check.run_borrow, Check.run_borrow, hfollows.movedAt?]
    split
    · exact ⟨rfl, beside_report h fun _ => rfl⟩
    · have hborrow : State.Related Beside
          { s₁ with tracking := (Tracking.borrow name mutable s₁.tracking).2 }
          { s₂ with tracking := (Tracking.borrow name mutable s₂.tracking).2 } :=
        ⟨h.alike, h.types, hfollows.borrow name mutable, hsame⟩
      refine ⟨rfl, beside_report hborrow ?_⟩
      intro hnone
      exact congrArg _ (hfollows.conflicts hnone name mutable)
  demandFree name span s₁ s₂ h := by
    rw [Check.run_demandFree, Check.run_demandFree, Check.demand_eq_report, Check.demand_eq_report]
    refine ⟨rfl, beside_report h ?_⟩
    intro hnone
    rw [h.tracking.1.isBorrowed hnone]
  demandNoBorrows span s₁ s₂ h := by
    rw [Check.run_demandNoBorrows, Check.run_demandNoBorrows, Check.demand_eq_report,
      Check.demand_eq_report, h.tracking.1.borrowed]
    exact ⟨rfl, beside_report h fun _ => rfl⟩

end Witnessed

namespace Program

/-- The records of borrows are those of bindings exactly if no name is bound again while it is
borrowed. Then every warning of a conflict, or of an assignment to what is borrowed, goes back to a
borrow of the same binding in code that is still open, and what is just bound is not borrowed. -/
theorem check_eq_witnessed_iff (p : Program) (o : Options) :
    let witnessed := p.finalState (Witnessed Custody)
    witnessed.tracking.inner = (p.finalState Custody).tracking ∧
      (p.check o = witnessed.report o ∧ witnessed.tracking.stale = [] ↔
        witnessed.tracking.rebound = []) := by
  intro witnessed
  have hend : (p.finalState Custody).Related Witnessed.Beside witnessed :=
    Check.related_finalState Witnessed.beside_kept Witnessed.beside_answered
      ⟨Witnessed.follows_empty, fun _ => rfl⟩ p
  obtain ⟨hfollows, hsame⟩ := hend.tracking
  refine ⟨hfollows.inner, ?_⟩
  rw [hfollows.stale]
  constructor
  · exact And.right
  · intro hnone
    refine ⟨?_, hnone⟩
    rw [check, State.report, State.report, hsame hnone, hend.types]

/-- A name is borrowed, then bound again and assigned to. -/
def takenOver : Program :=
  (ofSource ⟨"main.carv", "let x = 1;\nlet r = &x;\nlet x = 2;\nx = 3;\n"⟩).1

/-- The new binding was never borrowed, and yet there is a warning. -/
theorem assignWhileBorrowed_takenOver :
    let witnessed := takenOver.finalState (Witnessed Custody)
    (takenOver.check {}).warnings.map (fun i => (i.line, i.code)) = [(4, .assignWhileBorrowed)] ∧
      (witnessed.report {}).warnings = [] ∧ witnessed.tracking.rebound = ["x"] := by
  decide +kernel

end Program
end CarvFront
