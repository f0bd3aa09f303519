import CarvFront.Proofs.Frames
import CarvFront.Proofs.Simulation
import Mathlib.Logic.Function.Basic

/-! Records that are kept by name follow the bindings that the names stand for. The other way to keep
track gives every binding an identity of its own, looks names up from the inside out and keeps whole
copies; the reports are the same. -/
namespace CarvFront
variable {held : List Checkpoint}

/-- One binding of a name. No two have the same serial number. -/
structure Binding where
  name : String
  serial : Nat
deriving DecidableEq

/-- A piece of code that was entered: its own bindings, what all bindings held before if that comes
back when it is left, and the borrows before. -/
structure Layer where
  bindings : List Binding
  holding? : Option (Binding → Option Holding)
  loans : Table Loans

/-- The bindings of a program, the pieces of code around, the innermost first, and what every binding
holds. Bindings of types that are never given away hold nothing. -/
structure Bindings where
  next : Nat
  globals : List Binding
  layers : List Layer
  holding : Binding → Option Holding
  loans : Table Loans

namespace Bindings
variable {bs : List Binding} {name : String} {i : Binding} {t : Table Holding}
  {holding : Binding → Option Holding}

/-- The bindings that can be named in some layers, the innermost first. -/
def visible (globals : List Binding) (layers : List Layer) : List Binding :=
  layers.flatMap Layer.bindings ++ globals

/-- The binding that a name stands for. -/
def resolve (bs : List Binding) (name : String) : Option Binding :=
  bs.find? (·.name = name)

def scope (b : Bindings) : List Binding :=
  visible b.globals b.layers

def empty : Bindings := ⟨0, [], [], fun _ => none, ∅⟩

def enterFrame (b : Bindings) : Bindings :=
  { b with layers := ⟨[], some b.holding, b.loans⟩ :: b.layers }

/-- All that was moved inside is there again. -/
def leaveFrame (b : Bindings) : Bindings :=
  match b.layers with
  | ⟨_, some holding, loans⟩ :: layers => { b with layers, holding, loans }
  | _ => b

def enterBlock (b : Bindings) : Bindings :=
  { b with layers := ⟨[], none, b.loans⟩ :: b.layers }

/-- What was moved inside stays moved. -/
def leaveBlock (b : Bindings) : Bindings :=
  match b.layers with
  | ⟨_, none, loans⟩ :: layers => { b with layers, loans }
  | _ => b

/-- What a binding of a type holds at first. -/
def initial (ty : Ty) : Option Holding :=
  match ty.category with
  | .move => some .owned
  | .copy => none

/-- A new binding, innermost of all. -/
def bind (name : String) (ty : Ty) (b : Bindings) : Bindings :=
  let i : Binding := ⟨name, b.next⟩
  let b := { b with next := b.next + 1, holding := Function.update b.holding i (initial ty) }
  match b.layers with
  | [] => { b with globals := i :: b.globals }
  | l :: layers => { b with layers := { l with bindings := i :: l.bindings } :: layers }

/-- The binding that the name stands for gives its value away, if it has one. -/
def move (name : String) (site : MoveSite) (b : Bindings) : Bindings :=
  match resolve b.scope name with
  | none => b
  | some i =>
    if b.holding i = some .owned then
      { b with holding := Function.update b.holding i (some (.moved site)) }
    else b

/-- Where the value went of the binding that the name stands for. -/
def movedAt? (b : Bindings) (name : String) : Option MoveSite :=
  match (resolve b.scope name).bind b.holding with
  | some (.moved site) => some site
  | _ => none

def loansOf (b : Bindings) (name : String) : Loans :=
  (b.loans.find? name).getD .none

def borrow (name : String) (mutable : Bool) (b : Bindings) : List BorrowConflict × Bindings :=
  ((b.loansOf name).conflicts mutable,
    { b with loans := b.loans.insert name ((b.loansOf name).add mutable) })

instance : Tracking Bindings where
  empty := empty
  enterFrame := enterFrame
  leaveFrame := leaveFrame
  enterBlock := enterBlock
  leaveBlock := leaveBlock
  bind := bind
  move := move
  movedAt? := movedAt?
  borrow := borrow
  isBorrowed b name := (b.loansOf name).isActive
  borrowed b := (b.loans.entries.filter fun e => e.2.isActive).map (·.1)

/-! ### Names and what they stand for -/

/-- A table has under every name what the binding holds that the name stands for. -/
def Sees (t : Table Holding) (bs : List Binding) (holding : Binding → Option Holding) : Prop :=
  ∀ name, t.find? name = (resolve bs name).bind holding

theorem name_of_resolve (h : resolve bs name = some i) : i.name = name := by
  simpa using List.find?_some h

theorem resolve_eq_none_iff : resolve bs name = none ↔ name ∉ bs.map Binding.name := by
  simp [resolve]

theorem resolve_cons (i : Binding) (bs : List Binding) (name : String) :
    resolve (i :: bs) name = if i.name = name then some i else resolve bs name := by
  unfold resolve
  rw [List.find?_cons]
  split <;> simp_all

theorem resolve_append (as bs : List Binding) (name : String) :
    resolve (as ++ bs) name = (resolve as name).or (resolve bs name) :=
  List.find?_append

theorem Sees.congr {holding' : Binding → Option Holding} (h : Sees t bs holding)
    (hh : ∀ i ∈ bs, holding' i = holding i) : Sees t bs holding' := by
  intro name
  rw [h name]
  cases hi : resolve bs name with
  | none => rfl
  | some i => exact (hh i (List.mem_of_find?_eq_some hi)).symm

/-- A change to what a binding holds is one to its name, where the name stands for it. -/
theorem Sees.update (h : Sees t bs holding) (hi : resolve bs name = some i) (v : Option Holding) :
    Sees (Journal.putBack t name v) bs (Function.update holding i v) := by
  intro other
  rw [Journal.find?_putBack]
  split
  · next heq =>
    rw [← heq, hi]
    exact (Function.update_self i v holding).symm
  · next hne =>
    rw [h other]
    cases hj : resolve bs other with
    | none => rfl
    | some j =>
      have hji : j ≠ i := by
        rintro rfl
        exact hne ((name_of_resolve hi).symm.trans (name_of_resolve hj))
      exact (Function.update_of_ne hji v holding).symm

/-- A new binding takes its name over. -/
theorem Sees.cons (h : Sees t bs holding) (hi : i ∉ bs) (v : Option Holding) :
    Sees (Journal.putBack t i.name v) (i :: bs) (Function.update holding i v) := by
  intro other
  rw [Journal.find?_putBack, resolve_cons]
  split
  · exact (Function.update_self i v holding).symm
  · have hbs := h.congr fun j hj =>
      Function.update_of_ne (ne_of_mem_of_not_mem hj hi) v holding
    exact hbs other

/-- Records by name agree with what bindings hold, here and in the code around: going back to the
copy of a frame, or undoing what the bindings of a block hide, gives the view from outside. -/
inductive Agrees (globals : List Binding) : Table Holding → List (Table Holding) → List Region →
    (Binding → Option Holding) → List Layer → Prop
  | top {t : Table Holding} {holding : Binding → Option Holding} (h : Sees t globals holding) :
      Agrees globals t [] [] holding []
  | frame {t u : Table Holding} {saved : List (Table Holding)} {regions : List Region}
      {holding before : Binding → Option Holding} {layers : List Layer} {bs : List Binding}
      {loans : Table Loans} {o c : Checkpoint}
      (h : Sees t (bs ++ visible globals layers) holding)
      (rest : Agrees globals u saved regions before layers) :
      Agrees globals t (u :: saved) (.frame o c :: regions) holding
        (⟨bs, some before, loans⟩ :: layers)
  | block {t : Table Holding} {saved : List (Table Holding)} {regions : List Region}
      {holding : Binding → Option Holding} {layers : List Layer} {bs : List Binding}
      {loans : Table Loans} {c : Checkpoint} {hidden : List (String × Option Holding)}
      (h : Sees t (bs ++ visible globals layers) holding)
      (own : ∀ name, name ∈ hidden.map Prod.fst ↔ name ∈ bs.map Binding.name)
      (rest : Agrees globals (Journal.undo t hidden) saved regions holding layers) :
      Agrees globals t saved (.block c hidden :: regions) holding (⟨bs, none, loans⟩ :: layers)

theorem visible_cons (globals : List Binding) (l : Layer) (layers : List Layer) :
    visible globals (l :: layers) = l.bindings ++ visible globals layers := by
  unfold visible
  rw [List.flatMap_cons, List.append_assoc]

theorem visible_sublist (globals : List Binding) (l : Layer) (layers : List Layer) :
    (visible globals layers).Sublist (visible globals (l :: layers)) := by
  rw [visible_cons]
  exact List.sublist_append_right _ _

section
variable {globals : List Binding} {t : Table Holding} {saved : List (Table Holding)}
  {regions : List Region} {holding : Binding → Option Holding} {layers : List Layer}

section
variable (h : Agrees globals t saved regions holding layers)
include h

theorem Agrees.sees : Sees t (visible globals layers) holding := by
  cases h with
  | top h => exact h
  | frame h _ =>
    rw [visible_cons]
    exact h
  | block h _ _ =>
    rw [visible_cons]
    exact h

/-- Bindings that cannot be named do not matter. -/
theorem Agrees.congr {holding' : Binding → Option Holding}
    (hh : ∀ i ∈ visible globals layers, holding' i = holding i) :
    Agrees globals t saved regions holding' layers := by
  induction h with
  | top h => exact .top (h.congr hh)
  | frame h rest _ =>
    rw [visible_cons] at hh
    exact .frame (h.congr hh) rest
  | block h own rest ih =>
    rw [visible_cons] at hh
    exact .block (h.congr hh) own (ih fun i hi => hh i (List.mem_append_right _ hi))

/-- A change to the binding that a name stands for is one to the record of the name. In a block the
change goes on outside, unless the block has a binding of the name. -/
theorem Agrees.update (hn : (visible globals layers).Nodup) {name : String} {i : Binding}
    (hi : resolve (visible globals layers) name = some i) (v : Option Holding) :
    Agrees globals (Journal.putBack t name v) saved regions (Function.update holding i v)
      layers := by
  induction h with
  | top h => exact .top (h.update hi v)
  | frame h rest _ =>
    rw [visible_cons] at hi
    exact .frame (h.update hi v) rest
  | @block t saved regions holding layers bs loans c hidden h own rest ih =>
    rw [visible_cons] at hi hn
    obtain ⟨-, hrest, hdisjoint⟩ := List.nodup_append.mp hn
    refine .block (h.update hi v) own ?_
    rw [resolve_append] at hi
    by_cases hm : name ∈ hidden.map Prod.fst
    · rw [Journal.undo_putBack_of_mem hm]
      have hbs : resolve bs name = some i := by
        cases hr : resolve bs name with
        | none => exact absurd ((own name).mp hm) (resolve_eq_none_iff.mp hr)
        | some j =>
          rw [hr] at hi
          exact hi
      have hout : i ∉ visible globals layers :=
        fun hv => hdisjoint i (List.mem_of_find?_eq_some hbs) i hv rfl
      exact rest.congr fun j hj => Function.update_of_ne (ne_of_mem_of_not_mem hj hout) v holding
    · rw [Journal.undo_putBack_of_notMem hm]
      have hbs : resolve bs name = none := resolve_eq_none_iff.mpr (mt (own name).mpr hm)
      rw [hbs] at hi
      exact ih hrest hi

end

end

end Bindings

/-! ### Changes to records -/

theorem Ownership.track_eq_restore (o : Ownership) (name : String) (ty : Ty) :
    o.track name ty = o.restore name (Bindings.initial ty) := by
  unfold track Bindings.initial
  cases ty.category <;> rfl

theorem Ownership.represents_restore {o : Ownership} {m : Snapshots Holding}
    (h : o.records.Represents held m) (name : String) (v : Option Holding) :
    (o.restore name v).records.Represents held ⟨Journal.putBack m.table name v, m.saved⟩ := by
  cases v with
  | none => exact h.erase name
  | some v => exact h.insert name v

theorem Ownership.represents_restoreAll (hidden : List (String × Option Holding)) {o : Ownership}
    {m : Snapshots Holding} (h : o.records.Represents held m) :
    (hidden.foldl (fun o (name, record) => o.restore name record) o).records.Represents held
      ⟨Journal.undo m.table hidden, m.saved⟩ := by
  induction hidden generalizing o m with
  | nil => exact h
  | cons e hidden ih => exact ih (represents_restore h e.1 e.2)

/-- Binding a name in a block does not change what the block gives back when it is left. -/
theorem Custody.hide_block (c : Custody) (name : String) (b : Checkpoint)
    (hidden : List (String × Option Holding)) (regions : List Region) :
    ∃ hidden', c.hide name (.block b hidden :: regions) = .block b hidden' :: regions ∧
      (∀ other, other ∈ hidden'.map Prod.fst ↔ name = other ∨ other ∈ hidden.map Prod.fst) ∧
      ∀ v, Journal.undo (Journal.putBack c.ownership.records.entries name v) hidden' =
        Journal.undo c.ownership.records.entries hidden := by
  have hany : hidden.any (·.1 = name) = true ↔ name ∈ hidden.map Prod.fst := by simp
  by_cases hm : name ∈ hidden.map Prod.fst
  · refine ⟨hidden, ?_, ?_, Journal.undo_putBack_of_mem hm _⟩
    · rw [hide, if_pos (hany.mpr hm)]
    · intro other
      constructor
      · exact .inr
      · rintro (rfl | h)
        · exact hm
        · exact h
  · refine ⟨hidden ++ [(name, c.ownership.state? name)], ?_, ?_, ?_⟩
    · rw [hide, if_neg (mt hany.mp hm)]
    · intro other
      rw [List.map_append, List.mem_append, or_comm]
      simp [eq_comm]
    · intro v
      have hold : c.ownership.state? name = c.ownership.records.entries.find? name := rfl
      generalize c.ownership.records.entries = t at *
      calc Journal.undo (Journal.putBack t name v) (hidden ++ [(name, c.ownership.state? name)])
          = Journal.putBack (Journal.putBack (Journal.undo t hidden) name v) name
              (t.find? name) := by
            rw [Journal.undo_append, Journal.undo_putBack_of_notMem hm, hold]
            rfl
        _ = Journal.undo (Journal.putBack t name (t.find? name)) hidden := by
            rw [Journal.putBack_putBack, Journal.undo_putBack_of_notMem hm]
        _ = Journal.undo t hidden := by rw [Journal.putBack_self]

theorem Borrows.represents_borrow {b : Borrows} {m : Snapshots Loans}
    (h : b.loans.Represents held m) (name : String) (mutable : Bool) :
    (b.borrow name mutable).2.loans.Represents held
      (m.insert name (((m.table.find? name).getD .none).add mutable)) := by
  have hcontains : b.loans.contains name = (m.table.find? name).isSome := by
    rw [Journal.contains, h.table]
    rfl
  change ((if b.loans.contains name then b.loans else b.loans.insert name .none).update name
    (·.add mutable)).2.Represents held _
  rw [hcontains]
  cases hf : m.table.find? name with
  | some l =>
    have hu := h.update name (·.add mutable)
    rw [Snapshots.update, hf] at hu
    exact hu
  | none =>
    have hu := (h.insert name .none).update name (·.add mutable)
    have hfound : (m.insert name .none).table.find? name = some .none :=
      (Table.find?_insert _ _ _ _).trans (if_pos rfl)
    have htwice : (m.insert name .none).insert name (Loans.none.add mutable) =
        m.insert name (Loans.none.add mutable) :=
      congrArg (Snapshots.mk · m.saved) (Journal.putBack_putBack m.table name (some _) (some _))
    rw [Snapshots.update, hfound] at hu
    dsimp only at hu
    rw [htwice] at hu
    exact hu

namespace Bindings

/-! ### The two ways side by side -/

/-- Records by name and records by binding say the same. -/
structure Tracks (c : Custody) (b : Bindings) : Prop where
  records : ∃ m, c.ownership.records.Represents ((c.regions.map Region.marks).filterMap Prod.fst) m ∧
    Agrees b.globals m.table m.saved c.regions b.holding b.layers
  borrows : c.borrows.loans.Represents ((c.regions.map Region.marks).map Prod.snd)
    ⟨b.loans, b.layers.map Layer.loans⟩
  distinct : b.scope.Nodup
  fresh : ∀ i ∈ b.scope, i.serial < b.next

variable {c : Custody} {b : Bindings}

section
variable (h : Tracks c b)
include h

theorem Tracks.sees (name : String) :
    c.ownership.state? name = (resolve b.scope name).bind b.holding := by
  obtain ⟨m, hr, ha⟩ := h.records
  rw [Ownership.state?, Journal.find?, hr.table]
  exact ha.sees name

theorem Tracks.movedAt? (name : String) : c.ownership.movedAt? name = b.movedAt? name := by
  have hsees := h.sees name
  unfold Ownership.movedAt? Bindings.movedAt?
  generalize c.ownership.state? name = record at hsees ⊢
  subst hsees
  cases (resolve b.scope name).bind b.holding with
  | none => rfl
  | some record => cases record <;> rfl

theorem Tracks.loansOf (name : String) : c.borrows.of name = b.loansOf name := by
  unfold Borrows.of Bindings.loansOf
  rw [Journal.find?, h.borrows.table]

theorem Tracks.borrowed :
    c.borrows.active = (b.loans.entries.filter fun e => e.2.isActive).map (·.1) := by
  unfold Borrows.active
  rw [h.borrows.table]

theorem Tracks.enterFrame : Tracks c.enterFrame b.enterFrame := by
  obtain ⟨m, hr, ha⟩ := h.records
  exact ⟨⟨m.push, hr.push, .frame ha.sees ha⟩, h.borrows.push, h.distinct, h.fresh⟩

theorem Tracks.enterBlock : Tracks c.enterBlock b.enterBlock := by
  obtain ⟨m, hr, ha⟩ := h.records
  exact ⟨⟨m, hr, .block ha.sees (fun _ => Iff.rfl) ha⟩, h.borrows.push, h.distinct, h.fresh⟩

theorem Tracks.leaveFrame : Tracks c.leaveFrame b.leaveFrame := by
  obtain ⟨ownership, borrows, regions⟩ := c
  obtain ⟨next, globals, layers, holding, loans⟩ := b
  obtain ⟨⟨⟨t, saved⟩, hr, ha⟩, hb, hn, hf⟩ := id h
  cases ha with
  | top _ | block _ _ _ => exact h
  | @frame t u saved regions holding before layers bs loans' o b hs rest =>
    have hsub := visible_sublist globals ⟨bs, some before, loans'⟩ layers
    exact ⟨⟨⟨u, saved⟩, hr.pop, rest⟩, hb.pop, hn.sublist hsub, fun i hi => hf i (hsub.subset hi)⟩

theorem Tracks.leaveBlock : Tracks c.leaveBlock b.leaveBlock := by
  obtain ⟨ownership, borrows, regions⟩ := c
  obtain ⟨next, globals, layers, holding, loans⟩ := b
  obtain ⟨⟨⟨t, saved⟩, hr, ha⟩, hb, hn, hf⟩ := id h
  cases ha with
  | top _ | frame _ _ => exact h
  | @block t saved regions holding layers bs loans' b hidden hs own rest =>
    have hsub := visible_sublist globals ⟨bs, none, loans'⟩ layers
    have hundo := Ownership.represents_restoreAll hidden hr
    exact ⟨⟨_, hundo, rest⟩, hb.pop, hn.sublist hsub, fun i hi => hf i (hsub.subset hi)⟩

theorem Tracks.move (name : String) (site : MoveSite) :
    Tracks (c.move name site) (b.move name site) := by
  obtain ⟨m, hr, ha⟩ := h.records
  have hsees := h.sees name
  unfold Custody.move Ownership.markMoved Bindings.move
  change c.ownership.records.find? name = _ at hsees
  cases hi : resolve b.scope name with
  | none =>
    rw [hi] at hsees
    rw [hsees]
    exact h
  | some i =>
    have hhold : c.ownership.records.find? name = b.holding i := by
      rw [hsees, hi]
      rfl
    rw [hhold]
    by_cases hown : b.holding i = some .owned
    · simp only [if_pos hown]
      have hmoved := Ownership.represents_restore hr name (some (.moved site))
      exact ⟨⟨_, hmoved, ha.update h.distinct hi (some (.moved site))⟩, h.borrows, h.distinct, h.fresh⟩
    · simp only [if_neg hown]
      exact h

theorem Tracks.borrow (name : String) (mutable : Bool) :
    (c.borrow name mutable).1 = (b.borrow name mutable).1 ∧
      Tracks (c.borrow name mutable).2 (b.borrow name mutable).2 := by
  constructor
  · exact congrArg (Loans.conflicts · mutable) (h.loansOf name)
  · exact ⟨h.records, Borrows.represents_borrow h.borrows name mutable, h.distinct, h.fresh⟩

end

/-- A new binding is in front of all others. -/
theorem scope_bind (b : Bindings) (name : String) (ty : Ty) :
    (b.bind name ty).scope = ⟨name, b.next⟩ :: b.scope := by
  obtain ⟨next, globals, layers, holding, loans⟩ := b
  cases layers <;> rfl

theorem next_bind (b : Bindings) (name : String) (ty : Ty) :
    (b.bind name ty).next = b.next + 1 := by
  obtain ⟨next, globals, layers, holding, loans⟩ := b
  cases layers <;> rfl

theorem loans_bind (b : Bindings) (name : String) (ty : Ty) :
    (b.bind name ty).loans = b.loans ∧
      (b.bind name ty).layers.map Layer.loans = b.layers.map Layer.loans := by
  obtain ⟨next, globals, layers, holding, loans⟩ := b
  cases layers <;> exact ⟨rfl, rfl⟩

/-- A block notes what a binding of its own hides; elsewhere there is nothing to note. -/
theorem Agrees.bind {saved : List (Table Holding)}
    (ha : Agrees b.globals c.ownership.records.entries saved c.regions b.holding b.layers)
    {name : String} (hnew : (⟨name, b.next⟩ : Binding) ∉ b.scope) (ty : Ty) :
    Agrees (b.bind name ty).globals
      (Journal.putBack c.ownership.records.entries name (initial ty)) saved
      (c.hide name c.regions) (b.bind name ty).holding (b.bind name ty).layers := by
  obtain ⟨ownership, borrows, regions⟩ := c
  obtain ⟨next, globals, layers, holding, loans⟩ := b
  unfold scope at hnew
  cases ha with
  | top hs => exact .top (hs.cons hnew (initial ty))
  | frame hs rest =>
    rw [visible_cons] at hnew
    exact .frame (hs.cons hnew (initial ty)) rest
  | @block _ saved regions holding layers bs loans' m hidden hs own rest =>
    rw [visible_cons] at hnew
    obtain ⟨hidden', hregions, hmem, hundo⟩ :=
      Custody.hide_block ⟨ownership, borrows, .block m hidden :: regions⟩ name m hidden regions
    rw [hregions]
    refine .block (hs.cons hnew (initial ty)) ?_ ?_
    · intro other
      rw [hmem other, own other, List.map_cons, List.mem_cons, eq_comm]
    · rw [hundo]
      refine rest.congr fun i hi => Function.update_of_ne ?_ _ _
      exact ne_of_mem_of_not_mem (List.mem_append_right bs hi) hnew

theorem Tracks.bind (h : Tracks c b) (name : String) (ty : Ty) :
    Tracks (c.bind name ty) (b.bind name ty) := by
  have hnew : (⟨name, b.next⟩ : Binding) ∉ b.scope := fun hi => Nat.lt_irrefl _ (h.fresh _ hi)
  have hmarks : (c.bind name ty).regions.map Region.marks = c.regions.map Region.marks :=
    Custody.marks_hide c name c.regions
  obtain ⟨⟨t, saved⟩, hr, ha⟩ := h.records
  obtain rfl : c.ownership.records.entries = t := hr.table
  refine ⟨⟨⟨_, saved⟩, ?_, ha.bind hnew ty⟩, ?_, ?_, ?_⟩
  · rw [hmarks]
    change (c.ownership.track name ty).records.Represents _ _
    rw [Ownership.track_eq_restore]
    exact Ownership.represents_restore hr name (initial ty)
  · rw [hmarks, (loans_bind b name ty).1, (loans_bind b name ty).2]
    exact h.borrows
  · rw [scope_bind]
    exact List.nodup_cons.mpr ⟨hnew, h.distinct⟩
  · rw [scope_bind, next_bind]
    intro i hi
    rcases List.mem_cons.mp hi with rfl | hi
    · exact Nat.lt_succ_self _
    · exact Nat.lt_succ_of_lt (h.fresh i hi)

end Bindings

end CarvFront
