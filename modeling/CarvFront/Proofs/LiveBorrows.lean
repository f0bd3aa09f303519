import CarvFront.Proofs.Bindings
import CarvFront.Proofs.StatePrecision

/-! What a tracker of borrows answers, against a ledger of all borrows that were ever made. The ledger
takes nothing back: a borrow is live in it as long as no frame that was open around it is closed. -/
namespace CarvFront.Borrows

/-- What can be done with a tracker of borrows. -/
inductive Op where
  | borrow (name : String) (mutable : Bool)
  | push
  | pop
deriving DecidableEq

/-- A tracker in use, with the checkpoints of the frames that are still open, the latest first. -/
structure Session where
  borrows : Borrows
  held : List Checkpoint

namespace Session

def start : Session := ⟨.empty, []⟩

/-- A frame is closed with the checkpoint of the latest one that is still open. -/
def step (s : Session) : Op → Session
  | .borrow name mutable => { s with borrows := (s.borrows.borrow name mutable).2 }
  | .push => ⟨s.borrows.push.2, s.borrows.push.1 :: s.held⟩
  | .pop =>
    match s.held with
    | [] => s
    | c :: held => ⟨s.borrows.pop c, held⟩

def run (ops : List Op) : Session :=
  ops.foldl step start

end Session

/-! ### The ledger -/

/-- One borrow that was made. -/
structure Loan where
  name : String
  mutable : Bool
  /-- The frames that were open then. -/
  frames : List Nat

/-- All borrows and all frames there have been. A frame is known by how many were opened before it. -/
structure Ledger where
  opened : Nat
  /-- The frames that are open now, the latest first. -/
  current : List Nat
  closed : List Nat
  loans : List Loan

namespace Ledger

def start : Ledger := ⟨0, [], [], []⟩

def step (l : Ledger) : Op → Ledger
  | .borrow name mutable => { l with loans := ⟨name, mutable, l.current⟩ :: l.loans }
  | .push => { l with opened := l.opened + 1, current := l.opened :: l.current }
  | .pop =>
    match l.current with
    | [] => l
    | f :: current => { l with current := current, closed := f :: l.closed }

def run (ops : List Op) : Ledger :=
  ops.foldl step start

/-- The borrows that still last: none of the frames that were open around them is closed. -/
def live (l : Ledger) : List Loan :=
  l.loans.filter fun loan => loan.frames.all (· ∉ l.closed)

end Ledger

/-- How many of some borrows are of a name and of a kind. -/
def count (loans : List Loan) (name : String) (mutable : Bool) : Nat :=
  loans.countP fun loan => loan.name = name && loan.mutable = mutable

/-- What a tracker notes of some borrows under a name. -/
def tally (loans : List Loan) (name : String) : Loans :=
  ⟨count loans name false, 0 < count loans name true⟩

theorem tally_cons (loan : Loan) (loans : List Loan) (name : String) :
    tally (loan :: loans) name =
      if loan.name = name then (tally loans name).add loan.mutable else tally loans name := by
  obtain ⟨own, mutable, frames⟩ := loan
  by_cases hname : own = name
  · cases mutable <;> simp [tally, count, Loans.add, hname]
  · simp [tally, count, hname]

theorem isActive_tally (loans : List Loan) (name : String) :
    (tally loans name).isActive ↔ 0 < count loans name false ∨ 0 < count loans name true := by
  change (decide (0 < count loans name false) || decide (0 < count loans name true)) ↔ _
  rw [Bool.or_eq_true, decide_eq_true_eq, decide_eq_true_eq]

/-! ### Frames and what comes back -/

/-- The records of a table are those of some borrows. -/
def Tallies (t : Table Loans) (loans : List Loan) : Prop :=
  ∀ name, (t.find? name).getD .none = tally loans name

theorem Tallies.insert {t : Table Loans} {loans : List Loan} (h : Tallies t loans) (name : String)
    (mutable : Bool) (frames : List Nat) :
    Tallies (t.insert name (((t.find? name).getD .none).add mutable))
      (⟨name, mutable, frames⟩ :: loans) := by
  intro other
  rw [tally_cons, Table.find?_insert, ← h other]
  by_cases hname : name = other
  · rw [if_pos hname, if_pos hname, hname]
    rfl
  · rw [if_neg hname, if_neg hname]

/-- A table tallies some borrows, and the copies that come back when frames are closed tally those
borrows that were not made in the frames. -/
inductive Agrees : Table Loans → List (Table Loans) → List Nat → List Loan → Prop
  | top {t : Table Loans} {loans : List Loan} (h : Tallies t loans) : Agrees t [] [] loans
  | inside {t u : Table Loans} {saved : List (Table Loans)} {f : Nat} {frames : List Nat}
      {loans : List Loan} (h : Tallies t loans)
      (rest : Agrees u saved frames (loans.filter fun loan => f ∉ loan.frames)) :
      Agrees t (u :: saved) (f :: frames) loans

section Agrees
variable {t : Table Loans} {saved : List (Table Loans)} {frames : List Nat} {loans : List Loan}

theorem Agrees.tallies (h : Agrees t saved frames loans) : Tallies t loans := by
  cases h with
  | top h => exact h
  | inside h _ => exact h

/-- A borrow changes the table. The copies stay, as it is made in all open frames. -/
theorem Agrees.borrow (h : Agrees t saved frames loans) (name : String) (mutable : Bool) :
    Agrees (t.insert name (((t.find? name).getD .none).add mutable)) saved frames
      (⟨name, mutable, frames⟩ :: loans) := by
  have ht := h.tallies.insert name mutable frames
  cases h with
  | top _ => exact .top ht
  | inside _ rest =>
    refine .inside ht ?_
    rw [List.filter_cons_of_neg (by simp)]
    exact rest

/-- A frame that nothing was borrowed in yet. -/
theorem Agrees.push (h : Agrees t saved frames loans) {f : Nat}
    (hf : ∀ loan ∈ loans, f ∉ loan.frames) : Agrees t (t :: saved) (f :: frames) loans := by
  refine .inside h.tallies ?_
  rw [List.filter_eq_self.mpr fun loan hl => decide_eq_true (hf loan hl)]
  exact h

end Agrees

/-! ### Runs -/

/-- A tracker in use is in step with a ledger. -/
structure Follows (s : Session) (l : Ledger) : Prop where
  records : ∃ m, s.borrows.loans.Represents s.held m ∧ Agrees m.table m.saved l.current l.live
  distinct : (l.current ++ l.closed).Nodup
  fresh : ∀ f ∈ l.current ++ l.closed, f < l.opened
  known : ∀ loan ∈ l.loans, ∀ f ∈ loan.frames, f < l.opened

section Follows
variable {s : Session} {l : Ledger}

theorem follows_start : Follows .start .start where
  records := ⟨.empty, Journal.represents_empty, .top fun _ => rfl⟩
  distinct := .nil
  fresh := by simp [Ledger.start]
  known := by simp [Ledger.start]

theorem Follows.borrow (h : Follows s l) (name : String) (mutable : Bool) :
    Follows (s.step (.borrow name mutable)) (l.step (.borrow name mutable)) where
  records := by
    obtain ⟨m, hr, ha⟩ := h.records
    have hapart := (List.nodup_append.mp h.distinct).2.2
    have hopen : l.current.all (· ∉ l.closed) :=
      List.all_eq_true.mpr fun f hf => decide_eq_true fun hc => hapart f hf f hc rfl
    have hlive : (l.step (.borrow name mutable)).live = ⟨name, mutable, l.current⟩ :: l.live :=
      List.filter_cons_of_pos hopen
    rw [hlive]
    exact ⟨_, represents_borrow hr name mutable, ha.borrow name mutable⟩
  distinct := h.distinct
  fresh := h.fresh
  known := by
    refine List.forall_mem_cons.mpr ⟨fun f hf => ?_, h.known⟩
    exact h.fresh f (List.mem_append_left _ hf)

theorem Follows.push (h : Follows s l) : Follows (s.step .push) (l.step .push) where
  records := by
    obtain ⟨m, hr, ha⟩ := h.records
    refine ⟨m.push, hr.push, ha.push fun loan hl hf => ?_⟩
    exact Nat.lt_irrefl _ (h.known loan (List.mem_of_mem_filter hl) _ hf)
  distinct := List.nodup_cons.mpr ⟨fun hf => Nat.lt_irrefl _ (h.fresh _ hf), h.distinct⟩
  fresh := by
    refine List.forall_mem_cons.mpr ⟨Nat.lt_succ_self _, fun f hf => ?_⟩
    exact Nat.lt_succ_of_lt (h.fresh f hf)
  known := fun loan hl f hf => Nat.lt_succ_of_lt (h.known loan hl f hf)

/-- Closing a frame ends the borrows that were made in it. -/
theorem live_pop {f : Nat} {current : List Nat} (hc : l.current = f :: current) :
    (l.step .pop).live = l.live.filter fun loan => f ∉ loan.frames := by
  obtain ⟨opened, _, closed, loans⟩ := l
  subst hc
  change loans.filter (fun loan => loan.frames.all (· ∉ f :: closed)) =
    (loans.filter fun loan => loan.frames.all (· ∉ closed)).filter _
  rw [List.filter_filter]
  congr 1
  funext loan
  rw [Bool.eq_iff_iff]
  simp only [Bool.and_eq_true, List.all_eq_true, decide_eq_true_eq, List.mem_cons, not_or]
  grind

theorem Follows.pop (h : Follows s l) : Follows (s.step .pop) (l.step .pop) := by
  obtain ⟨⟨t, saved⟩, hr, ha⟩ := h.records
  obtain ⟨borrows, held⟩ := s
  have hlive {f : Nat} {frames : List Nat} (hc : l.current = f :: frames) := live_pop hc
  obtain ⟨opened, current, closed, loans⟩ := l
  cases held with
  | nil =>
    obtain rfl : saved = [] := (Journal.Keeps.closed_iff.mp hr.keeps).2
    cases ha with
    | top _ => exact h
  | cons c held =>
    obtain ⟨_, _, saved, _, _, rfl, _⟩ := Journal.Keeps.frame_iff.mp hr.keeps
    cases ha with
    | inside _ rest =>
      refine ⟨⟨_, hr.pop, ?_⟩, ?_, ?_, h.known⟩
      · rw [hlive rfl]
        exact rest
      · exact List.perm_middle.nodup_iff.mpr h.distinct
      · exact fun g hg => h.fresh g (List.perm_middle.mem_iff.mp hg)

theorem Follows.step (h : Follows s l) (op : Op) : Follows (s.step op) (l.step op) := by
  cases op with
  | borrow name mutable => exact h.borrow name mutable
  | push => exact h.push
  | pop => exact h.pop

theorem Follows.run (h : Follows s l) (ops : List Op) :
    Follows (ops.foldl Session.step s) (ops.foldl Ledger.step l) := by
  induction ops generalizing s l with
  | nil => exact h
  | cons op ops ih => exact ih (h.step op)

/-- A tracker in step with a ledger has the records of the live borrows. -/
theorem Follows.of_eq (h : Follows s l) (name : String) :
    s.borrows.of name = tally l.live name := by
  obtain ⟨m, hr, ha⟩ := h.records
  rw [Borrows.of, Journal.find?, hr.table]
  exact ha.tallies name

end Follows

/-! ### Answers -/

theorem pairwise_active (b : Borrows) : b.active.Pairwise (· < ·) :=
  List.pairwise_map.mpr (b.loans.entries.sorted.filter _)

theorem mem_active_iff (b : Borrows) (name : String) : name ∈ b.active ↔ b.isBorrowed name := by
  have hmem : name ∈ b.active ↔ ∃ l, (name, l) ∈ b.loans.entries.entries ∧ l.isActive := by
    simp [active]
  rw [hmem, isBorrowed, Borrows.of, Journal.find?]
  simp only [← Table.find?_eq_some_iff]
  cases b.loans.entries.find? name with
  | none => simp [Loans.isActive, Loans.none]
  | some l => simp

theorem count_step (l : Ledger) (op : Op) (name : String) (mutable : Bool) :
    count (l.step op).loans name mutable =
      count l.loans name mutable + if op == .borrow name mutable then 1 else 0 := by
  cases op with
  | borrow own kind => simp [Ledger.step, count, List.countP_cons]
  | push => rfl
  | pop =>
    obtain ⟨opened, current, closed, loans⟩ := l
    cases current <;> rfl

/-- The ledger has every borrow that was made. -/
theorem count_loans (ops : List Op) (l : Ledger) (name : String) (mutable : Bool) :
    count (ops.foldl Ledger.step l).loans name mutable =
      count l.loans name mutable + ops.count (.borrow name mutable) := by
  induction ops generalizing l with
  | nil => rfl
  | cons op ops ih =>
    rw [List.foldl_cons, ih, count_step, List.count_cons, Nat.add_assoc, Nat.add_comm (ite _ _ _)]

theorem count_live_le (l : Ledger) (name : String) (mutable : Bool) :
    count l.live name mutable ≤ count l.loans name mutable :=
  List.filter_sublist.countP_le

/-- A tracker counts exactly the live borrows, whatever was borrowed before and however the frames
nest: it answers from their numbers, and lists the names that have one in order. A borrow is in
conflict with the live ones only. No number is beyond that of the borrows asked for. -/
theorem run_counts_live (ops : List Op) (name : String) :
    let b := (Session.run ops).borrows
    let shared := count (Ledger.run ops).live name false
    let mutable := count (Ledger.run ops).live name true
    (b.of name).shared = shared ∧ ((b.of name).mutable ↔ 0 < mutable) ∧
      (b.isBorrowed name ↔ 0 < shared ∨ 0 < mutable) ∧
      b.active.Pairwise (· < ·) ∧ (name ∈ b.active ↔ 0 < shared ∨ 0 < mutable) ∧
      (b.borrow name true).1 = (if 0 < shared then [.mutWhileShared] else []) ++
        (if 0 < mutable then [.mutWhileMut] else []) ∧
      (b.borrow name false).1 = (if 0 < mutable then [.sharedWhileMut] else []) ∧
      shared ≤ ops.count (.borrow name false) := by
  intro b shared mutable
  have hof : b.of name = ⟨shared, 0 < mutable⟩ := (follows_start.run ops).of_eq name
  have hborrowed : b.isBorrowed name ↔ 0 < shared ∨ 0 < mutable := by
    rw [isBorrowed, hof]
    exact isActive_tally _ name
  have hconflicts (m : Bool) : (b.borrow name m).1 = Loans.conflicts ⟨shared, 0 < mutable⟩ m :=
    congrArg (Loans.conflicts · m) hof
  refine ⟨?_, ?_, hborrowed, pairwise_active b, ?_, ?_, ?_, ?_⟩
  · rw [hof]
  · rw [hof, decide_eq_true_eq]
  · rw [mem_active_iff, hborrowed]
  · rw [hconflicts]
    simp [Loans.conflicts]
  · rw [hconflicts]
    simp [Loans.conflicts]
  · calc shared ≤ count (Ledger.run ops).loans name false := count_live_le _ name false
      _ = ops.count (.borrow name false) := by
        rw [Ledger.run, count_loans]
        exact Nat.zero_add _

end CarvFront.Borrows
