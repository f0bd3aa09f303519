import CarvFront.Journal

/-! A journal answers like a table that is copied whole whenever a frame is opened. What was noted
since a frame was opened, undone, gives the copy that was made then. -/
namespace CarvFront

/-- A table and the copies made of it, one for every open frame, the latest first. -/
structure Snapshots (α : Type) where
  table : Table α
  saved : List (Table α)

namespace Snapshots
variable {α : Type}

def empty : Snapshots α := ⟨∅, []⟩

/-- Open a frame: keep a copy. -/
def push (m : Snapshots α) : Snapshots α :=
  ⟨m.table, m.table :: m.saved⟩

/-- Close a frame: go back to the latest copy. -/
def pop (m : Snapshots α) : Snapshots α :=
  match m.saved with
  | [] => m
  | t :: saved => ⟨t, saved⟩

def insert (m : Snapshots α) (name : String) (value : α) : Snapshots α :=
  { m with table := m.table.insert name value }

def erase (m : Snapshots α) (name : String) : Snapshots α :=
  { m with table := m.table.erase name }

def update (m : Snapshots α) (name : String) (f : α → α) : Snapshots α :=
  match m.table.find? name with
  | some old => m.insert name (f old)
  | none => m

end Snapshots

namespace Journal
variable {α : Type}
variable {name : String} {t : Table α} {j j' : Journal α} {trail : List (String × Option α)}
  {saved : List (Table α)} {held : List Checkpoint} {m : Snapshots α}

/-! ### Undoing changes -/

/-- Undo some changes, the first of the list first. -/
def undo (t : Table α) (changes : List (String × Option α)) : Table α :=
  changes.foldl (fun t e => putBack t e.1 e.2) t

theorem undo_append (t : Table α) (as bs : List (String × Option α)) :
    undo t (as ++ bs) = undo (undo t as) bs :=
  List.foldl_append

/-- Rewinding to the size of a part of the trail undoes what was noted after that part. -/
theorem rewind_append (t : Table α) (as bs : List (String × Option α)) :
    rewind bs.length t (as ++ bs) = (undo t as, bs) := by
  induction as generalizing t with
  | nil =>
    cases bs with
    | nil => rfl
    | cons b bs =>
      have hlt : ¬ (b :: bs).length ≤ bs.length := by simp
      rw [List.nil_append, rewind, if_neg hlt]
      rfl
  | cons a as ih =>
    have hle : bs.length ≤ (as ++ bs).length := by simp
    rw [List.cons_append, rewind, if_pos hle, ih]
    rfl

theorem find?_putBack (t : Table α) (name other : String) (old : Option α) :
    (putBack t name old).find? other = if name = other then old else t.find? other := by
  cases old with
  | none => exact Table.find?_erase t name other
  | some v => exact Table.find?_insert t name other v

/-- The last thing put back counts. -/
theorem putBack_putBack (t : Table α) (name : String) (a b : Option α) :
    putBack (putBack t name a) name b = putBack t name b := by
  apply Table.ext_find?
  intro other
  simp only [find?_putBack]
  split <;> rfl

theorem putBack_self (t : Table α) (name : String) : putBack t name (t.find? name) = t := by
  apply Table.ext_find?
  intro other
  rw [find?_putBack]
  split
  · next heq => rw [heq]
  · rfl

theorem putBack_comm (t : Table α) {other : String} (hne : name ≠ other) (a b : Option α) :
    putBack (putBack t name a) other b = putBack (putBack t other b) name a := by
  apply Table.ext_find?
  intro third
  simp only [find?_putBack]
  split
  · next heq => rw [if_neg (heq ▸ hne)]
  · rfl

/-- A change to a name that is put back in any case does not matter. -/
theorem undo_putBack_of_mem {changes : List (String × Option α)} (h : name ∈ changes.map Prod.fst)
    (t : Table α) (v : Option α) : undo (putBack t name v) changes = undo t changes := by
  induction changes generalizing t with
  | nil => cases h
  | cons e changes ih =>
    change undo (putBack (putBack t name v) e.1 e.2) changes = undo (putBack t e.1 e.2) changes
    by_cases he : name = e.1
    · rw [he, putBack_putBack]
    · have hrest : name ∈ changes.map Prod.fst := (List.mem_cons.mp h).resolve_left he
      rw [putBack_comm t he, ih hrest]

/-- A change to any other name can as well be made afterwards. -/
theorem undo_putBack_of_notMem {changes : List (String × Option α)}
    (h : name ∉ changes.map Prod.fst) (t : Table α) (v : Option α) :
    undo (putBack t name v) changes = putBack (undo t changes) name v := by
  induction changes generalizing t with
  | nil => rfl
  | cons e changes ih =>
    obtain ⟨he, hrest⟩ := not_or.mp (mt List.mem_cons.mpr h)
    change undo (putBack (putBack t name v) e.1 e.2) changes =
      putBack (undo (putBack t e.1 e.2) changes) name v
    rw [putBack_comm t he, ih hrest]

theorem putBack_insert (t : Table α) (name : String) (value : α) :
    putBack (t.insert name value) name (t.find? name) = t :=
  (putBack_putBack t name (some value) _).trans (putBack_self t name)

theorem putBack_erase {old : α} (h : t.find? name = some old) :
    putBack (t.erase name) name (some old) = t := by
  rw [← h]
  exact (putBack_putBack t name none _).trans (putBack_self t name)

theorem erase_of_absent (h : t.find? name = none) : t.erase name = t := by
  have hself := putBack_self t name
  rw [h] at hself
  exact hself

/-! ### What a change does -/

/-- One journal comes from another by a change that was noted if a frame is open. -/
def Changed (j j' : Journal α) : Prop :=
  j' = j ∨ ∃ t name old, j' = { j with entries := t }.note name old ∧ putBack t name old = j.entries

theorem changed_insert (j : Journal α) (name : String) (value : α) :
    Changed j (j.insert name value) :=
  .inr ⟨_, _, _, rfl, putBack_insert _ _ _⟩

theorem changed_erase (j : Journal α) (name : String) : Changed j (j.erase name) := by
  unfold erase
  split
  · next old h => exact .inr ⟨_, _, _, rfl, putBack_erase h⟩
  · exact .inl rfl

theorem changed_update (j : Journal α) (name : String) (f : α → α) :
    Changed j (j.update name f).2 := by
  unfold update
  split
  · next old h => exact .inr ⟨_, _, _, rfl, h ▸ putBack_insert _ _ _⟩
  · exact .inl rfl

@[simp] theorem entries_note (j : Journal α) (name : String) (old : Option α) :
    (j.note name old).entries = j.entries := by
  unfold note; split <;> rfl

@[simp] theorem frames_note (j : Journal α) (name : String) (old : Option α) :
    (j.note name old).frames = j.frames := by
  unfold note; split <;> rfl

@[simp] theorem entries_insert (j : Journal α) (name : String) (value : α) :
    (j.insert name value).entries = j.entries.insert name value := by
  simp [insert]

@[simp] theorem entries_erase (j : Journal α) (name : String) :
    (j.erase name).entries = j.entries.erase name := by
  unfold erase
  split
  · simp
  · next h => exact (erase_of_absent h).symm

theorem Changed.frames (h : Changed j j') : j'.frames = j.frames := by
  rcases h with rfl | ⟨t, name, old, rfl, -⟩
  · rfl
  · simp

theorem Changed.trail_of_closed (h : Changed j j') (hf : j.frames = 0) : j'.trail = j.trail := by
  rcases h with rfl | ⟨t, name, old, rfl, -⟩
  · rfl
  · simp [note, hf]

/-- While a frame is open, undoing what was noted undoes the change. -/
theorem Changed.undone (h : Changed j j') (hf : 0 < j.frames) :
    ∃ notes, j'.trail = notes ++ j.trail ∧ undo j'.entries notes = j.entries := by
  rcases h with rfl | ⟨t, name, old, rfl, h⟩
  · exact ⟨[], rfl, rfl⟩
  · refine ⟨[(name, old)], ?_, ?_⟩
    · simp [note, hf]
    · simpa [undo] using h

/-- One journal comes from another by changes and by frames that were opened and closed again: while
a frame is open, undoing what was noted gives the old entries. -/
structure Extends (j j' : Journal α) : Prop where
  frames : j'.frames = j.frames
  undone : 0 < j.frames → ∃ notes, j'.trail = notes ++ j.trail ∧ undo j'.entries notes = j.entries

theorem Extends.refl (j : Journal α) : Extends j j :=
  ⟨rfl, fun _ => ⟨[], rfl, rfl⟩⟩

theorem Extends.trans {i k : Journal α} (h : Extends i j) (h' : Extends j k) : Extends i k := by
  refine ⟨h'.frames.trans h.frames, fun hf => ?_⟩
  obtain ⟨earlier, ht, hu⟩ := h.undone hf
  obtain ⟨later, ht', hu'⟩ := h'.undone (h.frames ▸ hf)
  refine ⟨later ++ earlier, ?_, ?_⟩
  · rw [ht', ht, List.append_assoc]
  · rw [undo_append, hu', hu]

theorem Changed.extends (h : Changed j j') : Extends j j' :=
  ⟨h.frames, h.undone⟩

/-- Whatever is done in a frame, closing it gives back the journal that it was opened on. -/
theorem Extends.pop_push (h : Extends j.push.2 j') : j'.pop j.push.1 = j := by
  obtain ⟨notes, ht, hu⟩ := h.undone (Nat.succ_pos _)
  have hr : rewind j.push.1.size j'.entries j'.trail = (j.entries, j.trail) := by
    rw [ht]
    exact (rewind_append _ _ _).trans (congrArg (·, j.trail) hu)
  have hf : j'.frames - 1 = j.frames := by
    rw [h.frames]
    exact Nat.add_sub_cancel j.frames 1
  rw [pop, hr, hf]

/-! ### The copies in a journal -/

/-- The copies that a trail stands for. `held` are the checkpoints of the open frames, the innermost
first: each cuts off what was noted since, and undoing that part gives the copy. -/
inductive Keeps : Table α → List (String × Option α) → List Checkpoint → List (Table α) → Prop
  | closed (t : Table α) : Keeps t [] [] []
  | frame (t : Table α) (notes : List (String × Option α)) {rest : List (String × Option α)}
      {held : List Checkpoint} {saved : List (Table α)} (h : Keeps (undo t notes) rest held saved) :
      Keeps t (notes ++ rest) (⟨rest.length⟩ :: held) (undo t notes :: saved)

/-- A journal with some open frames stands for a table with its copies. -/
structure Represents (j : Journal α) (held : List Checkpoint) (m : Snapshots α) : Prop where
  table : j.entries = m.table
  frames : j.frames = held.length
  keeps : Keeps j.entries j.trail held m.saved

theorem Keeps.closed_iff : Keeps t trail [] saved ↔ trail = [] ∧ saved = [] := by
  constructor
  · intro h
    cases h
    exact ⟨rfl, rfl⟩
  · rintro ⟨rfl, rfl⟩
    exact .closed t

theorem Keeps.frame_iff {c : Checkpoint} : Keeps t trail (c :: held) saved ↔ ∃ notes rest saved',
      trail = notes ++ rest ∧ c = ⟨rest.length⟩ ∧ saved = undo t notes :: saved' ∧
        Keeps (undo t notes) rest held saved' := by
  constructor
  · intro h
    cases h with
    | frame t notes h => exact ⟨notes, _, _, rfl, rfl, rfl, h⟩
  · rintro ⟨notes, rest, saved', rfl, rfl, rfl, h⟩
    exact .frame t notes h

theorem Keeps.size_le (h : Keeps t trail held saved) : ∀ c ∈ held, c.size ≤ trail.length := by
  induction h with
  | closed t => simp
  | frame t notes h ih =>
    intro c hc
    rw [List.length_append]
    rcases List.mem_cons.mp hc with rfl | hc
    · exact Nat.le_add_left _ _
    · exact Nat.le_trans (ih c hc) (Nat.le_add_left _ _)

theorem represents_empty : Represents (empty : Journal α) [] .empty :=
  ⟨rfl, rfl, .closed _⟩

theorem Represents.push (h : Represents j held m) : Represents j.push.2 (j.push.1 :: held) m.push where
  table := h.table
  frames := congrArg (· + 1) h.frames
  keeps := Keeps.frame_iff.mpr
    ⟨[], j.trail, m.saved, rfl, rfl, congrArg (· :: m.saved) h.table.symm, h.keeps⟩

theorem Represents.pop {c : Checkpoint} (h : Represents j (c :: held) m) :
    Represents (j.pop c) held m.pop := by
  obtain ⟨notes, rest, saved, ht, rfl, hs, hk⟩ := Keeps.frame_iff.mp h.keeps
  have hr : rewind rest.length j.entries j.trail = (undo j.entries notes, rest) := by
    rw [ht, rewind_append]
  have hm : m.pop = ⟨undo j.entries notes, saved⟩ := by
    rw [Snapshots.pop, hs]
  have hj : j.pop ⟨rest.length⟩ = ⟨undo j.entries notes, rest, held.length⟩ := by
    rw [Journal.pop, hr, h.frames]
    rfl
  rw [hm, hj]
  exact ⟨rfl, rfl, hk⟩

/-- A change is one to the table; the copies stay. -/
theorem Represents.changed (h : Represents j held m) (hc : Changed j j') :
    Represents j' held { m with table := j'.entries } where
  table := rfl
  frames := hc.frames.trans h.frames
  keeps := by
    cases held with
    | nil =>
      obtain ⟨ht, hs⟩ := Keeps.closed_iff.mp h.keeps
      exact Keeps.closed_iff.mpr ⟨(hc.trail_of_closed h.frames).trans ht, hs⟩
    | cons c held =>
      have hf : 0 < j.frames := h.frames ▸ Nat.succ_pos _
      obtain ⟨later, ht', hu⟩ := hc.undone hf
      obtain ⟨notes, rest, saved, ht, rfl, hs, hk⟩ := Keeps.frame_iff.mp h.keeps
      rw [← hu, ← undo_append] at hs hk
      refine Keeps.frame_iff.mpr ⟨later ++ notes, rest, saved, ?_, rfl, hs, hk⟩
      rw [ht', ht, List.append_assoc]

/-! ### Runs -/

/-- What can be done with a journal. -/
inductive Op (α : Type) where
  | push
  | pop
  | insert (name : String) (value : α)
  | erase (name : String)
  | update (name : String) (f : α → α)

/-- A journal in use, with the checkpoints of the frames that are still open, the latest first. -/
structure Session (α : Type) where
  journal : Journal α
  held : List Checkpoint

namespace Session

def start : Session α := ⟨empty, []⟩

/-- A frame is closed with the checkpoint of the latest one that is still open. -/
def step (s : Session α) : Op α → Session α
  | .push => ⟨s.journal.push.2, s.journal.push.1 :: s.held⟩
  | .pop =>
    match s.held with
    | [] => s
    | c :: held => ⟨s.journal.pop c, held⟩
  | .insert name value => { s with journal := s.journal.insert name value }
  | .erase name => { s with journal := s.journal.erase name }
  | .update name f => { s with journal := (s.journal.update name f).2 }

def run (ops : List (Op α)) : Session α :=
  ops.foldl step start

end Session
end Journal

namespace Snapshots
variable {α : Type}

def step (m : Snapshots α) : Journal.Op α → Snapshots α
  | .push => m.push
  | .pop => m.pop
  | .insert name value => m.insert name value
  | .erase name => m.erase name
  | .update name f => m.update name f

def run (ops : List (Journal.Op α)) : Snapshots α :=
  ops.foldl step empty

end Snapshots

namespace Journal
variable {α : Type}
variable {j : Journal α} {held : List Checkpoint} {m : Snapshots α}

theorem Represents.insert (h : Represents j held m) (name : String) (value : α) :
    Represents (j.insert name value) held (m.insert name value) := by
  have hc := h.changed (changed_insert j name value)
  rwa [entries_insert, h.table] at hc

theorem Represents.erase (h : Represents j held m) (name : String) :
    Represents (j.erase name) held (m.erase name) := by
  have hc := h.changed (changed_erase j name)
  rwa [entries_erase, h.table] at hc

theorem Represents.update (h : Represents j held m) (name : String) (f : α → α) :
    Represents (j.update name f).2 held (m.update name f) := by
  have hc := h.changed (changed_update j name f)
  unfold Snapshots.update
  rw [← h.table]
  cases hf : j.entries.find? name with
  | none =>
    have hj : (j.update name f).2 = j := by simp only [Journal.update, Journal.find?, hf]
    rw [hj]
    exact h
  | some old =>
    have he : (j.update name f).2.entries = m.table.insert name (f old) := by
      simp only [Journal.update, Journal.find?, hf, entries_note]
      rw [h.table]
    rwa [he] at hc

/-- One step keeps what a journal stands for. -/
theorem Represents.step {s : Session α} (h : Represents s.journal s.held m) (op : Op α) :
    Represents (s.step op).journal (s.step op).held (m.step op) := by
  cases op with
  | push => exact h.push
  | pop =>
    obtain ⟨j, held⟩ := s
    cases held with
    | nil =>
      have hm : m.step .pop = m := by
        rw [Snapshots.step, Snapshots.pop, (Keeps.closed_iff.mp h.keeps).2]
      rw [hm]
      exact h
    | cons c held => exact h.pop
  | insert name value => exact h.insert name value
  | erase name => exact h.erase name
  | update name f => exact h.update name f

theorem represents_run (ops : List (Op α)) :
    Represents (Session.run ops).journal (Session.run ops).held (Snapshots.run ops) := by
  have h (ops : List (Op α)) (s : Session α) (m : Snapshots α)
      (hs : Represents s.journal s.held m) :
      Represents (ops.foldl Session.step s).journal (ops.foldl Session.step s).held
        (ops.foldl Snapshots.step m) := by
    induction ops generalizing s m with
    | nil => exact hs
    | cons op ops ih => exact ih _ _ (hs.step op)
  exact h ops _ _ represents_empty

/-- After every sequence of operations a journal answers like the table with whole copies. Its
frames are the open ones, nothing is noted unless one is open, and no checkpoint that is still held
lies beyond what is noted. -/
theorem run_eq_snapshots (ops : List (Op α)) :
    let s := Session.run ops
    let m := Snapshots.run ops
    (∀ name, s.journal.find? name = m.table.find? name) ∧
      (∀ name, s.journal.contains name = m.table.contains name) ∧
      s.journal.entries.entries = m.table.entries ∧
      s.journal.frames = s.held.length ∧
      (s.journal.frames = 0 → s.journal.trail = []) ∧
      ∀ c ∈ s.held, c.size ≤ s.journal.trail.length := by
  intro s m
  have h : Represents s.journal s.held m := represents_run ops
  refine ⟨fun name => ?_, fun name => ?_, ?_, h.frames, fun hf => ?_, h.keeps.size_le⟩
  · rw [Journal.find?, h.table]
  · rw [Journal.contains, h.table]
  · rw [h.table]
  · have hheld : s.held = [] := List.eq_nil_of_length_eq_zero (h.frames.symm.trans hf)
    have hk := h.keeps
    rw [hheld] at hk
    exact (Keeps.closed_iff.mp hk).1

end Journal
end CarvFront
