import Mathlib.Algebra.Order.Group.Nat
import CarvFront.Proofs.Paths
import CarvFront.Proofs.Purse

/-! How high the trees are that a parser gives. A parser has so many levels left, and what it reads
without entering one is paid for by tokens that are gone afterwards. -/
namespace CarvFront

/-- Tokens of what is read without going one level deeper. -/
def Kind.isFree : Kind → Bool
  | .sym .question | .word .elseKw => true
  | _ => false

namespace Cursor

/-- How many levels may still be entered. -/
def room (c : Cursor) : Nat :=
  maxNesting - c.depth

/-- What the free nodes of all tokens left can add to a path, if each counts `w`. -/
def owed (w : Nat) (c : Cursor) : Nat :=
  w * c.rest.countP (·.kind.isFree)

/-- Reading has gone on at the same level. -/
structure Moves (w : Nat) (c c' : Cursor) : Prop where
  depth : c'.depth = c.depth
  owed : c'.owed w ≤ c.owed w

variable {w : Nat} {c c' c'' : Cursor}

theorem Moves.refl (w : Nat) (c : Cursor) : c.Moves w c :=
  ⟨rfl, Nat.le_refl _⟩

theorem Moves.trans (h : c.Moves w c') (h' : c'.Moves w c'') : c.Moves w c'' :=
  ⟨h'.depth.trans h.depth, Nat.le_trans h'.owed h.owed⟩

theorem Moves.room (h : c.Moves w c') : c'.room = c.room := by
  rw [Cursor.room, Cursor.room, h.depth]

/-- Fewer tokens are left. -/
theorem Moves.of_sublist (hd : c'.depth = c.depth) (hs : c'.rest.Sublist c.rest) : c.Moves w c' :=
  ⟨hd, Nat.mul_le_mul_left w hs.countP_le⟩

theorem moves_next (w : Nat) (c : Cursor) : c.Moves w c.next := by
  obtain ⟨_ | ⟨t, ts⟩, prev, depth, faults⟩ := c
  · exact .refl w _
  · exact .of_sublist rfl (List.sublist_cons_self t ts)

theorem moves_report (w : Nat) (c : Cursor) (e : SyntaxError) : c.Moves w (c.report e) :=
  ⟨rfl, Nat.le_refl _⟩

theorem owed_next_of_free (w : Nat) (h : c.kind.isFree = true) :
    c.owed w = w + c.next.owed w := by
  obtain ⟨_ | ⟨t, ts⟩, prev, depth, faults⟩ := c
  · cases h
  · have hcons : (t :: ts).countP (·.kind.isFree) = ts.countP (·.kind.isFree) + 1 :=
      List.countP_cons_of_pos h
    change w * (t :: ts).countP _ = w + w * ts.countP _
    rw [hcons, Nat.mul_succ, Nat.add_comm]

theorem moves_recover (w : Nat) (c : Cursor) : c.Moves w c.recover :=
  .of_sublist rfl (skipTo_suffix false c.rest c.prev).sublist

end Cursor

namespace Parser
variable {w n k : Nat} {α β : Type}

/-! ### Levels that are entered are left again -/

/-- A parser leaves all levels that it enters, also where it fails. -/
def Modest (w : Nat) ⦃α : Type⦄ (p : Parser α) : Prop :=
  ∀ c : Cursor, c.Moves w (p c).2

theorem modest_become {s : Symbol} (hs : s ≠ .question) : Modest w (become (.sym s)) := by
  rintro ⟨_ | ⟨t, ts⟩, prev, depth, faults⟩
  · exact .refl w _
  · have hfree : (Kind.sym s).isFree = false := by
      unfold Kind.isFree
      split <;> simp_all
    refine ⟨rfl, Nat.mul_le_mul_left w ?_⟩
    change (⟨.sym s, t.span⟩ :: ts).countP _ ≤ (t :: ts).countP _
    rw [List.countP_cons_of_neg (by simp [hfree])]
    exact (List.sublist_cons_self t ts).countP_le

theorem modest_fail (e : SyntaxError) : Modest w (fail e : Parser α) :=
  fun c => Cursor.moves_report w c e

theorem moves_course (w : Nat) : Course (Cursor.Moves w) where
  refl := .refl w
  trans := .trans
  report e _ c := Cursor.moves_report w c e
  next := Cursor.moves_next w
  become _ hs := modest_become hs
  inside h := ⟨congrArg (· - 1) h.depth, h.owed⟩
  recover := Cursor.moves_recover w

theorem modest_steps (w : Nat) : Steps (Modest w) :=
  (moves_course w).steps

theorem modest_closed (w : Nat) : Closed (Alone (Modest w)) :=
  (modest_steps w).closed modest_fail

/-! ### What a parser gives -/

/-- With `n` levels left, tokens pay for free nodes. -/
def levelPurse (w n : Nat) : Purse Nat where
  Fits c := c.room = n
  Leads := Cursor.Moves w
  worth := Cursor.owed w
  course := moves_course w
  fits h hc := hc.room.trans h
  worth_le hc := hc.owed

/-- What a parser gives with `n` levels left has `Q`, for what was paid for free nodes in it. -/
def Gives (w n : Nat) (p : Parser α) (Q : Nat → α → Prop) : Prop :=
  (levelPurse w n).Spends p Q

/-- The trees that a parser gives with `n` levels left, those with the roots `f`, are at most `k`
high, free nodes apart that were paid for. -/
def Grows (w n k : Nat) (f : α → List Vertex) (p : Parser α) : Prop :=
  Gives w n p fun s a => Shallow w (k + s) (f a)

namespace Gives
variable {p : Parser α} {Q : Nat → α → Prop} {R : Nat → β → Prop}

/-- A token that pays for one free node, if it is there. -/
theorem pay {j : Kind} {g : Bool → Parser β} (hj : j.isFree = true)
    (htrue : Gives w n (g true) fun s b => R (w + s) b) (hfalse : Gives w n (g false) R) :
    Gives w n (Parser.eat j >>= g) R := by
  intro c hc b c' heq
  by_cases hkind : c.kind = j
  · have heat : Parser.eat j c = (some true, c.next) := if_pos hkind
    rw [bind_of_some heat] at heq
    have hmoves := Cursor.moves_next w c
    obtain ⟨hnext, s, hs, hr⟩ := htrue c.next (hmoves.room.trans hc) b c' heq
    refine ⟨hmoves.trans hnext, w + s, ?_, hr⟩
    have howed : c.owed w = w + c.next.owed w := Cursor.owed_next_of_free w (hkind ▸ hj)
    change w + s + c'.owed w ≤ c.owed w
    rw [howed, Nat.add_assoc]
    exact Nat.add_le_add_left hs w
  · have heat : Parser.eat j c = (some false, c) := if_neg hkind
    rw [bind_of_some heat] at heq
    exact hfalse c hc b c' heq

/-- One level deeper there is one level less left. -/
theorem nested (h : ∀ m, n = m + 1 → Gives w m p Q) : Gives w n (Parser.nested p) Q := by
  intro c hc a c' heq
  unfold Parser.nested at heq
  split at heq
  · cases heq
  · next hdepth =>
    have hroom : n = n - 1 + 1 := by rw [← hc, Cursor.room]; omega
    have hinner : ({ c with depth := c.depth + 1 } : Cursor).room = n - 1 := by
      rw [← hc, Cursor.room, Cursor.room]
      exact Nat.sub_add_eq _ _ _
    rcases hres : p { c with depth := c.depth + 1 } with ⟨res, c''⟩
    rw [hres] at heq
    cases heq
    obtain ⟨hmoves, hpaid⟩ := h (n - 1) hroom _ hinner a c'' hres
    exact ⟨(moves_course w).inside hmoves, hpaid⟩

end Gives

section Grows
variable {f : α → List Vertex} {item : Parser α}

theorem Grows.mono {p : Parser α} {l : Nat} (h : Grows w n k f p) (hk : k ≤ l) :
    Grows w n l f p :=
  .imp h fun _ _ hs => hs.mono (by omega)

theorem shallow_cons (s : Nat) (a : α) (s' : Nat) (as : List α) (ha : Shallow w (k + s) (f a))
    (has : Shallow w (k + s') (as.flatMap f)) : Shallow w (k + (s + s')) ((a :: as).flatMap f) :=
  (ha.append has).mono (by omega)

theorem grows_items (close : Symbol) (hitem : Grows w n k f item) :
    Grows w n k (·.flatMap f) (items close item) :=
  .items hitem (shallow_nil w _) shallow_cons close

theorem grows_list {v : α → Vertex} (close : Symbol) (hitem : Grows w n k (fun a => [v a]) item) :
    Grows w n k (·.map v) (items close item) := by
  have hitems := grows_items close hitem
  simpa only [← List.map_eq_flatMap] using hitems

theorem grows_all (stop : Kind → Bool) (hitem : Grows w n k f item) (hmodest : Modest w item) :
    Grows w n k (·.flatMap f) (all stop item) :=
  .all hitem (shallow_nil w _) shallow_cons stop hmodest

theorem grows_allOf {v : α → Vertex} (stop : Kind → Bool)
    (hitem : Grows w n k (fun a => [v a]) item) (hmodest : Modest w item) :
    Grows w n k (·.map v) (all stop item) := by
  have hall := grows_all stop hitem hmodest
  simpa only [← List.map_eq_flatMap] using hall

end Grows
end Parser
end CarvFront
