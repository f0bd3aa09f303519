import CarvFront.FrontEnd
import Mathlib.Data.List.Induction
import Mathlib.Logic.Function.Basic

/-! What a log tells of all that was said. However many logs are written and appended to one another,
each stores the first errors and all warnings of its record. It counts them right exactly as long as
the counts fit into the numbers that it counts in: always in natural numbers, up to the greatest word
in words. -/
namespace CarvFront

/-! ### Counts that fit -/

namespace Counter
variable {κ : Type} [Counter κ] {k k' : κ} {m n : Nat}

/-- A count that is one of the numbers counted in. -/
def Fits (κ : Type) [Counter κ] (n : Nat) : Prop :=
  toNat (ofNat n : κ) = n

theorem Fits.mono (h : Fits κ n) (hmn : m ≤ n) : Fits κ m :=
  toNat_ofNat (k := (ofNat n : κ)) (Nat.le_trans hmn (Nat.le_of_eq h.symm))

theorem fits_toNat (k : κ) : Fits κ (toNat k) :=
  toNat_ofNat (Nat.le_refl _)

theorem fits_nat (n : Nat) : Fits Nat n :=
  rfl

theorem toNat_inj (h : toNat k = toNat k') : k = k' := by
  rw [← ofNat_toNat k, h, ofNat_toNat]

theorem add_zero (k : κ) : add k 0 = k :=
  ofNat_toNat k

/-- A number counts a list if the length of the list is one of the numbers. -/
def Counts {α : Type} (k : κ) (xs : List α) : Prop :=
  Fits κ xs.length → toNat k = xs.length

/-- Counting on is right as long as the sum fits. -/
theorem Counts.add_of {α : Type} {xs ys : List α} (h : Counts k xs)
    (hlength : ys.length = xs.length + n) : Counts (add k n) ys := by
  intro hfits
  rw [hlength] at hfits ⊢
  rw [add, h (hfits.mono (Nat.le_add_right _ _))]
  exact hfits

end Counter

open Counter (Fits Counts)

/-! ### Records -/

/-- All that was said, in order. -/
structure Record where
  errors : List Diagnostic
  warnings : List Diagnostic

namespace Record

def empty : Record := ⟨[], []⟩

def append (r r' : Record) : Record :=
  ⟨r.errors ++ r'.errors, r.warnings ++ r'.warnings⟩

theorem append_assoc (r r' r'' : Record) :
    (r.append r').append r'' = r.append (r'.append r'') := by
  rw [append, append, append, append, List.append_assoc, List.append_assoc]

theorem append_empty (r : Record) : r.append .empty = r := by
  rw [append, empty, List.append_nil, List.append_nil]

/-- Both counts of a record fit. -/
structure Counted (κ : Type) [Counter κ] (r : Record) : Prop where
  errors : Fits κ r.errors.length
  warnings : Fits κ r.warnings.length

end Record

/-! ### What is stored -/

section
variable {α : Type} (n : Nat) (xs ys : List α)

/-- Storing while there is room keeps the first items. -/
theorem take_push (x : α) :
    (if (xs.take n).length < n then xs.take n ++ [x] else xs.take n) = (xs ++ [x]).take n := by
  rw [List.length_take]
  split
  · next hroom =>
    rw [List.take_of_length_le (by omega), List.take_of_length_le (by simp; omega)]
  · next hfull => rw [List.take_append_of_le_length (by omega)]

/-- Of what is appended, what comes behind the first items makes no difference to them. -/
theorem take_append_take : (xs ++ ys.take n).take n = (xs ++ ys).take n := by
  rw [List.take_append, List.take_append, List.take_take, Nat.min_eq_left (Nat.sub_le _ _)]

end

namespace Log
variable {κ : Type} [Counter κ] {l l' : Log κ} {r r' : Record}

/-- What a log stores of a record: the first errors and all warnings. -/
structure Stores (l : Log κ) (r : Record) : Prop where
  errors : l.errors = r.errors.take maxErrors
  warnings : l.warnings = r.warnings

/-- A log shows a record: what it stores, how many errors and warnings there are, and whether there
is any error. -/
structure Tells (l : Log κ) (r : Record) : Prop extends Stores l r where
  totalErrors : Counter.toNat l.totalErrors = r.errors.length
  totalWarnings : Counter.toNat l.totalWarnings = r.warnings.length
  hasErrors : l.hasErrors = true ↔ r.errors ≠ []

/-- A log keeps up with a record: what it stores is right, and a count is right if it fits. -/
structure Follows (l : Log κ) (r : Record) : Prop extends Stores l r where
  totalErrors : Counts l.totalErrors r.errors
  totalWarnings : Counts l.totalWarnings r.warnings

theorem Tells.follows (h : l.Tells r) : l.Follows r :=
  ⟨h.toStores, fun _ => h.totalErrors, fun _ => h.totalWarnings⟩

theorem Follows.tells_iff (h : l.Follows r) : l.Tells r ↔ r.Counted κ := by
  constructor
  · intro htells
    exact ⟨htells.totalErrors ▸ Counter.fits_toNat _, htells.totalWarnings ▸ Counter.fits_toNat _⟩
  · rintro ⟨herrors, hwarnings⟩
    refine ⟨h.toStores, h.totalErrors herrors, h.totalWarnings hwarnings, ?_⟩
    rw [hasErrors, decide_eq_true_iff, h.totalErrors herrors, List.length_pos_iff]

/-- Natural numbers have no end. -/
theorem Follows.tells_nat {l : Log} (h : l.Follows r) : l.Tells r :=
  h.tells_iff.mpr ⟨Counter.fits_nat _, Counter.fits_nat _⟩

/-- A record is all that a log depends on. -/
theorem Tells.eq (h : l.Tells r) (h' : l'.Tells r) : l = l' := by
  obtain ⟨errors, warnings, totalErrors, totalWarnings⟩ := l
  obtain ⟨errors', warnings', totalErrors', totalWarnings'⟩ := l'
  obtain rfl : errors = errors' := h.errors.trans h'.errors.symm
  obtain rfl : warnings = warnings' := h.warnings.trans h'.warnings.symm
  obtain rfl := Counter.toNat_inj (h.totalErrors.trans h'.totalErrors.symm)
  obtain rfl := Counter.toNat_inj (h.totalWarnings.trans h'.totalWarnings.symm)
  rfl

theorem follows_empty : (empty : Log κ).Follows .empty :=
  ⟨⟨rfl, rfl⟩, id, id⟩

theorem Follows.pushError (h : l.Follows r) (d : Diagnostic) :
    (l.pushError d).Follows (r.append ⟨[d], []⟩) := by
  have hwarnings : (r.append ⟨[d], []⟩).warnings = r.warnings := List.append_nil _
  refine ⟨⟨?_, h.warnings.trans hwarnings.symm⟩, h.totalErrors.add_of List.length_append, ?_⟩
  · rw [Log.pushError, h.errors, take_push]
    rfl
  · rw [hwarnings]
    exact h.totalWarnings

theorem Follows.pushWarning (h : l.Follows r) (d : Diagnostic) :
    (l.pushWarning d).Follows (r.append ⟨[], [d]⟩) := by
  have herrors : (r.append ⟨[], [d]⟩).errors = r.errors := List.append_nil _
  refine ⟨⟨?_, congrArg (· ++ [d]) h.warnings⟩, ?_, h.totalWarnings.add_of List.length_append⟩ <;>
    rw [herrors]
  · exact h.errors
  · exact h.totalErrors

theorem Follows.pushErrors (h : l.Follows r) (ds : List Diagnostic) :
    (ds.foldl Log.pushError l).Follows (r.append ⟨ds, []⟩) := by
  induction ds generalizing l r with
  | nil => exact r.append_empty.symm ▸ h
  | cons d ds ih =>
    have hrest := ih (h.pushError d)
    rwa [Record.append_assoc] at hrest

theorem Follows.pushWarnings (h : l.Follows r) (ds : List Diagnostic) :
    (ds.foldl Log.pushWarning l).Follows (r.append ⟨[], ds⟩) := by
  induction ds generalizing l r with
  | nil => exact r.append_empty.symm ▸ h
  | cons d ds ih =>
    have hrest := ih (h.pushWarning d)
    rwa [Record.append_assoc] at hrest

/-- Counting the errors that another log did not store makes up for them. -/
theorem Follows.countUnstored (h : l.Follows (r.append ⟨l'.errors, []⟩)) (h' : l'.Follows r') :
    Follows
      { l with
        totalErrors := Counter.add l.totalErrors
          (Counter.toNat l'.totalErrors - l'.errors.length) }
      (r.append ⟨r'.errors, []⟩) := by
  have hstored : l'.errors.length ≤ r'.errors.length := by
    rw [h'.errors]
    exact List.length_take_le' _ _
  refine ⟨⟨?_, h.warnings⟩, fun hfits => ?_, h.totalWarnings⟩
  · rw [h.errors, h'.errors]
    exact take_append_take _ _ _
  · have hlength : (r.errors ++ r'.errors).length = r.errors.length + r'.errors.length :=
      List.length_append
    have hall := h'.totalErrors (hfits.mono (hlength ▸ Nat.le_add_left _ _))
    refine h.totalErrors.add_of ?_ hfits
    change (r.errors ++ r'.errors).length = (r.errors ++ l'.errors).length + _
    rw [List.length_append, List.length_append]
    omega

theorem Follows.extend (h : l.Follows r) (h' : l'.Follows r') :
    (l.extend l').Follows (r.append r') := by
  have hwarned := ((h.pushErrors l'.errors).countUnstored h').pushWarnings l'.warnings
  have hrecord : Record.append ⟨r'.errors, []⟩ ⟨[], l'.warnings⟩ = r' := by
    rw [Record.append, List.append_nil, h'.warnings]
    rfl
  rwa [Record.append_assoc, hrecord] at hwarned

/-! ### Appending -/

end Log

/-! ### Many logs -/

/-- What can be done with logs, which are known by names. -/
inductive Entry (ι : Type) where
  | error (i : ι) (d : Diagnostic)
  | warning (i : ι) (d : Diagnostic)
  /-- A log gets a copy of another one, or of itself. -/
  | extend (i other : ι)

section
variable {ι : Type} [DecidableEq ι]

/-- What becomes of the logs. -/
def Entry.write {κ : Type} [Counter κ] (logs : ι → Log κ) : Entry ι → ι → Log κ
  | .error i d => Function.update logs i ((logs i).pushError d)
  | .warning i d => Function.update logs i ((logs i).pushWarning d)
  | .extend i other => Function.update logs i ((logs i).extend (logs other))

/-- What is said in it. -/
def Entry.note (records : ι → Record) : Entry ι → ι → Record
  | .error i d => Function.update records i ((records i).append ⟨[d], []⟩)
  | .warning i d => Function.update records i ((records i).append ⟨[], [d]⟩)
  | .extend i other => Function.update records i ((records i).append (records other))

/-- The logs after some entries, all of them empty at first. -/
def Log.written (κ : Type) [Counter κ] (entries : List (Entry ι)) : ι → Log κ :=
  entries.foldl Entry.write fun _ => .empty

/-- Everything that was said in some entries, log by log. -/
def Record.noted (entries : List (Entry ι)) : ι → Record :=
  entries.foldl Entry.note fun _ => .empty

end

/-! ### The front end -/

/-- What a list of faults says. -/
def Record.ofFaults (source : Source) (fs : List Fault) : Record :=
  ⟨fs.map (Fault.diagnostic source), []⟩

theorem Log.tells_ofFaults (source : Source) (fs : List Fault) :
    (Log.ofFaults source fs).Tells (.ofFaults source fs) :=
  (Log.follows_empty.pushErrors (fs.map (Fault.diagnostic source))).tells_nat

/-- The log of a program tells what is wrong with its tokens and then with their order. -/
theorem Program.tells_ofSource (source : Source) :
    (Program.ofSource source).2.Tells ((Record.ofFaults source (Token.scan source.text).2).append
      (.ofFaults source (Program.ofTokens (Token.scan source.text).1).2)) := by
  have hlexical := (Log.tells_ofFaults source (Token.scan source.text).2).follows
  have hgrammatical :=
    (Log.tells_ofFaults source (Program.ofTokens (Token.scan source.text).1).2).follows
  have hboth := ((Log.follows_empty.extend hlexical).extend hgrammatical).tells_nat
  unfold Program.ofSource
  dsimp only
  exact hboth

namespace Log
open Record (noted)

end Log

namespace Log
open Record (noted)

end Log
end CarvFront
