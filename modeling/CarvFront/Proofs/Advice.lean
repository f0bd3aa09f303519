import CarvFront.Proofs.Simulation
import CarvFront.Proofs.Refinement

/-! Moves and borrows are only advised on. Whatever is recorded of them, the types of expressions and
the errors are the same, but for borrows that are held while waiting. -/
namespace CarvFront

/-- A way to keep track that notes no move and no borrow. All else is as before. -/
structure Unrecorded (τ : Type) where
  inner : τ

instance Unrecorded.tracking {τ : Type} [Tracking τ] : Tracking (Unrecorded τ) where
  empty := ⟨Tracking.empty⟩
  enterFrame t := ⟨Tracking.enterFrame t.inner⟩
  leaveFrame t := ⟨Tracking.leaveFrame t.inner⟩
  enterBlock t := ⟨Tracking.enterBlock t.inner⟩
  leaveBlock t := ⟨Tracking.leaveBlock t.inner⟩
  bind name ty t := ⟨Tracking.bind name ty t.inner⟩
  move _ _ t := t
  movedAt? t := Tracking.movedAt? t.inner
  borrow name mutable t := ((Tracking.borrow name mutable t.inner).1, t)
  isBorrowed t := Tracking.isBorrowed t.inner
  borrowed t := Tracking.borrowed t.inner

/-- Errors in which moves and borrows have no part. -/
def Finding.isHard (f : Finding) : Bool :=
  f.cause.severity = .error && f.cause.code ≠ .borrowAcrossAwait

theorem Tolerable.filter_isHard {fs : List Finding} (h : Tolerable fs) :
    fs.filter Finding.isHard = [] := by
  apply List.filter_eq_nil_iff.mpr
  intro f hf hhard
  simp only [Finding.isHard, Bool.and_eq_true, decide_eq_true_eq] at hhard
  exact hhard.2 (h f hf hhard.1)

namespace Check
variable {τ₁ τ₂ : Type}

/-- The same errors, whatever is recorded. -/
def SameErrors (_ : τ₁) (x : List Finding) (_ : τ₂) (y : List Finding) : Prop :=
  x.filter Finding.isHard = y.filter Finding.isHard

/-- Steps that only remark on moves and borrows make no difference to errors and types. -/
theorem related_remarks {m₁ : Check τ₁ Unit} {m₂ : Check τ₂ Unit} (h₁ : Remarks Tolerable m₁)
    (h₂ : Remarks Tolerable m₂) : Related SameErrors m₁ m₂ := by
  intro s₁ s₂ h
  obtain ⟨t₁, fs₁, hfs₁, heq₁⟩ := h₁ s₁
  obtain ⟨t₂, fs₂, hfs₂, heq₂⟩ := h₂ s₂
  rw [heq₁, heq₂]
  refine ⟨rfl, h.alike, h.types, ?_⟩
  unfold SameErrors
  rw [List.filter_append, List.filter_append, hfs₁.filter_isHard, hfs₂.filter_isHard]
  exact h.tracking

variable [Tracking τ₁] [Tracking τ₂]

theorem sameErrors_kept : Tracking.Kept (SameErrors : τ₁ → _ → τ₂ → _ → Prop) where
  report h fs := by
    unfold SameErrors
    rw [List.filter_append, List.filter_append, h]
  enterFrame h := h
  leaveFrame h := h
  enterBlock h := h
  leaveBlock h := h
  bind h _ _ := h
  move h _ _ := h

theorem sameErrors_answered : Answered (SameErrors : τ₁ → _ → τ₂ → _ → Prop) where
  warnIfMoved name span := by
    apply related_remarks
    · exact (remarks_warnIfMoved name span).mono fun _ h => h.tolerable
    · exact (remarks_warnIfMoved name span).mono fun _ h => h.tolerable
  borrow name mutable span := by
    apply related_remarks
    · exact (remarks_borrow name mutable span).mono fun _ h => h.tolerable
    · exact (remarks_borrow name mutable span).mono fun _ h => h.tolerable
  demandFree name span := by
    apply related_remarks
    · exact (remarks_demandFree name span).mono fun _ h => h.tolerable
    · exact (remarks_demandFree name span).mono fun _ h => h.tolerable
  demandNoBorrows span := related_remarks (remarks_demandNoBorrows span) (remarks_demandNoBorrows span)

end Check

namespace State
variable {τ : Type} (s : State τ) (o : Options)

/-- The errors of a report in which moves and borrows have no part. -/
theorem hardErrors_report :
    (s.report o).errors.filter (·.code ≠ .borrowAcrossAwait) =
      (s.findings.filter Finding.isHard).reverse.map Issue.ofFinding := by
  have hhard : (fun f : Finding => decide ((Issue.ofFinding f).code ≠ .borrowAcrossAwait) &&
      decide (f.cause.severity = .error)) = Finding.isHard := by
    funext f
    exact Bool.and_comm _ _
  unfold State.report
  rw [← List.filter_reverse, List.filter_map, List.filter_filter, ← hhard]
  rfl

/-- Moves, borrows and references are never reported as errors. -/
theorem code_of_mem_errors {i : Issue} (h : i ∈ (s.report o).errors) :
    i.code ≠ .useAfterMove ∧ ¬ (400 ≤ i.code.number ∧ i.code.number ≤ 405) := by
  obtain ⟨f, hf, rfl⟩ := List.mem_map.mp h
  have herror : f.cause.severity = .error := by simpa using List.of_mem_filter hf
  obtain ⟨cause, span⟩ := f
  change cause.code ≠ .useAfterMove ∧ ¬ (400 ≤ cause.code.number ∧ cause.code.number ≤ 405)
  cases cause with
  | useAfterMove | borrowConflict | assignWhileBorrowed | borrowOfMoved | invalidDeref
  | referenceEscapes | callThroughShared | assignThroughShared => cases herror
  | _ => exact of_decide_eq_true rfl

end State

/-- If moves and borrows were not recorded, a program would have the same errors, in order, but for
borrows held while waiting, and its expressions would have the same types. Moves, borrows and
references never lead to errors of their own. -/
theorem Program.check_unrecorded (p : Program) (o : Options) :
    let unrecorded := p.finalState (Unrecorded Custody)
    (p.check o).errors.filter (·.code ≠ .borrowAcrossAwait) =
        (unrecorded.report o).errors.filter (·.code ≠ .borrowAcrossAwait) ∧
      (p.finalState Custody).types = unrecorded.types ∧
      (p.check o).types = (unrecorded.report o).types ∧
      ∀ i ∈ (p.check o).errors ++ (unrecorded.report o).errors,
        i.code ≠ .useAfterMove ∧ ¬ (400 ≤ i.code.number ∧ i.code.number ≤ 405) := by
  intro unrecorded
  have hend : State.Related Check.SameErrors (p.finalState Custody) unrecorded :=
    Check.related_finalState Check.sameErrors_kept Check.sameErrors_answered rfl p
  have herrors : (p.finalState Custody).findings.filter Finding.isHard =
      unrecorded.findings.filter Finding.isHard := hend.tracking
  refine ⟨?_, hend.types, ?_, ?_⟩
  · rw [Program.check, State.hardErrors_report, State.hardErrors_report, herrors]
  · rw [Program.check, State.report, State.report, hend.types]
  · intro i hi
    rcases List.mem_append.mp hi with hi | hi
    · exact State.code_of_mem_errors _ o hi
    · exact State.code_of_mem_errors _ o hi

end CarvFront
