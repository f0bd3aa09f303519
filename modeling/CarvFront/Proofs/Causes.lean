import CarvFront.Check.Program

/-! What the rules for types may report: nothing about the place of a jump or an `await`, and nothing
about the names of types. -/
namespace CarvFront

/-- Causes in which neither the place of a jump or an `await` nor the name of a type has a part. -/
def Cause.isOrdinary : Cause → Bool
  | .outsideLoop _ | .awaitOutsideAsync | .unknownType _ => false
  | _ => true

/-- Only ordinary causes. -/
def Ordinary (fs : List Finding) : Prop :=
  ∀ f ∈ fs, f.cause.isOrdinary = true

theorem ordinary_nil : Ordinary [] := by
  intro f hf
  cases hf

theorem ordinary_singleton {cause : Cause} (h : cause.isOrdinary = true) (span : Span) :
    Ordinary [⟨cause, span⟩] :=
  List.forall_mem_singleton.mpr h

theorem ordinary_append {fs gs : List Finding} (hf : Ordinary fs) (hg : Ordinary gs) :
    Ordinary (fs ++ gs) :=
  List.forall_mem_append.mpr ⟨hf, hg⟩

theorem ordinary_unless {p : Prop} [Decidable p] {cause : Cause} (h : cause.isOrdinary = true)
    (span : Span) : Ordinary (if p then [] else [⟨cause, span⟩]) := by
  split
  · exact ordinary_nil
  · exact ordinary_singleton h span

/-! ### Judgements -/

theorem BinOp.ordinary_result (op : BinOp) (left right : Ty) (span : Span) :
    Ordinary (op.result left right span).findings := by
  have harith : Ordinary (op.arithmetic left right span).findings := by
    unfold arithmetic
    split
    · exact ordinary_nil
    split
    · exact ordinary_nil
    split
    · exact ordinary_nil
    · exact ordinary_singleton rfl span
  cases op with
  | add | sub | mul | div | mod => exact harith
  | eq | notEq => exact ordinary_nil
  | _ => exact ordinary_unless rfl span

theorem UnaryOp.ordinary_result (op : UnaryOp) (operand : Ty) (span : Span) :
    Ordinary (op.result operand span).findings := by
  cases op <;> exact ordinary_unless rfl span

theorem Ty.ordinary_deref (t : Ty) (span : Span) : Ordinary (t.deref span).findings := by
  unfold deref
  split
  · exact ordinary_nil
  · exact ordinary_unless rfl span

theorem Ty.ordinary_awaited (t : Ty) (span : Span) : Ordinary (t.awaited span).findings := by
  unfold awaited
  split
  · exact ordinary_nil
  · exact ordinary_unless rfl span

theorem Builtin.ordinary_memberTy (path : String) (member : Ident) :
    Ordinary (Builtin.memberTy path member).findings := by
  unfold memberTy
  split
  · exact ordinary_nil
  · exact ordinary_singleton rfl _

namespace State
variable {τ : Type} (s : State τ)

theorem ordinary_classMember (cls : String) (member : Ident) (shared : Bool) :
    Ordinary (s.classMember cls member shared).findings := by
  unfold classMember
  split
  · exact ordinary_nil
  split
  · exact ordinary_nil
  split
  · exact ordinary_unless rfl _
  · exact ordinary_singleton rfl _

theorem ordinary_interfaceMember (interface : String) (member : Ident) (shared : Bool) :
    Ordinary (s.interfaceMember interface member shared).findings := by
  unfold interfaceMember
  split
  · exact ordinary_nil
  split
  · exact ordinary_unless rfl _
  · exact ordinary_singleton rfl _

theorem ordinary_member (object : Ty) (member : Ident) :
    Ordinary (s.member object member).findings := by
  unfold State.member
  dsimp only
  split
  · exact s.ordinary_classMember _ _ _
  · exact s.ordinary_interfaceMember _ _ _
  · split
    · exact Builtin.ordinary_memberTy _ _
    · exact ordinary_nil
  · exact ordinary_nil
  · exact ordinary_nil
  · exact ordinary_singleton rfl _

theorem ordinary_assignedField (object : Ty) (member : Ident) (span : Span) :
    Ordinary (s.assignedField object member span).2 := by
  unfold assignedField
  dsimp only
  split
  · split
    · split
      · exact ordinary_singleton rfl span
      · exact ordinary_nil
    · exact ordinary_singleton rfl _
  · exact ordinary_nil
  · exact ordinary_nil
  · exact ordinary_singleton rfl _

theorem ordinary_element (object index : Ty) (place span : Span) :
    Ordinary (s.element object index place span).findings := by
  unfold element
  split
  · exact ordinary_unless rfl place
  · exact ordinary_unless rfl place
  · exact ordinary_unless rfl place
  · exact ordinary_nil
  · exact ordinary_nil
  · exact ordinary_singleton rfl span

end State

namespace Conformance
variable (c : Conformance) (impls : Implements)

theorem ordinary_parameters (name : String) (span : Span) (i : Nat) (wants gots : List Ty) :
    Ordinary (c.parameters impls name span i wants gots) := by
  induction wants generalizing i gots with
  | nil => exact ordinary_nil
  | cons want wants ih =>
    cases gots with
    | nil => exact ordinary_nil
    | cons got gots => exact ordinary_append (ordinary_unless rfl span) (ih _ _)

theorem ordinary_method (name : String) (want got : MethodTy) :
    Ordinary (c.method impls name want got) := by
  refine ordinary_append (ordinary_append ?_ (ordinary_unless rfl _)) (ordinary_unless rfl _)
  split
  · exact ordinary_singleton rfl _
  · exact c.ordinary_parameters impls _ _ _ _ _

theorem ordinary_findings : Ordinary (c.findings impls) := by
  intro f hf
  obtain ⟨e, -, hf⟩ := List.mem_flatMap.mp hf
  have hone : Ordinary (c.one impls e.1 e.2) := by
    unfold one
    split
    · exact ordinary_singleton rfl _
    · exact c.ordinary_method impls _ _ _
  exact hone f hf

end Conformance

end CarvFront
