import CarvFront.Proofs.InStep
import CarvFront.Proofs.TypeOrder

/-! An annotation takes no value out of track. A type whose values are given away serves only as
another such type, unless that leaves something open; so a binding with a type that leaves nothing
open has a record if its value had one. -/
namespace CarvFront

/-! ### Types -/

namespace Ty

theorem isMove_optional (t : Ty) : t.optional.isMove = t.isMove := rfl

/-- What is given away serves only as something that is. Optionals on either side are looked
through. -/
theorem isMove_of_assignable {impls : Implements} {a b : Ty} (hab : a.assignable impls b)
    (hb : b.isStatic) (ha : a.isMove) : b.isMove := by
  have hdynamic : ¬ a.isDynamic := by
    cases a with
    | any | unknown => cases ha
    | _ => exact Bool.false_ne_true
  cases serves_of_assignable hab hdynamic (not_isDynamic hb) with
  | same => exact ha
  | lift h =>
    rw [isMove_optional] at ha ⊢
    exact isMove_of_assignable h hb ha
  | present _ h =>
    rw [isMove_optional]
    exact isMove_of_assignable h hb ha
  | array | future | map | cls => rfl
  | widen | absent | chan | ref | fn => cases ha
termination_by sizeOf b
decreasing_by all_goals (subst_vars; simp +arith)

end Ty

/-! ### Bindings -/

theorem Ownership.state?_track {ty : Ty} (h : ty.isMove) (o : Ownership) (name : String) :
    (o.track name ty).state? name = some .owned := by
  have hcategory : ty.category = .move := of_decide_eq_true h
  rw [track, hcategory]
  exact (o.state?_restore name name (some .owned)).trans (if_pos rfl)

namespace Check

/-- The part of a binding that follows its value. -/
def bindValue (span : Span) (name : Ident) (type : Option TypeExpr) (e : Expr) (value : Ty) :
    Check Custody Unit := do
  let ty ← bindingTy type value e.span
  give e value ⟨span.start.line, name.name⟩
  bind name.name ty

theorem after_binding (span : Span) (const : Bool) (name : Ident) (type : Option TypeExpr) (e : Expr)
    (s : State Custody) :
    (stmt (.bind span const name type e)).after s =
      (bindValue span name type e ((expr e).run s).1).after ((expr e).after s) := by
  rw [stmt]
  rfl

theorem findings_give (value : Expr) (ty : Ty) (site : MoveSite) (s : State Custody) :
    ((give value ty site).after s).findings = s.findings := by
  unfold give
  split
  · split <;> rfl
  · rfl

section Annotated
variable (span : Span) (name : Ident) (type : TypeExpr) (e : Expr) (value : Ty) (s : State Custody)

/-- The names in the annotation may be unknown, and the value may not stand where its type is
wanted. -/
theorem findings_bindValue :
    ((bindValue span name (some type) e value).after s).findings =
      (if s.assignable value (type.ty s.known) then []
        else [⟨.cannotAssign value (type.ty s.known), e.span⟩]) ++
      ((unknownTypes s.known type.names).reverse ++ s.findings) := by
  let s₁ : State Custody :=
    { s with findings := (unknownTypes s.known type.names).reverse ++ s.findings }
  have hgive : ((bindValue span name (some type) e value).after s).findings =
      ((demand (s.assignable value (type.ty s.known)) (.cannotAssign value (type.ty s.known))
        e.span).after s₁).findings :=
    findings_give e value ⟨span.start.line, name.name⟩ _
  rw [hgive, demand_eq_report]
  split <;> rfl

end Annotated

/-- A value that is given away stays so under an annotation that leaves nothing open, if the
annotation accepts it. -/
theorem isMove_of_accepted {span : Span} {name : Ident} {type : TypeExpr} {e : Expr} {value : Ty}
    {s : State Custody} (hvalue : value.isMove) (htype : (type.ty s.known).isStatic)
    (haccept : ((bindValue span name (some type) e value).after s).findings = s.findings) :
    (type.ty s.known).isMove := by
  rw [findings_bindValue, ← List.append_assoc, List.append_left_eq_self,
    List.append_eq_nil_iff] at haccept
  have hassignable : s.assignable value (type.ty s.known) := by
    by_contra hn
    rw [if_neg hn] at haccept
    cases haccept.1
  exact Ty.isMove_of_assignable hassignable htype hvalue

/-- Whatever classes implement, a type whose values are given away serves only as another such type,
if that leaves nothing open. So a binding whose annotation leaves nothing open and accepts a value
that is given away has a record of its own: its value is there to be given away in turn. -/
theorem annotations_keep_track :
    (∀ (impls : Implements) (a b : Ty), b.isStatic → a.isMove → a.assignable impls b → b.isMove) ∧
    ∀ (s : State Custody) (span : Span) (const : Bool) (name : Ident) (type : TypeExpr) (e : Expr),
      ((expr e).run s).1.isMove → (type.ty ((expr e).after s).known).isStatic →
      ((stmt (.bind span const name (some type) e)).after s).findings = ((expr e).after s).findings →
      ((stmt (.bind span const name (some type) e)).after s).tracking.ownership.state? name.name =
          some .owned ∧
        ∃ ty, ((stmt (.bind span const name (some type) e)).after s).scopes.lookup name.name = some ty ∧
          ty.isMove := by
  constructor
  · intro impls a b hb ha hab
    exact Ty.isMove_of_assignable hab hb ha
  · intro s span const name type e hvalue htype haccept
    rw [after_binding] at haccept ⊢
    have hmove := isMove_of_accepted hvalue htype haccept
    refine ⟨Ownership.state?_track hmove _ _, _, ?_, hmove⟩
    exact (Scopes.lookup_define _ _ _ _).trans (if_pos rfl)

end Check

namespace Program

/-- A class with an interface that it implements, and an object of it. -/
def guise : Program :=
  (Program.ofSource
    ⟨"", "interface I \x7b fn m(&self) -> int; \x7d class C \x7b\x7d impl I for C \x7b " ++
      "fn m(&self) -> int \x7b return 1; \x7d \x7d let c = new C \x7b\x7d;"⟩).1

/-- The interface, or nothing. -/
def guiseType : TypeExpr :=
  .optional ⟨⟨1, 8⟩, ⟨1, 9⟩⟩ (.named ⟨⟨1, 8⟩, ⟨1, 8⟩⟩ "I")

/-- The object. -/
def guiseValue : Expr :=
  .ident ⟨⟨1, 13⟩, ⟨1, 13⟩⟩ "c"

/-- The object goes by its interface. -/
def underGuise : Stmt :=
  .bind ⟨⟨1, 1⟩, ⟨1, 14⟩⟩ false ⟨"i", ⟨⟨1, 5⟩, ⟨1, 5⟩⟩⟩ (some guiseType) guiseValue

theorem annotations_keep_track_guise :
    (Ty.cls "C").assignable (guise.finalState Custody).implements (.optional (.interface "I")) ∧
    (Ty.optional (.interface "I")).isMove ∧
    ((Check.stmt underGuise).after (guise.finalState Custody)).tracking.ownership.state? "i" =
      some .owned ∧
    ∃ ty, ((Check.stmt underGuise).after (guise.finalState Custody)).scopes.lookup "i" = some ty ∧
      ty.isMove := by
  have hfacts : (guise.finalState Custody).implements "C" "I" ∧
      ((Check.expr guiseValue).run (guise.finalState Custody)).1.isMove ∧
      (guiseType.ty ((Check.expr guiseValue).after (guise.finalState Custody)).known).isStatic ∧
      ((Check.stmt underGuise).after (guise.finalState Custody)).findings.isEmpty ∧
      ((Check.expr guiseValue).after (guise.finalState Custody)).findings.isEmpty := by
    decide +kernel
  -- The state is that of a whole program: it must not be looked into.
  generalize guise.finalState Custody = s at *
  obtain ⟨himpls, hvalue, htype, hbinding, hbefore⟩ := hfacts
  have haccept := (List.isEmpty_iff.mp hbinding).trans (List.isEmpty_iff.mp hbefore).symm
  have hassignable : (Ty.cls "C").assignable s.implements (.optional (.interface "I")) :=
    Ty.assignable_optional (fun _ => by simp) (Ty.Serves.cls himpls).assignable
  exact ⟨hassignable, Check.annotations_keep_track.1 _ _ _ rfl rfl hassignable,
    Check.annotations_keep_track.2 s _ _ _ guiseType guiseValue hvalue htype haccept⟩

end Program
end CarvFront
