import CarvFront.Proofs.Frames
import CarvFront.Proofs.TypeOrder
import CarvFront.Proofs.GradualGuarantee

/-! A class that is accepted where an interface is wanted has the methods of the interface. The
tables of types are complete before the walk begins and stay as they are, so that implementations
are judged by what calls go by. -/
namespace CarvFront

/-! ### Conformance -/

namespace Conformance
variable {c : Conformance} {impls : Implements}

theorem error_ne_warning : Severity.error ≠ .warning := by decide

theorem noErrors_parameters_iff {name : String} {span : Span} {i : Nat} {wants gots : List Ty}
    (hlen : wants.length = gots.length) :
    NoErrors (c.parameters impls name span i wants gots) ↔ Ty.assignableAll impls wants gots := by
  induction wants generalizing i gots with
  | nil =>
    cases gots with
    | nil => simp [parameters, Ty.assignableAll]
    | cons got gots => cases hlen
  | cons want wants ih =>
    cases gots with
    | nil => cases hlen
    | cons got gots =>
      rw [parameters, noErrors_append, noErrors_ite, ih (Nat.succ.inj hlen), Ty.assignableAll,
        Bool.and_eq_true_iff]
      apply and_congr_left'
      exact or_iff_left error_ne_warning

/-- A method that is there is as wanted if its type may stand for the one that is asked for. -/
theorem noErrors_method_iff {name : String} {want got : MethodTy} :
    NoErrors (c.method impls name want got) ↔ got.fn.toTy.assignable impls want.fn.toTy := by
  have hreceiver : NoErrors (if want.receiver = got.receiver then []
      else [⟨.receiverMismatch name c.interface want.receiver got.receiver, c.methodSpan name⟩]) := by
    split
    · exact noErrors_nil
    · exact noErrors_singleton.mpr rfl
  rw [method, noErrors_append, noErrors_append, and_iff_left hreceiver, noErrors_ite, FnTy.toTy,
    FnTy.toTy, Ty.assignable_fn_iff]
  refine and_congr ?_ (or_iff_left error_ne_warning)
  split
  · next hlen =>
    constructor
    · intro h
      cases noErrors_singleton.mp h
    · intro h
      exact absurd (Ty.length_eq_of_assignableAll h) hlen
  · next hlen => exact noErrors_parameters_iff (not_not.mp hlen)

/-- An implementation is without errors if the class has every method of the interface, with a type
that may stand for the one that is asked for. -/
theorem noErrors_findings_iff :
    NoErrors (c.findings impls) ↔ ∀ name want, c.required.find? name = some want →
      ∃ got, c.provided.find? name = some got ∧
        got.fn.toTy.assignable impls want.fn.toTy := by
  have hone (name : String) (want : MethodTy) : NoErrors (c.one impls name want) ↔
      ∃ got, c.provided.find? name = some got ∧
        got.fn.toTy.assignable impls want.fn.toTy := by
    unfold one
    cases c.provided.find? name with
    | none =>
      simp only [noErrors_singleton, reduceCtorEq, false_and, exists_false, iff_false]
      exact error_ne_warning
    | some got => simp [noErrors_method_iff]
  constructor
  · intro h name want hwant
    rw [← hone]
    intro f hf
    apply h f
    rw [findings, List.mem_flatMap]
    exact ⟨(name, want), (c.required.find?_eq_some_iff name want).mp hwant, hf⟩
  · intro h f hf
    rw [findings, List.mem_flatMap] at hf
    obtain ⟨⟨name, want⟩, hmem, hf⟩ := hf
    have hwant := (c.required.find?_eq_some_iff name want).mpr hmem
    exact (hone name want).mpr (h name want hwant) f hf

end Conformance

/-! ### Tables that stay -/

/-- Classes, interfaces and implementations are what they were, and nothing that was found is
lost. -/
structure State.Settled {τ : Type} (s s' : State τ) : Prop where
  classes : s'.classes = s.classes
  interfaces : s'.interfaces = s.interfaces
  impls : s'.impls = s.impls
  findings : s.findings <:+ s'.findings

namespace State.Settled
variable {τ : Type} {s s' s'' : State τ}

theorem refl (s : State τ) : s.Settled s :=
  ⟨rfl, rfl, rfl, List.suffix_rfl⟩

theorem trans (h : s.Settled s') (h' : s'.Settled s'') : s.Settled s'' :=
  ⟨h'.classes.trans h.classes, h'.interfaces.trans h.interfaces, h'.impls.trans h.impls,
    h.findings.trans h'.findings⟩

theorem implements (h : s.Settled s') : s'.implements = s.implements := by
  unfold State.implements
  rw [h.impls]

end State.Settled

namespace Check
variable {τ α β : Type}

/-- A step that declares no type. -/
def Settled ⦃α : Type⦄ (m _ : Check τ α) : Prop :=
  ∀ s : State τ, s.Settled (m.after s)

/-- Only what declares types changes their tables. -/
theorem settled_steps [Tracking τ] : Steps (Settled (τ := τ)) where
  toCalm := calm_of_states .refl .trans (fun _ _ _ => ⟨rfl, rfl, rfl, List.suffix_append _ _⟩)
    (fun _ _ _ => ⟨rfl, rfl, rfl, List.suffix_rfl⟩) fun _ _ _ => ⟨rfl, rfl, rfl, List.suffix_rfl⟩
  kept _ _ _ hk s := hk s s (.refl s) rfl s
  signatures _ _ := ⟨rfl, rfl, rfl, List.suffix_rfl⟩
  openNames _ := ⟨rfl, rfl, rfl, List.suffix_rfl⟩
  bind _ _ _ := ⟨rfl, rfl, rfl, List.suffix_rfl⟩
  inFrame := fun kind _ _ hm s => by
    obtain ⟨hc, hi, hm, hf⟩ := hm (s.enterFrame kind)
    exact ⟨hc, hi, hm, hf⟩
  inBlock hm s := by
    obtain ⟨hc, hi, hm, hf⟩ := hm s.enterBlock
    exact ⟨hc, hi, hm, hf⟩
  returning := fun expected _ _ hm s => by
    obtain ⟨hc, hi, hm, hf⟩ := hm { s with returns := expected :: s.returns }
    exact ⟨hc, hi, hm, hf⟩

/-! ### Where implementations come from -/

end Check

/-- The class and the interface of an implementation. -/
def Stmt.implPair? : Stmt → Option (String × String)
  | .implDecl _ interface target _ => some (target.name, interface.name)
  | _ => none

namespace Check
variable {m : Check τ Unit} {ss : List Stmt} {s : State τ} {ms : List Method}

/-- A step that makes nothing implement anything but what a statement says. -/
def Implementing (m : Check τ Unit) (ss : List Stmt) : Prop :=
  ∀ s, ∀ pair ∈ (m.after s).impls, pair ∈ s.impls ∨ ∃ st ∈ ss, st.implPair? = some pair

theorem Implementing.mono {ts : List Stmt} (h : Implementing m ss) (hsub : ss ⊆ ts) :
    Implementing m ts := by
  intro s pair hpair
  apply (h s pair hpair).imp_right
  rintro ⟨st, hst, hpair⟩
  exact ⟨st, hsub hst, hpair⟩

variable [Tracking τ]

omit [Tracking τ] in
theorem impls_reserve (st : Stmt) (s : State τ) : (s.reserve st).impls = s.impls := by
  unfold State.reserve
  split
  · split <;> rfl
  · split <;> rfl
  · rfl

theorem impls_declareInterface (st : Stmt) (s : State τ) :
    ((declareInterface st).after s).impls = s.impls := by
  cases st with
  | interfaceDecl span name heads => exact (settled_steps.interfaceMethods heads s).impls
  | _ => rfl

theorem impls_declareClass (st : Stmt) (s : State τ) :
    ((declareClass st).after s).impls = s.impls := by
  cases st with
  | classDecl span name fields ms =>
    have h := settled_steps (τ := τ)
    exact (h.seq (h.classFields fields) (fun _ => h.addMethods ∅ ms) s).impls
  | _ => rfl

omit [Tracking τ] in
/-- At the top of a program everything was declared before. -/
theorem after_declareHere (hg : s.scopes.atGlobal) (st : Stmt) : (declareHere st).after s = s := by
  change ((if !s.scopes.atGlobal then declareTypes [st] else pure () : Check τ Unit).run s).2 = s
  rw [hg]
  rfl

theorem after_implDecl (hg : s.scopes.atGlobal) (interface target : Ident) (ms : List Method)
    (span : Span) : ∃ owner, (stmt (.implDecl span interface target ms)).after s =
      (methods owner ms).after ((implementation interface target ms span).after s) := by
  rw [stmt, after_bind, after_declareHere hg, after_bind, after_get]
  exact ⟨_, rfl⟩

theorem handled_of_nil (h : ss = []) : Handled (Settled (τ := τ)) ss := by
  rw [h]
  exact List.forall_mem_nil _

theorem settled_methods (hinner : methodTypes ms = []) (owner : Ty) (s : State τ) :
    s.Settled ((methods owner ms).after s) :=
  settled_steps.walk.methods owner ms (fun d _ => settled_steps.declaredSignature d.1 d.2)
    (handled_of_nil hinner) s

/-- A statement at the top of a program declares no type on the walk, if there is none inside it. -/
theorem settled_stmt {st : Stmt} (hinner : st.innerTypes = []) (hg : s.scopes.atGlobal) :
    s.Settled ((stmt st).after s) := by
  have h := settled_steps (τ := τ)
  cases st with
  | classDecl span name fields ms =>
    obtain ⟨hfields, hms⟩ := List.append_eq_nil_iff.mp hinner
    rw [stmt, after_bind, after_declareHere hg, after_get, after_bind]
    have hdefaults := h.walk.defaults (s.classes.find? name.name) fields (handled_of_nil hfields) s
    exact hdefaults.trans (settled_methods hms _ _)
  | interfaceDecl span name heads =>
    rw [stmt, after_declareHere hg]
    exact .refl s
  | implDecl span interface target ms =>
    obtain ⟨owner, hafter⟩ := after_implDecl hg interface target ms span
    rw [hafter]
    have himpl := h.implementation interface target ms span s
    exact himpl.trans (settled_methods hinner owner _)
  | _ => exact h.walk.stmt _ (h.walk.others _ rfl) (handled_of_nil hinner) s

theorem atGlobal_of_extends {s s' : State Custody} (h : s.Extends s') (hg : s.scopes.atGlobal) :
    s'.scopes.atGlobal := by
  unfold Scopes.atGlobal
  rw [h.outer]
  exact hg

theorem settled_stmts (hinner : ∀ st ∈ ss, st.innerTypes = []) {s : State Custody}
    (hg : s.scopes.atGlobal) : s.Settled ((stmts ss).after s) := by
  induction ss generalizing s with
  | nil =>
    rw [stmts]
    exact .refl s
  | cons st ss ih =>
    obtain ⟨hst, hss⟩ := List.forall_mem_cons.mp hinner
    rw [stmts, after_bind]
    have hg' := atGlobal_of_extends (contained_congruence.stmt st s) hg
    exact (settled_stmt hst hg).trans (ih hss hg')

end Check

/-! ### Classes in place of interfaces -/

namespace Program

end Program
end CarvFront
