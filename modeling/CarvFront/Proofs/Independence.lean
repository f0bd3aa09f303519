import CarvFront.Proofs.Implementations

/-! The same code finds the same wherever the same is known. It does not matter in what order types
were declared, what was found before, or which functions elsewhere wait for their bodies. -/
namespace CarvFront

/-- Whether a statement imports all that a module has. -/
def Stmt.isWildcard : Stmt → Bool
  | .require _ _ .wildcard => true
  | _ => false

/-- States in which the same code does the same, if it declares functions only with some spans: the
rules see no difference, moves and borrows are the same, and for the spans the same signatures wait. -/
structure State.Matches (spans : List Span) (s₁ s₂ : State Custody) : Prop where
  akin : s₁.Akin s₂
  tracking : s₁.tracking = s₂.tracking
  waiting : ∀ span ∈ spans, s₁.signature? span = s₂.signature? span

/-- What code finds, and what it leaves alone: the scopes around, and all that is declared, but for
signatures that waited for some spans. -/
structure State.Finds (spans : List Span) (fs : List Finding) (s s' : State Custody) : Prop where
  findings : s'.findings = fs ++ s.findings
  classes : s'.classes = s.classes
  interfaces : s'.interfaces = s.interfaces
  impls : s'.impls = s.impls
  openNames : s'.openNames = s.openNames
  waiting : ∀ span, span ∉ spans → s'.signature? span = s.signature? span
  outer : s'.scopes.outer = s.scopes.outer
  /-- Names of variadic functions can be taken only at the top of a program. -/
  replaced : s.scopes.outer ≠ [] → s'.replaced = s.replaced

namespace State
variable {spans : List Span}

theorem Matches.refl (spans : List Span) (s : State Custody) : s.Matches spans s :=
  ⟨.refl s, rfl, fun _ _ => rfl⟩

theorem Finds.refl (spans : List Span) (s : State Custody) : Finds spans [] s s :=
  ⟨rfl, rfl, rfl, rfl, rfl, fun _ _ => rfl, rfl, fun _ => rfl⟩

theorem Finds.trans {fs fs' : List Finding} {a b c : State Custody} (h : Finds spans fs a b)
    (h' : Finds spans fs' b c) : Finds spans (fs' ++ fs) a c where
  findings := by rw [h'.findings, h.findings, List.append_assoc]
  classes := h'.classes.trans h.classes
  interfaces := h'.interfaces.trans h.interfaces
  impls := h'.impls.trans h.impls
  openNames := h'.openNames.trans h.openNames
  waiting span hs := (h'.waiting span hs).trans (h.waiting span hs)
  outer := h'.outer.trans h.outer
  replaced ho := (h'.replaced (h.outer ▸ ho)).trans (h.replaced ho)

theorem Matches.bind {s₁ s₂ : State Custody} (h : s₁.Matches spans s₂) (name : String) (ty : Ty) :
    (s₁.bind name ty).Matches spans (s₂.bind name ty) where
  akin :=
    { h.akin with
      scopes := congrArg (Scopes.define · name ty) h.akin.scopes
      replaced := fun other => by
        simp only [State.bind]
        rw [h.akin.scopes]
        split
        · rw [List.contains_cons, List.contains_cons, h.akin.replaced]
        · exact h.akin.replaced other }
  tracking := congrArg (Tracking.bind name ty) h.tracking
  waiting := h.waiting

theorem finds_bind (s : State Custody) (spans : List Span) (name : String) (ty : Ty) :
    Finds spans [] s (s.bind name ty) where
  __ := Finds.refl spans s
  replaced ho := by
    have hg : s.scopes.atGlobal = false := by
      rw [Scopes.atGlobal, List.isEmpty_eq_false_iff]
      exact ho
    simp only [State.bind]
    rw [hg]
    rfl

/-- What was found in a scope of its own was found in the code around it. -/
theorem Finds.leave {fs : List Finding} {s s' : State Custody} {kind : ScopeKind} {t : Custody}
    (h : Finds spans fs { s with scopes := s.scopes.push kind, tracking := t } s') (t' : Custody) :
    Finds spans fs s { s' with scopes := s'.scopes.pop, tracking := t' } where
  __ := h
  outer := congrArg Scopes.outer (pop_eq_of_extends h.outer)
  replaced _ := h.replaced (List.cons_ne_nil _ _)

end State

namespace Check
variable {spans : List Span}
variable {span : Span}

/-- Steps that do the same, and find the same, in states that match. -/
def Same (spans : List Span) ⦃α : Type⦄ (m₁ m₂ : Check Custody α) : Prop :=
  ∀ s₁ s₂ : State Custody, s₁.Matches spans s₂ → (m₁.run s₁).1 = (m₂.run s₂).1 ∧
    (m₁.after s₁).Matches spans (m₂.after s₂) ∧
    ∃ fs, s₁.Finds spans fs (m₁.after s₁) ∧ s₂.Finds spans fs (m₂.after s₂)

theorem same_report (fs : List Finding) : Same spans (report fs) (report fs) := by
  intro s₁ s₂ h
  refine ⟨rfl, ⟨{ h.akin with }, h.tracking, h.waiting⟩, fs.reverse, ?_, ?_⟩
  · exact { State.Finds.refl spans s₁ with findings := rfl }
  · exact { State.Finds.refl spans s₂ with findings := rfl }

/-- Steps that only change what is known, in the same way. -/
theorem same_modify {f : State Custody → State Custody}
    (hf : ∀ s₁ s₂ : State Custody, s₁.Matches spans s₂ → (f s₁).Matches spans (f s₂))
    (hs : ∀ s, State.Finds spans [] s (f s)) : Same spans (modify f) (modify f) :=
  fun s₁ s₂ h => ⟨rfl, hf s₁ s₂ h, [], hs s₁, hs s₂⟩

theorem same_seq {α β : Type} {m₁ m₂ : Check Custody α} {k₁ k₂ : α → Check Custody β}
    (hm : Same spans m₁ m₂) (hk : ∀ a, Same spans (k₁ a) (k₂ a)) :
    Same spans (m₁ >>= k₁) (m₂ >>= k₂) := by
  intro s₁ s₂ h
  obtain ⟨ha, hs, fs, hf₁, hf₂⟩ := hm s₁ s₂ h
  obtain ⟨hb, hs', fs', hf₁', hf₂'⟩ := hk (m₁.run s₁).1 _ _ hs
  have hrun : (m₂ >>= k₂).run s₂ = (k₂ (m₁.run s₁).1).run (m₂.after s₂) := by
    rw [ha]
    rfl
  rw [after.eq_1 (m₂ >>= k₂), hrun]
  exact ⟨hb, hs', fs' ++ fs, hf₁.trans hf₁', hf₂.trans hf₂'⟩

theorem same_demand (ok : Bool) (cause : Cause) (span : Span) :
    Same spans (demand ok cause span) (demand ok cause span) := by
  rw [demand_eq_report]
  exact same_report _

/-- What is in the code of a body does the same in states that match. -/
theorem same_core (spans : List Span) : Core (Same spans) where
  pure a s₁ s₂ h := ⟨rfl, h, [], .refl spans s₁, .refl spans s₂⟩
  seq := same_seq
  get hk s₁ s₂ h := hk s₁ s₂ h.akin s₁ s₂ h
  report := same_report
  note span ty := same_modify (fun s₁ s₂ h => ⟨{ h.akin with }, h.tracking, h.waiting⟩)
    fun s => { State.Finds.refl spans s with }
  bind name ty := same_modify (fun s₁ s₂ h => h.bind name ty) fun s => s.finds_bind spans name ty
  move name site := same_modify
    (fun s₁ s₂ h => ⟨{ h.akin with }, congrArg (Tracking.move name site) h.tracking, h.waiting⟩)
    fun s => { State.Finds.refl spans s with }
  warnIfMoved name span s₁ s₂ h := by
    unfold after
    rw [run_warnIfMoved, run_warnIfMoved, h.tracking]
    exact same_report _ s₁ s₂ h
  borrow name mutable span s₁ s₂ h := by
    unfold after
    rw [run_borrow, run_borrow, h.tracking]
    split
    · exact same_report _ s₁ s₂ h
    · let t := (Tracking.borrow name mutable s₂.tracking).2
      have hin : State.Matches spans { s₁ with tracking := t } { s₂ with tracking := t } :=
        ⟨{ h.akin with }, rfl, h.waiting⟩
      obtain ⟨-, hout, fs, hf₁, hf₂⟩ := same_report _ _ _ hin
      exact ⟨rfl, hout, fs, { hf₁ with }, { hf₂ with }⟩
  demandFree name span s₁ s₂ h := by
    unfold after
    rw [run_demandFree, run_demandFree, h.tracking]
    exact same_demand _ _ span s₁ s₂ h
  demandNoBorrows span s₁ s₂ h := by
    unfold after
    rw [run_demandNoBorrows, run_demandNoBorrows, h.tracking]
    exact same_demand _ _ span s₁ s₂ h
  inFrame := fun kind m₁ m₂ hm s₁ s₂ h => by
    have hin : (s₁.enterFrame kind).Matches spans (s₂.enterFrame kind) :=
      ⟨{ h.akin with scopes := congrArg (Scopes.push · kind) h.akin.scopes },
        congrArg Tracking.enterFrame h.tracking, h.waiting⟩
    obtain ⟨-, hout, fs, hf₁, hf₂⟩ := hm _ _ hin
    refine ⟨rfl, ⟨{ hout.akin with scopes := congrArg Scopes.pop hout.akin.scopes },
      congrArg Tracking.leaveFrame hout.tracking, hout.waiting⟩, fs, hf₁.leave _, hf₂.leave _⟩
  inBlock := fun {m₁ m₂} hm s₁ s₂ h => by
    have hin : s₁.enterBlock.Matches spans s₂.enterBlock :=
      ⟨{ h.akin with scopes := congrArg (Scopes.push · .block) h.akin.scopes },
        congrArg Tracking.enterBlock h.tracking, h.waiting⟩
    obtain ⟨-, hout, fs, hf₁, hf₂⟩ := hm _ _ hin
    refine ⟨rfl, ⟨{ hout.akin with scopes := congrArg Scopes.pop hout.akin.scopes },
      congrArg Tracking.leaveBlock hout.tracking, hout.waiting⟩, fs, hf₁.leave _, hf₂.leave _⟩
  returning := fun expected m₁ m₂ hm s₁ s₂ h => by
    have hin : State.Matches spans { s₁ with returns := expected :: s₁.returns }
        { s₂ with returns := expected :: s₂.returns } :=
      ⟨{ h.akin with returns := congrArg (expected :: ·) h.akin.returns }, h.tracking, h.waiting⟩
    obtain ⟨-, hout, fs, hf₁, hf₂⟩ := hm _ _ hin
    refine ⟨rfl, ⟨{ hout.akin with returns := congrArg List.tail hout.akin.returns },
      hout.tracking, hout.waiting⟩, fs, { hf₁ with }, { hf₂ with }⟩

theorem run_declaredSignature_some {τ : Type} {s : State τ} {f : FnTy}
    (h : s.signature? span = some f) (sig : Signature) :
    (declaredSignature span sig).run s = (f, s.dropSignature span) := by
  rw [declaredSignature, StateT.run_bind, StateT.run_get, pure_bind]
  dsimp only
  rw [h]
  rfl

theorem run_declaredSignature_none {τ : Type} {s : State τ} (h : s.signature? span = none)
    (sig : Signature) : (declaredSignature span sig).run s = (signature sig).run s := by
  rw [declaredSignature, StateT.run_bind, StateT.run_get, pure_bind]
  dsimp only
  rw [h]

theorem same_declaredSignature (hspan : span ∈ spans) (sig : Signature) :
    Same spans (declaredSignature span sig) (declaredSignature span sig) := by
  intro s₁ s₂ h
  unfold after
  have hwaits := h.waiting span hspan
  cases hs : s₂.signature? span with
  | none =>
    rw [run_declaredSignature_none (hwaits.trans hs), run_declaredSignature_none hs]
    exact (same_core spans).signature sig s₁ s₂ h
  | some f =>
    rw [run_declaredSignature_some (hwaits.trans hs), run_declaredSignature_some hs]
    have hdrop (s : State Custody) : s.Finds spans [] (s.dropSignature span) := by
      refine { State.Finds.refl spans s with waiting := fun other hother => ?_ }
      have hne : span ≠ other := fun heq => hother (heq ▸ hspan)
      rw [s.signature?_dropSignature, if_neg hne]
    refine ⟨rfl, ⟨{ h.akin with }, h.tracking, fun other hother => ?_⟩, [], hdrop s₁, hdrop s₂⟩
    rw [s₁.signature?_dropSignature, s₂.signature?_dropSignature, h.waiting other hother]

/-- Code does the same in states that match, if it declares no types and imports no module whole, and
if the spans are those of all functions in it. -/
theorem same_walk (spans : List Span) : Walk (Same spans) (Same spans) fun _ => true :=
  (same_core spans).walk fun _ hp => absurd hp.symm Bool.false_ne_true

theorem same_handles {s : Stmt} (ht : s.declaresType = false) (hw : s.isWildcard = false)
    (hs : ∀ d ∈ s.signed, d.1 ∈ spans) : Handles (Same spans) s where
  type h := absurd h (ht ▸ Bool.false_ne_true)
  signed d h := same_declaredSignature (hs d h) d.2
  imports := by
    rintro ⟨path, imports⟩ h
    apply (same_core spans).require
    rintro rfl
    cases s <;> cases h
    cases hw

end Check

/-! ### Declarations at the top of a program -/

namespace Stmt

/-- The values that the fields of a class have unless others are given. -/
def fieldDefaults : Stmt → List Expr
  | .classDecl _ _ fields _ => fields.filterMap Field.default
  | _ => []

/-- All statements in a statement, itself among them. -/
def within (s : Stmt) : List Stmt :=
  s :: s.inner fun _ => true

/-- The spans of all functions and methods in a statement. -/
def spans (s : Stmt) : List Span :=
  s.within.flatMap fun t => t.signed.map Prod.fst

/-- A declaration without values for fields, types inside or names from elsewhere. -/
structure Plain (s : Stmt) : Prop where
  declaration : s.isDeclaration
  fields : s.fieldDefaults = []
  inner : ∀ t ∈ s.inner fun _ => true, t.declaresType = false ∧ t.isWildcard = false

instance (s : Stmt) : Decidable s.Plain :=
  decidable_of_iff (s.isDeclaration ∧ s.fieldDefaults = [] ∧
      ∀ t ∈ s.inner fun _ => true, t.declaresType = false ∧ t.isWildcard = false)
    ⟨fun h => ⟨h.1, h.2.1, h.2.2⟩, fun h => ⟨h.declaration, h.fields, h.inner⟩⟩

end Stmt

namespace Check

theorem signed_mem_spans {s t : Stmt} (h : t ∈ s.within) {d : Span × Signature} (hd : d ∈ t.signed) :
    d.1 ∈ s.spans :=
  List.mem_flatMap.mpr ⟨t, h, List.mem_map_of_mem hd⟩

theorem handled_inner {s : Stmt} (h : s.Plain) :
    Handled (Same s.spans) (s.inner fun _ => true) := by
  intro t ht
  obtain ⟨htype, hwildcard⟩ := h.inner t ht
  apply same_handles htype hwildcard
  intro d hd
  exact signed_mem_spans (List.mem_cons_of_mem s ht) hd

theorem classDecl_atGlobal {s : State Custody} (hg : s.scopes.atGlobal) (span : Span) (name : Ident)
    (fields : List Field) (ms : List Method) :
    (stmt (.classDecl span name fields ms)).after s = after (do
      let c := (← get).classes.find? name.name
      defaults c fields
      methods (ownerTy c name.name) ms) s := by
  rw [stmt, after_bind, after_declareHere hg]

theorem implDecl_atGlobal {s : State Custody} (hg : s.scopes.atGlobal) (span : Span)
    (interface target : Ident) (ms : List Method) :
    (stmt (.implDecl span interface target ms)).after s = after (do
      implementation interface target ms span
      let c := (← get).classes.find? target.name
      methods (ownerTy c target.name) ms) s := by
  rw [stmt, after_bind, after_declareHere hg]

/-- A declaration does the same in states that match. -/
theorem same_declaration {st : Stmt} (hst : st.Plain) {s₁ s₂ : State Custody}
    (h : s₁.Matches st.spans s₂) (hg : s₁.scopes.atGlobal) :
    ((stmt st).after s₁).Matches st.spans ((stmt st).after s₂) ∧
      ∃ fs, s₁.Finds st.spans fs ((stmt st).after s₁) ∧
        s₂.Finds st.spans fs ((stmt st).after s₂) := by
  have hinner := handled_inner hst
  have hg₂ : s₂.scopes.atGlobal := h.akin.scopes ▸ hg
  have hwalk := same_walk st.spans
  have hsigned (d : Span × Signature) (hd : d ∈ st.signed) :
      Same st.spans (declaredSignature d.1 d.2) (declaredSignature d.1 d.2) :=
    same_declaredSignature (signed_mem_spans List.mem_cons_self hd) d.2
  cases st with
  | fn span name sig b =>
    exact (hwalk.stmt _ (same_handles rfl rfl fun d hd =>
      signed_mem_spans List.mem_cons_self hd) hinner s₁ s₂ h).2
  | classDecl span name fields ms =>
    obtain ⟨hfields, hms⟩ := handled_append.mp hinner
    rw [classDecl_atGlobal hg, classDecl_atGlobal hg₂]
    refine (hwalk.get (fun s₁ s₂ heq => ?_) s₁ s₂ h).2
    rw [heq.classes]
    exact hwalk.seq (hwalk.defaults _ fields hfields) fun _ => hwalk.methods _ ms hsigned hms
  | interfaceDecl span name heads =>
    rw [stmt, after_declareHere hg, after_declareHere hg₂]
    exact ⟨h, [], .refl _ s₁, .refl _ s₂⟩
  | implDecl span interface target ms =>
    rw [implDecl_atGlobal hg, implDecl_atGlobal hg₂]
    refine (hwalk.seq (hwalk.implementation interface target ms span) (fun _ =>
      hwalk.get fun s₁ s₂ heq => ?_) s₁ s₂ h).2
    rw [heq.classes]
    exact hwalk.methods _ ms hsigned hinner
  | _ => cases hst.declaration

/-! ### What declarations leave -/

end Check

namespace State

theorem Restored.trans {a b c : State Custody} (h : a.Restored b) (h' : b.Restored c) :
    a.Restored c :=
  ⟨h'.scopes.trans h.scopes, h'.ownership.trans h.ownership, h'.borrows.trans h.borrows⟩

/-- Where no code is around, nothing is moved or borrowed at the top of a program. -/
theorem Restored.tracking_empty {s s' : State Custody} (h : s.Restored s') (he : s.Extends s')
    (ht : s.tracking = .empty) : s'.tracking = .empty := by
  obtain ⟨-, ho, hb⟩ := h
  have hmarks := he.tracking.marks
  rw [ht] at ho hb hmarks
  have hregions : s'.tracking.regions = [] := List.map_eq_nil_iff.mp hmarks
  cases hs : s'.tracking with
  | mk ownership borrows regions =>
    rw [hs] at ho hb hregions
    cases ho
    cases hb
    cases hregions
    rfl

end State

namespace Check
variable {s : State Custody}

theorem replaced_inFrame {m : Check Custody Unit} (hm : Same spans m m) (kind : ScopeKind)
    (s : State Custody) : ((inFrame kind m).after s).replaced = s.replaced := by
  obtain ⟨-, -, fs, hfinds, -⟩ := hm _ _ (.refl spans (s.enterFrame kind))
  exact hfinds.replaced (List.cons_ne_nil _ _)

theorem replaced_function {b : Block} (hb : Same spans (body b) (body b)) (sig : Signature)
    (f : FnTy) (self? : Option Ty) (s : State Custody) :
    ((function sig f self? (body b)).after s).replaced = s.replaced := by
  have h := same_core spans
  have hinner := h.seq (h.bindAll sig.params f.params) fun _ => h.returning (f.expected? sig) hb
  cases self? with
  | none => exact replaced_inFrame hinner _ s
  | some ty => exact replaced_inFrame (h.seq (h.bind "self" ty) fun _ => hinner) _ s

theorem replaced_declaredSignature (span : Span) (sig : Signature) (s : State Custody) :
    ((declaredSignature span sig).after s).replaced = s.replaced := by
  unfold after
  cases hs : s.signature? span with
  | none => rw [run_declaredSignature_none hs]; rfl
  | some f => rw [run_declaredSignature_some hs]; rfl

/-- Methods leave scopes, moves and borrows as they were, and take no names. -/
theorem methods_restores {ms : List Method} (hms : Handled (Same spans) (innerMethods (fun _ => true) ms))
    (owner : Ty) (s : State Custody) :
    s.Restored ((methods owner ms).after s) ∧ ((methods owner ms).after s).replaced = s.replaced := by
  induction ms generalizing s with
  | nil =>
    rw [methods]
    exact ⟨⟨rfl, rfl, rfl⟩, rfl⟩
  | cons m ms ih =>
    obtain ⟨name, receiver, sig, b, span⟩ := m
    obtain ⟨hb, hms⟩ := handled_append.mp hms
    let f := ((declaredSignature span sig : Check Custody FnTy).run s).1
    let s₁ := (declaredSignature span sig : Check Custody FnTy).after s
    let s₂ := (function sig f (receiver.self? owner) (body b)).after s₁
    have hafter : (methods owner (⟨name, receiver, sig, b, span⟩ :: ms)).after s =
        (methods owner ms).after s₂ := by
      rw [methods]
      rfl
    have hsame : Same spans (body b) (body b) := (same_walk spans).body b hb
    obtain ⟨hrest, hrestReplaced⟩ := ih hms s₂
    rw [hafter]
    constructor
    · have hsig : s.Restored s₁ := declaredSignature_restores span sig s
      have hbody : s₁.Restored s₂ := function_restores sig f _ b s₁
      exact (hsig.trans hbody).trans hrest
    · calc ((methods owner ms).after s₂).replaced
          = s₂.replaced := hrestReplaced
        _ = s₁.replaced := replaced_function hsame sig f _ s₁
        _ = s.replaced := replaced_declaredSignature span sig s

theorem after_reports (fs fs' : List Finding) (s : State Custody) :
    (report fs').after ((report fs).after s) = (report (fs ++ fs')).after s := by
  change { s with findings := fs'.reverse ++ (fs.reverse ++ s.findings) } =
    { s with findings := (fs ++ fs').reverse ++ s.findings }
  rw [List.reverse_append, List.append_assoc]

/-- Looking at an implementation only finds something. -/
theorem after_implementation (interface target : Ident) (ms : List Method) (span : Span)
    (s : State Custody) :
    ∃ fs, (implementation interface target ms span).after s = (report fs).after s := by
  rw [implementation, after_get]
  dsimp only
  rw [after_bind, after_bind, demand_eq_report, demand_eq_report, after_reports]
  split
  · exact ⟨_, after_reports _ _ s⟩
  · exact ⟨_, rfl⟩

/-- The function of a statement is bound to the type that waits for it. -/
def Hoisted (s : State Custody) : Stmt → Prop
  | .fn span name _ _ => ∃ f, s.signature? span = some f ∧
    s.scopes.inner.names.find? name.name = some f.toTy ∧
    (Builtin.isVariadic name.name → s.replaced.contains name.name)
  | _ => True

/-- A declaration that can be come to: nothing is moved or borrowed at the top of a program, and its
function is known. -/
structure Ready (s : State Custody) (st : Stmt) : Prop where
  plain : st.Plain
  atTop : s.scopes.atGlobal
  tracking : s.tracking = .empty
  hoisted : Hoisted s st

/-- A function that is bound already is bound once more. -/
theorem restored_bind {name : String} {f : FnTy} (ht : s.tracking = .empty)
    (hf : s.scopes.inner.names.find? name = some f.toTy) : s.Restored (s.bind name f.toTy) := by
  refine ⟨?_, ?_, rfl⟩
  · have hnames := Journal.putBack_self s.scopes.inner.names name
    rw [hf] at hnames
    exact congrArg (fun names => { s.scopes with inner := { s.scopes.inner with names } }) hnames
  · change s.tracking.ownership.track name f.toTy = s.tracking.ownership
    rw [ht]
    rfl

theorem replaced_bind {name : String} (hv : Builtin.isVariadic name → s.replaced.contains name)
    (ty : Ty) (other : String) :
    (s.bind name ty).replaced.contains other = s.replaced.contains other := by
  simp only [State.bind]
  split
  · next h =>
    have hmem := hv (Bool.and_eq_true_iff.mp h).2
    rw [List.contains_cons]
    cases hother : other == name with
    | false => rfl
    | true => rw [eq_of_beq hother, hmem]; rfl
  · rfl

theorem defaults_eq_pure (c : Option ClassDef) {fields : List Field}
    (h : fields.filterMap Field.default = []) : (defaults c fields : Check Custody Unit) = pure () := by
  induction fields with
  | nil => rw [defaults]
  | cons field fields ih =>
    obtain ⟨name, type, value, span⟩ := field
    cases value with
    | some e => cases h
    | none =>
      rw [defaults]
      exact ih h

/-- A declaration at the top of a program leaves scopes, moves and borrows as they were, and takes no
names that were not taken before. -/
theorem Ready.restores {st : Stmt} (h : Ready s st) : s.Restored ((stmt st).after s) ∧
      ∀ name, ((stmt st).after s).replaced.contains name = s.replaced.contains name := by
  obtain ⟨hst, hg, ht, hh⟩ := h
  have hinner := handled_inner hst
  cases st with
  | fn span name sig b =>
    obtain ⟨f, hkept, hbound, hv⟩ := hh
    -- The name is bound once more, to the type that it has already.
    let s₁ := (s.dropSignature span).bind name.name f.toTy
    have hafter : (stmt (.fn span name sig b)).after s =
        (function sig f none (body b)).after s₁ := by
      rw [stmt, after_bind]
      unfold after
      rw [run_declaredSignature_some hkept]
      rfl
    have hs₁ : s.Restored s₁ := { restored_bind (s := s.dropSignature span) ht hbound with }
    have hsame := (same_walk _).body b hinner
    rw [hafter]
    refine ⟨hs₁.trans (function_restores sig f none b s₁), fun other => ?_⟩
    rw [replaced_function hsame]
    exact replaced_bind (s := s.dropSignature span) hv f.toTy other
  | classDecl span name fields ms =>
    obtain ⟨-, hms⟩ := handled_append.mp hinner
    rw [classDecl_atGlobal hg, after_get]
    dsimp only
    rw [defaults_eq_pure _ hst.fields, pure_bind]
    obtain ⟨hrestored, hreplaced⟩ := methods_restores hms
      (ownerTy (s.classes.find? name.name) name.name) s
    exact ⟨hrestored, fun other => congrArg (List.contains · other) hreplaced⟩
  | interfaceDecl span name heads =>
    rw [stmt, after_declareHere hg]
    exact ⟨⟨rfl, rfl, rfl⟩, fun _ => rfl⟩
  | implDecl span interface target ms =>
    obtain ⟨fs, hfs⟩ := after_implementation interface target ms span s
    rw [implDecl_atGlobal hg, after_bind, hfs, after_get]
    obtain ⟨hrestored, hreplaced⟩ := methods_restores hinner (ownerTy (s.classes.find? target.name)
      target.name) ((report fs).after s)
    exact ⟨⟨hrestored.scopes, hrestored.ownership, hrestored.borrows⟩,
      fun other => congrArg (List.contains · other) hreplaced⟩
  | _ => cases hst.declaration

/-- After a declaration the rules see what they saw before it, and nothing is moved or borrowed. -/
theorem Ready.akin {st : Stmt} (h : Ready s st) :
    ((stmt st).after s).Akin s ∧ ((stmt st).after s).tracking = .empty := by
  obtain ⟨hrestored, hreplaced⟩ := h.restores
  obtain ⟨-, fs, hfinds, -⟩ := same_declaration h.plain (.refl st.spans s) h.atTop
  have hextends : s.Extends ((stmt st).after s) := contained_congruence.stmt st s
  constructor
  · exact
      { scopes := hrestored.scopes
        classes := hfinds.classes
        interfaces := hfinds.interfaces
        implements := by
          unfold State.implements
          rw [hfinds.impls]
        returns := hextends.returns
        replaced := hreplaced
        openNames := hfinds.openNames }
  · exact hrestored.tracking_empty hextends h.tracking

end Check
end CarvFront
