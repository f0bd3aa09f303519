import CarvFront.Proofs.Frames

/-! What a step of checking may report. Where a jump or an `await` stands is looked at by one step
each, and names of types are looked up in annotations alone; no other step reports such causes. -/
namespace CarvFront

/-- What kinds of scopes there are, from the inside out. -/
def Scopes.kinds (s : Scopes) : List ScopeKind :=
  s.toList.map Scope.kind

namespace Check
variable {τ α β : Type} {A : Cause → Bool}

/-- A step that reports only causes that are allowed, notes no type, and leaves every scope that it
enters. -/
def Reports (A : Cause → Bool) (m : Check τ α) : Prop :=
  ∀ s, (m.after s).scopes.kinds = s.scopes.kinds ∧ (m.after s).types = s.types ∧
    ∃ fs, (∀ f ∈ fs, A f.cause = true) ∧ (m.after s).findings = fs ++ s.findings

/-- Ordinary causes are allowed, and maybe others. -/
def Allows (A : Cause → Bool) : Prop :=
  ∀ c : Cause, c.isOrdinary = true → A c = true

theorem Allows.all (hA : Allows A) {fs : List Finding} (h : Ordinary fs) :
    ∀ f ∈ fs, A f.cause = true :=
  fun f hf => hA _ (h f hf)

theorem reports_pure (a : α) : Reports A (pure a : Check τ α) :=
  fun _ => ⟨rfl, rfl, [], fun _ hf => absurd hf List.not_mem_nil, rfl⟩

theorem Reports.seq {m : Check τ α} {k : α → Check τ β} (hm : Reports A m)
    (hk : ∀ a, Reports A (k a)) : Reports A (m >>= k) := by
  intro s
  obtain ⟨hkinds, htypes, fs, hfs, heq⟩ := hm s
  obtain ⟨hkinds', htypes', gs, hgs, heq'⟩ := hk (m.run s).1 (m.after s)
  refine ⟨hkinds'.trans hkinds, htypes'.trans htypes, gs ++ fs,
    List.forall_mem_append.mpr ⟨hgs, hfs⟩, ?_⟩
  rw [List.append_assoc, ← heq]
  exact heq'

theorem Reports.mono {B : Cause → Bool} (hAB : ∀ c : Cause, A c = true → B c = true)
    {m : Check τ α} (h : Reports A m) : Reports B m := by
  intro s
  obtain ⟨hkinds, htypes, fs, hfs, heq⟩ := h s
  exact ⟨hkinds, htypes, fs, fun f hf => hAB _ (hfs f hf), heq⟩

theorem reports_get {k : State τ → Check τ α} (hk : ∀ s, Reports A (k s)) :
    Reports A (get >>= k) :=
  fun s => hk s s

theorem reports_report {fs : List Finding} (h : ∀ f ∈ fs, A f.cause = true) :
    Reports A (report fs : Check τ Unit) :=
  fun _ => ⟨rfl, rfl, fs.reverse, fun f hf => h f (List.mem_reverse.mp hf), rfl⟩

/-- A step that has nothing to say. -/
theorem reports_modify {f : State τ → State τ} (h : ∀ s, (f s).scopes.kinds = s.scopes.kinds ∧
      (f s).types = s.types ∧ (f s).findings = s.findings) :
    Reports A (modify f : Check τ Unit) :=
  fun s => ⟨(h s).1, (h s).2.1, [], fun _ hf => absurd hf List.not_mem_nil, (h s).2.2⟩

theorem reports_forM (as : List β) {k : β → Check τ Unit} (hk : ∀ b, Reports A (k b)) :
    Reports A (as.forM k) := by
  induction as with
  | nil => exact reports_pure ()
  | cons b as ih => exact (hk b).seq fun _ => ih

theorem reports_foldlM (as : List β) {k : α → β → Check τ α} (hk : ∀ a b, Reports A (k a b))
    (a : α) : Reports A (as.foldlM k a) := by
  induction as generalizing a with
  | nil => exact reports_pure a
  | cons b as ih => exact (hk a b).seq fun a => ih a

theorem reports_demand {cause : Cause} (h : A cause = true) (ok : Bool) (span : Span) :
    Reports A (demand ok cause span : Check τ Unit) := by
  unfold demand
  split
  · exact reports_pure ()
  · exact reports_report (List.forall_mem_singleton.mpr h)

theorem reports_jump {word : Keyword} (h : A (.outsideLoop word) = true) (span : Span) :
    Reports A (jump word span : Check τ Unit) :=
  reports_get fun s => reports_demand h s.scopes.inLoop span

section Annotations
variable (hn : ∀ name, A (.unknownType name) = true)
include hn

theorem reports_unknownTypes (known : String → Option Ty) (names : List Ident) :
    Reports A (report (unknownTypes known names) : Check τ Unit) := by
  refine reports_report fun f hf => ?_
  obtain ⟨n, -, rfl⟩ := List.mem_map.mp hf
  exact hn n.name

theorem reports_resolve (t : TypeExpr) : Reports A (resolve t : Check τ Ty) :=
  reports_get fun _ => (reports_unknownTypes hn _ _).seq fun _ => reports_pure _

theorem reports_signature (sig : Signature) : Reports A (signature sig : Check τ FnTy) :=
  reports_get fun _ => (reports_unknownTypes hn _ _).seq fun _ => reports_pure _

theorem reports_declaredSignature (span : Span) (sig : Signature) :
    Reports A (declaredSignature span sig : Check τ FnTy) := by
  refine reports_get fun s => ?_
  split
  · exact Reports.seq (reports_modify fun _ => ⟨rfl, rfl, rfl⟩) fun _ => reports_pure _
  · exact reports_signature hn sig

theorem reports_addMethods (t : Table MethodTy) (ms : List Method) :
    Reports A (addMethods t ms : Check τ (Table MethodTy)) := by
  refine reports_foldlM ms (fun t m => (reports_signature hn m.sig).seq fun f => ?_) t
  exact Reports.seq (reports_modify fun _ => ⟨rfl, rfl, rfl⟩) fun _ => reports_pure _

theorem reports_interfaceMethods (heads : List MethodHead) :
    Reports A (interfaceMethods heads : Check τ (Table MethodTy)) :=
  reports_foldlM heads (fun _ m => (reports_signature hn m.sig).seq fun _ => reports_pure _) ∅

theorem reports_classFields (fields : List Field) :
    Reports A (classFields fields : Check τ (Table Ty)) :=
  reports_foldlM fields (fun _ f => (reports_resolve hn f.type).seq fun _ => reports_pure _) ∅

theorem reports_declareInterface (s : Stmt) : Reports A (declareInterface s : Check τ Unit) := by
  unfold declareInterface
  split
  · exact (reports_interfaceMethods hn _).seq fun _ => reports_modify fun _ => ⟨rfl, rfl, rfl⟩
  · exact reports_pure ()

theorem reports_declareClass (s : Stmt) : Reports A (declareClass s : Check τ Unit) := by
  unfold declareClass
  split
  · refine (reports_classFields hn _).seq fun _ => (reports_addMethods hn _ _).seq fun _ => ?_
    exact reports_modify fun _ => ⟨rfl, rfl, rfl⟩
  · exact reports_pure ()

theorem reports_declareImpl (s : Stmt) : Reports A (declareImpl s : Check τ Unit) := by
  unfold declareImpl
  split
  · refine reports_get fun s => ?_
    split
    · exact reports_pure ()
    · exact (reports_addMethods hn _ _).seq fun _ => reports_modify fun _ => ⟨rfl, rfl, rfl⟩
  · exact reports_pure ()

theorem reports_declareTypes (ss : List Stmt) : Reports A (declareTypes ss : Check τ Unit) := by
  refine Reports.seq (reports_modify fun s => ?_) fun _ => ?_
  · rw [reserve_eq]
    exact ⟨rfl, rfl, rfl⟩
  refine (reports_forM ss (reports_declareInterface hn)).seq fun _ => ?_
  exact (reports_forM ss (reports_declareClass hn)).seq fun _ =>
    reports_forM ss (reports_declareImpl hn)

theorem reports_declareHere (s : Stmt) : Reports A (declareHere s : Check τ Unit) := by
  refine reports_get fun st => ?_
  split
  · exact reports_declareTypes hn [s]
  · exact reports_pure ()

end Annotations

/-! ### Steps that bind, move or borrow -/

section Tracking
variable [Tracking τ]

theorem reports_bind (name : String) (ty : Ty) : Reports A (bind name ty : Check τ Unit) :=
  reports_modify fun _ => ⟨rfl, rfl, rfl⟩

theorem reports_bindAll (params : List Param) (tys : List Ty) :
    Reports A (bindAll params tys : Check τ Unit) :=
  reports_forM _ fun _ => reports_bind _ _

theorem reports_hoist (hn : ∀ name, A (.unknownType name) = true) (s : Stmt) :
    Reports A (hoist s : Check τ Unit) := by
  unfold hoist
  split
  · refine (reports_signature hn _).seq fun f => ?_
    exact Reports.seq (reports_modify fun _ => ⟨rfl, rfl, rfl⟩) fun _ => reports_bind _ _
  · exact reports_pure ()

variable (hA : Allows A)
include hA

/-- Steps without code inside report ordinary causes. -/
theorem reports_plain : Plain fun ⦃α⦄ (m _ : Check τ α) => Reports A m where
  pure := reports_pure
  seq hm hk := hm.seq hk
  get hk := reports_get fun s => hk s s (.refl s)
  ordinary _ h := reports_report (hA.all h)
  move _ _ := reports_modify fun _ => ⟨rfl, rfl, rfl⟩
  warnIfMoved name span s := by
    rw [after, run_warnIfMoved]
    refine reports_report (fun f hf => ?_) s
    obtain ⟨site, -, rfl⟩ := List.mem_map.mp hf
    exact hA _ rfl
  borrow name mutable span s := by
    rw [after, run_borrow]
    split
    · exact reports_report (hA.all (ordinary_singleton rfl span)) s
    · refine ⟨rfl, rfl, _, fun f hf => ?_, rfl⟩
      obtain ⟨conflict, -, rfl⟩ := List.mem_map.mp (List.mem_reverse.mp hf)
      exact hA _ rfl
  demandFree _ _ := reports_get fun _ => reports_demand (hA _ rfl) _ _
  demandNoBorrows _ := reports_get fun _ => reports_demand (hA _ rfl) _ _

theorem reports_bindingTy (hn : ∀ name, A (.unknownType name) = true) (type : Option TypeExpr)
    (value : Ty) (span : Span) : Reports A (bindingTy type value span : Check τ Ty) := by
  unfold bindingTy
  split
  · refine (reports_resolve hn _).seq fun _ => ?_
    exact ((reports_plain hA).demandAssignable _ _ rfl _).seq fun _ => reports_pure _
  · exact reports_pure _

theorem reports_await (h : A .awaitOutsideAsync = true) (ty : Ty) (operand span : Span) :
    Reports A (await ty operand span : Check τ Ty) := by
  refine reports_get fun s => (reports_demand h _ span).seq fun _ => ?_
  refine ((reports_plain hA).demandNoBorrows span).seq fun _ => ?_
  exact (reports_plain hA).accept (ty.ordinary_awaited operand)

theorem reports_require (path : String) (imports : Import) :
    Reports A (require path imports : Check τ Unit) := by
  cases imports with
  | module newName =>
    cases newName with
    | some newName => exact reports_bind _ _
    | none => exact reports_bind _ _
  | named names =>
    refine reports_forM names fun member => ?_
    unfold importMember
    dsimp only
    split
    · exact ((reports_plain hA).accept (Builtin.ordinary_memberTy path member)).seq fun _ =>
        reports_bind _ _
    · exact (reports_pure _).seq fun _ => reports_bind _ _
  | wildcard =>
    rw [require]
    split
    · exact reports_forM _ fun e => reports_bind e.1 e.2.toTy
    · exact Reports.seq (reports_modify fun _ => ⟨rfl, rfl, rfl⟩) fun _ => reports_bind _ _

end Tracking
end Check
end CarvFront
