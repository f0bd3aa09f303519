import CarvFront.Proofs.NominalTypes

/-! Checking makes only types whose names are known, and keeps them known: one rule for each step, and
then the whole walk. -/
namespace CarvFront
namespace Check
variable {τ α β : Type} {n n' : TypeNames}
variable {m : Check τ α}

/-! ### Sound steps -/

/-- From states where at least the types of `n` have a name, a step keeps all types registered and
all names known, and its result is right for the names that are known then. -/
def Sound (n : TypeNames) (ok : TypeNames → α → Prop) (m : Check τ α) : Prop :=
  ∀ s : State τ, s.Registered → n.Within s.typeNames →
    (m.after s).Registered ∧ s.typeNames.Within (m.after s).typeNames ∧
      ok (m.after s).typeNames (m.run s).1

/-- A step whose result does not matter. -/
abbrev Keeping (n : TypeNames) (m : Check τ α) : Prop :=
  Sound n (fun _ _ => True) m

/-- A function whose type is known. -/
def KnowsFn (n : TypeNames) (f : FnTy) : Prop :=
  n.Knows f.toTy

variable {Q : TypeNames → α → Prop} {R : TypeNames → β → Prop}

theorem Sound.seq {k : α → Check τ β} (hm : Sound n Q m)
    (hk : ∀ n' a, n.Within n' → Q n' a → Sound n' R (k a)) : Sound n R (m >>= k) := by
  intro s hs hn
  obtain ⟨hs', hgrow, hok⟩ := hm s hs hn
  obtain ⟨hs'', hgrow', hok'⟩ := hk _ _ (hn.trans hgrow) hok (m.after s) hs' (.refl _)
  exact ⟨hs'', hgrow.trans hgrow', hok'⟩

theorem Sound.mono (hm : Sound n Q m) (hn : n.Within n') : Sound n' Q m :=
  fun s hs hs' => hm s hs (hn.trans hs')

theorem sound_pure {a : α} (h : ∀ n', n.Within n' → Q n' a) : Sound n Q (pure a : Check τ α) :=
  fun _ hs hn => ⟨hs, .refl _, h _ hn⟩

theorem keeping_pure (a : α) : Keeping n (pure a : Check τ α) :=
  sound_pure fun _ _ => trivial

theorem knows_pure {ty : Ty} (h : n.Knows ty) : Sound n TypeNames.Knows (pure ty : Check τ Ty) :=
  sound_pure fun _ hn => h.mono hn

/-- What is read from a state is right for the names that are known there. -/
theorem sound_get {k : State τ → Check τ α}
    (hk : ∀ s : State τ, s.Registered → n.Within s.typeNames → Sound s.typeNames Q (k s)) :
    Sound n Q (get >>= k) :=
  fun s hs hn => hk s hs hn s hs (.refl _)

/-- A change that leaves the names as they are. -/
theorem keeping_modify {f : State τ → State τ} (hnames : ∀ s, (f s).typeNames = s.typeNames)
    (h : ∀ s, n.Within s.typeNames → s.TypesIn s.typeNames → (f s).TypesIn s.typeNames) :
    Keeping n (modify f : Check τ Unit) := by
  intro s hs hn
  have htypes : (f s).TypesIn (f s).typeNames := by
    rw [hnames]
    exact h s hn hs
  refine ⟨htypes, ?_, trivial⟩
  change s.typeNames.Within (f s).typeNames
  rw [hnames]
  exact .refl _

/-- Findings, moves and borrows do not matter. -/
theorem Remarks.keeping {P : List Finding → Prop} (hm : Remarks P m) : Keeping n m := by
  intro s hs _
  obtain ⟨tracking, fs, -, heq⟩ := hm s
  rw [after, heq]
  exact ⟨{ hs with }, .refl _, trivial⟩

theorem keeping_report (fs : List Finding) : Keeping n (report fs : Check τ Unit) :=
  (remarks_report (P := fun _ => True) trivial).keeping

theorem sound_accept {j : Judgement} (h : n.Knows j.ty) :
    Sound n TypeNames.Knows (accept j : Check τ Ty) :=
  (keeping_report j.findings).seq fun _ _ hn _ => knows_pure (h.mono hn)

theorem sound_recorded (span : Span) {m : Check τ Ty} (hm : Sound n TypeNames.Knows m) :
    Sound n TypeNames.Knows (recorded span m) := by
  refine hm.seq fun n' ty _ hty => ?_
  refine Sound.seq (Q := fun _ _ => True) ?_ fun _ _ hn _ => knows_pure (hty.mono hn)
  refine keeping_modify (fun _ => rfl) fun s hn hs => { hs with types := ?_ }
  exact List.forall_mem_cons.mpr ⟨hty.mono hn, hs.types⟩

theorem keeping_forM {as : List β} {k : β → Check τ Unit} (hk : ∀ b ∈ as, ∀ n', Keeping n' (k b)) :
    Keeping n (as.forM k) := by
  induction as generalizing n with
  | nil => exact keeping_pure ()
  | cons a as ih =>
    obtain ⟨ha, has⟩ := List.forall_mem_cons.mp hk
    exact (ha n).seq fun _ _ _ _ => ih has

theorem sound_foldlM {as : List β} {k : α → β → Check τ α}
    (hQ : ∀ n n' a, Q n a → n.Within n' → Q n' a) (hk : ∀ n a b, Q n a → Sound n Q (k a b)) {a : α}
    (ha : Q n a) : Sound n Q (as.foldlM k a) := by
  induction as generalizing n a with
  | nil => exact sound_pure fun n' hn => hQ n n' a ha hn
  | cons b as ih => exact (hk n a b ha).seq fun _ _ _ hb => ih hb

theorem sound_lookup (name : String) (span : Span) :
    Sound n TypeNames.Knows (lookup name span : Check τ Ty) := by
  refine sound_get fun s hs _ => ?_
  split
  · next ty hty => exact knows_pure (hs.lookup hty)
  · split
    · exact knows_pure (TypeNames.knows_of_nil rfl)
    · exact sound_accept (TypeNames.knows_of_nil rfl)

/-! ### Annotations and declarations -/

theorem sound_resolve (t : TypeExpr) : Sound n TypeNames.Knows (resolve t : Check τ Ty) := by
  refine sound_get fun s _ _ => (keeping_report _).seq fun _ _ hn _ => knows_pure ?_
  exact (t.knows_ty s.typeNames).mono hn

theorem sound_signature (sig : Signature) : Sound n KnowsFn (signature sig : Check τ FnTy) := by
  refine sound_get fun s _ _ => (keeping_report _).seq fun _ _ hn _ => sound_pure fun _ hn' => ?_
  exact (sig.knows_fnTy s.typeNames).mono (hn.trans hn')

theorem sound_declaredSignature (span : Span) (sig : Signature) :
    Sound n KnowsFn (declaredSignature span sig : Check τ FnTy) := by
  refine sound_get fun s hs _ => ?_
  split
  · next f hf =>
    refine Sound.seq (Q := fun _ _ => True) ?_ fun _ _ hn _ => sound_pure fun _ hn' => ?_
    · exact keeping_modify (fun _ => rfl) fun _ _ hs => hs.dropSignature span
    · exact (hs.signature? hf).mono (hn.trans hn')
  · exact sound_signature sig

theorem keeping_keepSignature (span : Span) {f : FnTy} (hf : KnowsFn n f) :
    Keeping n (modify (·.keepSignature span f) : Check τ Unit) :=
  keeping_modify (fun _ => rfl) fun _ hn hs => hs.keepSignature span (hf.mono hn)

theorem sound_interfaceMethods (heads : List MethodHead) :
    Sound n TypeNames.KnowsMethods (interfaceMethods heads : Check τ (Table MethodTy)) := by
  refine sound_foldlM (fun _ _ _ h hn => h.mono hn) (fun n t m ht => ?_) Table.all_empty
  refine (sound_signature m.sig).seq fun n' f hn hf => sound_pure fun n'' hn' => ?_
  exact Table.All.insert (ht.mono (hn.trans hn')) _ (hf.mono hn')

theorem sound_addMethods {t : Table MethodTy} (ht : n.KnowsMethods t) (ms : List Method) :
    Sound n TypeNames.KnowsMethods (addMethods t ms : Check τ (Table MethodTy)) := by
  refine sound_foldlM (fun _ _ _ h hn => h.mono hn) (fun n t m ht => ?_) ht
  refine (sound_signature m.sig).seq fun n₁ f hn₁ hf => ?_
  refine (keeping_keepSignature m.span hf).seq fun n₂ _ hn₂ _ => sound_pure fun n₃ hn₃ => ?_
  exact Table.All.insert (ht.mono (hn₁.trans (hn₂.trans hn₃))) _ (hf.mono (hn₂.trans hn₃))

theorem sound_classFields (fields : List Field) :
    Sound n (fun n t => t.All n.Knows) (classFields fields : Check τ (Table Ty)) := by
  refine sound_foldlM (fun _ _ _ h hn => h.mono fun _ ht => ht.mono hn) (fun n t f ht => ?_)
    Table.all_empty
  refine (sound_resolve f.type).seq fun n' ty hn hty => sound_pure fun n'' hn' => ?_
  exact (ht.mono fun _ h => h.mono (hn.trans hn')).insert _ (hty.mono hn')

end Check

/-! ### New names -/

theorem Table.contains_insert_of_contains {α : Type} {t : Table α} {other : String}
    (h : t.contains other = true) (name : String) (a : α) : (t.insert name a).contains other = true := by
  unfold contains
  rw [find?_insert]
  split
  · rfl
  · exact h

namespace State
variable {τ : Type} {s : State τ}

theorem Registered.insertClass (h : s.Registered) (name : String) {c : ClassDef}
    (hc : s.typeNames.KnowsClass c) :
    let s' := { s with classes := s.classes.insert name c }
    s'.Registered ∧ s.typeNames.Within s'.typeNames := by
  intro s'
  have hgrow : s.typeNames.Within s'.typeNames := by
    intro x hx
    cases x with
    | cls other => exact Table.contains_insert_of_contains hx name c
    | interface other => exact hx
  exact ⟨{ h.mono hgrow with classes := (h.mono hgrow).classes.insert name (hc.mono hgrow) }, hgrow⟩

theorem Registered.insertInterface (h : s.Registered) (name : String) {ms : Table MethodTy}
    (hms : s.typeNames.KnowsMethods ms) :
    let s' := { s with interfaces := s.interfaces.insert name ms }
    s'.Registered ∧ s.typeNames.Within s'.typeNames := by
  intro s'
  have hgrow : s.typeNames.Within s'.typeNames := by
    intro x hx
    cases x with
    | cls other => exact hx
    | interface other => exact Table.contains_insert_of_contains hx name ms
  exact ⟨{ h.mono hgrow with interfaces := (h.mono hgrow).interfaces.insert name (hms.mono hgrow) },
    hgrow⟩

theorem Registered.reserve (h : s.Registered) (st : Stmt) :
    (s.reserve st).Registered ∧ s.typeNames.Within (s.reserve st).typeNames := by
  unfold State.reserve
  split
  · split
    · exact ⟨h, .refl _⟩
    · exact h.insertClass _ TypeNames.knowsClass_empty
  · split
    · exact ⟨h, .refl _⟩
    · exact h.insertInterface _ Table.all_empty
  · exact ⟨h, .refl _⟩

theorem Registered.reserveAll (h : s.Registered) (ss : List Stmt) :
    (ss.foldl State.reserve s).Registered ∧
      s.typeNames.Within (ss.foldl State.reserve s).typeNames := by
  induction ss generalizing s with
  | nil => exact ⟨h, .refl _⟩
  | cons st ss ih =>
    obtain ⟨h', hgrow⟩ := h.reserve st
    obtain ⟨h'', hgrow'⟩ := ih h'
    exact ⟨h'', hgrow.trans hgrow'⟩

end State

namespace Check
variable {τ : Type} {n : TypeNames}

theorem keeping_declareInterface (st : Stmt) : Keeping n (declareInterface st : Check τ Unit) := by
  unfold declareInterface
  split
  · next name heads =>
    refine (sound_interfaceMethods heads).seq fun n' ms _ hms s hs hn => ?_
    obtain ⟨hs', hgrow⟩ := hs.insertInterface name.name (hms.mono hn)
    exact ⟨hs', hgrow, trivial⟩
  · exact keeping_pure ()

theorem keeping_declareClass (st : Stmt) : Keeping n (declareClass st : Check τ Unit) := by
  unfold declareClass
  split
  · next name fields ms =>
    refine (sound_classFields fields).seq fun n' fs _ hfs => ?_
    refine (sound_addMethods Table.all_empty ms).seq fun n'' ms hn hms s hs hn' => ?_
    have hc : s.typeNames.KnowsClass ⟨fs, ms⟩ :=
      ⟨hfs.mono fun _ ht => ht.mono (hn.trans hn'), hms.mono hn'⟩
    obtain ⟨hs', hgrow⟩ := hs.insertClass name.name hc
    exact ⟨hs', hgrow, trivial⟩
  · exact keeping_pure ()

theorem keeping_declareImpl (st : Stmt) : Keeping n (declareImpl st : Check τ Unit) := by
  unfold declareImpl
  split
  · next interface target ms =>
    refine sound_get fun s hs _ => ?_
    split
    · exact keeping_pure ()
    · next cls hcls =>
      have hknown := hs.classes _ cls hcls
      refine (sound_addMethods hknown.methods ms).seq fun n' ms hn hms s' hs' hn' => ?_
      have hc : s'.typeNames.KnowsClass { cls with methods := ms } :=
        ⟨(hknown.mono (hn.trans hn')).fields, hms.mono hn'⟩
      obtain ⟨hs'', hgrow⟩ := hs'.insertClass target.name hc
      exact ⟨{ hs'' with }, hgrow, trivial⟩
  · exact keeping_pure ()

theorem keeping_declareTypes (ss : List Stmt) : Keeping n (declareTypes ss : Check τ Unit) := by
  refine Sound.seq (Q := fun _ _ => True) (fun s hs _ => ?_) fun _ _ _ _ => ?_
  · obtain ⟨hs', hgrow⟩ := State.Registered.reserveAll hs ss
    exact ⟨hs', hgrow, trivial⟩
  refine (keeping_forM fun st _ _ => keeping_declareInterface st).seq fun _ _ _ _ => ?_
  refine (keeping_forM fun st _ _ => keeping_declareClass st).seq fun _ _ _ _ => ?_
  exact keeping_forM fun st _ _ => keeping_declareImpl st

theorem keeping_declareHere (st : Stmt) : Keeping n (declareHere st : Check τ Unit) := by
  refine sound_get fun s _ _ => ?_
  split
  · exact keeping_declareTypes [st]
  · exact keeping_pure ()

/-! ### Names, calls and functions -/

section Tracking
variable [Tracking τ]
variable {ty : Ty} {m : Check τ Unit} {f : FnTy} {span : Span} {e : Expr}

theorem keeping_bind (name : String) (hty : n.Knows ty) :
    Keeping n (Check.bind name ty : Check τ Unit) :=
  keeping_modify (fun _ => rfl) fun _ hn hs => hs.bind name (hty.mono hn)

theorem keeping_inFrame (kind : ScopeKind) (hm : Keeping n m) : Keeping n (inFrame kind m) := by
  refine Sound.seq (Q := fun _ _ => True) ?_ fun _ _ hn _ => (hm.mono hn).seq fun _ _ _ _ => ?_
  · exact keeping_modify (fun _ => rfl) fun s _ hs => { hs with scopes := hs.push kind }
  · exact keeping_modify (fun _ => rfl) fun s _ hs => { hs with scopes := hs.pop }

theorem keeping_inBlock (hm : Keeping n m) : Keeping n (inBlock m) := by
  refine Sound.seq (Q := fun _ _ => True) ?_ fun _ _ hn _ => (hm.mono hn).seq fun _ _ _ _ => ?_
  · exact keeping_modify (fun _ => rfl) fun s _ hs => { hs with scopes := hs.push .block }
  · exact keeping_modify (fun _ => rfl) fun s _ hs => { hs with scopes := hs.pop }

theorem sound_use (name : String) (span : Span) :
    Sound n TypeNames.Knows (use name span : Check τ Ty) :=
  (sound_lookup name span).seq fun _ _ _ hty =>
    (remarks_warnIfMoved name span).keeping.seq fun _ _ hn _ => knows_pure (hty.mono hn)

omit [Tracking τ] in
theorem sound_readMember (object : Ty) (name : Ident) :
    Sound n TypeNames.Knows (readMember object name : Check τ Ty) :=
  sound_get fun _ hs _ => sound_accept (hs.member object name)

omit [Tracking τ] in
theorem sound_readElement {object : Ty} (hobject : n.Knows object) (index : Ty) (place span : Span) :
    Sound n TypeNames.Knows (readElement object index place span : Check τ Ty) :=
  sound_get fun s _ hn =>
    sound_accept ((hobject.mono hn).of_subset (s.nominals_element object index place span))

theorem sound_openCall (callee : Expr) (hty : n.Knows ty) (count : Nat) (span : Span) :
    Sound n (fun n call => n.Knows call.ret) (openCall callee ty count span : Check τ OpenCall) := by
  refine sound_get fun s _ hn => ?_
  split
  · refine (remarks_mute.demand _ _ _).keeping.seq fun _ _ hn' _ => sound_pure fun _ hn'' => ?_
    exact (TypeNames.knows_fn_iff.mp hty).2.mono (hn.trans (hn'.trans hn''))
  · exact sound_pure fun _ _ => TypeNames.knows_of_nil rfl

theorem sound_await (hty : n.Knows ty) (operand span : Span) :
    Sound n TypeNames.Knows (await ty operand span : Check τ Ty) := by
  refine sound_get fun s _ hn => (remarks_mute.demand _ _ _).keeping.seq fun _ _ hn' _ => ?_
  refine (remarks_demandNoBorrows span).keeping.seq fun _ _ hn'' _ => sound_accept ?_
  exact (hty.mono (hn.trans (hn'.trans hn''))).of_subset (ty.nominals_awaited operand ▸ List.Subset.refl _)

theorem keeping_require (path : String) (imports : Import) :
    Keeping n (require path imports : Check τ Unit) := by
  have hmodule {n : TypeNames} {name : String} : Keeping n (bind name (.module path) : Check τ Unit) :=
    keeping_bind name (TypeNames.knows_of_nil rfl)
  have hmember {n : TypeNames} (member : Ident) : Keeping n (importMember path member : Check τ Unit) := by
    unfold importMember
    dsimp only
    split
    · refine (sound_accept (TypeNames.knows_of_nil (Builtin.nominals_memberTy _ _))).seq
        fun _ _ _ hty => keeping_bind _ hty
    · exact keeping_bind _ (TypeNames.knows_of_nil rfl)
  cases imports with
  | module name => cases name <;> exact hmodule
  | named names => exact keeping_forM fun name _ _ => hmember name
  | wildcard =>
    rw [require]
    split
    · refine keeping_forM fun e he _ => keeping_bind e.1 (TypeNames.knows_of_nil ?_)
      exact Builtin.nominals_members he
    · refine Sound.seq (Q := fun _ _ => True) ?_ fun _ _ _ _ => hmodule
      exact keeping_modify (fun _ => rfl) fun _ _ hs => { hs with }

theorem keeping_bindAll {tys : List Ty} (htys : ∀ ty ∈ tys, n.Knows ty) (params : List Param) :
    Keeping n (bindAll params tys : Check τ Unit) := by
  induction params generalizing n tys with
  | nil => exact keeping_pure ()
  | cons p params ih =>
    cases tys with
    | nil => exact keeping_pure ()
    | cons ty tys =>
      obtain ⟨hty, htys⟩ := List.forall_mem_cons.mp htys
      refine (keeping_bind p.name.name hty).seq fun _ _ hn _ => ?_
      exact ih fun ty hty => (htys ty hty).mono hn

theorem knows_expected (hf : KnowsFn n f) {sig : Signature} (h : f.expected? sig = some ty) :
    n.Knows ty := by
  have hret := (TypeNames.knows_fn_iff.mp hf).2
  unfold FnTy.expected? at h
  split at h
  · cases h
    split
    · exact hret.of_subset f.ret.nominals_output
    · exact hret
  · cases h

/-- The type of `self`, if there is one, is known. -/
def KnowsSelf (n : TypeNames) (self? : Option Ty) : Prop :=
  ∀ ty, self? = some ty → n.Knows ty

theorem keeping_openFunction (sig : Signature) (hf : KnowsFn n f) {self? : Option Ty}
    (hself : KnowsSelf n self?) : Keeping n (openFunction sig f self? : Check τ Unit) := by
  have hrest {n : TypeNames} (hf : KnowsFn n f) : Keeping n (do
      bindAll sig.params f.params
      modify fun s => { s with returns := f.expected? sig :: s.returns } : Check τ Unit) := by
    refine (keeping_bindAll (TypeNames.knows_fn_iff.mp hf).1 sig.params).seq fun _ _ hn _ => ?_
    refine keeping_modify (fun _ => rfl) fun s hn' hs => { hs with returns := ?_ }
    intro ty hty
    rcases List.mem_cons.mp hty with hty | hty
    · exact (knows_expected hf hty.symm).mono (hn.trans hn')
    · exact hs.returns ty hty
  refine Sound.seq (Q := fun _ _ => True) ?_ fun _ _ hn _ => ?_
  · exact keeping_modify (fun _ => rfl) fun s _ hs => { hs with scopes := hs.push _ }
  cases self? with
  | none => exact hrest (hf.mono hn)
  | some ty =>
    refine (keeping_bind "self" ((hself ty rfl).mono hn)).seq fun _ _ hn' _ => ?_
    exact hrest (hf.mono (hn.trans hn'))

theorem keeping_function (sig : Signature) (hf : KnowsFn n f) {self? : Option Ty}
    (hself : KnowsSelf n self?) (hm : ∀ n, Keeping n m) : Keeping n (function sig f self? m) := by
  rw [function_eq]
  refine (keeping_openFunction sig hf hself).seq fun _ _ _ _ => (hm _).seq fun _ _ _ _ => ?_
  refine Sound.seq (Q := fun _ _ => True) ?_ fun _ _ _ _ => ?_
  · refine keeping_modify (fun _ => rfl) fun s _ hs => { hs with returns := ?_ }
    exact fun ty hty => hs.returns ty (List.mem_of_mem_tail hty)
  · exact keeping_modify (fun _ => rfl) fun s _ hs => { hs with scopes := hs.pop }

theorem sound_bindingTy (type : Option TypeExpr) {value : Ty} (hvalue : n.Knows value) (span : Span) :
    Sound n TypeNames.Knows (bindingTy type value span : Check τ Ty) := by
  cases type with
  | none => exact knows_pure hvalue
  | some type =>
    refine (sound_resolve type).seq fun _ declared _ hdeclared => ?_
    exact (remarks_mute.demandAssignable _ _ (by rfl) _).keeping.seq fun _ _ hn _ => knows_pure (hdeclared.mono hn)

theorem knows_ownerTy {c : Option ClassDef} {name : String}
    (h : c.isSome = true → n.isClass name = true) : n.Knows (ownerTy c name) := by
  cases c with
  | none => exact TypeNames.knows_of_nil rfl
  | some c => exact List.forall_mem_singleton.mpr (h rfl)

theorem knows_self {owner : Ty} (h : n.Knows owner) (receiver : Receiver) :
    KnowsSelf n (receiver.self? owner) := by
  intro ty hty
  cases receiver with
  | none => cases hty
  | _ =>
    cases hty
    exact h

/-! ### The walk -/

theorem keeping_methods {ms : List Method} (hms : ∀ m ∈ ms, ∀ n, Keeping n (body m.body : Check τ Unit))
    {owner : Ty} (howner : n.Knows owner) : Keeping n (methods owner ms : Check τ Unit) := by
  induction ms generalizing n with
  | nil =>
    rw [methods]
    exact keeping_pure ()
  | cons m ms ih =>
    obtain ⟨hm, hrest⟩ := List.forall_mem_cons.mp hms
    obtain ⟨name, receiver, sig, b, span⟩ := m
    rw [methods]
    refine (sound_declaredSignature span sig).seq fun _ f hn hf => ?_
    have hself := knows_self (howner.mono hn) receiver
    exact (keeping_function sig hf hself hm).seq fun _ _ hn' _ =>
      ih hrest (howner.mono (hn.trans hn'))

theorem sound_borrow_other {mutable : Bool} (hn : e.ident? = none)
    (he : Sound n TypeNames.Knows (expr e : Check τ Ty)) :
    Sound n TypeNames.Knows (expr (.borrow span mutable e) : Check τ Ty) := by
  rw [expr_borrow_other hn]
  exact sound_recorded span (he.seq fun _ _ _ hty => knows_pure hty)

theorem sound_pipe_other {callee : Expr} (hn : ∀ s f as, callee ≠ .call s f as)
    (he : ∀ n, Sound n TypeNames.Knows (expr e : Check τ Ty))
    (hc : ∀ n, Sound n TypeNames.Knows (expr callee : Check τ Ty)) :
    Sound n TypeNames.Knows (expr (.pipe span e callee) : Check τ Ty) := by
  rw [expr_pipe_other hn]
  refine sound_recorded span ((hc _).seq fun _ ty _ hty => ?_)
  refine (sound_openCall callee hty 1 span).seq fun _ call _ hcall => ?_
  refine (he _).seq fun _ first hn _ => (remarks_mute.pass call 0 e first).keeping.seq fun _ _ hn' _ => ?_
  exact knows_pure (hcall.mono (hn.trans hn'))

theorem sound_assign_other {op : AssignOp} {target : Expr} (hn : target.isPlace = false)
    (he : ∀ n, Sound n TypeNames.Knows (expr e : Check τ Ty))
    (ht : ∀ n, Sound n TypeNames.Knows (expr target : Check τ Ty)) :
    Sound n TypeNames.Knows (expr (.assign span op target e) : Check τ Ty) := by
  rw [expr_assign_other hn]
  refine sound_recorded span ((he _).seq fun _ _ _ _ => (ht _).seq fun _ _ _ _ => ?_)
  exact (keeping_report _).seq fun _ _ _ _ => knows_pure (TypeNames.knows_of_nil rfl)

mutual

/-- The type of an expression is known. -/
theorem sound_expr : ∀ (e : Expr) (n : TypeNames), Sound n TypeNames.Knows (expr e : Check τ Ty)
  | .int _ _, _ | .float _ _, _ | .string _ _, _ | .char _ _, _ | .bool _ _, _ | .nil _, _ => by
    rw [expr]
    exact sound_recorded _ (knows_pure (TypeNames.knows_of_nil rfl))
  | .interp span ps, n => by
    rw [expr]
    exact sound_recorded span ((keeping_parts ps n).seq fun _ _ _ _ =>
      knows_pure (TypeNames.knows_of_nil rfl))
  | .array span es, n => by
    rw [expr]
    refine sound_recorded span ((sound_exprs es n).seq fun _ tys _ htys => knows_pure ?_)
    cases tys with
    | nil => exact TypeNames.knows_of_nil rfl
    | cons ty tys => exact htys ty List.mem_cons_self
  | .map span es, n => by
    rw [expr]
    refine sound_recorded span ((sound_entries es n).seq fun _ tys _ htys => knows_pure ?_)
    cases tys with
    | nil => exact TypeNames.knows_of_nil rfl
    | cons e tys => exact TypeNames.knows_map_iff.mpr (htys e List.mem_cons_self)
  | .ident span name, _ => by
    rw [expr]
    exact sound_recorded span (sound_use name span)
  | .call span callee args, n => by
    rw [expr]
    refine sound_recorded span ((sound_expr callee n).seq fun _ ty _ hty => ?_)
    refine (sound_openCall callee hty _ span).seq fun n' call _ hcall => ?_
    exact (keeping_arguments call 0 args n').seq fun _ _ hn _ => knows_pure (hcall.mono hn)
  | .member span object name, n => by
    rw [expr]
    exact sound_recorded span ((sound_expr object n).seq fun _ ty _ _ => sound_readMember ty name)
  | .index span object i, n => by
    rw [expr]
    refine sound_recorded span ((sound_expr object n).seq fun n' ty _ hty => ?_)
    exact (sound_expr i n').seq fun _ index hn _ =>
      sound_readElement (hty.mono hn) index i.span span
  | .binary span op l r, n => by
    rw [expr]
    refine sound_recorded span ((sound_expr l n).seq fun n' left _ hleft => ?_)
    refine (sound_expr r n').seq fun _ right hn _ => sound_accept ?_
    exact (hleft.mono hn).of_subset (op.nominals_result left right span)
  | .unary span op e, n => by
    rw [expr]
    refine sound_recorded span ((sound_expr e n).seq fun _ ty _ hty => sound_accept ?_)
    exact hty.of_subset (op.nominals_result ty span)
  | .borrow span mutable e, n => by
    cases e with
    | ident place name =>
      rw [expr]
      refine sound_recorded span ((sound_recorded place (sound_lookup name place)).seq ?_)
      intro _ ty _ hty
      exact (remarks_borrow name mutable place).keeping.seq fun _ _ hn _ => knows_pure (hty.mono hn)
    | _ => exact sound_borrow_other rfl (sound_expr _ n)
  | .deref span e, n => by
    rw [expr]
    refine sound_recorded span ((sound_expr e n).seq fun _ ty _ hty => sound_accept ?_)
    exact hty.of_subset (ty.nominals_deref span ▸ List.Subset.refl _)
  | .await span e, n => by
    rw [expr]
    exact sound_recorded span ((sound_expr e n).seq fun _ ty _ hty => sound_await hty e.span span)
  | .pipe span e right, n => by
    cases right with
    | call inner callee args =>
      rw [expr]
      refine sound_recorded span ((sound_expr callee n).seq fun _ ty _ hty => ?_)
      refine (sound_openCall callee hty _ span).seq fun n₁ call _ hcall => ?_
      refine (sound_expr e n₁).seq fun n₂ first hn₂ _ => ?_
      refine (remarks_mute.pass call 0 e first).keeping.seq fun n₃ _ hn₃ _ => ?_
      exact (keeping_arguments call 1 args n₃).seq fun _ _ hn₄ _ =>
        knows_pure (hcall.mono (hn₂.trans (hn₃.trans hn₄)))
    | _ => exact sound_pipe_other (fun _ _ _ => nofun) (sound_expr e) (sound_expr _)
  | .assign span op target e, n => by
    have hvoid {n : TypeNames} : n.Knows Ty.void := TypeNames.knows_of_nil rfl
    cases target with
    | ident place name =>
      rw [expr]
      refine sound_recorded span ((sound_expr e n).seq fun _ value _ _ => ?_)
      exact (remarks_mute.assignName name place op value span).keeping.seq fun _ _ _ _ => knows_pure hvoid
    | member place object name =>
      rw [expr]
      refine sound_recorded span ((sound_expr e n).seq fun n' value _ _ => ?_)
      refine (sound_expr object n').seq fun _ ty _ _ => ?_
      exact (remarks_mute.assignField ty name place op value span).keeping.seq fun _ _ _ _ => knows_pure hvoid
    | index place object i =>
      rw [expr]
      refine sound_recorded span ((sound_expr e n).seq fun n₁ value _ _ => ?_)
      refine (sound_expr object n₁).seq fun n₂ ty _ hty => ?_
      refine (sound_expr i n₂).seq fun _ index hn _ => ?_
      refine (sound_readElement (hty.mono hn) index i.span place).seq fun _ target _ _ => ?_
      exact (remarks_mute.assign target op value span).keeping.seq fun _ _ _ _ => knows_pure hvoid
    | _ => exact sound_assign_other rfl (sound_expr e) (sound_expr _)
  | .new span cls fields, n => by
    rw [expr]
    refine sound_recorded span (sound_get fun s _ _ => ?_)
    split
    · next c hc =>
      refine (keeping_initialisers cls.name (some c) fields _).seq fun _ _ hn _ => knows_pure ?_
      have hcls : s.typeNames.Knows (.cls cls.name) :=
        List.forall_mem_singleton.mpr (Option.isSome_of_mem hc)
      exact hcls.mono hn
    · refine (keeping_report _).seq fun n' _ _ _ => ?_
      exact (keeping_initialisers cls.name none fields n').seq fun _ _ _ _ =>
        knows_pure (TypeNames.knows_of_nil rfl)
  | .lambda span sig b, n => by
    rw [expr]
    refine sound_recorded span ((sound_signature sig).seq fun _ f _ hf => ?_)
    refine (keeping_function sig hf (fun _ h => by cases h) (keeping_body b)).seq fun _ _ hn _ => ?_
    exact knows_pure (hf.mono hn)
  | .paren span e, n => by
    rw [expr]
    exact sound_recorded span (sound_expr e n)

theorem sound_exprs : ∀ (es : List Expr) (n : TypeNames),
    Sound n (fun n tys => ∀ ty ∈ tys, n.Knows ty) (exprs es : Check τ (List Ty))
  | [], _ => by
    rw [exprs]
    exact sound_pure fun _ _ => List.forall_mem_nil _
  | e :: es, n => by
    rw [exprs]
    refine (sound_expr e n).seq fun n' ty _ hty => (sound_exprs es n').seq fun _ tys hn htys => ?_
    refine sound_pure fun _ hn' => List.forall_mem_cons.mpr ⟨hty.mono (hn.trans hn'), fun t ht => ?_⟩
    exact (htys t ht).mono hn'

theorem sound_entries : ∀ (es : List (Expr × Expr)) (n : TypeNames),
    Sound n (fun n tys => ∀ e ∈ tys, n.Knows e.1 ∧ n.Knows e.2) (entries es : Check τ (List (Ty × Ty)))
  | [], _ => by
    rw [entries]
    exact sound_pure fun _ _ => List.forall_mem_nil _
  | (k, v) :: es, n => by
    rw [entries]
    refine (sound_expr k n).seq fun n₁ key _ hkey => (sound_expr v n₁).seq fun n₂ value hn₂ hvalue => ?_
    refine (sound_entries es n₂).seq fun _ tys hn₃ htys => sound_pure fun _ hn₄ => ?_
    refine List.forall_mem_cons.mpr ⟨⟨hkey.mono (hn₂.trans (hn₃.trans hn₄)),
      hvalue.mono (hn₃.trans hn₄)⟩, fun e he => ?_⟩
    exact ⟨(htys e he).1.mono hn₄, (htys e he).2.mono hn₄⟩

theorem keeping_arguments (call : OpenCall) (i : Nat) : ∀ (es : List Expr) (n : TypeNames),
    Keeping n (arguments call i es : Check τ Unit)
  | [], _ => by
    rw [arguments]
    exact keeping_pure ()
  | e :: es, n => by
    rw [arguments]
    refine (sound_expr e n).seq fun _ ty _ _ => (remarks_mute.pass call i e ty).keeping.seq fun n' _ _ _ => ?_
    exact keeping_arguments call (i + 1) es n'

theorem keeping_initialisers (name : String) (c : Option ClassDef) :
    ∀ (fields : List (Ident × Expr)) (n : TypeNames),
    Keeping n (initialisers name c fields : Check τ Unit)
  | [], _ => by
    rw [initialisers]
    exact keeping_pure ()
  | (field, e) :: rest, n => by
    rw [initialisers]
    refine (sound_expr e n).seq fun n' value _ _ => ?_
    dsimp only
    split
    · exact (remarks_mute.initialise _ _ _ _ _).keeping.seq fun n'' _ _ _ =>
        keeping_initialisers name _ rest n''
    · exact keeping_initialisers name _ rest n'

theorem keeping_parts : ∀ (ps : List Part) (n : TypeNames), Keeping n (parts ps : Check τ Unit)
  | [], _ => by
    rw [parts]
    exact keeping_pure ()
  | .text _ :: ps, n => by
    rw [parts]
    exact keeping_parts ps n
  | .hole e :: ps, n => by
    rw [parts]
    exact (sound_expr e n).seq fun n' _ _ _ => keeping_parts ps n'

theorem keeping_stmt : ∀ (s : Stmt) (n : TypeNames), Keeping n (stmt s : Check τ Unit)
  | .bind span mutable name type e, n => by
    rw [stmt]
    refine (sound_expr e n).seq fun _ value _ hvalue => ?_
    refine (sound_bindingTy type hvalue e.span).seq fun _ ty _ hty => ?_
    exact (remarks_mute.give _ _ _).keeping.seq fun _ _ hn _ => keeping_bind name.name (hty.mono hn)
  | .fn span name sig b, _ => by
    rw [stmt]
    refine (sound_declaredSignature span sig).seq fun _ f _ hf => ?_
    refine (keeping_bind name.name hf).seq fun _ _ hn _ => ?_
    exact keeping_function sig (hf.mono hn) (fun _ h => by cases h) (keeping_body b)
  | .ret span (some e), n => by
    rw [stmt]
    exact (sound_expr e n).seq fun _ ty _ _ => (remarks_mute.ret span (some e) ty).keeping
  | .ret span none, _ => by
    rw [stmt]
    exact (remarks_mute.ret span none .void).keeping
  | .brk span, _ => by
    rw [stmt]
    exact (remarks_mute.jump .breakKw span).keeping
  | .cont span, _ => by
    rw [stmt]
    exact (remarks_mute.jump .continueKw span).keeping
  | .cond c, n => by
    rw [stmt]
    exact keeping_conditional c n
  | .forLoop span init test post b, n => by
    rw [stmt]
    refine keeping_inFrame .loop ((keeping_loopInit init n).seq fun n₁ _ _ _ => ?_)
    refine (keeping_loopTest test n₁).seq fun n₂ _ _ _ => ?_
    exact (keeping_block b n₂).seq fun n₃ _ _ _ => keeping_loopPost post n₃
  | .forIn span item e b, n => by
    rw [stmt]
    refine keeping_inFrame .loop ((sound_expr e n).seq fun _ ty _ hty => ?_)
    refine (keeping_bind item.name (hty.of_subset ty.nominals_items)).seq fun n' _ _ _ => ?_
    exact keeping_block b n'
  | .whileLoop span e b, n => by
    rw [stmt]
    refine keeping_inFrame .loop ((sound_expr e n).seq fun _ ty _ _ => ?_)
    exact (remarks_mute.demand _ _ _).keeping.seq fun n' _ _ _ => keeping_block b n'
  | .loop span b, n => by
    rw [stmt]
    exact keeping_inFrame .loop (keeping_block b n)
  | .block b, n => by
    rw [stmt]
    exact keeping_block b n
  | .classDecl span name fields ms, n => by
    rw [stmt]
    refine (keeping_declareHere _).seq fun _ _ _ _ => sound_get fun s _ _ => ?_
    refine (keeping_defaults _ fields _).seq fun _ _ hn _ => ?_
    exact keeping_methods (keeping_bodies ms) ((knows_ownerTy fun h => h).mono hn)
  | .interfaceDecl span name heads, _ => by
    rw [stmt]
    exact keeping_declareHere _
  | .implDecl span interface target ms, _ => by
    rw [stmt]
    refine (keeping_declareHere _).seq fun _ _ _ _ => ?_
    refine (remarks_mute.implementation _ _ _ _).keeping.seq fun _ _ _ _ => sound_get fun s _ _ => ?_
    exact keeping_methods (keeping_bodies ms) (knows_ownerTy fun h => h)
  | .require span path imports, _ => by
    rw [stmt]
    exact keeping_require path imports
  | .expr span e, n => by
    rw [stmt]
    exact (sound_expr e n).seq fun _ _ _ _ => keeping_pure ()

theorem keeping_loopInit : ∀ (init : Option Stmt) (n : TypeNames),
    Keeping n (loopInit init : Check τ Unit)
  | some s, n => by
    rw [loopInit]
    exact keeping_stmt s n
  | none, _ => by
    rw [loopInit]
    exact keeping_pure ()

theorem keeping_loopTest : ∀ (test : Option Expr) (n : TypeNames),
    Keeping n (loopTest test : Check τ Unit)
  | some e, n => by
    rw [loopTest]
    exact (sound_expr e n).seq fun _ _ _ _ => (remarks_mute.demand _ _ _).keeping
  | none, _ => by
    rw [loopTest]
    exact keeping_pure ()

theorem keeping_loopPost : ∀ (post : Option Expr) (n : TypeNames),
    Keeping n (loopPost post : Check τ Unit)
  | some e, n => by
    rw [loopPost]
    exact (sound_expr e n).seq fun _ _ _ _ => keeping_pure ()
  | none, _ => by
    rw [loopPost]
    exact keeping_pure ()

theorem keeping_stmts : ∀ (ss : List Stmt) (n : TypeNames), Keeping n (stmts ss : Check τ Unit)
  | [], _ => by
    rw [stmts]
    exact keeping_pure ()
  | s :: ss, n => by
    rw [stmts]
    exact (keeping_stmt s n).seq fun n' _ _ _ => keeping_stmts ss n'

theorem keeping_block : ∀ (b : Block) (n : TypeNames), Keeping n (block b : Check τ Unit)
  | ⟨_, ss⟩, n => by
    rw [block]
    exact keeping_inBlock (keeping_stmts ss n)

theorem keeping_body : ∀ (b : Block) (n : TypeNames), Keeping n (body b : Check τ Unit)
  | ⟨_, ss⟩, n => by
    rw [body]
    exact keeping_stmts ss n

theorem keeping_conditional : ∀ (c : Conditional) (n : TypeNames),
    Keeping n (conditional c : Check τ Unit)
  | ⟨_, test, b, rest⟩, n => by
    rw [conditional]
    refine (sound_expr test n).seq fun _ ty _ _ => (remarks_mute.demand _ _ _).keeping.seq fun n₁ _ _ _ => ?_
    exact (keeping_block b n₁).seq fun n₂ _ _ _ => keeping_otherwise rest n₂

theorem keeping_otherwise : ∀ (o : Otherwise) (n : TypeNames), Keeping n (otherwise o : Check τ Unit)
  | .none, _ => by
    rw [otherwise]
    exact keeping_pure ()
  | .block b, n => by
    rw [otherwise]
    exact keeping_block b n
  | .elseIf c, n => by
    rw [otherwise]
    exact keeping_conditional c n

theorem keeping_defaults (c : Option ClassDef) : ∀ (fields : List Field) (n : TypeNames),
    Keeping n (defaults c fields : Check τ Unit)
  | [], _ => by
    rw [defaults]
    exact keeping_pure ()
  | ⟨name, _, some e, _⟩ :: fields, n => by
    rw [defaults]
    refine (sound_expr e n).seq fun _ value _ _ => ?_
    exact (remarks_mute.demandAssignable _ _ (by rfl) _).keeping.seq fun n' _ _ _ => keeping_defaults c fields n'
  | ⟨_, _, none, _⟩ :: fields, n => by
    rw [defaults]
    exact keeping_defaults c fields n

theorem keeping_bodies : ∀ (ms : List Method), ∀ m ∈ ms, ∀ n, Keeping n (body m.body : Check τ Unit)
  | [] => List.forall_mem_nil _
  | ⟨_, _, _, b, _⟩ :: ms => List.forall_mem_cons.mpr ⟨keeping_body b, keeping_bodies ms⟩

end

end Tracking
end Check
end CarvFront
