import CarvFront.Proofs.Loosening

/-! Two checks side by side, the second of them of code whose annotations say less. As long as the
first one finds no error the second one finds none either, but for borrows that are held while
waiting. -/
namespace CarvFront
variable {fs : List Finding}

/-- No errors but borrows that are held while waiting. -/
def Tolerable (fs : List Finding) : Prop :=
  ∀ f ∈ fs, f.cause.severity = .error → f.cause.code = .borrowAcrossAwait

theorem NoErrors.tolerable (h : NoErrors fs) : Tolerable fs := by
  intro f hf he
  rw [h f hf] at he
  cases he

theorem NoErrors.reverse (h : NoErrors fs) : NoErrors fs.reverse :=
  fun f hf => h f (List.mem_reverse.mp hf)

theorem NoErrors.of_reverse (h : NoErrors fs.reverse) : NoErrors fs :=
  fun f hf => h f (List.mem_reverse.mpr hf)

theorem Tolerable.append {gs : List Finding} (hf : Tolerable fs) (hg : Tolerable gs) :
    Tolerable (fs ++ gs) := by
  intro f hmem
  rcases List.mem_append.mp hmem with hmem | hmem
  · exact hf f hmem
  · exact hg f hmem

/-- Moves and borrows, findings and the types of expressions do not matter. -/
theorem State.Loosens.of_alike {τ : Type} {s s' t t' : State τ} (h : s.Loosens s')
    (ht : t.Alike s) (ht' : t'.Alike s') : t.Loosens t' where
  scopes := by rw [ht.scopes, ht'.scopes]; exact h.scopes
  classes := by rw [ht.classes, ht'.classes]; exact h.classes
  interfaces := by rw [ht.interfaces, ht'.interfaces]; exact h.interfaces
  impls := by rw [ht.impls, ht'.impls]; exact h.impls
  signature? span := by
    unfold State.signature?
    rw [ht.signatures, ht'.signatures]
    exact h.signature? span
  returns := by rw [ht.returns, ht'.returns]; exact h.returns
  replaced := by rw [ht.replaced, ht'.replaced]; exact h.replaced
  openNames := by rw [ht.openNames, ht'.openNames]; exact h.openNames

namespace Check
variable {τ α β γ : Type} {R : α → α → Prop} {S : β → β → Prop}
variable {fs : List Finding} {P : List Finding → Prop} {m m' : Check τ Unit} {sig sig' : Signature}
  {stmt stmt' : Stmt} {ty ty' value value' : Ty}

/-- The first step takes no error back. If it leads to none, then the results are related, what is
known says less after the second step, and its errors are tolerable. -/
structure Refines (R : α → α → Prop) (m m' : Check τ α) : Prop where
  errors {s : State τ} (h : NoErrors (m.run s).2.findings) : NoErrors s.findings
  keeps {s s' : State τ} (hs : s.Loosens s') (hf : Tolerable s'.findings)
    (h : NoErrors (m.run s).2.findings) :
    R (m.run s).1 (m'.run s').1 ∧ (m.run s).2.Loosens (m'.run s').2 ∧
      Tolerable (m'.run s').2.findings

theorem refines_pure {a a' : α} (h : R a a') : Refines R (pure a : Check τ α) (pure a') where
  errors hs := hs
  keeps hs hf _ := ⟨h, hs, hf⟩

/-- Steps follow each other. A relation without reflexivity would not do: that the rest of the first
check takes no error back has to be known for every result. -/
theorem refines_bind [Std.Refl R] {m m' : Check τ α} {k k' : α → Check τ β}
    (hm : Refines R m m') (hk : ∀ a a', R a a' → Refines S (k a) (k' a')) :
    Refines S (m >>= k) (m' >>= k') where
  errors h := hm.errors ((hk _ _ (refl _)).errors h)
  keeps hs hf h := by
    obtain ⟨ha, hs, hf⟩ := hm.keeps hs hf ((hk _ _ (refl _)).errors h)
    exact (hk _ _ ha).keeps hs hf h

theorem refines_get : Refines State.Loosens (get : Check τ (State τ)) get where
  errors hs := hs
  keeps hs hf _ := ⟨hs, hs, hf⟩

theorem refines_modify {f f' : State τ → State τ}
    (hf : ∀ {s s' : State τ}, s.Loosens s' → (f s).Loosens (f' s'))
    (hfs : ∀ s, (f s).findings = s.findings) (hfs' : ∀ s, (f' s).findings = s.findings) :
    Refines Eq (modify f : Check τ Unit) (modify f') where
  errors h := (hfs _) ▸ h
  keeps hs ht _ := ⟨rfl, hf hs, (hfs' _).symm ▸ ht⟩

theorem refines_forM {Q : γ → γ → Prop} {l l' : List γ} {k k' : γ → Check τ Unit}
    (hl : List.Forall₂ Q l l') (hk : ∀ a a', Q a a' → Refines Eq (k a) (k' a')) :
    Refines Eq (l.forM k) (l'.forM k') := by
  induction hl with
  | nil => exact refines_pure rfl
  | cons ha _ ih => exact refines_bind (hk _ _ ha) fun _ _ _ => ih

theorem refines_foldlM [Std.Refl R] {Q : γ → γ → Prop} {l l' : List γ}
    {k k' : α → γ → Check τ α} (hl : List.Forall₂ Q l l')
    (hk : ∀ {a a'}, R a a' → ∀ {c c'}, Q c c' → Refines R (k a c) (k' a' c')) {a a' : α}
    (ha : R a a') : Refines R (l.foldlM k a) (l'.foldlM k' a') := by
  induction hl generalizing a a' with
  | nil => exact refines_pure ha
  | cons hc _ ih => exact refines_bind (hk ha hc) fun _ _ hb => ih hb

/-! ### Reports -/

theorem refines_report {fs' : List Finding} (h : NoErrors fs → NoErrors fs') :
    Refines Eq (report fs : Check τ Unit) (report fs') where
  errors hs := (noErrors_append.mp hs).2
  keeps hs hf hn := by
    have hfs' := h (noErrors_append.mp hn).1.of_reverse
    exact ⟨rfl, hs.of_alike rfl rfl, hfs'.reverse.tolerable.append hf⟩

theorem refines_accept {j j' : Judgement} (h : j.Loosens j') :
    Refines Ty.Loosens (accept j : Check τ Ty) (accept j') where
  errors hs := (noErrors_append.mp hs).2
  keeps hs hf hn := by
    obtain ⟨ht, hfs'⟩ := h (noErrors_append.mp hn).1.of_reverse
    exact ⟨ht, hs.of_alike rfl rfl, hfs'.reverse.tolerable.append hf⟩

/-- A demand that is met before is met still. -/
theorem refines_demand {ok ok' : Bool} {cause cause' : Cause} {span : Span}
    (hc : cause.severity = .error) (h : ok → ok') :
    Refines Eq (demand ok cause span : Check τ Unit) (demand ok' cause' span) := by
  rw [demand_eq_report, demand_eq_report]
  refine refines_report fun hn => noErrors_ite.mpr (.inl ?_)
  rcases noErrors_ite.mp hn with hok | hw
  · exact h hok
  · rw [hc] at hw
    cases hw

theorem refines_demandAssignable {a b a' b' : Ty} {cause cause' : Cause} {span : Span}
    (hc : cause.severity = .error) (ha : a.Loosens a') (hb : b.Loosens b') :
    Refines Eq (demandAssignable a b cause span : Check τ Unit)
      (demandAssignable a' b' cause' span) :=
  refines_bind refines_get fun _ _ hs => refines_demand hc (hs.assignable ha hb)

theorem refines_recorded (span : Span) {m m' : Check τ Ty} (h : Refines Ty.Loosens m m') :
    Refines Ty.Loosens (recorded span m) (recorded span m') := by
  refine refines_bind h fun ty ty' ht => refines_bind (R := Eq) ?_ fun _ _ _ => refines_pure ht
  exact refines_modify (fun hs => hs.of_alike rfl rfl) (fun _ => rfl)
    (fun _ => rfl)

/-! ### Remarks -/

/-- The step only adds findings and changes moves and borrows. -/
def Remarks (P : List Finding → Prop) (m : Check τ α) : Prop :=
  ∀ s, ∃ tracking fs, P fs ∧ (m.run s).2 = { s with tracking, findings := fs ++ s.findings }

theorem Remarks.errors {m : Check τ α} (hm : Remarks P m) {s : State τ}
    (h : NoErrors (m.run s).2.findings) : NoErrors s.findings := by
  obtain ⟨tracking, fs, -, heq⟩ := hm s
  rw [heq] at h
  exact (noErrors_append.mp h).2

/-- A step that only adds findings goes with one that adds tolerable findings. -/
theorem refines_remarks (hm : Remarks P m) (hm' : Remarks Tolerable m') : Refines Eq m m' where
  errors h := hm.errors h
  keeps {s s'} hs hf h := by
    obtain ⟨tracking, fs, -, heq⟩ := hm s
    obtain ⟨tracking', fs', hfs', heq'⟩ := hm' s'
    rw [heq, heq']
    exact ⟨rfl, hs.of_alike rfl rfl, hfs'.append hf⟩

theorem Remarks.mono {Q : List Finding → Prop} {m : Check τ α} (h : Remarks P m)
    (hPQ : ∀ fs, P fs → Q fs) : Remarks Q m := by
  intro s
  obtain ⟨tracking, fs, hfs, heq⟩ := h s
  exact ⟨tracking, fs, hPQ fs hfs, heq⟩

theorem refines_warning (hm : Remarks NoErrors m) (hm' : Remarks NoErrors m') : Refines Eq m m' :=
  refines_remarks hm (hm'.mono fun _ h => h.tolerable)

theorem remarks_pure (hP : P []) (a : α) : Remarks P (pure a : Check τ α) :=
  fun s => ⟨s.tracking, [], hP, rfl⟩

theorem remarks_report (hP : P fs.reverse) : Remarks P (report fs : Check τ Unit) :=
  fun s => ⟨s.tracking, fs.reverse, hP, rfl⟩

/-- Nothing is to be shown where the first check has an error. -/
theorem refines_of_errors (hfs : ¬ NoErrors fs) {k : Unit → Check τ α}
    (hk : Remarks (fun _ => True) (k ())) {m' : Check τ α} : Refines R (report fs >>= k) m' where
  errors h := (noErrors_append.mp (hk.errors h)).2
  keeps _ _ h := absurd (noErrors_append.mp (hk.errors h)).1.of_reverse hfs

theorem remarks_warnIfEscapes (ty : Ty) (span : Span) :
    Remarks NoErrors (warnIfEscapes ty span : Check τ Unit) := by
  unfold warnIfEscapes
  split
  · exact remarks_report (noErrors_singleton.mpr rfl)
  · exact remarks_pure noErrors_nil ()

theorem remarks_give [Tracking τ] (value : Expr) (ty : Ty) (site : MoveSite) :
    Remarks NoErrors (give value ty site : Check τ Unit) := by
  unfold give
  split
  · split
    · exact fun _ => ⟨_, [], noErrors_nil, rfl⟩
    · exact remarks_pure noErrors_nil ()
  · exact remarks_pure noErrors_nil ()

theorem remarks_warnIfMoved [Tracking τ] (name : String) (span : Span) :
    Remarks NoErrors (warnIfMoved name span : Check τ Unit) := by
  intro s
  rw [run_warnIfMoved]
  refine remarks_report (NoErrors.reverse fun f hf => ?_) s
  obtain ⟨site, -, rfl⟩ := List.mem_map.mp hf
  rfl

theorem remarks_borrow [Tracking τ] (name : String) (mutable : Bool) (span : Span) :
    Remarks NoErrors (borrow name mutable span : Check τ Unit) := by
  intro s
  rw [run_borrow]
  split
  · exact remarks_report (noErrors_singleton.mpr rfl) s
  · refine ⟨_, _, NoErrors.reverse fun f hf => ?_, rfl⟩
    obtain ⟨conflict, -, rfl⟩ := List.mem_map.mp hf
    rfl

theorem remarks_demandFree [Tracking τ] (name : String) (span : Span) :
    Remarks NoErrors (demandFree name span : Check τ Unit) := by
  intro s
  rw [run_demandFree, demand_eq_report]
  exact remarks_report (NoErrors.reverse (noErrors_ite.mpr (.inr rfl))) s

/-- A borrow that is held while waiting is the one error that types have no part in. -/
theorem remarks_demandNoBorrows [Tracking τ] (span : Span) :
    Remarks Tolerable (demandNoBorrows span : Check τ Unit) := by
  intro s
  rw [run_demandNoBorrows, demand_eq_report]
  refine remarks_report (fun f hf _ => ?_) s
  split at hf
  · cases hf
  · rw [List.mem_singleton.mp hf]
    rfl

theorem remarks_mute [Tracking τ] :
    Mute fun ⦃α⦄ (m _ : Check τ α) => Remarks (fun _ => True) m where
  pure a := remarks_pure trivial a
  seq {_ _ m _ k _} hm hk s := by
    obtain ⟨tracking, fs, -, heq⟩ := hm s
    obtain ⟨tracking', fs', -, heq'⟩ := hk (m.run s).1 (m.run s).2
    refine ⟨tracking', fs' ++ fs, trivial, heq'.trans ?_⟩
    rw [heq, List.append_assoc]
  get hk s := hk s s (.refl s) s
  report _ := remarks_report trivial
  move _ _ _ := ⟨_, [], trivial, rfl⟩
  warnIfMoved name span := (remarks_warnIfMoved name span).mono fun _ _ => trivial
  borrow name mutable span := (remarks_borrow name mutable span).mono fun _ _ => trivial
  demandFree name span := (remarks_demandFree name span).mono fun _ _ => trivial
  demandNoBorrows span := (remarks_demandNoBorrows span).mono fun _ _ => trivial

/-! ### Names and scopes -/

theorem refines_name [Tracking τ] (name : String) {t t' : Ty} (ht : t.Loosens t') :
    Refines Eq (Check.bind name t : Check τ Unit) (Check.bind name t') :=
  refines_modify (fun hs => hs.bind name ht) (fun _ => rfl) (fun _ => rfl)

theorem refines_inFrame [Tracking τ] (kind : ScopeKind) (h : Refines Eq m m') :
    Refines Eq (inFrame kind m) (inFrame kind m') := by
  refine refines_bind (R := Eq) ?_ fun _ _ _ => refines_bind h fun _ _ _ => ?_
  · exact refines_modify (fun hs => { hs with scopes := hs.scopes.push kind }) (fun _ => rfl)
      (fun _ => rfl)
  · exact refines_modify (fun hs => { hs with scopes := hs.scopes.pop }) (fun _ => rfl)
      (fun _ => rfl)

theorem refines_inBlock [Tracking τ] (h : Refines Eq m m') :
    Refines Eq (inBlock m) (inBlock m') := by
  refine refines_bind (R := Eq) ?_ fun _ _ _ => refines_bind h fun _ _ _ => ?_
  · exact refines_modify (fun hs => { hs with scopes := hs.scopes.push .block }) (fun _ => rfl)
      (fun _ => rfl)
  · exact refines_modify (fun hs => { hs with scopes := hs.scopes.pop }) (fun _ => rfl)
      (fun _ => rfl)

theorem refines_returning {expected expected' : Option Ty}
    (he : Option.Rel Ty.Loosens expected expected') (h : Refines Eq m m') :
    Refines Eq (returning expected m) (returning expected' m') := by
  refine refines_bind (R := Eq) ?_ fun _ _ _ => refines_bind h fun _ _ _ => ?_
  · exact refines_modify (fun hs => { hs with returns := .cons he hs.returns }) (fun _ => rfl)
      (fun _ => rfl)
  · refine refines_modify (fun hs => { hs with returns := ?_ }) (fun _ => rfl) (fun _ => rfl)
    simpa using List.forall₂_drop 1 hs.returns

theorem refines_lookup (name : String) (span : Span) :
    Refines Ty.Loosens (lookup name span : Check τ Ty) (lookup name span) := by
  refine refines_bind refines_get fun s s' hs => ?_
  rcases rel_cases (hs.scopes.lookup name) with ⟨hn, hn'⟩ | ⟨t, t', ht, ht', htt⟩
  · simp only [hn, hn', hs.openNames]
    split
    · exact refines_pure (refl _)
    · exact refines_accept (Judgement.loosens_refl _)
  · simp only [ht, ht']
    exact refines_pure htt

theorem refines_use [Tracking τ] (name : String) (span : Span) :
    Refines Ty.Loosens (use name span : Check τ Ty) (use name span) := by
  refine refines_bind (refines_lookup name span) fun t t' ht => ?_
  have hw := remarks_warnIfMoved (τ := τ) name span
  exact refines_bind (refines_warning hw hw) fun _ _ _ => refines_pure ht

/-! ### Annotations and declarations -/

theorem refines_resolve {t t' : TypeExpr} (h : t.Loosens t') :
    Refines Ty.Loosens (resolve t : Check τ Ty) (resolve t') := by
  refine refines_bind refines_get fun s s' hs => ?_
  simp only [hs.known]
  refine refines_bind (refines_report (noErrors_unknownTypes h.names)) fun _ _ _ => ?_
  exact refines_pure h.ty

theorem refines_signature (h : sig.Loosens sig') :
    Refines FnTy.Loosens (signature sig : Check τ FnTy) (signature sig') := by
  refine refines_bind refines_get fun s s' hs => ?_
  simp only [hs.known]
  refine refines_bind (refines_report (noErrors_unknownTypes h.names)) fun _ _ _ => ?_
  exact refines_pure (h.fnTy _)

theorem refines_declaredSignature (span : Span) (h : sig.Loosens sig') :
    Refines FnTy.Loosens (declaredSignature span sig : Check τ FnTy)
      (declaredSignature span sig') := by
  refine refines_bind refines_get fun s s' hs => ?_
  rcases rel_cases (hs.signature? span) with ⟨hn, hn'⟩ | ⟨f, f', hf, hf', hff⟩
  · simp only [hn, hn']
    exact refines_signature h
  · simp only [hf, hf']
    refine refines_bind (R := Eq) ?_ fun _ _ _ => refines_pure hff
    exact refines_modify (fun hs => hs.dropSignature span) (fun _ => rfl) (fun _ => rfl)

theorem refines_keepSignature (span : Span) {f f' : FnTy} (hf : f.Loosens f') :
    Refines Eq (modify (·.keepSignature span f) : Check τ Unit)
      (modify (·.keepSignature span f')) :=
  refines_modify (fun hs => hs.keepSignature span hf) (fun _ => rfl) (fun _ => rfl)

theorem refines_interfaceMethods {heads heads' : List MethodHead}
    (h : List.Forall₂ MethodHead.Loosens heads heads') :
    Refines (Table.Rel MethodTy.Loosens) (interfaceMethods heads : Check τ (Table MethodTy))
      (interfaceMethods heads') := by
  refine refines_foldlM h (fun {t t'} ht {m m'} hm => ?_) .empty
  refine refines_bind (refines_signature hm.sig) fun f f' hf => refines_pure ?_
  rw [hm.name]
  exact ht.insert _ ⟨hm.receiver, hf⟩

theorem refines_addMethods {t t' : Table MethodTy} (ht : t.Rel MethodTy.Loosens t')
    {ms ms' : List Method} (h : List.Forall₂ Method.Loosens ms ms') :
    Refines (Table.Rel MethodTy.Loosens) (addMethods t ms : Check τ (Table MethodTy))
      (addMethods t' ms') := by
  refine refines_foldlM h (fun {t t'} ht {m m'} hm => ?_) ht
  obtain ⟨name, receiver, span, hsig, -⟩ := hm
  refine refines_bind (refines_signature hsig) fun f f' hf => ?_
  refine refines_bind (refines_keepSignature span hf) fun _ _ _ => refines_pure ?_
  exact ht.insert _ ⟨rfl, hf⟩

theorem refines_classFields {fields fields' : List Field}
    (h : List.Forall₂ Field.Loosens fields fields') :
    Refines (Table.Rel Ty.Loosens) (classFields fields : Check τ (Table Ty))
      (classFields fields') := by
  refine refines_foldlM h (fun {t t'} ht {f f'} hf => ?_) .empty
  obtain ⟨name, span, htype, -⟩ := hf
  exact refines_bind (refines_resolve htype) fun _ _ hty => refines_pure (ht.insert _ hty)

theorem refines_declareInterface (h : stmt.Loosens stmt') :
    Refines Eq (declareInterface stmt : Check τ Unit) (declareInterface stmt') := by
  cases h with
  | interfaceDecl span name h =>
    refine refines_bind (refines_interfaceMethods h) fun ms ms' hms => ?_
    exact refines_modify (fun hs => { hs with interfaces := hs.interfaces.insert _ hms })
      (fun _ => rfl) (fun _ => rfl)
  | _ => exact refines_pure rfl

theorem refines_declareClass (h : stmt.Loosens stmt') :
    Refines Eq (declareClass stmt : Check τ Unit) (declareClass stmt') := by
  cases h with
  | classDecl span name hf hm =>
    refine refines_bind (refines_classFields hf) fun fields fields' hfields => ?_
    refine refines_bind (refines_addMethods .empty hm) fun ms ms' hms => ?_
    exact refines_modify (fun hs => { hs with classes := hs.classes.insert _ ⟨hfields, hms⟩ })
      (fun _ => rfl) (fun _ => rfl)
  | _ => exact refines_pure rfl

theorem refines_declareImpl (h : stmt.Loosens stmt') :
    Refines Eq (declareImpl stmt : Check τ Unit) (declareImpl stmt') := by
  cases h with
  | implDecl span interface target h =>
    refine refines_bind refines_get fun s s' hs => ?_
    rcases rel_cases (hs.classes target.name) with ⟨hc, hc'⟩ | ⟨c, c', hc, hc', hcls⟩
    · simp only [hc, hc']
      exact refines_pure rfl
    · simp only [hc, hc']
      refine refines_bind (refines_addMethods hcls.methods h) fun ms ms' hms => ?_
      refine refines_modify (fun {s s'} hs => ?_) (fun _ => rfl) (fun _ => rfl)
      refine { hs with classes := hs.classes.insert _ ⟨hcls.fields, hms⟩, impls := ?_ }
      simp only [hs.interfaces.contains, hs.impls]
  | _ => exact refines_pure rfl

theorem loosens_reserve {s s' : State τ} (hs : s.Loosens s') (h : stmt.Loosens stmt') :
    (s.reserve stmt).Loosens (s'.reserve stmt') := by
  cases h with
  | classDecl span name hf hm =>
    simp only [State.reserve, hs.classes.contains]
    split
    · exact hs
    · exact { hs with classes := hs.classes.insert _ (refl _) }
  | interfaceDecl span name h =>
    simp only [State.reserve, hs.interfaces.contains]
    split
    · exact hs
    · exact { hs with interfaces := hs.interfaces.insert _ (refl _) }
  | _ => exact hs

theorem findings_reserve (s : State τ) (stmt : Stmt) :
    (s.reserve stmt).findings = s.findings := by
  unfold State.reserve
  split
  · split <;> rfl
  · split <;> rfl
  · rfl

theorem refines_declareTypes {stmts stmts' : List Stmt}
    (h : List.Forall₂ Stmt.Loosens stmts stmts') :
    Refines Eq (declareTypes stmts : Check τ Unit) (declareTypes stmts') := by
  have hfindings : ∀ (stmts : List Stmt) (s : State τ),
      (stmts.foldl State.reserve s).findings = s.findings := by
    intro stmts
    induction stmts with
    | nil => exact fun _ => rfl
    | cons stmt stmts ih => exact fun s => (ih _).trans (findings_reserve s stmt)
  have hreserve : ∀ {s s' : State τ}, s.Loosens s' →
      (stmts.foldl State.reserve s).Loosens (stmts'.foldl State.reserve s') := by
    induction h with
    | nil => exact fun hs => hs
    | cons hstmt _ ih => exact fun hs => ih (loosens_reserve hs hstmt)
  refine refines_bind (refines_modify hreserve (hfindings _) (hfindings _)) fun _ _ _ => ?_
  refine refines_bind (refines_forM h fun _ _ => refines_declareInterface) fun _ _ _ => ?_
  refine refines_bind (refines_forM h fun _ _ => refines_declareClass) fun _ _ _ => ?_
  exact refines_forM h fun _ _ => refines_declareImpl

theorem refines_declareHere (h : stmt.Loosens stmt') :
    Refines Eq (declareHere stmt : Check τ Unit) (declareHere stmt') := by
  refine refines_bind refines_get fun s s' hs => ?_
  simp only [hs.scopes.atGlobal]
  split
  · exact refines_declareTypes (.cons h .nil)
  · exact refines_pure rfl

theorem refines_implementation (interface target : Ident) (ms ms' : List Method) (span : Span) :
    Refines Eq (implementation interface target ms span : Check τ Unit)
      (implementation interface target ms' span) := by
  refine refines_bind refines_get fun s s' hs => ?_
  have hi := hs.interfaces interface.name
  have hc := hs.classes target.name
  simp only [isSome_eq_of_rel hi, isSome_eq_of_rel hc]
  refine refines_bind (refines_demand rfl id) fun _ _ _ => ?_
  refine refines_bind (refines_demand rfl id) fun _ _ _ => ?_
  rcases rel_cases hi with ⟨hn, hn'⟩ | ⟨required, required', hr, hr', hreq⟩
  · simp only [hn, hn']
    exact refines_pure rfl
  rcases rel_cases hc with ⟨hn, hn'⟩ | ⟨c, c', hc, hc', hcls⟩
  · simp only [hr, hr', hn, hn']
    exact refines_pure rfl
  · simp only [hr, hr', hc, hc', hs.implements]
    exact refines_report (Conformance.noErrors_findings hreq hcls.methods)

/-! ### Members, calls and assignments -/

theorem refines_readMember (h : ty.Loosens ty') (name : Ident) :
    Refines Ty.Loosens (readMember ty name : Check τ Ty) (readMember ty' name) :=
  refines_bind refines_get fun _ _ hs => refines_accept (hs.member h name)

theorem refines_readElement {index index' : Ty} (h : ty.Loosens ty') (hi : index.Loosens index')
    (place span : Span) : Refines Ty.Loosens (readElement ty index place span : Check τ Ty)
      (readElement ty' index' place span) :=
  refines_bind refines_get fun _ _ hs => refines_accept (hs.element h hi place span)

/-- What is called with arguments stays so; where the function is left open, so are they. -/
theorem refines_openCall [Tracking τ] {callee callee' : Expr} (hc : callee.Loosens callee')
    (h : ty.Loosens ty') (count : Nat) (span : Span) :
    Refines OpenCall.Loosens (openCall callee ty count span : Check τ OpenCall)
      (openCall callee' ty' count span) := by
  refine refines_bind refines_get fun s s' hs => ?_
  have hopen (call : OpenCall) : call.Loosens ⟨.anonymous, [], false, .any⟩ :=
    ⟨.inl rfl, Ty.loosens_of_isDynamic _ rfl⟩
  by_cases hd : ty'.isDynamic
  · cases ty' with
    | any | unknown =>
      cases ty with
      | fn params ret =>
        change Refines _ _ (do pure (); pure _)
        have hpure := remarks_pure (τ := τ) noErrors_nil.tolerable ()
        exact refines_bind (refines_remarks (remarks_mute.demand _ _ _) hpure) fun _ _ _ =>
          refines_pure (hopen _)
      | _ => exact refines_pure (hopen _)
    | _ => cases hd
  · cases ty with
    | fn params ret =>
      obtain ⟨params', ret', rfl, hp, hr⟩ := h.resolve_left hd
      have hp := Ty.loosensAll_iff.mp hp
      simp only [hc.ident?, hc.callee, hs.isVariadic, ← hp.length_eq]
      exact refines_bind (refines_demand rfl id) fun _ _ _ => refines_pure ⟨.inr hp, hr⟩
    | _ =>
      cases ty' with
      | fn params ret => simp [Ty.Loosens, Ty.isDynamic] at h
      | _ => exact refines_pure (hopen _)

theorem remarks_taken [Tracking τ] (call : OpenCall) (arg : Expr) (ty : Ty) :
    Remarks NoErrors (if call.takes then give arg ty ⟨arg.span.start.line, "function call"⟩
      else pure () : Check τ Unit) := by
  split
  · exact remarks_give _ _ _
  · exact remarks_pure noErrors_nil ()

theorem refines_pass [Tracking τ] {call call' : OpenCall} (hcall : call.Loosens call') (i : Nat)
    {arg arg' : Expr} (harg : arg.Loosens arg') (h : ty.Loosens ty') :
    Refines Eq (pass call i arg ty : Check τ Unit) (pass call' i arg' ty') := by
  have hgive := remarks_taken (τ := τ) call arg ty
  have hgive' := remarks_taken (τ := τ) call' arg' ty'
  unfold pass
  dsimp only
  rcases hcall.params with hnone | hparams
  · rw [hnone]
    refine refines_remarks (P := fun _ => True) ?_ (hgive'.mono fun _ h => h.tolerable)
    exact remarks_mute.pass call i arg ty
  · have hparam : Option.Rel Ty.Loosens call.params[i]? call'.params[i]? := rel_getElem? hparams i
    rcases rel_cases hparam with ⟨hn, hn'⟩ | ⟨t, t', ht, ht', htt⟩
    · simp only [hn, hn']
      exact refines_warning hgive hgive'
    · simp only [ht, ht', harg.span]
      rw [harg.span] at hgive'
      exact refines_bind (refines_demandAssignable rfl h htt) fun _ _ _ =>
        refines_warning hgive hgive'

theorem refines_await [Tracking τ] (h : ty.Loosens ty') (operand span : Span) :
    Refines Ty.Loosens (await ty operand span : Check τ Ty) (await ty' operand span) := by
  refine refines_bind refines_get fun s s' hs => ?_
  rw [hs.scopes.inAsync]
  refine refines_bind (refines_demand rfl id) fun _ _ _ => ?_
  have hb := remarks_demandNoBorrows (τ := τ) span
  exact refines_bind (refines_remarks hb hb) fun _ _ _ => refines_accept (h.awaited operand)

theorem refines_assign {target target' : Ty} (ht : target.Loosens target')
    (hv : value.Loosens value') (op : AssignOp) (span : Span) :
    Refines Eq (assign target op value span : Check τ Unit) (assign target' op value' span) := by
  unfold assign
  dsimp only
  split
  · refine refines_bind (refines_accept (BinOp.loosens_result _ ht hv span)) fun _ _ hr => ?_
    exact refines_demandAssignable rfl hr ht
  · exact refines_bind (refines_pure hv) fun _ _ hr => refines_demandAssignable rfl hr ht

theorem refines_assignName [Tracking τ] (name : String) (place : Span) (op : AssignOp)
    (hv : value.Loosens value') (span : Span) :
    Refines Eq (assignName name place op value span : Check τ Unit)
      (assignName name place op value' span) := by
  refine refines_bind (refines_lookup name place) fun t t' ht => ?_
  have hmoved := remarks_warnIfMoved (τ := τ) name place
  have hfree := remarks_demandFree (τ := τ) name place
  have hrest : Refines Eq (do demandFree name place; assign t op value span : Check τ Unit)
      (do demandFree name place; assign t' op value' span) :=
    refines_bind (refines_warning hfree hfree) fun _ _ _ => refines_assign ht hv op span
  dsimp only
  split
  · exact refines_bind (refines_warning hmoved hmoved) fun _ _ _ => hrest
  · exact hrest

theorem refines_assignField [Tracking τ] {object object' : Ty} (ho : object.Loosens object')
    (member : Ident) (place : Span) (op : AssignOp) (hv : value.Loosens value') (span : Span) :
    Refines Eq (assignField object member place op value span : Check τ Unit)
      (assignField object' member place op value' span) := by
  refine refines_bind refines_get fun s s' hs => ?_
  have hassigned := hs.assignedField ho member place
  generalize s.assignedField object member place = assigned,
    s'.assignedField object' member place = assigned' at hassigned ⊢
  obtain ⟨field, fs⟩ := assigned
  obtain ⟨field', fs'⟩ := assigned'
  by_cases hf : NoErrors fs
  · obtain ⟨hf', hfield⟩ := hassigned hf
    refine refines_bind (refines_report fun _ => hf') fun _ _ _ => ?_
    rcases hfield with rfl | hfield
    · refine refines_remarks (P := fun _ => True) ?_ (remarks_pure noErrors_nil.tolerable ())
      cases field with
      | some t => exact remarks_mute.assign _ _ _ _
      | none => exact remarks_pure trivial ()
    · cases hfield with
      | none => exact refines_pure rfl
      | some ht => exact refines_assign ht hv op span
  · refine refines_of_errors hf ?_
    cases field with
    | some t => exact remarks_mute.assign _ _ _ _
    | none => exact remarks_pure trivial ()

theorem refines_initialise (cls : String) {c c' : ClassDef} (hc : c.Loosens c') (field : Ident)
    (hv : value.Loosens value') (span : Span) :
    Refines Eq (initialise cls c field value span : Check τ Unit)
      (initialise cls c' field value' span) := by
  unfold initialise
  rcases rel_cases (hc.fields field.name) with ⟨hn, hn'⟩ | ⟨t, t', ht, ht', htt⟩
  · simp only [hn, hn']
    exact refines_report id
  · simp only [ht, ht']
    exact refines_demandAssignable rfl hv htt

/-! ### Bodies, jumps and imports -/

theorem refines_bindAll [Tracking τ] {params params' : List Param}
    (hp : List.Forall₂ Param.Loosens params params') {tys tys' : List Ty}
    (ht : List.Forall₂ Ty.Loosens tys tys') :
    Refines Eq (bindAll params tys : Check τ Unit) (bindAll params' tys') := by
  unfold bindAll
  induction hp generalizing tys tys' with
  | nil => exact refines_pure rfl
  | cons hname _ ih =>
    cases ht with
    | nil => exact refines_pure rfl
    | cons hty hrest =>
      refine refines_bind (R := Eq) ?_ fun _ _ _ => ih hrest
      simp only [hname.name]
      exact refines_name _ hty

theorem refines_function [Tracking τ] (hsig : sig.Loosens sig') {f f' : FnTy} (hf : f.Loosens f')
    {self? self?' : Option Ty} (hself : Option.Rel Ty.Loosens self? self?') (h : Refines Eq m m') :
    Refines Eq (function sig f self? m) (function sig' f' self?' m') := by
  have hrest : Refines Eq (do bindAll sig.params f.params; returning (f.expected? sig) m)
      (do bindAll sig'.params f'.params; returning (f'.expected? sig') m') :=
    refines_bind (refines_bindAll hsig.params hf.params) fun _ _ _ =>
      refines_returning (hsig.expected? hf) h
  unfold function
  rw [hsig.async]
  refine refines_inFrame _ ?_
  cases hself with
  | none => exact hrest
  | some ht => exact refines_bind (refines_name "self" ht) fun _ _ _ => hrest

theorem refines_demandReturn (h : ty.Loosens ty') (span : Span) :
    Refines Eq (demandReturn ty span : Check τ Unit) (demandReturn ty' span) := by
  refine refines_bind refines_get fun s s' hs => ?_
  have hreturns := hs.returns
  generalize s.returns = returns, s'.returns = returns' at hreturns ⊢
  cases hreturns with
  | nil => exact refines_pure rfl
  | cons hexpected _ =>
    cases hexpected with
    | none => exact refines_pure rfl
    | some he => exact refines_demandAssignable rfl h he

theorem refines_ret [Tracking τ] (span : Span) {value value' : Option Expr}
    (hv : Option.Rel Expr.Loosens value value') (h : ty.Loosens ty') :
    Refines Eq (ret span value ty : Check τ Unit) (ret span value' ty') := by
  have hescapes := refines_warning (remarks_warnIfEscapes (τ := τ) ty span)
    (remarks_warnIfEscapes ty' span)
  have hrest : Refines Eq (do warnIfEscapes ty span; demandReturn ty span : Check τ Unit)
      (do warnIfEscapes ty' span; demandReturn ty' span) :=
    refines_bind hescapes fun _ _ _ => refines_demandReturn h span
  cases hv with
  | none => exact hrest
  | some _ =>
    exact refines_bind (refines_warning (remarks_give _ _ _) (remarks_give _ _ _))
      fun _ _ _ => hrest

theorem refines_jump (word : Keyword) (span : Span) :
    Refines Eq (jump word span : Check τ Unit) (jump word span) := by
  refine refines_bind refines_get fun s s' hs => ?_
  rw [hs.scopes.inLoop]
  exact refines_demand rfl id

theorem refines_condition (construct : Construct) (h : ty.Loosens ty') (span : Span) :
    Refines Eq (condition construct ty span : Check τ Unit) (condition construct ty' span) :=
  refines_demand rfl (h.fits rfl)

theorem refines_bindingTy {type type' : Option TypeExpr}
    (ht : Option.Rel TypeExpr.Loosens type type') (hv : value.Loosens value') (span : Span) :
    Refines Ty.Loosens (bindingTy type value span : Check τ Ty) (bindingTy type' value' span) := by
  cases ht with
  | none => exact refines_pure hv
  | some ht =>
    refine refines_bind (refines_resolve ht) fun _ _ hd => ?_
    exact refines_bind (refines_demandAssignable rfl hv hd) fun _ _ _ => refines_pure hd

theorem refines_require [Tracking τ] (path : String) (imports : Import) :
    Refines Eq (require path imports : Check τ Unit) (require path imports) := by
  cases imports with
  | module newName => cases newName <;> exact refines_name _ (refl _)
  | named names =>
    refine refines_forM (Q := Eq) (List.forall₂_refl names) fun member _ hm => ?_
    subst hm
    unfold importMember
    dsimp only
    split
    · refine refines_bind (refines_accept (Judgement.loosens_refl _)) fun _ _ ht => ?_
      exact refines_name _ ht
    · exact refines_bind (refines_pure (refl _)) fun _ _ ht => refines_name _ ht
  | wildcard =>
    rw [require]
    split
    · refine refines_forM (Q := Eq) (List.forall₂_refl _) fun e _ he => ?_
      subst he
      exact refines_name _ (refl _)
    · refine refines_bind (R := Eq) ?_ fun _ _ _ => refines_name _ (refl _)
      exact refines_modify (fun hs => { hs with openNames := rfl }) (fun _ => rfl) (fun _ => rfl)

theorem refines_hoist [Tracking τ] (h : stmt.Loosens stmt') :
    Refines Eq (hoist stmt : Check τ Unit) (hoist stmt') := by
  cases h with
  | fn span name hsig _ =>
    refine refines_bind (refines_signature hsig) fun _ _ hf => ?_
    exact refines_bind (refines_keepSignature span hf) fun _ _ _ => refines_name _ hf.toTy
  | _ => exact refines_pure rfl

end Check
end CarvFront
