import CarvFront.Proofs.Telling

/-! Declarations are read ahead, at the start of a program and where one stands inside other code.
The names in their annotations are looked up then; for an implementation only if the class is there.
What is left is looked up when the declaration is come to, so every name is looked up once. -/
namespace CarvFront

/-! ### Reading ahead -/

namespace Effect

/-- The names that an effect tells to be those of no type. -/
def told (e : Effect) : List Ident :=
  e.findings.filterMap Finding.unknown?

/-- The spans of the declarations whose types an effect keeps. -/
def spans (e : Effect) : List Span :=
  e.kept.map Prod.fst

end Effect

namespace State
variable {s s' s'' : State Custody} {es es' : List Effect}

theorem waits_keepAll (s : State Custody) (kept : List (Span × FnTy)) (span : Span) :
    (s.keepAll kept).waits span ↔ s.waits span ∨ span ∈ kept.map Prod.fst := by
  induction kept generalizing s with
  | nil => simp [keepAll, waits, signature?]
  | cons k kept ih =>
    have hkeep : (s.keepSignature k.1 k.2).waits span ↔ s.waits span ∨ span = k.1 := by
      rw [waits, waits, signature?_keepSignature]
      by_cases hspan : k.1 = span
      · simp [hspan]
      · simp [hspan, Ne.symm hspan]
    change ((s.keepSignature k.1 k.2).keepAll kept).waits span ↔ _
    rw [ih, hkeep, List.map_cons, List.mem_cons, or_assoc]

/-- From one state to another effects were had that leave the names of types alone. -/
structure Foretells (es : List Effect) (s s' : State Custody) : Prop where
  kinds : s'.scopes.kinds = s.scopes.kinds
  names : s'.typeNames = s.typeNames
  unknown : s'.unknown = ↑(es.flatMap Effect.told) + s.unknown
  waits : ∀ span, s'.waits span ↔ s.waits span ∨ span ∈ es.flatMap Effect.spans

namespace Foretells

theorem refl (s : State Custody) : s.Foretells [] s :=
  ⟨rfl, rfl, (zero_add _).symm, fun span => by simp⟩

theorem trans (h : s.Foretells es s') (h' : s'.Foretells es' s'') :
    s.Foretells (es ++ es') s'' where
  kinds := h'.kinds.trans h.kinds
  names := h'.names.trans h.names
  unknown := by
    rw [h'.unknown, h.unknown, List.flatMap_append, ← Multiset.coe_add, ← add_assoc,
      add_comm (↑(es'.flatMap Effect.told) : Multiset Ident)]
  waits span := by
    rw [h'.waits, h.waits, List.flatMap_append, List.mem_append, or_assoc]

theorem perm (h : s.Foretells es s') (hp : es.Perm es') : s.Foretells es' s' where
  kinds := h.kinds
  names := h.names
  unknown := by
    rw [h.unknown, Multiset.coe_eq_coe.mpr (hp.flatMap_right Effect.told)]
  waits span := by
    rw [h.waits, (hp.flatMap_right Effect.spans).mem_iff]

theorem apply {e : Effect} (h : (e.apply s).typeNames = s.typeNames) :
    s.Foretells [e] (e.apply s) where
  kinds := rfl
  names := h
  unknown := by
    have hfindings : (e.apply s).findings = e.findings.reverse ++ s.findings := rfl
    rw [State.unknown, hfindings, List.filterMap_append, ← Multiset.coe_add,
      List.filterMap_reverse, Multiset.coe_reverse, List.flatMap_singleton]
    rfl
  waits span := by
    rw [List.flatMap_singleton]
    exact s.waits_keepAll e.kept span

end Foretells
end State

namespace Stmt

/-- What is known of a declaration before it is come to, pass by pass. -/
def effects (n : TypeNames) (st : Stmt) : List Effect :=
  [st.declaringInterface n, st.declaringClass n, st.declaringImpl n, st.hoisting n]

/-- Whether a statement is read ahead. -/
def isAhead (n : TypeNames) : Stmt → Bool
  | .implDecl _ _ target _ => n.isClass target.name
  | st => st.isDeclaration

/-- The names that are looked up when a statement is read ahead. -/
def early (n : TypeNames) (st : Stmt) : List Ident :=
  if st.isAhead n then (Node.stmt st).mentions else []

/-- The functions and methods whose types are kept when a statement is read ahead. -/
def earlySpans (n : TypeNames) (st : Stmt) : List Span :=
  if st.isAhead n then (Node.stmt st).signedSpans else []

theorem mem_earlySpans {n : TypeNames} {st : Stmt} {span : Span} :
    span ∈ st.earlySpans n ↔ st.isAhead n ∧ span ∈ (Node.stmt st).signedSpans := by
  rw [earlySpans]
  split <;> simp [*]

/-- The names of a declaration that are looked up ahead and those that are not. -/
theorem early_add_late (n : TypeNames) (st : Stmt) (a : List Enclosure) (inside : List Occurrence) :
    (↑(st.early n) + (↑(if st.isAhead n then [] else (Node.stmt st).mentions) +
      ↑(mentions inside)) : Multiset Ident) = ↑(mentions (⟨.stmt st, a⟩ :: inside)) := by
  have hcons : mentions (⟨.stmt st, a⟩ :: inside) =
      (Node.stmt st).mentions ++ mentions inside := rfl
  rw [hcons, early]
  split <;> simp only [← Multiset.coe_add, Multiset.coe_nil, zero_add]

theorem told_effects (n : TypeNames) (st : Stmt) :
    (st.effects n).flatMap Effect.told = (st.early n).filter fun m => (n.known m.name).isNone := by
  cases st with
  | implDecl span interface target ms =>
    by_cases htarget : n.isClass target.name <;>
      simp [effects, declaringInterface, declaringClass, declaringImpl, hoisting, early, isAhead,
        htarget, Effect.told, methodsEffect, List.filterMap_flatMap, List.filter_flatMap,
        filterMap_unknownTypes]
  | _ =>
    simp [effects, declaringInterface, declaringClass, declaringImpl, hoisting, early, isAhead,
      isDeclaration, Effect.told, methodsEffect, List.filterMap_flatMap, List.filter_flatMap,
      filterMap_unknownTypes]

theorem spans_effects (n : TypeNames) (st : Stmt) :
    (st.effects n).flatMap Effect.spans = st.earlySpans n := by
  cases st with
  | implDecl span interface target ms =>
    by_cases htarget : n.isClass target.name <;>
      simp [effects, declaringInterface, declaringClass, declaringImpl, hoisting, earlySpans,
        isAhead, htarget, Effect.spans, methodsEffect, signed, Function.comp_def]
  | _ =>
    simp [effects, declaringInterface, declaringClass, declaringImpl, hoisting, earlySpans, isAhead,
      isDeclaration, Effect.spans, methodsEffect, signed]

end Stmt

namespace Check
variable {D : List String} {top : Bool} {a : List Enclosure} {os : List Occurrence}
variable {ss : List Stmt} {ms : List Method} {inside : List Occurrence}

/-- Declarations are read ahead: the types, then the functions. -/
def readAhead (ss : List Stmt) : Check Custody Unit := do
  declareTypes ss
  ss.forM hoist

theorem foretells_forM {n : TypeNames} {step : Stmt → Check Custody Unit} {effect : Stmt → Effect}
    (hstep : ∀ st ∈ ss, ∀ s : State Custody, s.typeNames = n →
      s.Foretells [effect st] ((step st).after s)) {s : State Custody} (hs : s.typeNames = n) :
    s.Foretells (ss.map effect) ((ss.forM step).after s) := by
  induction ss generalizing s with
  | nil => exact .refl s
  | cons st ss ih =>
    obtain ⟨hst, hss⟩ := List.forall_mem_cons.mp hstep
    have hfirst := hst s hs
    exact hfirst.trans (ih hss (hfirst.names.trans hs))

theorem Pass.foretells {step : Stmt → Check Custody Unit} {effect : TypeNames → Stmt → Effect}
    (h : Pass step effect) {n : TypeNames} (hnamed : ∀ st ∈ ss, st.NamedIn n) {s : State Custody}
    (hs : s.typeNames = n) : s.Foretells (ss.map (effect n)) ((ss.forM step).after s) := by
  refine foretells_forM (fun st hst s hs => ?_) hs
  rw [h.after, hs]
  exact .apply (h.names (hs ▸ hnamed st hst) n)

theorem foretells_hoist {n : TypeNames} (st : Stmt) {s : State Custody} (hs : s.typeNames = n) :
    s.Foretells [st.hoisting n] ((hoist st).after s) := by
  have hnothing : s.Foretells [({} : Effect)] (Effect.apply {} s) := .apply rfl
  cases st with
  | fn span name sig b =>
    rw [after_hoist hs]
    have hnotes : s.Foretells _ (((Stmt.fn span name sig b).hoisting n).apply s) := .apply rfl
    exact ⟨hnotes.kinds, hnotes.names, hnotes.unknown, hnotes.waits⟩
  | _ => exact ⟨rfl, rfl, hnothing.unknown, hnothing.waits⟩

theorem foretells_readAhead {s : State Custody} {n : TypeNames}
    (hn : (ss.foldl State.reserve s).typeNames = n) :
    (ss.foldl State.reserve s).Foretells (ss.flatMap (Stmt.effects n))
      ((readAhead ss).after s) := by
  have hnamed : ∀ st ∈ ss, st.NamedIn n := by
    intro st hst
    rw [← hn]
    constructor
    · exact fun name hname => classes_reserve_iff.mpr (.inr (List.mem_flatMap_of_mem hst hname))
    · exact fun name hname => interfaces_reserve_iff.mpr (.inr (List.mem_flatMap_of_mem hst hname))
  have hinterfaces := interfacePass.foretells hnamed hn
  have hclasses := classPass.foretells hnamed (hinterfaces.names.trans hn)
  have himpls := implPass.foretells hnamed (hclasses.names.trans (hinterfaces.names.trans hn))
  have htypes := (hinterfaces.trans hclasses).trans himpls
  have hfunctions (s : State Custody) (hs : s.typeNames = n) :
      s.Foretells (ss.map (Stmt.hoisting n)) ((ss.forM hoist).after s) :=
    foretells_forM (fun st _ s hs => foretells_hoist st hs) hs
  refine (htypes.trans (hfunctions _ (htypes.names.trans hn))).perm ?_
  -- Pass by pass or statement by statement, the effects are the same.
  rw [List.append_assoc, List.append_assoc, List.map_eq_flatMap (f := Stmt.hoisting n)]
  have hlast := List.map_append_flatMap_perm ss (Stmt.declaringImpl n) fun st => [st.hoisting n]
  have hmiddle := (hlast.append_left _).trans
    (List.map_append_flatMap_perm ss (Stmt.declaringClass n) _)
  exact (hmiddle.append_left _).trans
    (List.map_append_flatMap_perm ss (Stmt.declaringInterface n) _)

theorem foldl_reserve (ss : List Stmt) (s : State Custody) :
    ∃ classes interfaces, ss.foldl State.reserve s = { s with classes, interfaces } := by
  induction ss generalizing s with
  | nil => exact ⟨_, _, rfl⟩
  | cons st ss ih =>
    obtain ⟨classes, interfaces, heq⟩ := ih (s.reserve st)
    refine ⟨classes, interfaces, heq.trans ?_⟩
    cases st with
    | classDecl | interfaceDecl =>
      rw [State.reserve]
      split <;> rfl
    | _ => rfl

theorem knowsOnly_iff {s : State Custody} :
    s.KnowsOnly D ↔ ∀ name, s.classes.contains name ∨ s.interfaces.contains name → name ∈ D := by
  refine forall_congr' fun name => imp_congr_left ?_
  rw [State.known]
  cases s.classes.contains name <;> cases s.interfaces.contains name <;> simp

theorem knowsOnly_reserve {s : State Custody} (hs : s.KnowsOnly D)
    (hD : ∀ st ∈ ss, (Node.stmt st).declares ⊆ D) : (ss.foldl State.reserve s).KnowsOnly D := by
  rw [knowsOnly_iff] at hs ⊢
  intro name hname
  rw [classes_reserve_iff, interfaces_reserve_iff] at hname
  obtain (hname | hname) | (hname | hname) := hname
  · exact hs name (.inl hname)
  · obtain ⟨st, hst, hname⟩ := List.mem_flatMap.mp hname
    exact hD st hst (List.mem_append_left _ hname)
  · exact hs name (.inr hname)
  · obtain ⟨st, hst, hname⟩ := List.mem_flatMap.mp hname
    exact hD st hst (List.mem_append_right _ hname)

/-- What is read ahead is told, and waits from then on. -/
theorem tells_readAhead {s : State Custody} (hs : s.KnowsOnly D)
    (hD : ∀ st ∈ ss, (Node.stmt st).declares ⊆ D) {n : TypeNames}
    (hn : (ss.foldl State.reserve s).typeNames = n) :
    s.Tells D ↑(ss.flatMap (Stmt.early n)) ((readAhead ss).after s) ∧
      ∀ span, ((readAhead ss).after s).waits span ↔
        s.waits span ∨ span ∈ ss.flatMap (Stmt.earlySpans n) := by
  have hread := foretells_readAhead hn
  have hreserved := knowsOnly_reserve hs hD
  have htold : (ss.flatMap (Stmt.effects n)).flatMap Effect.told =
      (ss.flatMap (Stmt.early n)).filter fun m => (n.known m.name).isNone := by
    rw [List.flatMap_assoc, List.filter_flatMap]
    exact congrArg ss.flatMap (funext fun st => st.told_effects n)
  have hspans : (ss.flatMap (Stmt.effects n)).flatMap Effect.spans =
      ss.flatMap (Stmt.earlySpans n) := by
    rw [List.flatMap_assoc]
    exact congrArg ss.flatMap (funext fun st => st.spans_effects n)
  obtain ⟨classes, interfaces, heq⟩ := foldl_reserve ss s
  have hknown : ∀ name, (n.known name).isSome → name ∈ D := hn ▸ hreserved
  refine ⟨⟨?_, fun _ => ?_, _, told_filter hknown _, ?_⟩, fun span => ?_⟩
  · rw [hread.kinds, heq]
  · rw [← hread.names.trans hn] at hknown
    exact hknown
  · rw [hread.unknown, htold, heq]
    rfl
  · rw [hread.waits, hspans, heq]
    rfl

/-! ### Coming to declarations -/

theorem tells_fn (span : Span) (name : Ident) (sig : Signature) {b : Block}
    (hb : Account D false (.function sig.async :: a) (body b) os) {s : State Custody}
    (hs : Ahead D top os s) (hspan : span ∉ signedSpans os) :
    s.Tells D (↑(if s.waits span then [] else sig.names) + ↑(mentions os))
        ((stmt (.fn span name sig b)).after s) ∧
      ∀ other, ((stmt (.fn span name sig b)).after s).waits other ↔
        s.waits other ∧ other ≠ span := by
  have htally := account_tally D
  have hk (f : FnTy) : Account D top a
      (Check.bind name.name f.toTy >>= fun _ => function sig f none (body b)) os :=
    htally.quiet_then (quiet_bind _ _) fun _ => htally.function sig f none hb
  rw [Check.stmt]
  exact tells_come hk hs hspan sig

/-- The methods of a declaration, behind other code of it. -/
theorem tells_members {m : Check Custody Unit} (hm : Account D top a m os) (owner : Ty)
    (hms : Bodies (Account D) a ms) {s : State Custody}
    (hs : Ahead D top (os ++ placedMethods a ms) s)
    (hspans : (ms.map (·.span) ++ signedSpans (os ++ placedMethods a ms)).Nodup) {waits : Bool}
    (hwaits : ∀ m ∈ ms, s.waits m.span = waits) :
    s.Tells D (↑(if waits then [] else ms.flatMap (·.sig.names)) +
          ↑(mentions (os ++ placedMethods a ms)))
        ((methods owner ms).after (m.after s)) ∧
      ∀ other, ((methods owner ms).after (m.after s)).waits other ↔
        s.waits other ∧ other ∉ ms.map (·.span) := by
  obtain ⟨ht, hw⟩ := hm s (hs.sublist (List.sublist_append_left _ _))
  have hs' : Ahead D top (placedMethods a ms) (m.after s) :=
    (hs.sublist (List.sublist_append_right _ _)).after ht fun span _ => congrFun hw span
  rw [signedSpans_append] at hspans
  obtain ⟨ht', hw'⟩ := tells_methods owner hms hs'
    (hspans.sublist ((List.sublist_append_right _ _).append_left _))
    fun m hm => (congrFun hw m.span).trans (hwaits m hm)
  rw [hw] at hw'
  rw [mentions_append, ← Multiset.coe_add, add_left_comm]
  exact ⟨ht.trans ht', hw'⟩

/-- From where a declaration has been read, what it tells is the names that were not looked up then
and those in the code inside it; the types that were kept for it are taken. -/
def Comes (D : List String) (top : Bool) (st : Stmt) (inside : List Occurrence) : Prop :=
  ∀ (n : TypeNames) (s : State Custody), Ahead D top inside ((declareHere st).after s) →
    ((Node.stmt st).signedSpans ++ signedSpans inside).Nodup →
    (∀ span ∈ (Node.stmt st).signedSpans,
      ((declareHere st).after s).waits span = st.isAhead n) →
    ((declareHere st).after s).Tells D
        (↑(if st.isAhead n then [] else (Node.stmt st).mentions) + ↑(mentions inside))
        ((stmt st).after s) ∧
      ∀ span, ((stmt st).after s).waits span ↔
        ((declareHere st).after s).waits span ∧ span ∉ (Node.stmt st).signedSpans

theorem signed_methods (ms : List Method) :
    (ms.map fun m => (m.span, m.sig)).map Prod.fst = ms.map (·.span) := by
  simp

theorem comes_class (span : Span) (name : Ident) {fields : List Field}
    (hfields : ∀ c, Account D top a (defaults c fields) (placedFields a fields))
    (hms : Bodies (Account D) a ms) :
    Comes D top (.classDecl span name fields ms) (placedFields a fields ++ placedMethods a ms) := by
  intro n s hs hspans hwaits
  rw [Check.stmt]
  let s' := (declareHere (.classDecl span name fields ms)).after s
  have hsigned : (Node.stmt (.classDecl span name fields ms)).signedSpans = ms.map (·.span) :=
    signed_methods ms
  rw [hsigned] at hspans hwaits ⊢
  exact tells_members (hfields _) (ownerTy (s'.classes.find? name.name) name.name) hms hs hspans
    fun m hm => hwaits m.span (List.mem_map_of_mem hm)

theorem comes_impl (span : Span) (interface target : Ident) (hms : Bodies (Account D) a ms) :
    Comes D top (.implDecl span interface target ms) (placedMethods a ms) := by
  intro n s hs hspans hwaits
  rw [Check.stmt]
  have hsigned : (Node.stmt (.implDecl span interface target ms)).signedSpans = ms.map (·.span) :=
    signed_methods ms
  have hquiet : Quiet (implementation (τ := Custody) interface target ms span) :=
    (quiet_plain.implementation _ _ _ _)
  rw [hsigned] at hspans hwaits ⊢
  exact tells_members (.quiet hquiet) _ hms hs hspans
    fun m hm => hwaits m.span (List.mem_map_of_mem hm)

theorem comes_interface (span : Span) (name : Ident) (heads : List MethodHead) :
    Comes D top (.interfaceDecl span name heads) [] := by
  intro n s hs hspans hwaits
  rw [Check.stmt]
  exact ⟨.of_same rfl rfl rfl, fun span => by simp [Stmt.signed]⟩

/-! ### Inside other code -/

theorem after_declareHere_inside {s : State Custody} (hg : s.scopes.atGlobal = false) {st : Stmt}
    (hst : hoist (τ := Custody) st = pure ()) :
    (declareHere st).after s = (readAhead [st]).after s := by
  have hhere : (declareHere st).after s = (declareTypes [st]).after s := by
    have hif : (declareHere st).after s =
        (if !s.scopes.atGlobal then declareTypes [st] else pure () : Check Custody Unit).after s := rfl
    rw [hif, hg]
    rfl
  rw [hhere, readAhead, List.forM_eq_forM, List.forM_cons, hst]
  rfl

theorem Comes.account {st : Stmt} (h : Comes D false st inside)
    (hst : hoist (τ := Custody) st = pure ()) (hplaced : st.placed a = ⟨.stmt st, a⟩ :: inside) :
    Account D false a (stmt st) (st.placed a) := by
  intro s hs
  rw [hplaced] at hs ⊢
  let n := ([st].foldl State.reserve s).typeNames
  have hD : ∀ st' ∈ [st], (Node.stmt st').declares ⊆ D := by
    rintro st' hst' name hname
    rw [List.mem_singleton.mp hst'] at hname
    exact hs.declares (List.mem_append_left _ hname)
  obtain ⟨ht, hw⟩ := tells_readAhead hs.knows hD (n := n) rfl
  simp only [← after_declareHere_inside (hs.inside rfl) hst, List.flatMap_singleton] at ht hw
  have hspans : ((Node.stmt st).signedSpans ++ signedSpans inside).Nodup := hs.nodup
  have hs' : Ahead D false inside ((declareHere st).after s) := by
    refine (hs.sublist (List.sublist_cons_self _ _)).after ht fun span hspan => ?_
    have hearly : span ∉ st.earlySpans n := fun hmem =>
      (List.nodup_append'.mp hspans).2.2 (Stmt.mem_earlySpans.mp hmem).2 hspan
    exact Bool.eq_iff_iff.mpr ((hw span).trans (or_iff_left hearly))
  have hfresh : ∀ span ∈ (Node.stmt st).signedSpans, s.waits span = false :=
    fun span hspan => hs.fresh span (List.mem_append_left _ hspan)
  have hwaits : ∀ span ∈ (Node.stmt st).signedSpans,
      ((declareHere st).after s).waits span = st.isAhead n := by
    intro span hspan
    rw [Bool.eq_iff_iff, hw, hfresh span hspan, Stmt.mem_earlySpans, and_iff_left hspan]
    exact or_iff_right Bool.false_ne_true
  obtain ⟨ht', hw'⟩ := h n s hs' hspans hwaits
  constructor
  · rw [← st.early_add_late n a inside]
    exact ht.trans ht'
  · funext span
    rw [Bool.eq_iff_iff, hw', hw, Stmt.mem_earlySpans]
    constructor
    · rintro ⟨hspan | hspan, hnot⟩
      · exact hspan
      · exact absurd hspan.2 hnot
    · intro hspan
      refine ⟨.inl hspan, fun hmem => ?_⟩
      rw [hfresh span hmem] at hspan
      cases hspan

theorem account_fn (span : Span) (name : Ident) (sig : Signature) {b : Block}
    (hb : Account D false (.function sig.async :: a) (body b)
      (b.placed (.function sig.async :: a))) :
    Account D false a (stmt (.fn span name sig b)) ((Stmt.fn span name sig b).placed a) := by
  intro s hs
  have hspan := (List.nodup_cons.mp hs.nodup).1
  have hfresh : s.waits span = false := hs.fresh span List.mem_cons_self
  obtain ⟨ht, hw⟩ := tells_fn span name sig hb (hs.sublist (List.sublist_cons_self _ _)) hspan
  rw [hfresh] at ht
  refine ⟨ht, funext fun other => Bool.eq_iff_iff.mpr ?_⟩
  rw [hw, and_iff_left_iff_imp]
  rintro hother rfl
  rw [hfresh] at hother
  cases hother

theorem reckoning_account (D : List String) : Reckoning (Account D) where
  toTally := account_tally D
  inner.fn span name sig _ hb := account_fn span name sig hb
  inner.classDecl span name _ _ hfields hms := (comes_class span name hfields hms).account rfl rfl
  inner.interfaceDecl span name heads := (comes_interface span name heads).account rfl rfl
  inner.implDecl span interface target _ hms :=
    (comes_impl span interface target hms).account rfl rfl

/-! ### At the top -/

theorem mem_placed (st : Stmt) (a : List Enclosure) : ⟨.stmt st, a⟩ ∈ st.placed a := by
  rw [Stmt.placed.eq_def]
  exact List.mem_cons_self

theorem mem_placedStmts {st : Stmt} (hst : st ∈ ss) (a : List Enclosure) :
    ⟨.stmt st, a⟩ ∈ placedStmts a ss := by
  induction ss with
  | nil => cases hst
  | cons st' ss ih =>
    rw [placedStmts, List.mem_append]
    obtain rfl | hst := List.mem_cons.mp hst
    · exact .inl (mem_placed st a)
    · exact .inr (ih hst)

theorem signedSpans_subset_placed (st : Stmt) (a : List Enclosure) :
    (Node.stmt st).signedSpans ⊆ signedSpans (st.placed a) :=
  fun _ hspan => List.mem_flatMap.mpr ⟨_, mem_placed st a, hspan⟩

theorem earlySpans_subset_placed (n : TypeNames) (st : Stmt) (a : List Enclosure) :
    st.earlySpans n ⊆ signedSpans (st.placed a) :=
  fun _ hspan => signedSpans_subset_placed st a (Stmt.mem_earlySpans.mp hspan).2

theorem earlySpans_subset_stmts (n : TypeNames) (ss : List Stmt) (a : List Enclosure) :
    ss.flatMap (Stmt.earlySpans n) ⊆ signedSpans (placedStmts a ss) := by
  intro span hspan
  obtain ⟨st, hst, hspan⟩ := List.mem_flatMap.mp hspan
  exact List.mem_flatMap.mpr ⟨_, mem_placedStmts hst a, (Stmt.mem_earlySpans.mp hspan).2⟩

/-- The code `os` is ahead at the top of a program, and the types of `early` are kept for it. -/
structure Waiting (D : List String) (os : List Occurrence) (early : List Span) (s : State Custody) :
    Prop where
  atTop : s.scopes.atGlobal
  knows : s.KnowsOnly D
  declares : declares os ⊆ D
  nodup : (signedSpans os).Nodup
  waits : ∀ span ∈ signedSpans os, s.waits span ↔ span ∈ early

theorem Waiting.ahead {n : TypeNames} {st : Stmt} {s : State Custody}
    (hs : Waiting D (⟨.stmt st, a⟩ :: inside) (st.earlySpans n) s) : Ahead D true inside s where
  inside := nofun
  knows := hs.knows
  declares := fun _ hname => hs.declares (List.mem_append_right _ hname)
  nodup := (List.nodup_append'.mp hs.nodup).2.1
  fresh span hspan := by
    rw [← Bool.not_eq_true, hs.waits span (List.mem_append_right _ hspan), Stmt.mem_earlySpans]
    exact fun hmem => (List.nodup_append'.mp hs.nodup).2.2 hmem.2 hspan

/-- What is told when a statement at the top is come to, and the types that are taken. -/
def TellsLate (D : List String) (n : TypeNames) (st : Stmt) (s : State Custody) : Prop :=
  ∃ late, s.Tells D late ((stmt st).after s) ∧
    ↑(st.early n) + late = (↑(mentions (st.placed [])) : Multiset Ident) ∧
    ∀ span, ((stmt st).after s).waits span ↔
      s.waits span ∧ span ∉ (Node.stmt st).signedSpans

variable {n : TypeNames} {st : Stmt} {s : State Custody}

theorem Comes.late (h : Comes D true st inside) (hplaced : st.placed [] = ⟨.stmt st, []⟩ :: inside)
    (hs : Waiting D (st.placed []) (st.earlySpans n) s) : TellsLate D n st s := by
  rw [hplaced] at hs
  have hhere := after_declareHere hs.atTop st
  have hwaits : ∀ span ∈ (Node.stmt st).signedSpans, s.waits span = st.isAhead n := by
    intro span hspan
    rw [Bool.eq_iff_iff, hs.waits span (List.mem_append_left _ hspan), Stmt.mem_earlySpans,
      and_iff_left hspan]
  have hcomes := h n s
  rw [hhere] at hcomes
  obtain ⟨ht, hw⟩ := hcomes hs.ahead hs.nodup hwaits
  exact ⟨_, ht, hplaced ▸ st.early_add_late n [] inside, hw⟩

theorem late_of_isDeclaration_eq_false (hst : st.isDeclaration = false)
    (hs : Waiting D (st.placed []) (st.earlySpans n) s) : TellsLate D n st s := by
  have hnone : st.isAhead n = false := by
    cases st with
    | implDecl => cases hst
    | _ => exact hst
  have hspans : (Node.stmt st).signedSpans = [] := by
    cases st with
    | fn | classDecl | implDecl => cases hst
    | _ => rfl
  have hahead : Ahead D true (st.placed []) s := by
    refine ⟨nofun, hs.knows, hs.declares, hs.nodup, fun span hspan => ?_⟩
    rw [← Bool.not_eq_true, hs.waits span hspan, Stmt.earlySpans, hnone]
    exact List.not_mem_nil
  have hdecl : st.isDeclaration = true → Declarations (Account D) true := by
    intro h
    rw [hst] at h
    cases h
  obtain ⟨ht, hw⟩ := (reckoning_account D).stmt st true [] hdecl s hahead
  refine ⟨_, ht, ?_, fun span => ?_⟩
  · rw [Stmt.early, hnone]
    exact zero_add _
  · rw [hw, hspans]
    simp

theorem tells_top (hs : Waiting D (st.placed []) (st.earlySpans n) s) : TellsLate D n st s := by
  have h := reckoning_account D
  cases st with
  | fn span name sig b =>
    have hwaits : s.waits span = true :=
      (hs.waits span List.mem_cons_self).mpr (Stmt.mem_earlySpans.mpr ⟨rfl, List.mem_cons_self⟩)
    have hspan := (List.nodup_cons.mp hs.nodup).1
    obtain ⟨ht, hw⟩ := tells_fn span name sig (h.body b _) hs.ahead hspan
    rw [hwaits] at ht
    refine ⟨_, ht, Stmt.early_add_late n _ [] _, fun other => ?_⟩
    rw [hw]
    simp [Stmt.signed]
  | classDecl span name fields ms =>
    have hfields c := h.defaults c fields true []
    exact (comes_class span name hfields (h.bodies ms [])).late rfl hs
  | interfaceDecl span name heads => exact (comes_interface span name heads).late rfl hs
  | implDecl span interface target ms =>
    exact (comes_impl span interface target (h.bodies ms [])).late rfl hs
  | _ => exact late_of_isDeclaration_eq_false rfl hs

theorem tells_stmts (n : TypeNames) {s : State Custody}
    (hs : Waiting D (placedStmts [] ss) (ss.flatMap (Stmt.earlySpans n)) s) :
    ∃ late, s.Tells D late ((stmts ss).after s) ∧
      ↑(ss.flatMap (Stmt.early n)) + late = (↑(mentions (placedStmts [] ss)) : Multiset Ident) := by
  induction ss generalizing s with
  | nil =>
    rw [Check.stmts]
    exact ⟨0, .of_same rfl rfl rfl, rfl⟩
  | cons st ss ih =>
    let rest := placedStmts [] ss
    have hplaced : placedStmts [] (st :: ss) = st.placed [] ++ rest := by rw [placedStmts]
    rw [hplaced] at hs ⊢
    have hmem (span : Span) (hspan : span ∈ signedSpans (st.placed []) ++ signedSpans rest) :
        s.waits span ↔ span ∈ st.earlySpans n ∨ span ∈ ss.flatMap (Stmt.earlySpans n) := by
      rw [hs.waits span (signedSpans_append _ _ ▸ hspan), List.flatMap_cons, List.mem_append]
    have hnodup := hs.nodup
    have hdeclares := hs.declares
    rw [signedSpans_append, List.nodup_append'] at hnodup
    rw [declares_append, List.append_subset] at hdeclares
    obtain ⟨hnodup, hnodup', hdisjoint⟩ := hnodup
    have hfirst : Waiting D (st.placed []) (st.earlySpans n) s := by
      refine ⟨hs.atTop, hs.knows, hdeclares.1, hnodup, fun span hspan => ?_⟩
      have hnot : span ∉ ss.flatMap (Stmt.earlySpans n) := fun hlater =>
        hdisjoint hspan (earlySpans_subset_stmts n ss [] hlater)
      rw [hmem span (List.mem_append_left _ hspan), or_iff_left hnot]
    obtain ⟨late, ht, hlate, hw⟩ := tells_top hfirst
    have hrest : Waiting D rest (ss.flatMap (Stmt.earlySpans n)) ((stmt st).after s) := by
      refine ⟨(Scopes.atGlobal_of_kinds ht.kinds).trans hs.atTop, ht.knows hs.knows, hdeclares.2,
        hnodup', fun span hspan => ?_⟩
      have hnot : span ∉ signedSpans (st.placed []) := fun hearlier => hdisjoint hearlier hspan
      rw [hw, and_iff_left (mt (signedSpans_subset_placed st [] ·) hnot),
        hmem span (List.mem_append_right _ hspan),
        or_iff_right (mt (earlySpans_subset_placed n st [] ·) hnot)]
    obtain ⟨late', ht', hlate'⟩ := ih hrest
    rw [Check.stmts]
    refine ⟨late + late', ht.trans ht', ?_⟩
    rw [List.flatMap_cons, mentions_append, ← Multiset.coe_add, ← Multiset.coe_add,
      add_add_add_comm, hlate, hlate']

end Check

end CarvFront
