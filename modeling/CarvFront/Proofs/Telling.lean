import Mathlib.Data.List.Flatten
import CarvFront.Proofs.DeclarationOrder
import CarvFront.Proofs.Marks
import CarvFront.Proofs.Tally

/-! What is told about the names in annotations. A name is looked up once: where its annotation is
come to, or before that, if it belongs to a declaration that was read ahead. The types that were
kept for such declarations say which it was. -/
namespace CarvFront

/-! ### Names that are told -/

/-- Whether a cause is about the name of a type. -/
def Cause.isUnknownType : Cause → Bool
  | .unknownType _ => true
  | _ => false

/-- The name that a finding says no type has. -/
def Finding.unknown? (f : Finding) : Option Ident :=
  match f.cause with
  | .unknownType name => some ⟨name, f.span⟩
  | _ => none

namespace State
variable {τ : Type}

/-- The names that were told to be those of no type. -/
def unknown (s : State τ) : Multiset Ident :=
  ↑(s.findings.filterMap Finding.unknown?)

/-- Whether the type of a declaration is kept until it is come to. -/
def waits (s : State τ) (span : Span) : Bool :=
  (s.signature? span).isSome

/-- All types have names of `D`. -/
def KnowsOnly (D : List String) (s : State τ) : Prop :=
  ∀ name, (s.known name).isSome → name ∈ D

end State

/-- Of some names, all but those of `D` were told, and none more often than it is there. -/
structure Told (D : List String) (names told : Multiset Ident) : Prop where
  all : names.filter (fun n => n.name ∉ D) ≤ told
  only : told ≤ names

namespace Told
variable {D : List String} {names names' told told' : Multiset Ident}

theorem zero : Told D 0 0 :=
  ⟨le_rfl, le_rfl⟩

theorem add (h : Told D names told) (h' : Told D names' told') :
    Told D (names + names') (told + told') where
  all := by
    rw [Multiset.filter_add]
    exact add_le_add h.all h'.all
  only := add_le_add h.only h'.only

end Told

theorem filterMap_unknownTypes (known : String → Option Ty) (names : List Ident) :
    (unknownTypes known names).filterMap Finding.unknown? =
      names.filter fun n => (known n.name).isNone := by
  have hname (n : Ident) : Finding.unknown? ⟨.unknownType n.name, n.span⟩ = some n := rfl
  simp [unknownTypes, List.filterMap_map, hname]

/-- Looking names up tells those that are not known. -/
theorem told_filter {D : List String} {known : String → Option Ty}
    (h : ∀ name, (known name).isSome → name ∈ D) (names : List Ident) :
    Told D ↑names ↑(names.filter fun n => (known n.name).isNone) where
  all := by
    rw [Multiset.filter_coe, Multiset.coe_le]
    refine (List.monotone_filter_right names fun n hn => ?_).subperm
    have hunknown : ¬ (known n.name).isSome := fun hsome => of_decide_eq_true hn (h _ hsome)
    simpa using hunknown
  only := Multiset.coe_le.mpr List.filter_sublist.subperm

theorem Scopes.atGlobal_of_kinds {s s' : Scopes} (h : s'.kinds = s.kinds) :
    s'.atGlobal = s.atGlobal := by
  have houter : s'.outer.map Scope.kind = s.outer.map Scope.kind := (List.cons.inj h).2
  rw [atGlobal, atGlobal, ← List.isEmpty_map (f := Scope.kind), houter, List.isEmpty_map]

/-- From one state to another the names are told, in code that leaves the scopes as they are. -/
structure State.Tells {τ : Type} (D : List String) (names : Multiset Ident) (s s' : State τ) :
    Prop where
  kinds : s'.scopes.kinds = s.scopes.kinds
  knows : s.KnowsOnly D → s'.KnowsOnly D
  told : ∃ told, Told D names told ∧ s'.unknown = told + s.unknown

namespace State.Tells
variable {τ : Type} {D : List String} {names names' : Multiset Ident} {s s' s'' : State τ}

theorem trans (h : s.Tells D names s') (h' : s'.Tells D names' s'') :
    s.Tells D (names + names') s'' := by
  obtain ⟨told, htold, hs⟩ := h.told
  obtain ⟨told', htold', hs'⟩ := h'.told
  refine ⟨h'.kinds.trans h.kinds, h'.knows ∘ h.knows, told + told', htold.add htold', ?_⟩
  rw [hs', hs, ← add_assoc, add_comm told']

/-- A step that tells nothing. -/
theorem of_same (hkinds : s'.scopes.kinds = s.scopes.kinds) (hknown : s'.known = s.known)
    (hunknown : s'.unknown = s.unknown) : s.Tells D 0 s' :=
  ⟨hkinds, fun hs name hname => hs name (hknown ▸ hname), 0, .zero, by rw [hunknown, zero_add]⟩

end State.Tells

/-! ### Declarations in a tree -/

/-- The names of the types that a node declares. -/
@[simp] def Node.declares : Node → List String
  | .expr _ => []
  | .stmt s => s.classNames ++ s.interfaceNames

/-- The names of all types that are declared. -/
def declares (os : List Occurrence) : List String :=
  os.flatMap (·.node.declares)

theorem mentions_append (os os' : List Occurrence) :
    mentions (os ++ os') = mentions os ++ mentions os' :=
  List.flatMap_append

theorem signedSpans_append (os os' : List Occurrence) :
    signedSpans (os ++ os') = signedSpans os ++ signedSpans os' :=
  List.flatMap_append

theorem declares_append (os os' : List Occurrence) :
    declares (os ++ os') = declares os ++ declares os' :=
  List.flatMap_append

/-- Occurrences that mention and declare the same. -/
structure SameMentions (os os' : List Occurrence) : Prop where
  mentions : mentions os' = mentions os
  signed : signedSpans os' = signedSpans os
  declares : declares os' = declares os

namespace SameMentions
variable {a : List Enclosure}

/-- A node that neither mentions nor declares anything. -/
theorem cons {n : Node} (hm : n.mentions = []) (hs : n.signedSpans = []) (hd : n.declares = [])
    (os : List Occurrence) : SameMentions os (⟨n, a⟩ :: os) := by
  constructor
  · exact congrArg (· ++ CarvFront.mentions os) hm
  · exact congrArg (· ++ signedSpans os) hs
  · exact congrArg (· ++ CarvFront.declares os) hd

theorem trans {os os' os'' : List Occurrence} (h : SameMentions os os')
    (h' : SameMentions os' os'') : SameMentions os os'' :=
  ⟨h'.mentions.trans h.mentions, h'.signed.trans h.signed, h'.declares.trans h.declares⟩

theorem expr {e : Expr} (he : e.isCommon = true) (os : List Occurrence) :
    SameMentions os (⟨.expr e, a⟩ :: os) := by
  refine cons ?_ rfl rfl os
  cases e with
  | lambda => cases he
  | _ => rfl

theorem exprs {es : List Expr} (hes : ∀ e ∈ es, e.isCommon = true) (os : List Occurrence) :
    SameMentions os (es.map (⟨.expr ·, a⟩) ++ os) := by
  induction es with
  | nil => exact ⟨rfl, rfl, rfl⟩
  | cons e es ih =>
    obtain ⟨he, hes⟩ := List.forall_mem_cons.mp hes
    exact (ih hes).trans (expr he _)

theorem stmt {s : Stmt} (hs : s.isCommon = true) (os : List Occurrence) :
    SameMentions os (⟨.stmt s, a⟩ :: os) := by
  cases s with
  | bind | brk | cont | fn | classDecl | interfaceDecl | implDecl => cases hs
  | _ => exact cons rfl rfl rfl os

end SameMentions

namespace Check
variable {D : List String} {top : Bool} {a : List Enclosure} {os os' : List Occurrence}
variable {s : State Custody}

/-- The code `os` is ahead of a state: that knows only names of `D`, and keeps no type of what is
declared in the code. -/
structure Ahead (D : List String) (top : Bool) (os : List Occurrence) (s : State Custody) :
    Prop where
  inside : top = false → s.scopes.atGlobal = false
  knows : s.KnowsOnly D
  declares : declares os ⊆ D
  nodup : (signedSpans os).Nodup
  fresh : ∀ span ∈ signedSpans os, s.waits span = false

namespace Ahead
variable {s s' : State Custody} {names : Multiset Ident}

theorem of_same (h : Ahead D top os' s) (hsame : SameMentions os os') : Ahead D top os s :=
  ⟨h.inside, h.knows, hsame.declares ▸ h.declares, hsame.signed ▸ h.nodup,
    hsame.signed ▸ h.fresh⟩

theorem perm (h : Ahead D top os' s) (hp : os.Perm os') : Ahead D top os s := by
  have hspans : (signedSpans os).Perm (signedSpans os') := hp.flatMap_right _
  have hdeclares : (CarvFront.declares os).Perm (CarvFront.declares os') := hp.flatMap_right _
  exact ⟨h.inside, h.knows, fun name hname => h.declares (hdeclares.mem_iff.mp hname),
    hspans.nodup_iff.mpr h.nodup, fun span hspan => h.fresh span (hspans.mem_iff.mp hspan)⟩

theorem sublist (h : Ahead D top os' s) (hsub : os.Sublist os') : Ahead D top os s := by
  have hspans : (signedSpans os).Sublist (signedSpans os') := hsub.flatMap _
  have hdeclares : (CarvFront.declares os).Sublist (CarvFront.declares os') := hsub.flatMap _
  exact ⟨h.inside, h.knows, fun name hname => h.declares (hdeclares.mem hname),
    h.nodup.sublist hspans, fun span hspan => h.fresh span (hspans.mem hspan)⟩

/-- What has been told does not matter to the code ahead, if the types kept for it are the same. -/
theorem after (h : Ahead D top os s) (ht : s.Tells D names s')
    (hw : ∀ span ∈ signedSpans os, s'.waits span = s.waits span) : Ahead D top os s' where
  inside htop := (Scopes.atGlobal_of_kinds ht.kinds).trans (h.inside htop)
  knows := ht.knows h.knows
  declares := h.declares
  nodup := h.nodup
  fresh span hspan := (hw span hspan).trans (h.fresh span hspan)

end Ahead

/-- A step tells the names that some code mentions, and keeps no type from there on. -/
def Account (D : List String) (top : Bool) (_ : List Enclosure) ⦃α : Type⦄ (m : Check Custody α)
    (os : List Occurrence) : Prop :=
  ∀ s : State Custody, Ahead D top os s →
    s.Tells D ↑(mentions os) (m.after s) ∧ (m.after s).waits = s.waits

namespace Account
variable {α β : Type} {m : Check Custody α}

theorem of_same (h : Account D top a m os) (hsame : SameMentions os os') :
    Account D top a m os' := by
  intro s hs
  rw [hsame.mentions]
  exact h s (hs.of_same hsame)

theorem perm (h : Account D top a m os) (hp : os.Perm os') : Account D top a m os' := by
  intro s hs
  have hmentions : (mentions os).Perm (mentions os') := hp.flatMap_right _
  rw [← Multiset.coe_eq_coe.mpr hmentions]
  exact h s (hs.perm hp)

theorem seq {k : α → Check Custody β} (hm : Account D top a m os)
    (hk : ∀ x, Account D top a (k x) os') : Account D top a (m >>= k) (os ++ os') := by
  intro s hs
  obtain ⟨ht, hw⟩ := hm s (hs.sublist (List.sublist_append_left _ _))
  have hs' : Ahead D top os' (m.after s) :=
    (hs.sublist (List.sublist_append_right _ _)).after ht fun span _ => congrFun hw span
  obtain ⟨ht', hw'⟩ := hk (m.run s).1 _ hs'
  rw [mentions_append, ← Multiset.coe_add]
  exact ⟨ht.trans ht', hw'.trans hw⟩

/-- A step that declares nothing and tells of no unknown type. -/
theorem of_reports (hreports : Reports (fun c => !c.isUnknownType) m)
    (hdeclared : Undeclaring m m) : Account D top a m [] := by
  intro s _
  obtain ⟨hkinds, -, fs, hfs, heq⟩ := hreports s
  have hnone : fs.filterMap Finding.unknown? = [] := by
    refine List.filterMap_eq_nil_iff.mpr fun f hf => ?_
    have hcause := hfs f hf
    unfold Finding.unknown?
    split
    · next name hname =>
      rw [hname] at hcause
      cases hcause
    · rfl
  have hclasses := congrArg Declared.classes (hdeclared s)
  have hinterfaces := congrArg Declared.interfaces (hdeclared s)
  have hsignatures := congrArg Declared.signatures (hdeclared s)
  dsimp only [State.declared] at hclasses hinterfaces hsignatures
  refine ⟨.of_same hkinds ?_ ?_, ?_⟩
  · unfold State.known
    rw [hclasses, hinterfaces]
  · rw [State.unknown, heq, List.filterMap_append, hnone]
    rfl
  · unfold State.waits State.signature?
    rw [hsignatures]

theorem quiet (h : Quiet m) : Account D top a m [] := by
  refine of_reports (h.reports.mono fun c hc => ?_) h.declared
  cases c with
  | unknownType name => cases hc
  | _ => rfl

theorem recorded {m : Check Custody Ty} (hm : Account D top a m os) (span : Span) :
    Account D top a (recorded span m) os := by
  intro s hs
  obtain ⟨ht, hw⟩ := hm s hs
  exact ⟨⟨ht.kinds, ht.knows, ht.told⟩, hw⟩

/-- A node that looks up names before the code inside it is come to. -/
theorem looks {names : List Ident} {k : α → Check Custody β}
    (hm : ∀ s, s.KnowsOnly D → s.Tells D ↑names (m.after s) ∧ (m.after s).waits = s.waits)
    (hk : ∀ x, Account D top a (k x) os) (hmentions : mentions os' = names ++ mentions os)
    (hsub : os.Sublist os') : Account D top a (m >>= k) os' := by
  intro s hs
  obtain ⟨ht, hw⟩ := hm s hs.knows
  obtain ⟨ht', hw'⟩ := hk (m.run s).1 _ ((hs.sublist hsub).after ht fun span _ => congrFun hw span)
  rw [hmentions, ← Multiset.coe_add]
  exact ⟨ht.trans ht', hw'.trans hw⟩

end Account

theorem tells_unknownTypes (hs : s.KnowsOnly D) (names : List Ident) :
    s.Tells D ↑names ((report (unknownTypes s.known names)).after s) where
  kinds := rfl
  knows := id
  told := by
    refine ⟨_, told_filter hs names, ?_⟩
    have hfindings : ((report (unknownTypes s.known names)).after s).findings =
        (unknownTypes s.known names).reverse ++ s.findings := rfl
    rw [State.unknown, hfindings, List.filterMap_append, ← Multiset.coe_add,
      List.filterMap_reverse, Multiset.coe_reverse, filterMap_unknownTypes]
    rfl

theorem tells_resolve (t : TypeExpr) (s : State Custody) (hs : s.KnowsOnly D) :
    s.Tells D ↑t.names ((resolve t).after s) ∧ ((resolve t).after s).waits = s.waits :=
  ⟨tells_unknownTypes hs t.names, rfl⟩

theorem tells_signature (sig : Signature) (s : State Custody) (hs : s.KnowsOnly D) :
    s.Tells D ↑sig.names ((signature sig).after s) ∧ ((signature sig).after s).waits = s.waits :=
  ⟨tells_unknownTypes hs sig.names, rfl⟩

theorem allows_known : Allows fun c => !c.isUnknownType := by
  intro c hc
  cases c with
  | unknownType name => cases hc
  | _ => rfl

theorem account_await (ty : Ty) (operand span : Span) :
    Account D top a (await ty operand span) [] :=
  .of_reports (reports_await allows_known rfl ty operand span)
    (undeclaring_core.await ty operand span)

theorem account_jump (word : Keyword) (span : Span) : Account D top a (jump word span) [] :=
  .of_reports (reports_jump rfl span) (undeclaring_core.jump word span)

theorem account_tally (D : List String) : Tally (Account D) where
  perm := Account.perm
  seq := Account.seq
  get hk s := hk s s
  quiet := Account.quiet
  inFrame {_ _ kind _} _ _ _ hm s hs := by
    have hs' := { hs with inside := fun _ => rfl : Ahead D false _ (s.enterFrame kind) }
    obtain ⟨ht, hw⟩ := hm _ hs'
    exact ⟨⟨Scopes.kinds_pop ht.kinds, ht.knows, ht.told⟩, hw⟩
  inBlock hm s hs := by
    have hs' := { hs with inside := fun _ => rfl : Ahead D false _ s.enterBlock }
    obtain ⟨ht, hw⟩ := hm _ hs'
    exact ⟨⟨Scopes.kinds_pop ht.kinds, ht.knows, ht.told⟩, hw⟩
  returning expected _ _ hm s hs := by
    obtain ⟨ht, hw⟩ := hm { s with returns := expected :: s.returns } { hs with }
    exact ⟨⟨ht.kinds, ht.knows, ht.told⟩, hw⟩
  exprNode e he _ _ hm := by
    have hpassed : ∀ t ∈ e.passedOver, t.isCommon = true :=
      fun t ht => (Expr.common_of_passedOver ht).1
    exact ((hm.recorded e.span).of_same (.exprs hpassed _)).of_same (.expr he _)
  awaitNode span e m os hm := by
    have hboth := hm.seq fun ty => account_await ty e.span span
    rw [List.append_nil] at hboth
    exact (hboth.recorded span).of_same (.cons rfl rfl rfl _)
  lambdaNode span sig b k os hk :=
    (Account.looks (tells_signature sig) hk rfl (List.sublist_cons_self _ _)).recorded span
  stmtNode _ hs _ _ hm := hm.of_same (.stmt hs _)
  binding {_ _} span mutable name type e value := by
    cases type with
    | none => exact (Account.quiet (quiet_pure value)).of_same (.cons rfl rfl rfl _)
    | some t =>
      refine Account.looks (tells_resolve t) (fun declared => .quiet ?_) rfl
        (List.nil_sublist _)
      exact .seq (quiet_plain.demandAssignable _ _ rfl _)
        fun _ => quiet_pure declared
  brk span := (account_jump .breakKw span).of_same (.cons rfl rfl rfl _)
  cont span := (account_jump .continueKw span).of_same (.cons rfl rfl rfl _)

/-! ### Functions and methods that are come to -/

/-- The signature of a function or method is looked up unless its type was kept, and from then on it
is not. -/
theorem tells_declaredSignature (span : Span) (sig : Signature) (hs : s.KnowsOnly D) :
    s.Tells D ↑(if s.waits span then [] else sig.names) ((declaredSignature span sig).after s) ∧
      ∀ other, ((declaredSignature span sig).after s).waits other ↔
        s.waits other ∧ other ≠ span := by
  cases hspan : s.signature? span with
  | some f =>
    have hafter : (declaredSignature span sig).after s = s.dropSignature span := by
      rw [after, run_declaredSignature_some hspan]
    have hwaits : s.waits span = true := by rw [State.waits, hspan]; rfl
    rw [hafter, hwaits]
    refine ⟨.of_same rfl rfl rfl, fun other => ?_⟩
    rw [State.waits, State.waits, s.signature?_dropSignature]
    by_cases hother : span = other
    · simp [hother]
    · simp [hother, Ne.symm hother]
  | none =>
    have hafter : (declaredSignature span sig).after s = (signature sig).after s := by
      rw [after, run_declaredSignature_none hspan]
      rfl
    have hwaits : s.waits span = false := by rw [State.waits, hspan]; rfl
    obtain ⟨ht, hw⟩ := tells_signature sig s hs
    rw [hafter, hwaits]
    refine ⟨ht, fun other => ?_⟩
    rw [hw]
    by_cases hother : other = span
    · simp [hother, hwaits]
    · simp [hother]

theorem tells_come {α : Type} {k : FnTy → Check Custody α} (hk : ∀ f, Account D top a (k f) os)
    (hs : Ahead D top os s) {span : Span} (hspan : span ∉ signedSpans os) (sig : Signature) :
    s.Tells D (↑(if s.waits span then [] else sig.names) + ↑(mentions os))
        ((declaredSignature span sig >>= k).after s) ∧
      ∀ other, ((declaredSignature span sig >>= k).after s).waits other ↔
        s.waits other ∧ other ≠ span := by
  obtain ⟨ht, hw⟩ := tells_declaredSignature span sig hs.knows
  have hs' : Ahead D top os ((declaredSignature span sig).after s) := by
    refine hs.after ht fun other hother => ?_
    have hne : other ≠ span := fun heq => hspan (heq ▸ hother)
    exact Bool.eq_iff_iff.mpr ((hw other).trans (and_iff_left hne))
  obtain ⟨ht', hw'⟩ := hk _ _ hs'
  exact ⟨ht.trans ht', fun other => (Bool.eq_iff_iff.mp (congrFun hw' other)).trans (hw other)⟩

/-- The methods of a declaration, whose types were all kept or none of them. -/
theorem tells_methods (owner : Ty) {ms : List Method} (hms : Bodies (Account D) a ms)
    (hs : Ahead D top (placedMethods a ms) s)
    (hspans : (ms.map (·.span) ++ signedSpans (placedMethods a ms)).Nodup) {waits : Bool}
    (hwaits : ∀ m ∈ ms, s.waits m.span = waits) :
    s.Tells D (↑(if waits then [] else ms.flatMap (·.sig.names)) + ↑(mentions (placedMethods a ms)))
        ((methods owner ms).after s) ∧
      ∀ other, ((methods owner ms).after s).waits other ↔
        s.waits other ∧ other ∉ ms.map (·.span) := by
  induction ms generalizing s with
  | nil =>
    have hafter : (methods owner []).after s = s := by
      rw [Check.methods]
      rfl
    have hnil : (if waits then [] else ([] : List Method).flatMap (·.sig.names)) = [] := ite_self _
    rw [hafter, hnil]
    exact ⟨.of_same rfl rfl rfl, fun other => by simp⟩
  | cons m ms ih =>
    obtain ⟨name, receiver, sig, b, span⟩ := m
    obtain ⟨hb, hms⟩ := List.forall_mem_cons.mp hms
    obtain ⟨hwait, hwaits⟩ := List.forall_mem_cons.mp hwaits
    let os := b.placed (.function sig.async :: a)
    let rest := placedMethods a ms
    let come : Check Custody Unit := declaredSignature span sig >>= fun f =>
      function sig f (receiver.self? owner) (body b)
    have hplaced : placedMethods a (⟨name, receiver, sig, b, span⟩ :: ms) = os ++ rest := by
      rw [placedMethods]
    have hafter : (methods owner (⟨name, receiver, sig, b, span⟩ :: ms)).after s =
        (methods owner ms).after (come.after s) := by
      rw [Check.methods]
      rfl
    rw [hplaced] at hs hspans ⊢
    rw [signedSpans_append, List.map_cons, List.cons_append, List.nodup_cons] at hspans
    have hne : ∀ other ∈ ms.map (·.span) ++ (signedSpans os ++ signedSpans rest), other ≠ span :=
      fun other hother heq => hspans.1 (heq ▸ hother)
    have hbody (f : FnTy) : Account D top a (function sig f (receiver.self? owner) (body b)) os :=
      (account_tally D).function sig f _ hb
    have hspan : span ∉ signedSpans os := fun hmem =>
      hne span (List.mem_append_right _ (List.mem_append_left _ hmem)) rfl
    obtain ⟨ht, hw⟩ := tells_come hbody (hs.sublist (List.sublist_append_left _ _)) hspan sig
    have hsame : ∀ other ∈ ms.map (·.span) ++ signedSpans rest,
        (come.after s).waits other = s.waits other := by
      intro other hother
      have hother' : other ≠ span := by
        apply hne
        rw [List.mem_append] at hother ⊢
        exact hother.imp_right (List.mem_append_right _)
      exact Bool.eq_iff_iff.mpr ((hw other).trans (and_iff_left hother'))
    have hs' : Ahead D top rest (come.after s) :=
      (hs.sublist (List.sublist_append_right _ _)).after ht fun other hother =>
        hsame other (List.mem_append_right _ hother)
    have hspans' : (ms.map (·.span) ++ signedSpans rest).Nodup :=
      hspans.2.sublist ((List.sublist_append_right _ _).append_left _)
    obtain ⟨ht', hw'⟩ := ih hms hs' hspans' fun m hm =>
      (hsame m.span (List.mem_append_left _ (List.mem_map_of_mem hm))).trans (hwaits m hm)
    rw [hafter]
    constructor
    · have hboth := ht.trans ht'
      rw [hwait, add_add_add_comm] at hboth
      cases waits with
      | true => simpa [mentions_append] using hboth
      | false => simpa [mentions_append] using hboth
    · intro other
      rw [hw', hw, List.map_cons, List.mem_cons, not_or, and_assoc]

end Check
end CarvFront
