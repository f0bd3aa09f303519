import Mathlib.Data.List.Nodup
import CarvFront.Proofs.Declarations

/-! The order of the declarations of a program does not matter. Names are reserved first, then types
are declared, then functions, and only then is code looked at, by which time all is known; and no step
of these depends on the ones beside it. -/
namespace CarvFront

namespace Stmt

def functionNames : Stmt → List String
  | .fn _ name _ _ => [name.name]
  | _ => []

def classNames : Stmt → List String
  | .classDecl _ name _ _ => [name.name]
  | _ => []

def interfaceNames : Stmt → List String
  | .interfaceDecl _ name _ => [name.name]
  | _ => []

/-- The names of the methods that a statement gives to a class. -/
def methodsOf (cls : String) : Stmt → List String
  | .classDecl _ name _ ms => if name.name = cls then ms.map (·.name.name) else []
  | .implDecl _ _ target ms => if target.name = cls then ms.map (·.name.name) else []
  | _ => []

/-- Statements that declare different things. -/
structure Apart (isClass : String → Bool) (a b : Stmt) : Prop where
  spans : a.spans.Disjoint b.spans
  functions : a.functionNames.Disjoint b.functionNames
  classes : a.classNames.Disjoint b.classNames
  interfaces : a.interfaceNames.Disjoint b.interfaceNames
  methods : ∀ cls, isClass cls → (a.methodsOf cls).Disjoint (b.methodsOf cls)

/-- The types that a statement declares are among those with a name. -/
structure NamedIn (n : TypeNames) (st : Stmt) : Prop where
  classes : ∀ name ∈ st.classNames, n.isClass name
  interfaces : ∀ name ∈ st.interfaceNames, n.isInterface name

variable {isClass : String → Bool} {a b : Stmt}

theorem ne_of_disjoint {α : Type} {x y : α} (h : List.Disjoint [x] [y]) : x ≠ y := by
  rintro rfl
  exact h List.mem_cons_self List.mem_cons_self

theorem Apart.symm (h : a.Apart isClass b) : b.Apart isClass a :=
  ⟨List.disjoint_symm h.spans, List.disjoint_symm h.functions, List.disjoint_symm h.classes,
    List.disjoint_symm h.interfaces, fun cls hcls => List.disjoint_symm (h.methods cls hcls)⟩

theorem signed_subset_spans (st : Stmt) : st.signed.map Prod.fst ⊆ st.spans := by
  intro span hspan
  obtain ⟨d, hd, rfl⟩ := List.mem_map.mp hspan
  exact Check.signed_mem_spans List.mem_cons_self hd

theorem Apart.signed (h : a.Apart isClass b) :
    (a.signed.map Prod.fst).Disjoint (b.signed.map Prod.fst) :=
  List.disjoint_of_subset_left a.signed_subset_spans
    (List.disjoint_of_subset_right b.signed_subset_spans h.spans)

/-! ### Effects of statements that are apart -/

theorem Apart.kept (h : a.Apart isClass b) (known : String → Option Ty) {ms ms' : List Method}
    (ha : a.signed = ms.map fun m => (m.span, m.sig))
    (hb : b.signed = ms'.map fun m => (m.span, m.sig)) :
    ((methodsEffect known ms).kept.map Prod.fst).Disjoint
      ((methodsEffect known ms').kept.map Prod.fst) := by
  have hkept (ms : List Method) : (methodsEffect known ms).kept.map Prod.fst =
      (ms.map fun m => (m.span, m.sig)).map Prod.fst := by
    rw [methodsEffect, List.map_map, List.map_map]
    rfl
  rw [hkept, hkept, ← ha, ← hb]
  exact h.signed

theorem names_methodEntries (known : String → Option Ty) (ms : List Method) :
    (methodEntries known ms).map Prod.fst = ms.map (·.name.name) := by
  rw [methodEntries, List.map_map]
  rfl

theorem apart_reserving (a b : Stmt) : a.reserving.Apart b.reserving := by
  have hnil : ([] : List Span).Disjoint [] := List.disjoint_nil_left _
  cases a with
  | classDecl span name fields ms =>
    cases b with
    | classDecl span' name' fields' ms' =>
      exact ⟨hnil, fun t => t.reserve_comm name'.name name.name _, fun _ => rfl⟩
    | interfaceDecl span' name' heads' => exact ⟨hnil, fun _ => rfl, fun _ => rfl⟩
    | _ => exact Effect.apart_none_right _
  | interfaceDecl span name heads =>
    cases b with
    | interfaceDecl span' name' heads' =>
      exact ⟨hnil, fun _ => rfl, fun t => t.reserve_comm name'.name name.name _⟩
    | classDecl span' name' fields' ms' => exact ⟨hnil, fun _ => rfl, fun _ => rfl⟩
    | _ => exact Effect.apart_none_right _
  | _ => exact Effect.apart_none_left _

theorem Apart.declaringInterface (h : a.Apart isClass b) (n : TypeNames) :
    (a.declaringInterface n).Apart (b.declaringInterface n) := by
  cases a with
  | interfaceDecl span name heads =>
    cases b with
    | interfaceDecl span' name' heads' =>
      have hne : name.name ≠ name'.name := ne_of_disjoint h.interfaces
      exact ⟨List.disjoint_nil_left _, fun _ => rfl, fun t => t.insert_comm hne.symm _ _⟩
    | _ => exact Effect.apart_none_right _
  | _ => exact Effect.apart_none_left _

theorem Apart.declaringClass (h : a.Apart isClass b) (n : TypeNames) :
    (a.declaringClass n).Apart (b.declaringClass n) := by
  cases a with
  | classDecl span name fields ms =>
    cases b with
    | classDecl span' name' fields' ms' =>
      have hne : name.name ≠ name'.name := ne_of_disjoint h.classes
      exact ⟨h.kept _ rfl rfl, fun t => t.insert_comm hne.symm _ _, fun _ => rfl⟩
    | _ => exact Effect.apart_none_right _
  | _ => exact Effect.apart_none_left _

theorem Apart.declaringImpl {n : TypeNames} (h : a.Apart n.isClass b) :
    (a.declaringImpl n).Apart (b.declaringImpl n) := by
  cases a with
  | implDecl span interface target ms =>
    cases b with
    | implDecl span' interface' target' ms' =>
      rw [Stmt.declaringImpl, Stmt.declaringImpl]
      by_cases hcls : n.isClass target.name
      · by_cases hcls' : n.isClass target'.name
        · rw [if_pos hcls, if_pos hcls']
          refine ⟨h.kept _ rfl rfl, fun t => t.adjust_comm fun heq c => ?_, fun _ => rfl⟩
          -- Two implementations for one class give it methods with different names.
          have hmethods := h.methods target.name hcls
          rw [methodsOf, methodsOf, if_pos rfl, if_pos heq] at hmethods
          congr 1
          apply Table.insertAll_comm
          rw [names_methodEntries, names_methodEntries]
          exact hmethods
        · rw [if_neg hcls']
          exact Effect.apart_none_right _
      · rw [if_neg hcls]
        exact Effect.apart_none_left _
    | _ => exact Effect.apart_none_right _
  | _ => exact Effect.apart_none_left _

end Stmt

/-! ### Declaring in any order -/

/-- While declarations are read, the types with a name are those that were reserved, and no code was
come to. -/
structure State.Declaring (n : TypeNames) (s : State Custody) : Prop where
  names : s.typeNames = n
  tracking : s.tracking = .empty
  atTop : s.scopes.atGlobal

namespace State
variable {n : TypeNames} {s s' : State Custody}

theorem Declaring.similar (h : s.Declaring n) (hs : s.Similar s') : s'.Declaring n where
  names := by
    rw [← h.names, typeNames, typeNames, hs.akin.classes, hs.akin.interfaces]
  tracking := hs.tracking.symm.trans h.tracking
  atTop := hs.akin.scopes ▸ h.atTop

theorem Declaring.apply (h : s.Declaring n) {e : Effect}
    (he : (e.apply s).typeNames = s.typeNames) : (e.apply s).Declaring n :=
  ⟨he.trans h.names, h.tracking, h.atTop⟩

theorem Declaring.bind (h : s.Declaring n) (name : String) (f : FnTy) :
    (s.bind name f.toTy).Declaring n where
  names := h.names
  tracking := congrArg (Tracking.bind name f.toTy) h.tracking
  atTop := h.atTop

theorem atGlobal_start : (start : State Custody).scopes.atGlobal := by
  have houter {g : Scopes → String × FnTy → Scopes} (hg : ∀ s e, (g s e).outer = s.outer)
      (es : List (String × FnTy)) (s : Scopes) : (es.foldl g s).outer = s.outer := by
    induction es generalizing s with
    | nil => rfl
    | cons e es ih => exact (ih (g s e)).trans (hg s e)
  rw [start, Scopes.atGlobal, houter]
  · rfl
  · intro s e
    rfl

theorem similar_bind_comm (h : s.Declaring n) {name other : String} (hne : name ≠ other)
    (f g : FnTy) : ((s.bind name f.toTy).bind other g.toTy).Similar
      ((s.bind other g.toTy).bind name f.toTy) where
  akin :=
    { Akin.refl s with
      scopes := congrArg (fun names => { s.scopes with inner := { s.scopes.inner with names } })
        (s.scopes.inner.names.insert_comm hne f.toTy g.toTy)
      replaced := fun third => by
        have hg : s.scopes.outer.isEmpty = true := h.atTop
        simp only [State.bind, Scopes.atGlobal, Scopes.define, hg, Bool.true_and]
        split <;> split <;> simp only [List.contains_cons, Bool.or_left_comm] }
  tracking := ((h.bind name f).bind other g).tracking.trans ((h.bind other g).bind name f).tracking.symm
  waiting _ := rfl
  findings := .refl _

theorem typeNames_declaringInterface {st : Stmt} (hst : st.NamedIn s.typeNames) (n : TypeNames) :
    ((st.declaringInterface n).apply s).typeNames = s.typeNames := by
  cases st with
  | interfaceDecl span name heads =>
    have hname : s.interfaces.contains name.name := hst.interfaces _ List.mem_cons_self
    exact congrArg (TypeNames.mk s.classes.contains) (Table.contains_insert_self hname _)
  | _ => rfl

theorem typeNames_declaringClass {st : Stmt} (hst : st.NamedIn s.typeNames) (n : TypeNames) :
    ((st.declaringClass n).apply s).typeNames = s.typeNames := by
  cases st with
  | classDecl span name fields ms =>
    have hname : s.classes.contains name.name := hst.classes _ List.mem_cons_self
    exact congrArg (TypeNames.mk · s.interfaces.contains) (Table.contains_insert_self hname _)
  | _ => rfl

theorem typeNames_declaringImpl (st : Stmt) (n : TypeNames) :
    ((st.declaringImpl n).apply s).typeNames = s.typeNames := by
  cases st with
  | implDecl span interface target ms =>
    rw [Stmt.declaringImpl]
    split
    · exact congrArg (TypeNames.mk · s.interfaces.contains)
        (funext fun other => s.classes.contains_adjust target.name other _)
    · rfl
  | _ => rfl

end State

namespace Check
variable {n : TypeNames} {isClass : String → Bool}
variable {s : State Custody} {ss : List Stmt}

/-- A declaration can be read when the names of all types are known. -/
def Declares (n : TypeNames) (s : State Custody) (st : Stmt) : Prop :=
  s.Declaring n ∧ st.NamedIn n

theorem commuting_reserve :
    Commuting (Stmt.Apart isClass) (fun _ _ => True) fun st => modify (·.reserve st) :=
  commuting_of_effects Stmt.reserving Stmt.Apart.symm (fun _ _ => trivial)
    (fun _ => after_reserve _ _) (fun _ _ => trivial) fun _ => Stmt.apart_reserving _ _

/-- A pass over declarations of types, with the effect of each of them. -/
structure Pass (step : Stmt → Check Custody Unit) (effect : TypeNames → Stmt → Effect) : Prop where
  after (st : Stmt) (s : State Custody) : (step st).after s = (effect s.typeNames st).apply s
  names {st : Stmt} {s : State Custody} (hst : st.NamedIn s.typeNames) (n : TypeNames) :
    ((effect n st).apply s).typeNames = s.typeNames
  apart {n : TypeNames} {a b : Stmt} (hab : a.Apart n.isClass b) :
    (effect n a).Apart (effect n b)

namespace Pass
variable {step : Stmt → Check Custody Unit} {effect : TypeNames → Stmt → Effect}
variable {s : State Custody}

theorem declaring (h : Pass step effect) {st : Stmt} (hst : Declares n s st) :
    ((effect n st).apply s).Declaring n :=
  hst.1.apply (h.names (hst.1.names ▸ hst.2) n)

theorem commuting (h : Pass step effect) : Commuting (Stmt.Apart n.isClass) (Declares n) step := by
  apply commuting_of_effects (effect n) Stmt.Apart.symm
  · intro a s₁ s₂ ha hs
    exact ⟨ha.1.similar hs, ha.2⟩
  · intro a s ha
    rw [h.after, ha.1.names]
  · intro a b s ha hb
    exact ⟨h.declaring ha, hb.2⟩
  · exact h.apart

/-- A pass leaves the names of types as they are. -/
theorem declaring_forM (h : Pass step effect) {ss : List Stmt} (hnamed : ∀ st ∈ ss, st.NamedIn n)
    (hs : s.Declaring n) : ((ss.forM step).after s).Declaring n := by
  refine Keeps.forM (fun st hst s hs => ?_) s hs
  rw [h.after, hs.names]
  exact h.declaring ⟨hs, hnamed st hst⟩

/-- A pass makes the same known, whatever the order of the declarations. -/
theorem perm (h : Pass step effect) {ss ts : List Stmt} (hp : ss.Perm ts)
    (hss : ss.Pairwise (Stmt.Apart n.isClass)) (hnamed : ∀ st ∈ ss, st.NamedIn n)
    {s' : State Custody} (hs : s.Declaring n) (hsimilar : s.Similar s') :
    ((ss.forM step).after s).Declaring n ∧
      ((ss.forM step).after s).Similar ((ts.forM step).after s') := by
  constructor
  · exact h.declaring_forM hnamed hs
  · exact h.commuting.perm hp hss (fun st hst => ⟨hs, hnamed st hst⟩) hsimilar

end Pass

theorem interfacePass : Pass declareInterface Stmt.declaringInterface where
  after := after_declareInterface
  names := State.typeNames_declaringInterface
  apart hab := hab.declaringInterface _

theorem classPass : Pass declareClass Stmt.declaringClass where
  after := after_declareClass
  names := State.typeNames_declaringClass
  apart hab := hab.declaringClass _

theorem implPass : Pass declareImpl Stmt.declaringImpl where
  after := after_declareImpl
  names _ := State.typeNames_declaringImpl _
  apart hab := hab.declaringImpl

theorem declaring_hoist (h : s.Declaring n) (st : Stmt) : ((hoist st).after s).Declaring n := by
  cases st with
  | fn span name sig b =>
    rw [after_hoist h.names]
    exact (h.apply rfl).bind name.name _
  | _ => exact h

theorem commuting_hoist : Commuting (Stmt.Apart isClass) (fun s _ => s.Declaring n) hoist where
  symm := Stmt.Apart.symm
  congr {a s₁ s₂} h hs := by
    cases a with
    | fn span name sig b =>
      rw [after_hoist h.names, after_hoist (h.similar hs).names]
      exact (Effect.similar_apply hs _).bind name.name _
    | _ => exact hs
  keeps _ h _ := declaring_hoist h _
  swap {a b s} hab h _ := by
    cases a with
    | fn span name sig body =>
      cases b with
      | fn span' name' sig' body' =>
        have hne : name.name ≠ name'.name := Stmt.ne_of_disjoint hab.functions
        let e := (Stmt.fn span name sig body).hoisting n
        let e' := (Stmt.fn span' name' sig' body').hoisting n
        have hapart : e.Apart e' := ⟨hab.signed, fun _ => rfl, fun _ => rfl⟩
        have hcomm := ((Effect.similar_comm hapart s).bind name.name (sig.fnTy n.known).toTy).bind
          name'.name (sig'.fnTy n.known).toTy
        rw [after_hoist (declaring_hoist h _).names, after_hoist h.names,
          after_hoist (declaring_hoist h _).names, after_hoist h.names]
        -- Binding a name and the rest of what a function makes known touch different parts of a state.
        have hboth : (e.apply (e'.apply s)).Declaring n := (h.apply rfl).apply rfl
        exact hcomm.trans (State.similar_bind_comm hboth hne _ _)
      | _ => exact .refl _
    | _ => exact .refl _

/-! ### Functions that are known -/

theorem hoisted_hoist (h : s.Declaring n) (st : Stmt) : Hoisted ((hoist st).after s) st := by
  cases st with
  | fn span name sig b =>
    rw [after_hoist h.names]
    refine ⟨sig.fnTy n.known, ?_, ?_, fun hv => ?_⟩
    · change (s.keepSignature span (sig.fnTy n.known)).signature? span = _
      rw [s.signature?_keepSignature, if_pos rfl]
    · change (s.scopes.inner.names.insert _ _).find? _ = _
      rw [Table.find?_insert, if_pos rfl]
    · have hg : (((Stmt.fn span name sig b).hoisting n).apply s).scopes.atGlobal := h.atTop
      rw [State.bind, hg, hv]
      exact List.contains_iff_mem.mpr List.mem_cons_self
  | _ => trivial

/-- A function stays known when functions with other names become known. -/
theorem Hoisted.hoist {a b : Stmt} (ha : Hoisted s a) (h : s.Declaring n) (hab : a.Apart isClass b)
    :
    Hoisted ((hoist b).after s) a := by
  cases a with
  | fn span name sig body =>
    cases b with
    | fn span' name' sig' body' =>
      obtain ⟨f, hkept, hbound, hv⟩ := ha
      have hspan : span ≠ span' := Stmt.ne_of_disjoint hab.signed
      have hname : name.name ≠ name'.name := Stmt.ne_of_disjoint hab.functions
      rw [after_hoist h.names]
      refine ⟨f, ?_, ?_, fun hvariadic => ?_⟩
      · change (s.keepSignature span' (sig'.fnTy n.known)).signature? span = _
        rw [s.signature?_keepSignature, if_neg hspan.symm, hkept]
      · change (s.scopes.inner.names.insert _ _).find? _ = _
        rw [Table.find?_insert, if_neg hname.symm, hbound]
      · have hmem : name.name ∈ s.replaced := List.contains_iff_mem.mp (hv hvariadic)
        apply List.contains_iff_mem.mpr
        rw [State.bind]
        dsimp only
        split
        · exact List.mem_cons_of_mem _ hmem
        · exact hmem
    | _ => exact ha
  | _ => trivial

theorem hoisted_forM (hss : ss.Pairwise (Stmt.Apart isClass)) (h : s.Declaring n) (st : Stmt)
    (hst : st ∈ ss) : Hoisted ((ss.forM hoist).after s) st := by
  induction ss generalizing s with
  | nil => cases hst
  | cons a ss ih =>
    obtain ⟨hapart, hss⟩ := List.pairwise_cons.mp hss
    obtain rfl | hst := List.mem_cons.mp hst
    · have hkeeps : Keeps (fun s => s.Declaring n ∧ Hoisted s st) (ss.forM hoist) := by
        apply Keeps.forM
        intro b hb s hs
        exact ⟨declaring_hoist hs.1 b, hs.2.hoist hs.1 (hapart b hb)⟩
      exact (hkeeps _ ⟨declaring_hoist h st, hoisted_hoist h st⟩).2
    · exact ih hss (declaring_hoist h a) hst

/-! ### Coming to declarations in any order -/

/-- A declaration leaves everything as it was, as far as declarations with other spans go. -/
theorem Ready.leaves {a b : Stmt} (ha : Ready s a) (hab : a.spans.Disjoint b.spans) :
    ((stmt a).after s).Matches b.spans s := by
  obtain ⟨hakin, htracking⟩ := ha.akin
  obtain ⟨-, fs, hfinds, -⟩ := same_declaration ha.plain (.refl a.spans s) ha.atTop
  refine ⟨hakin, htracking.trans ha.tracking.symm, fun span hspan => ?_⟩
  apply hfinds.waiting
  intro hmem
  exact hab hmem hspan

theorem Hoisted.of_matches {s' : State Custody} {st : Stmt} (hst : Hoisted s st)
    (h : s'.Matches st.spans s) : Hoisted s' st := by
  cases st with
  | fn span name sig b =>
    obtain ⟨f, hkept, hbound, hv⟩ := hst
    have hspan : span ∈ (Stmt.fn span name sig b).spans :=
      Stmt.signed_subset_spans _ List.mem_cons_self
    refine ⟨f, ?_, ?_, fun hname => ?_⟩
    · rw [h.waiting span hspan, hkept]
    · rw [h.akin.scopes, hbound]
    · rw [h.akin.replaced, hv hname]
  | _ => trivial

theorem Ready.of_matches {s' : State Custody} {st : Stmt} (hst : Ready s st)
    (h : s'.Matches st.spans s) : Ready s' st :=
  ⟨hst.plain, h.akin.scopes ▸ hst.atTop, h.tracking.trans hst.tracking,
    hst.hoisted.of_matches h⟩

theorem commuting_stmt : Commuting (Stmt.Apart isClass) Ready stmt where
  symm := Stmt.Apart.symm
  congr {a s₁ s₂} h hs := by
    obtain ⟨hmatches, fs, hf₁, hf₂⟩ := same_declaration h.plain (hs.toMatches a.spans) h.atTop
    refine ⟨hmatches.akin, hmatches.tracking, fun span => ?_, ?_⟩
    · by_cases hspan : span ∈ a.spans
      · exact hmatches.waiting span hspan
      · rw [hf₁.waiting span hspan, hf₂.waiting span hspan]
        exact hs.waiting span
    · rw [hf₁.findings, hf₂.findings]
      exact hs.findings.append_left fs
  keeps {a b s} hab ha hb := hb.of_matches (ha.leaves hab.spans)
  swap {a b s} hab ha hb := by
    have hsa := ha.leaves hab.spans
    have hsb := hb.leaves hab.symm.spans
    obtain ⟨hmb, fb, hfab, hfb⟩ := same_declaration hb.plain hsa (hsa.akin.scopes ▸ hb.atTop)
    obtain ⟨hma, fa, hfba, hfa⟩ := same_declaration ha.plain hsb (hsb.akin.scopes ▸ ha.atTop)
    refine ⟨?_, ?_, fun span => ?_, ?_⟩
    · exact (hmb.akin.trans hsb.akin).trans (hma.akin.trans hsa.akin).symm
    · exact (hmb.tracking.trans hsb.tracking).trans (hma.tracking.trans hsa.tracking).symm
    -- What waits for a span is taken by the one declaration that has it, or by none.
    · by_cases hspan : span ∈ a.spans
      · rw [hfab.waiting span (hab.spans hspan), hma.waiting span hspan]
      · rw [hfba.waiting span hspan]
        by_cases hspan' : span ∈ b.spans
        · exact hmb.waiting span hspan'
        · rw [hfab.waiting span hspan', hfa.waiting span hspan, hfb.waiting span hspan']
    · rw [hfab.findings, hfa.findings, hfba.findings, hfb.findings, ← List.append_assoc,
        ← List.append_assoc]
      exact List.perm_append_comm.append_right s.findings

/-! ### Names that are reserved -/

theorem classes_reserve_iff {name : String} : (ss.foldl State.reserve s).classes.contains name ↔
      s.classes.contains name ∨ name ∈ ss.flatMap Stmt.classNames := by
  induction ss generalizing s with
  | nil => simp
  | cons st ss ih =>
    rw [List.foldl_cons, ih, List.flatMap_cons, List.mem_append, ← or_assoc, after_reserve]
    apply or_congr_left
    cases st with
    | classDecl span cls fields ms =>
      rw [Stmt.classNames, List.mem_singleton]
      exact Table.contains_reserve_iff
    | _ => simp [Stmt.reserving, Stmt.classNames, Effect.apply]

theorem interfaces_reserve_iff {name : String} :
    (ss.foldl State.reserve s).interfaces.contains name ↔
      s.interfaces.contains name ∨ name ∈ ss.flatMap Stmt.interfaceNames := by
  induction ss generalizing s with
  | nil => simp
  | cons st ss ih =>
    rw [List.foldl_cons, ih, List.flatMap_cons, List.mem_append, ← or_assoc, after_reserve]
    apply or_congr_left
    cases st with
    | interfaceDecl span interface heads =>
      rw [Stmt.interfaceNames, List.mem_singleton]
      exact Table.contains_reserve_iff
    | _ => simp [Stmt.reserving, Stmt.interfaceNames, Effect.apply]

theorem after_declareTypes (ss : List Stmt) (s : State Custody) :
    (declareTypes ss).after s = (ss.forM declareImpl).after ((ss.forM declareClass).after
      ((ss.forM declareInterface).after (ss.foldl State.reserve s))) :=
  rfl

theorem after_stmts (ss : List Stmt) (s : State Custody) :
    (stmts ss).after s = (ss.forM stmt).after s := by
  induction ss generalizing s with
  | nil =>
    rw [stmts]
    rfl
  | cons st ss ih =>
    rw [stmts, after_bind]
    exact ih _

theorem reserve_leaves (ss : List Stmt) (s : State Custody) :
    (ss.foldl State.reserve s).scopes = s.scopes ∧
      (ss.foldl State.reserve s).tracking = s.tracking := by
  rw [reserve_eq]
  exact ⟨rfl, rfl⟩

theorem after_reserveAll (ss : List Stmt) (s : State Custody) :
    (ss.forM fun st => (modify (·.reserve st) : Check Custody Unit)).after s =
      ss.foldl State.reserve s := by
  induction ss generalizing s with
  | nil => rfl
  | cons st ss ih => exact ih (s.reserve st)

end Check

/-! ### Programs of declarations -/

namespace Program

/-- Programs of plain declarations that declare different things. -/
structure Declarative (p : Program) : Prop where
  plain : ∀ st ∈ p.stmts, st.Plain
  spans : (p.stmts.flatMap Stmt.spans).Nodup
  functions : (p.stmts.flatMap Stmt.functionNames).Nodup
  classes : (p.stmts.flatMap Stmt.classNames).Nodup
  interfaces : (p.stmts.flatMap Stmt.interfaceNames).Nodup
  /-- No class gets two methods of one name, from its body or from implementations. -/
  methods : ∀ cls ∈ p.stmts.flatMap Stmt.classNames, (p.stmts.flatMap (Stmt.methodsOf cls)).Nodup

instance (p : Program) : Decidable p.Declarative :=
  decidable_of_iff ((∀ st ∈ p.stmts, st.Plain) ∧ (p.stmts.flatMap Stmt.spans).Nodup ∧
      (p.stmts.flatMap Stmt.functionNames).Nodup ∧ (p.stmts.flatMap Stmt.classNames).Nodup ∧
      (p.stmts.flatMap Stmt.interfaceNames).Nodup ∧
      ∀ cls ∈ p.stmts.flatMap Stmt.classNames, (p.stmts.flatMap (Stmt.methodsOf cls)).Nodup)
    ⟨fun h => ⟨h.1, h.2.1, h.2.2.1, h.2.2.2.1, h.2.2.2.2.1, h.2.2.2.2.2⟩,
      fun h => ⟨h.plain, h.spans, h.functions, h.classes, h.interfaces, h.methods⟩⟩

theorem Declarative.pairwise_apart {p : Program} (h : p.Declarative) {isClass : String → Bool}
    (hcls : ∀ cls, isClass cls → cls ∈ p.stmts.flatMap Stmt.classNames) :
    p.stmts.Pairwise (Stmt.Apart isClass) := by
  apply List.pairwise_iff_forall_sublist.mpr
  intro a b hab
  have hdisjoint {α : Type} {f : Stmt → List α} (hf : (p.stmts.flatMap f).Nodup) :
      (f a).Disjoint (f b) := by
    have hpairs := (List.nodup_flatMap.mp hf).2
    exact List.pairwise_iff_forall_sublist.mp hpairs hab
  exact ⟨hdisjoint h.spans, hdisjoint h.functions, hdisjoint h.classes, hdisjoint h.interfaces,
    fun cls hc => hdisjoint (h.methods cls (hcls cls hc))⟩

/-- The types with a name in a program. -/
def typeNames (p : Program) : TypeNames :=
  (p.stmts.foldl State.reserve (State.start : State Custody)).typeNames

theorem isClass_iff {p : Program} {name : String} :
    p.typeNames.isClass name ↔ name ∈ p.stmts.flatMap Stmt.classNames :=
  Check.classes_reserve_iff.trans (or_iff_right Bool.false_ne_true)

theorem isInterface_iff {p : Program} {name : String} :
    p.typeNames.isInterface name ↔ name ∈ p.stmts.flatMap Stmt.interfaceNames :=
  Check.interfaces_reserve_iff.trans (or_iff_right Bool.false_ne_true)

theorem namedIn_typeNames {p : Program} {st : Stmt} (h : st ∈ p.stmts) :
    st.NamedIn p.typeNames where
  classes _ hname := isClass_iff.mpr (List.mem_flatMap.mpr ⟨st, h, hname⟩)
  interfaces _ hname := isInterface_iff.mpr (List.mem_flatMap.mpr ⟨st, h, hname⟩)

theorem declaring_typeNames (p : Program) :
    (p.stmts.foldl State.reserve .start).Declaring p.typeNames := by
  obtain ⟨hscopes, htracking⟩ := Check.reserve_leaves p.stmts .start
  refine ⟨rfl, htracking, ?_⟩
  rw [hscopes]
  exact State.atGlobal_start

/-- When implementations are come to, every class has its fields and the methods of its body. -/
theorem declaring_classes (p : Program) :
    ((p.stmts.forM Check.declareClass).after ((p.stmts.forM Check.declareInterface).after
      (p.stmts.foldl State.reserve .start))).Declaring p.typeNames := by
  have hnamed : ∀ st ∈ p.stmts, st.NamedIn p.typeNames := fun st hst => namedIn_typeNames hst
  have hinterfaces := Check.interfacePass.declaring_forM hnamed p.declaring_typeNames
  exact Check.classPass.declaring_forM hnamed hinterfaces

theorem declaring_hoisted (p : Program) : (p.hoisted : State Custody).Declaring p.typeNames := by
  have himpls := Check.implPass.declaring_forM (fun st hst => namedIn_typeNames hst)
    p.declaring_classes
  have hkeeps : Check.Keeps (State.Declaring p.typeNames) (p.stmts.forM Check.hoist) :=
    .forM fun st _ s hs => Check.declaring_hoist hs st
  rw [hoisted, Check.after_bind, Check.after_declareTypes]
  exact hkeeps _ himpls

variable {p q : Program}

/-- When the types and functions of a program are declared, the same is known whatever the order, and
each function is. -/
theorem Declarative.similar_hoisted (h : p.Declarative) (hpq : p.stmts.Perm q.stmts) :
    (p.hoisted : State Custody).Similar q.hoisted ∧
      ∀ st ∈ p.stmts, Check.Ready p.hoisted st := by
  have hapart := h.pairwise_apart fun cls hcls => isClass_iff.mp hcls
  have hnamed : ∀ st ∈ p.stmts, st.NamedIn p.typeNames := fun st hst => namedIn_typeNames hst
  have hreserved := Check.commuting_reserve.perm hpq hapart (fun _ _ => trivial) (.refl .start)
  rw [Check.after_reserveAll, Check.after_reserveAll] at hreserved
  obtain ⟨hd₁, hinterfaces⟩ :=
    Check.interfacePass.perm hpq hapart hnamed p.declaring_typeNames hreserved
  obtain ⟨hd₂, hclasses⟩ := Check.classPass.perm hpq hapart hnamed hd₁ hinterfaces
  obtain ⟨hd₃, himpls⟩ := Check.implPass.perm hpq hapart hnamed hd₂ hclasses
  have hfunctions := Check.commuting_hoist.perm hpq hapart (fun _ _ => hd₃) himpls
  have hd₄ := p.declaring_hoisted
  rw [hoisted, Check.after_bind, Check.after_declareTypes] at hd₄
  rw [hoisted, hoisted, Check.after_bind, Check.after_bind, Check.after_declareTypes,
    Check.after_declareTypes]
  refine ⟨hfunctions, fun st hst => ?_⟩
  exact ⟨h.plain st hst, hd₄.atTop, hd₄.tracking, Check.hoisted_forM hapart hd₃ st hst⟩

theorem Declarative.similar_finalState (h : p.Declarative) (hpq : p.stmts.Perm q.stmts) :
    (p.finalState Custody).Similar (q.finalState Custody) := by
  have hapart := h.pairwise_apart fun cls hcls => isClass_iff.mp hcls
  obtain ⟨hsimilar, hready⟩ := h.similar_hoisted hpq
  rw [finalState_eq, finalState_eq, Check.piece, Check.piece, Check.body, Check.body,
    Check.after_stmts, Check.after_stmts]
  exact Check.commuting_stmt.perm hpq hapart hready hsimilar

/-- The order of the declarations of a program does not matter to what is found in it. -/
theorem check_perm_of_declarative (p q : Program) (h : p.Declarative) (hpq : p.stmts.Perm q.stmts)
    (o : Options) : (p.check o).errors.Perm (q.check o).errors ∧
      (p.check o).warnings.Perm (q.check o).warnings := by
  have hfindings := (h.similar_finalState hpq).findings
  have hreverse := (List.reverse_perm _).trans (hfindings.trans (List.reverse_perm _).symm)
  exact ⟨(hreverse.filter _).map _, (hreverse.filter _).map _⟩

/-- An implementation before its class and its interface, and functions after the code that calls
them. One method is missing, one type is unknown, one result has the wrong type, and a value is used
after it was given away. -/
def badges : Program :=
  let line (n : Nat) : Span := ⟨⟨n, 1⟩, ⟨n, 2⟩⟩
  let named (n : Nat) (name : String) : Ident := ⟨name, line n⟩
  let param (n : Nat) (name : String) (type : TypeExpr) : Param := ⟨named n name, some type, line n⟩
  let text (n : Nat) : TypeExpr := .basic (line n) .string
  let size (n : Nat) : Expr := .member (line n) (.ident (line n) "self") (named n "size")
  let label : Method := ⟨named 2 "label", .ref, ⟨false, [], some (text 2)⟩,
    ⟨line 2, [.ret (line 2) (some (.call (line 2) (.ident (line 2) "write") [size 2]))]⟩, line 2⟩
  let grow : Method := ⟨named 4 "grow", .refMut,
    ⟨false, [param 4 "by" (.named (line 4) "Gap")], none⟩,
    ⟨line 4, [.expr (line 4) (.assign (line 4) .assign (size 4) (.int (line 4) 1))]⟩, line 4⟩
  ⟨[.implDecl (line 1) (named 1 "Named") (named 1 "Disc") [label],
    .classDecl (line 3) (named 3 "Disc") [⟨named 3 "size", .basic (line 3) .int, none, line 3⟩]
      [grow],
    .interfaceDecl (line 5) (named 5 "Named")
      [⟨named 6 "label", .ref, ⟨false, [], some (text 6)⟩, line 6⟩,
       ⟨named 7 "tag", .ref, ⟨false, [], some (text 7)⟩, line 7⟩],
    .fn (line 8) (named 8 "write") ⟨false, [param 8 "n" (.basic (line 8) .int)], some (text 8)⟩
      ⟨line 8, [.ret (line 8) (some (.ident (line 8) "n"))]⟩,
    .fn (line 9) (named 9 "show") ⟨false, [param 9 "n" (.named (line 9) "Named")], none⟩
      ⟨line 9, [.bind (line 9) false (named 9 "m") none (.ident (line 9) "n"),
        .expr (line 9) (.ident (line 9) "n")]⟩], line 0⟩

theorem check_perm_badges :
    badges.Declarative ∧ (badges.check {}).errors.length = 3 ∧
      (badges.check {}).warnings.length = 1 ∧
      let flipped : Program := { badges with stmts := badges.stmts.reverse }
      badges.stmts.Perm flipped.stmts ∧ (badges.check {}).errors.Perm (flipped.check {}).errors ∧
        (badges.check {}).warnings.Perm (flipped.check {}).warnings := by
  have h : badges.Declarative := by decide +kernel
  have hcounts : (badges.check {}).errors.length = 3 ∧ (badges.check {}).warnings.length = 1 := by
    decide +kernel
  have hperm := (List.reverse_perm badges.stmts).symm
  exact ⟨h, hcounts.1, hcounts.2, hperm, check_perm_of_declarative badges
    { badges with stmts := badges.stmts.reverse } h hperm {}⟩

end Program
end CarvFront
