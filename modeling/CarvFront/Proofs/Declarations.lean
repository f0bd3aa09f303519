import CarvFront.Proofs.Independence
import CarvFront.Proofs.Visits

/-! What declarations make known, as one effect for each of them. Effects on different names and
spans can be had in any order. -/
namespace CarvFront

/-! ### Tables -/

namespace Table
variable {α : Type}
variable {name other : String}

theorem insert_comm (t : Table α) (h : name ≠ other) (a b : α) :
    (t.insert name a).insert other b = (t.insert other b).insert name a :=
  Journal.putBack_comm t h (some a) (some b)

/-- Change the value under `name`, if there is one. -/
def adjust (t : Table α) (name : String) (f : α → α) : Table α :=
  match t.find? name with
  | some a => t.insert name (f a)
  | none => t

/-- Set the value under `name`, if there is none. -/
def reserve (t : Table α) (name : String) (value : α) : Table α :=
  if t.contains name then t else t.insert name value

theorem find?_adjust (t : Table α) (name other : String) (f : α → α) :
    (t.adjust name f).find? other =
      if name = other then (t.find? other).map f else t.find? other := by
  unfold adjust
  split
  · next a ha =>
    rw [find?_insert]
    split
    · next h =>
      rw [← h, ha]
      rfl
    · rfl
  · next ha =>
    split
    · next h =>
      rw [← h, ha]
      rfl
    · rfl

theorem find?_reserve (t : Table α) (name other : String) (value : α) :
    (t.reserve name value).find? other =
      (t.find? other).or (if name = other then some value else none) := by
  unfold reserve contains
  cases h : t.find? name with
  | some a =>
    by_cases hn : name = other
    · rw [← hn, h]
      exact h
    · rw [if_neg hn, Option.or_none]
      rfl
  | none =>
    change (t.insert name value).find? other = _
    rw [find?_insert]
    by_cases hn : name = other
    · rw [if_pos hn, if_pos hn, ← hn, h]
      rfl
    · rw [if_neg hn, if_neg hn, Option.or_none]

theorem contains_adjust (t : Table α) (name other : String) (f : α → α) :
    (t.adjust name f).contains other = t.contains other := by
  unfold contains
  rw [find?_adjust]
  split
  · exact Option.isSome_map
  · rfl

theorem contains_reserve_iff {t : Table α} {value : α} :
    (t.reserve name value).contains other ↔ t.contains other ∨ other = name := by
  unfold contains
  rw [find?_reserve, Option.isSome_or, Bool.or_eq_true]
  by_cases h : name = other
  · simp [h]
  · simp [h, Ne.symm h]

theorem adjust_comm (t : Table α) {f g : α → α} (h : name = other → ∀ a, f (g a) = g (f a)) :
    (t.adjust name f).adjust other g = (t.adjust other g).adjust name f := by
  apply ext_find?
  intro n
  simp only [find?_adjust]
  by_cases hn : name = n
  · by_cases ho : other = n
    · rw [if_pos hn, if_pos ho, if_pos ho, if_pos hn, Option.map_map, Option.map_map]
      congr 1
      funext a
      exact (h (hn.trans ho.symm) a).symm
    · rw [if_pos hn, if_neg ho, if_neg ho, if_pos hn]
  · rw [if_neg hn, if_neg hn]

theorem reserve_comm (t : Table α) (name other : String) (value : α) :
    (t.reserve name value).reserve other value = (t.reserve other value).reserve name value := by
  apply ext_find?
  intro n
  simp only [find?_reserve]
  cases t.find? n with
  | some a => rfl
  | none => by_cases hn : name = n <;> by_cases ho : other = n <;> simp [hn, ho]

theorem contains_insert_self {t : Table α} (h : t.contains name) (value : α) :
    (t.insert name value).contains = t.contains := by
  funext other
  unfold contains
  rw [find?_insert]
  split
  · next heq => exact (heq ▸ h).symm
  · rfl

theorem insertAll_insert (t : Table α) {es : List (String × α)} (h : name ∉ es.map Prod.fst) (a : α)
    :
    (t.insert name a).insertAll es = (t.insertAll es).insert name a := by
  induction es generalizing t with
  | nil => rfl
  | cons e es ih =>
    obtain ⟨hne, hes⟩ := not_or.mp (mt List.mem_cons.mpr h)
    change ((t.insert name a).insert e.1 e.2).insertAll es = _
    rw [insert_comm t hne, ih (t.insert e.1 e.2) hes]
    rfl

theorem insertAll_comm (t : Table α) {es fs : List (String × α)}
    (h : (es.map Prod.fst).Disjoint (fs.map Prod.fst)) :
    (t.insertAll es).insertAll fs = (t.insertAll fs).insertAll es := by
  induction fs generalizing t with
  | nil => rfl
  | cons f fs ih =>
    obtain ⟨hf, hfs⟩ := List.disjoint_cons_right.mp h
    change ((t.insertAll es).insert f.1 f.2).insertAll fs = _
    rw [← insertAll_insert t hf, ih (t.insert f.1 f.2) hfs]
    rfl

end Table

/-! ### States that say the same -/

namespace State

/-- States that say the same, with the same findings in any order. -/
structure Similar (s₁ s₂ : State Custody) : Prop where
  akin : s₁.Akin s₂
  tracking : s₁.tracking = s₂.tracking
  waiting : ∀ span, s₁.signature? span = s₂.signature? span
  findings : s₁.findings.Perm s₂.findings

namespace Similar
variable {s₁ s₂ s₃ : State Custody}

theorem refl (s : State Custody) : s.Similar s :=
  ⟨.refl s, rfl, fun _ => rfl, .refl _⟩

theorem trans (h : s₁.Similar s₂) (h' : s₂.Similar s₃) : s₁.Similar s₃ :=
  ⟨h.akin.trans h'.akin, h.tracking.trans h'.tracking,
    fun span => (h.waiting span).trans (h'.waiting span), h.findings.trans h'.findings⟩

theorem toMatches (h : s₁.Similar s₂) (spans : List Span) : s₁.Matches spans s₂ :=
  ⟨h.akin, h.tracking, fun span _ => h.waiting span⟩

theorem bind (h : s₁.Similar s₂) (name : String) (ty : Ty) :
    (s₁.bind name ty).Similar (s₂.bind name ty) where
  akin := ((h.toMatches []).bind name ty).akin
  tracking := ((h.toMatches []).bind name ty).tracking
  waiting := h.waiting
  findings := h.findings

end Similar

/-- Keep the types of some declarations until they are come to. -/
def keepAll {τ : Type} (s : State τ) (kept : List (Span × FnTy)) : State τ :=
  { s with signatures := kept.foldl (fun l k => k :: l.filter (·.1 ≠ k.1)) s.signatures }

theorem signature?_keepAll {τ : Type} {kept : List (Span × FnTy)} {span : Span}
    (h : span ∉ kept.map Prod.fst) (s : State τ) :
    (s.keepAll kept).signature? span = s.signature? span := by
  induction kept generalizing s with
  | nil => rfl
  | cons k kept ih =>
    obtain ⟨hne, hkept⟩ := not_or.mp (mt List.mem_cons.mpr h)
    change ((s.keepSignature k.1 k.2).keepAll kept).signature? span = _
    rw [ih hkept, signature?_keepSignature, if_neg (Ne.symm hne)]

theorem signature?_keepAll_congr {s₁ s₂ : State Custody} {span : Span}
    (h : s₁.signature? span = s₂.signature? span) (kept : List (Span × FnTy)) :
    (s₁.keepAll kept).signature? span = (s₂.keepAll kept).signature? span := by
  induction kept generalizing s₁ s₂ with
  | nil => exact h
  | cons k kept ih =>
    have hk : (s₁.keepSignature k.1 k.2).signature? span =
        (s₂.keepSignature k.1 k.2).signature? span := by
      rw [signature?_keepSignature, signature?_keepSignature, h]
    exact ih hk

end State

/-! ### Effects -/

/-- What a declaration adds to what is known. -/
structure Effect where
  findings : List Finding := []
  /-- The types of functions and methods that are to be come to. -/
  kept : List (Span × FnTy) := []
  classes : Table ClassDef → Table ClassDef := id
  interfaces : Table (Table MethodTy) → Table (Table MethodTy) := id
  impls : List (String × String) := []

namespace Effect

def apply (e : Effect) (s : State Custody) : State Custody :=
  { s with
    findings := e.findings.reverse ++ s.findings
    signatures := (s.keepAll e.kept).signatures
    classes := e.classes s.classes
    interfaces := e.interfaces s.interfaces
    impls := e.impls ++ s.impls }

/-- Effects that can be had in any order. -/
structure Apart (d e : Effect) : Prop where
  kept : (d.kept.map Prod.fst).Disjoint (e.kept.map Prod.fst)
  classes : ∀ t, d.classes (e.classes t) = e.classes (d.classes t)
  interfaces : ∀ t, d.interfaces (e.interfaces t) = e.interfaces (d.interfaces t)

theorem apart_none_left (e : Effect) : ({} : Effect).Apart e :=
  ⟨List.disjoint_nil_left _, fun _ => rfl, fun _ => rfl⟩

theorem apart_none_right (d : Effect) : d.Apart {} :=
  ⟨List.disjoint_nil_right _, fun _ => rfl, fun _ => rfl⟩

theorem implements_apply (e : Effect) (s : State Custody) (cls interface : String) :
    (e.apply s).implements cls interface =
      (e.impls.contains (cls, interface) || s.implements cls interface) :=
  List.contains_append

theorem similar_apply {s₁ s₂ : State Custody} (h : s₁.Similar s₂) (e : Effect) :
    (e.apply s₁).Similar (e.apply s₂) where
  akin :=
    { h.akin with
      classes := congrArg e.classes h.akin.classes
      interfaces := congrArg e.interfaces h.akin.interfaces
      implements := by
        funext cls interface
        rw [implements_apply, implements_apply, h.akin.implements] }
  tracking := h.tracking
  waiting span := State.signature?_keepAll_congr (h.waiting span) e.kept
  findings := h.findings.append_left _

theorem similar_comm {d e : Effect} (h : d.Apart e) (s : State Custody) :
    (e.apply (d.apply s)).Similar (d.apply (e.apply s)) where
  akin :=
    { State.Akin.refl s with
      classes := (h.classes s.classes).symm
      interfaces := (h.interfaces s.interfaces).symm
      implements := by
        funext cls interface
        rw [implements_apply, implements_apply, implements_apply, implements_apply,
          Bool.or_left_comm] }
  tracking := rfl
  waiting span := by
    -- No span is in both, so one of the two steps leaves what waits for it alone.
    by_cases hspan : span ∈ d.kept.map Prod.fst
    · have hd (s : State Custody) : (e.apply s).signature? span = s.signature? span :=
        State.signature?_keepAll (h.kept hspan) s
      rw [hd]
      exact State.signature?_keepAll_congr (hd s).symm d.kept
    · have hd (s : State Custody) : (d.apply s).signature? span = s.signature? span :=
        State.signature?_keepAll hspan s
      rw [hd]
      exact State.signature?_keepAll_congr (hd s) e.kept
  findings := by
    change (e.findings.reverse ++ (d.findings.reverse ++ s.findings)).Perm
      (d.findings.reverse ++ (e.findings.reverse ++ s.findings))
    rw [← List.append_assoc, ← List.append_assoc]
    exact List.perm_append_comm.append_right s.findings

end Effect

/-! ### The effects of declarations -/

/-- Which names are those of classes and of interfaces. -/
structure TypeNames where
  isClass : String → Bool
  isInterface : String → Bool

/-- The type that a name stands for. -/
def TypeNames.known (n : TypeNames) (name : String) : Option Ty :=
  if n.isClass name then some (.cls name)
  else if n.isInterface name then some (.interface name)
  else none

def State.typeNames {τ : Type} (s : State τ) : TypeNames :=
  ⟨s.classes.contains, s.interfaces.contains⟩

/-- What methods make known, given the types with a name. -/
def methodsEffect (known : String → Option Ty) (ms : List Method) : Effect where
  findings := ms.flatMap fun m => unknownTypes known m.sig.names
  kept := ms.map fun m => (m.span, m.sig.fnTy known)

/-- The types of methods by their names. -/
def methodEntries (known : String → Option Ty) (ms : List Method) : List (String × MethodTy) :=
  ms.map fun m => (m.name.name, ⟨m.receiver, m.sig.fnTy known⟩)

namespace Stmt

/-- The name of a class or an interface becomes known. -/
def reserving : Stmt → Effect
  | .classDecl _ name _ _ => { classes := (·.reserve name.name ⟨∅, ∅⟩) }
  | .interfaceDecl _ name _ => { interfaces := (·.reserve name.name ∅) }
  | _ => {}

def declaringInterface (n : TypeNames) : Stmt → Effect
  | .interfaceDecl _ name heads =>
    { findings := heads.flatMap fun m => unknownTypes n.known m.sig.names
      interfaces := (·.insert name.name
        (.ofList (heads.map fun m => (m.name.name, ⟨m.receiver, m.sig.fnTy n.known⟩)))) }
  | _ => {}

def declaringClass (n : TypeNames) : Stmt → Effect
  | .classDecl _ name fields ms =>
    { methodsEffect n.known ms with
      findings := (fields.flatMap fun f => unknownTypes n.known f.type.names)
        ++ (methodsEffect n.known ms).findings
      classes := (·.insert name.name ⟨.ofList (fields.map fun f => (f.name.name, f.type.ty n.known)),
        .ofList (methodEntries n.known ms)⟩) }
  | _ => {}

def declaringImpl (n : TypeNames) : Stmt → Effect
  | .implDecl _ interface target ms =>
    if n.isClass target.name then
      { methodsEffect n.known ms with
        classes := (·.adjust target.name fun c =>
          { c with methods := c.methods.insertAll (methodEntries n.known ms) })
        impls := if n.isInterface interface.name then [(target.name, interface.name)] else [] }
    else {}
  | _ => {}

/-- What a function makes known, but for its name. -/
def hoisting (n : TypeNames) : Stmt → Effect
  | .fn span _ sig _ =>
    { findings := unknownTypes n.known sig.names
      kept := [(span, sig.fnTy n.known)] }
  | _ => {}

end Stmt

namespace Check

theorem apply_apply_notes (fs fs' : List Finding) (kept kept' : List (Span × FnTy))
    (s : State Custody) :
    ({ findings := fs', kept := kept' } : Effect).apply
        (({ findings := fs, kept } : Effect).apply s) =
      ({ findings := fs ++ fs', kept := kept ++ kept' } : Effect).apply s := by
  simp only [Effect.apply, State.keepAll, List.reverse_append, List.append_assoc,
    List.foldl_append, id_eq, List.nil_append]

/-- A table that is filled entry by entry, where each entry may leave notes. -/
theorem run_foldlM_insert {α β : Type} {k : Table β → α → Check Custody (Table β)}
    {known : String → Option Ty} (entry : α → String × β) (fs : α → List Finding)
    (kept : α → List (Span × FnTy))
    (hk : ∀ t a (s : State Custody), s.known = known → (k t a).run s =
      (t.insert (entry a).1 (entry a).2, ({ findings := fs a, kept := kept a } : Effect).apply s))
    (as : List α) (t : Table β) (s : State Custody) (hs : s.known = known) :
    (as.foldlM k t).run s = (t.insertAll (as.map entry),
      ({ findings := as.flatMap fs, kept := as.flatMap kept } : Effect).apply s) := by
  induction as generalizing t s with
  | nil => rfl
  | cons a as ih =>
    -- An entry leaves classes and interfaces alone, so names stand for the same in the next one.
    let e : Effect := { findings := fs a, kept := kept a }
    rw [List.foldlM_cons, StateT.run_bind, hk t a s hs]
    change (as.foldlM k (t.insert (entry a).1 (entry a).2)).run (e.apply s) = _
    rw [ih _ (e.apply s) hs, apply_apply_notes]
    rfl

theorem run_interfaceMethods (heads : List MethodHead) (s : State Custody) :
    (interfaceMethods heads).run s =
      (.ofList (heads.map fun m => (m.name.name, ⟨m.receiver, m.sig.fnTy s.known⟩)),
        ({ findings := heads.flatMap fun m => unknownTypes s.known m.sig.names } : Effect).apply s) := by
  have hnone : heads.flatMap (fun _ => ([] : List (Span × FnTy))) = [] :=
    List.flatMap_eq_nil_iff.mpr fun _ _ => rfl
  unfold interfaceMethods
  rw [run_foldlM_insert (fun m => (m.name.name, ⟨m.receiver, m.sig.fnTy s.known⟩))
    (fun m => unknownTypes s.known m.sig.names) (fun _ => []) ?_ heads ∅ s rfl, hnone]
  · rfl
  · intro t m s' hs'
    rw [← hs']
    rfl

theorem run_classFields (fields : List Field) (s : State Custody) :
    (classFields fields).run s =
      (.ofList (fields.map fun f => (f.name.name, f.type.ty s.known)),
        ({ findings := fields.flatMap fun f => unknownTypes s.known f.type.names } : Effect).apply s) := by
  have hnone : fields.flatMap (fun _ => ([] : List (Span × FnTy))) = [] :=
    List.flatMap_eq_nil_iff.mpr fun _ _ => rfl
  unfold classFields
  rw [run_foldlM_insert (fun f => (f.name.name, f.type.ty s.known))
    (fun f => unknownTypes s.known f.type.names) (fun _ => []) ?_ fields ∅ s rfl, hnone]
  · rfl
  · intro t f s' hs'
    rw [← hs']
    rfl

theorem run_addMethods (t : Table MethodTy) (ms : List Method) (s : State Custody) :
    (addMethods t ms).run s =
      (t.insertAll (methodEntries s.known ms), (methodsEffect s.known ms).apply s) := by
  unfold addMethods
  rw [run_foldlM_insert (fun m => (m.name.name, ⟨m.receiver, m.sig.fnTy s.known⟩))
    (fun m => unknownTypes s.known m.sig.names) (fun m => [(m.span, m.sig.fnTy s.known)]) ?_ ms t s rfl,
    ← List.map_eq_flatMap]
  · rfl
  · intro t m s' hs'
    rw [← hs']
    rfl

theorem after_reserve (st : Stmt) (s : State Custody) : s.reserve st = st.reserving.apply s := by
  cases st with
  | classDecl span name fields ms =>
    simp only [State.reserve, Stmt.reserving, Effect.apply, Table.reserve]
    split <;> rfl
  | interfaceDecl span name heads =>
    simp only [State.reserve, Stmt.reserving, Effect.apply, Table.reserve]
    split <;> rfl
  | _ => rfl

theorem after_declareInterface (st : Stmt) (s : State Custody) :
    (declareInterface st).after s = (st.declaringInterface s.typeNames).apply s := by
  cases st with
  | interfaceDecl span name heads =>
    rw [declareInterface, after_bind]
    unfold after
    rw [run_interfaceMethods]
    rfl
  | _ => rfl

theorem after_declareClass (st : Stmt) (s : State Custody) :
    (declareClass st).after s = (st.declaringClass s.typeNames).apply s := by
  cases st with
  | classDecl span name fields ms =>
    let fs := fields.flatMap fun f => unknownTypes s.known f.type.names
    let c : ClassDef := ⟨.ofList (fields.map fun f => (f.name.name, f.type.ty s.known)),
      .ofList (methodEntries s.known ms)⟩
    have hnotes := apply_apply_notes fs (methodsEffect s.known ms).findings []
      (methodsEffect s.known ms).kept s
    rw [declareClass, after_bind, after_bind]
    unfold after
    rw [run_classFields, run_addMethods]
    exact congrArg (fun s' : State Custody =>
      { s' with classes := s.classes.insert name.name c }) hnotes
  | _ => rfl

theorem after_declareImpl (st : Stmt) (s : State Custody) :
    (declareImpl st).after s = (st.declaringImpl s.typeNames).apply s := by
  cases st with
  | implDecl span interface target ms =>
    rw [declareImpl, after_get, Stmt.declaringImpl]
    cases hcls : s.classes.find? target.name with
    | none =>
      have hclass : s.typeNames.isClass target.name = false := Option.isSome_eq_false_iff.mpr
        (Option.isNone_iff_eq_none.mpr hcls)
      rw [hclass]
      rfl
    | some cls =>
      have hclass : s.typeNames.isClass target.name = true := Option.isSome_of_mem hcls
      let f (c : ClassDef) : ClassDef :=
        { c with methods := c.methods.insertAll (methodEntries s.known ms) }
      have hclasses : s.classes.insert target.name (f cls) = s.classes.adjust target.name f := by
        rw [Table.adjust, hcls]
      have himpls : (if s.interfaces.contains interface.name then
            (target.name, interface.name) :: s.impls else s.impls) =
          (if s.interfaces.contains interface.name then [(target.name, interface.name)] else [])
            ++ s.impls := by
        split <;> rfl
      rw [if_pos hclass, after_bind]
      unfold after
      rw [run_addMethods]
      exact congrArg₂ (fun classes impls =>
        { (methodsEffect s.known ms).apply s with classes, impls }) hclasses himpls
  | _ => rfl

theorem after_hoist {n : TypeNames} {s : State Custody} (h : s.typeNames = n) (span : Span)
    (name : Ident) (sig : Signature) (b : Block) :
    (hoist (.fn span name sig b)).after s =
      (((Stmt.fn span name sig b).hoisting n).apply s).bind name.name (sig.fnTy n.known).toTy := by
  rw [← h]
  rfl

/-! ### Steps in any order -/

theorem Keeps.forM {α : Type} {I : State Custody → Prop} {step : α → Check Custody Unit}
    {as : List α} (h : ∀ a ∈ as, Keeps I (step a)) : Keeps I (as.forM step) := by
  induction as with
  | nil => exact fun _ hs => hs
  | cons a as ih =>
    obtain ⟨ha, has⟩ := List.forall_mem_cons.mp h
    exact ha.seq fun _ => ih has

/-- Steps, one for each statement, that can be taken in any order for statements that are apart, from
states that are ready for them. -/
structure Commuting (apart : Stmt → Stmt → Prop) (ready : State Custody → Stmt → Prop)
    (step : Stmt → Check Custody Unit) : Prop where
  symm {a b : Stmt} (hab : apart a b) : apart b a
  congr {a : Stmt} {s₁ s₂ : State Custody} (ha : ready s₁ a) (h : s₁.Similar s₂) :
    ((step a).after s₁).Similar ((step a).after s₂)
  keeps {a b : Stmt} {s : State Custody} (hab : apart a b) (ha : ready s a) (hb : ready s b) :
    ready ((step a).after s) b
  swap {a b : Stmt} {s : State Custody} (hab : apart a b) (ha : ready s a) (hb : ready s b) :
    ((step b).after ((step a).after s)).Similar ((step a).after ((step b).after s))

namespace Commuting
variable {apart : Stmt → Stmt → Prop} {ready : State Custody → Stmt → Prop}
  {step : Stmt → Check Custody Unit}

theorem congr_forM (h : Commuting apart ready step) {ss : List Stmt} (hss : ss.Pairwise apart)
    {s₁ s₂ : State Custody} (hready : ∀ st ∈ ss, ready s₁ st) (hs : s₁.Similar s₂) :
    ((ss.forM step).after s₁).Similar ((ss.forM step).after s₂) := by
  induction ss generalizing s₁ s₂ with
  | nil => exact hs
  | cons a ss ih =>
    obtain ⟨hapart, hss⟩ := List.pairwise_cons.mp hss
    obtain ⟨ha, hready⟩ := List.forall_mem_cons.mp hready
    apply ih hss _ (h.congr ha hs)
    intro b hb
    exact h.keeps (hapart b hb) ha (hready b hb)

/-- The order of the steps does not matter. -/
theorem perm (h : Commuting apart ready step) {ss ts : List Stmt} (hp : ss.Perm ts)
    (hss : ss.Pairwise apart) {s₁ s₂ : State Custody} (hready : ∀ st ∈ ss, ready s₁ st)
    (hs : s₁.Similar s₂) : ((ss.forM step).after s₁).Similar ((ts.forM step).after s₂) := by
  induction hp generalizing s₁ s₂ with
  | nil => exact hs
  | cons a _ ih =>
    obtain ⟨hapart, hss⟩ := List.pairwise_cons.mp hss
    obtain ⟨ha, hready⟩ := List.forall_mem_cons.mp hready
    apply ih hss _ (h.congr ha hs)
    intro b hb
    exact h.keeps (hapart b hb) ha (hready b hb)
  | swap a b l =>
    obtain ⟨hbs, hss⟩ := List.pairwise_cons.mp hss
    obtain ⟨has, hl⟩ := List.pairwise_cons.mp hss
    obtain ⟨hba, hbl⟩ := List.forall_mem_cons.mp hbs
    obtain ⟨hb, hready⟩ := List.forall_mem_cons.mp hready
    obtain ⟨ha, hready⟩ := List.forall_mem_cons.mp hready
    have hswap := h.swap hba hb ha
    have hcongr := h.congr (h.keeps (h.symm hba) ha hb) (h.congr ha hs)
    apply h.congr_forM hl _ (hswap.trans hcongr)
    intro c hc
    have hca := h.keeps hba hb ha
    have hcc := h.keeps (hbl c hc) hb (hready c hc)
    exact h.keeps (has c hc) hca hcc
  | trans hp _ ih ih' =>
    have hts := (hp.pairwise_iff h.symm).mp hss
    have hready' := fun st hst => hready st (hp.mem_iff.mpr hst)
    exact (ih hss hready (.refl s₁)).trans (ih' hts hready' hs)

end Commuting

/-- Effects that can be had in any order are commuting steps. -/
theorem commuting_of_effects {apart : Stmt → Stmt → Prop} {ready : State Custody → Stmt → Prop}
    {step : Stmt → Check Custody Unit} (effect : Stmt → Effect)
    (symm : ∀ {a b}, apart a b → apart b a)
    (similar : ∀ {a s₁ s₂}, ready s₁ a → s₁.Similar s₂ → ready s₂ a)
    (after : ∀ {a s}, ready s a → (step a).after s = (effect a).apply s)
    (keeps : ∀ {a b s}, ready s a → ready s b → ready ((effect a).apply s) b)
    (swap : ∀ {a b}, apart a b → (effect a).Apart (effect b)) : Commuting apart ready step where
  symm := symm
  congr ha h := by
    rw [after ha, after (similar ha h)]
    exact Effect.similar_apply h _
  keeps _ ha hb := by
    rw [after ha]
    exact keeps ha hb
  swap hab ha hb := by
    rw [after ha, after hb, after (keeps ha hb), after (keeps hb ha)]
    exact Effect.similar_comm (swap hab) _

end Check
end CarvFront
