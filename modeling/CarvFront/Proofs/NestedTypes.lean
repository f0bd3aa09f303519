import CarvFront.Proofs.Telling

/-! Types that are declared inside other code. There is one table of classes and one of interfaces,
which no scope takes back: a declaration inside a body adds to them for good, and replaces what the
name stood for outside. Types that no declaration inside names stay as they are. -/
namespace CarvFront

/-! ### Tables of types -/

namespace Table
variable {α : Type}
variable {name : String}

theorem find?_insert_self (t : Table α) (name : String) (value : α) :
    (t.insert name value).find? name = some value :=
  (t.find?_insert name name value).trans (if_pos rfl)

theorem adjust_of_not_contains {t : Table α} (h : t.contains name = false) (f : α → α) :
    t.adjust name f = t := by
  have hnone : t.find? name = none := Option.isSome_eq_false_iff.mp h |> Option.isNone_iff_eq_none.mp
  rw [adjust, hnone]

theorem insert_reserve (t : Table α) (name : String) (value value' : α) :
    (t.reserve name value).insert name value' = t.insert name value' := by
  apply ext_find?
  intro other
  rw [find?_insert, find?_insert, find?_reserve]
  split
  · rfl
  · exact Option.or_none

theorem contains_insertAll_iff {t : Table α} {es : List (String × α)} :
    (t.insertAll es).contains name ↔ name ∈ es.map Prod.fst ∨ t.contains name := by
  induction es generalizing t with
  | nil => simp [insertAll]
  | cons e es ih =>
    change ((t.insert e.1 e.2).insertAll es).contains name ↔ _
    rw [ih, contains, find?_insert, List.map_cons, List.mem_cons]
    by_cases h : e.1 = name
    · simp [h]
    · simp [h, Ne.symm h, contains]

theorem contains_ofList_iff {es : List (String × α)} :
    (ofList es).contains name ↔ name ∈ es.map Prod.fst :=
  contains_insertAll_iff.trans (or_iff_left Bool.false_ne_true)

end Table

/-- What is known of the types with a name. -/
structure TypeTables where
  classes : Table ClassDef
  interfaces : Table (Table MethodTy)
  impls : List (String × String)

def State.typeTables {τ : Type} (s : State τ) : TypeTables :=
  ⟨s.classes, s.interfaces, s.impls⟩

namespace Stmt

/-- The classes whose methods a statement changes. -/
def changedClasses : Stmt → List String
  | .classDecl _ name _ _ => [name.name]
  | .implDecl _ _ target _ => [target.name]
  | _ => []

end Stmt

namespace TypeTables

def names (t : TypeTables) : TypeNames :=
  ⟨t.classes.contains, t.interfaces.contains⟩

/-- The tables with one more declaration, which knows its own name. -/
def declare (t : TypeTables) : Stmt → TypeTables
  | .classDecl _ name fields ms =>
    let known := { t with classes := t.classes.reserve name.name ⟨∅, ∅⟩ }.names.known
    { t with
      classes := t.classes.insert name.name
        ⟨.ofList (fields.map fun f => (f.name.name, f.type.ty known)),
          .ofList (methodEntries known ms)⟩ }
  | .interfaceDecl _ name heads =>
    let known := { t with interfaces := t.interfaces.reserve name.name ∅ }.names.known
    { t with
      interfaces := t.interfaces.insert name.name
        (.ofList (heads.map fun m => (m.name.name, ⟨m.receiver, m.sig.fnTy known⟩))) }
  | .implDecl _ interface target ms =>
    { t with
      classes := t.classes.adjust target.name fun c =>
        { c with methods := c.methods.insertAll (methodEntries t.names.known ms) }
      impls :=
        if t.classes.contains target.name && t.interfaces.contains interface.name then
          (target.name, interface.name) :: t.impls
        else t.impls }
  | _ => t

/-- The class has the fields that a declaration gives it. -/
def HasFields (t : TypeTables) (name : String) (d : Stmt) : Prop :=
  ∃ span cls fields ms c, d = .classDecl span cls fields ms ∧ cls.name = name ∧
    t.classes.find? name = some c ∧ ∀ f, c.fields.contains f ↔ f ∈ fields.map (·.name.name)

/-- The interface has the methods that a declaration gives it. -/
def HasMethods (t : TypeTables) (name : String) (d : Stmt) : Prop :=
  ∃ span interface heads ms, d = .interfaceDecl span interface heads ∧ interface.name = name ∧
    t.interfaces.find? name = some ms ∧ ∀ m, ms.contains m ↔ m ∈ heads.map (·.name.name)

/-- Tables after some declarations: types that none of them names are as they were, and what one of
them declares is as one of them has it. -/
structure After (ds : List Stmt) (t t' : TypeTables) : Prop where
  classes {name : String} (h : name ∉ ds.flatMap Stmt.changedClasses) :
    t'.classes.find? name = t.classes.find? name
  fields {name : String} (h : name ∉ ds.flatMap Stmt.classNames) :
    (t'.classes.find? name).map (·.fields) = (t.classes.find? name).map (·.fields)
  interfaces {name : String} (h : name ∉ ds.flatMap Stmt.interfaceNames) :
    t'.interfaces.find? name = t.interfaces.find? name
  declaredClass {name : String} (h : name ∈ ds.flatMap Stmt.classNames) :
    ∃ d ∈ ds, t'.HasFields name d
  declaredInterface {name : String} (h : name ∈ ds.flatMap Stmt.interfaceNames) :
    ∃ d ∈ ds, t'.HasMethods name d

variable {t t' t'' : TypeTables} {name : String} {d : Stmt}

theorem HasFields.of_same (h : t.HasFields name d)
    (hsame : (t'.classes.find? name).map (·.fields) = (t.classes.find? name).map (·.fields)) :
    t'.HasFields name d := by
  obtain ⟨span, cls, fields, ms, c, hd, hname, hc, hfields⟩ := h
  rw [hc] at hsame
  obtain ⟨c', hc', heq⟩ := Option.map_eq_some_iff.mp hsame
  exact ⟨span, cls, fields, ms, c', hd, hname, hc', heq ▸ hfields⟩

theorem HasMethods.of_same (h : t.HasMethods name d)
    (hsame : t'.interfaces.find? name = t.interfaces.find? name) : t'.HasMethods name d := by
  obtain ⟨span, interface, heads, ms, hd, hname, hms, hmethods⟩ := h
  exact ⟨span, interface, heads, ms, hd, hname, hsame.trans hms, hmethods⟩

theorem After.refl (t : TypeTables) : After [] t t where
  classes _ := rfl
  fields _ := rfl
  interfaces _ := rfl
  declaredClass h := absurd h List.not_mem_nil
  declaredInterface h := absurd h List.not_mem_nil

/-- What is declared later counts. -/
theorem After.trans {ds ds' : List Stmt} (h : After ds t t') (h' : After ds' t' t'') :
    After (ds ++ ds') t t'' where
  classes hname := by
    rw [List.flatMap_append, List.mem_append, not_or] at hname
    exact (h'.classes hname.2).trans (h.classes hname.1)
  fields hname := by
    rw [List.flatMap_append, List.mem_append, not_or] at hname
    exact (h'.fields hname.2).trans (h.fields hname.1)
  interfaces hname := by
    rw [List.flatMap_append, List.mem_append, not_or] at hname
    exact (h'.interfaces hname.2).trans (h.interfaces hname.1)
  declaredClass {name} hname := by
    by_cases hlater : name ∈ ds'.flatMap Stmt.classNames
    · obtain ⟨d, hd, hfields⟩ := h'.declaredClass hlater
      exact ⟨d, List.mem_append_right _ hd, hfields⟩
    · rw [List.flatMap_append, List.mem_append] at hname
      obtain ⟨d, hd, hfields⟩ := h.declaredClass (hname.resolve_right hlater)
      exact ⟨d, List.mem_append_left _ hd, hfields.of_same (h'.fields hlater)⟩
  declaredInterface {name} hname := by
    by_cases hlater : name ∈ ds'.flatMap Stmt.interfaceNames
    · obtain ⟨d, hd, hmethods⟩ := h'.declaredInterface hlater
      exact ⟨d, List.mem_append_right _ hd, hmethods⟩
    · rw [List.flatMap_append, List.mem_append] at hname
      obtain ⟨d, hd, hmethods⟩ := h.declaredInterface (hname.resolve_right hlater)
      exact ⟨d, List.mem_append_left _ hd, hmethods.of_same (h'.interfaces hlater)⟩

/-- A class with the fields of a declaration, whatever their types. -/
theorem after_insertClass (t : TypeTables) (span : Span) (cls : Ident) (fields : List Field)
    (ms : List Method) (type : Field → Ty) (methods : Table MethodTy) :
    After [.classDecl span cls fields ms] t { t with
      classes := t.classes.insert cls.name
        ⟨.ofList (fields.map fun f => (f.name.name, type f)), methods⟩ } := by
  have hother {name : String} (h : name ∉ [cls.name]) (c : ClassDef) :
      (t.classes.insert cls.name c).find? name = t.classes.find? name := by
    rw [List.mem_singleton] at h
    rw [Table.find?_insert, if_neg (Ne.symm h)]
  refine ⟨fun h => hother h _, fun h => congrArg _ (hother h _), fun _ => rfl, ?_,
    List.not_mem_nil.elim⟩
  intro name hname
  cases List.mem_singleton.mp hname
  refine ⟨_, List.mem_singleton_self _, span, cls, fields, ms, _, rfl, rfl,
    t.classes.find?_insert_self _ _, fun f => ?_⟩
  rw [Table.contains_ofList_iff, List.map_map]
  rfl

theorem after_declare (t : TypeTables) (d : Stmt) : After [d] t (t.declare d) := by
  cases d with
  | classDecl span cls fields ms => exact t.after_insertClass span cls fields ms _ _
  | interfaceDecl span interface heads =>
    refine ⟨fun _ => rfl, fun _ => rfl, ?_, List.not_mem_nil.elim, ?_⟩
    · intro name hname
      rw [declare, Table.find?_insert, if_neg]
      rintro rfl
      exact hname (List.mem_singleton_self _)
    · intro name hname
      cases List.mem_singleton.mp hname
      refine ⟨_, List.mem_singleton_self _, span, interface, heads, _, rfl, rfl,
        t.interfaces.find?_insert_self _ _, fun m => ?_⟩
      rw [Table.contains_ofList_iff, List.map_map]
      rfl
  | implDecl span interface target ms =>
    refine ⟨?_, ?_, fun _ => rfl, List.not_mem_nil.elim, List.not_mem_nil.elim⟩
    · intro name hname
      rw [declare, Table.find?_adjust, if_neg]
      rintro rfl
      exact hname (List.mem_singleton_self _)
    · intro name _
      rw [declare, Table.find?_adjust]
      split
      · exact Option.map_map ..
      · rfl
  | _ =>
    exact ⟨fun _ => rfl, fun _ => rfl, fun _ => rfl, List.not_mem_nil.elim, List.not_mem_nil.elim⟩

theorem after_foldl_declare (ds : List Stmt) (t : TypeTables) : After ds t (ds.foldl declare t) := by
  induction ds generalizing t with
  | nil => exact .refl t
  | cons d ds ih => exact (t.after_declare d).trans (ih (t.declare d))

end TypeTables

/-! ### What code leaves in the tables -/

/-- The class, interface or implementation that a node declares. -/
def Node.typeDeclaration? : Node → Option Stmt
  | .expr _ => none
  | .stmt s => if s.declaresType then some s else none

/-- The declarations of types among some nodes. -/
def typeDeclarations (os : List Occurrence) : List Stmt :=
  os.filterMap (·.node.typeDeclaration?)

theorem typeDeclarations_cons_none {n : Node} (h : n.typeDeclaration? = none)
    (a : List Enclosure) (os : List Occurrence) :
    typeDeclarations (⟨n, a⟩ :: os) = typeDeclarations os :=
  List.filterMap_cons_none h

theorem typeDeclarations_exprs (es : List Expr) (a : List Enclosure) (os : List Occurrence) :
    typeDeclarations (es.map (⟨.expr ·, a⟩) ++ os) = typeDeclarations os := by
  induction es with
  | nil => rfl
  | cons e es ih => exact (typeDeclarations_cons_none rfl a _).trans ih

namespace Check
variable {top : Bool} {a : List Enclosure} {os os' : List Occurrence}

/-- A step leaves the tables of types as the declarations of some code do in some order. Unless `top`,
the code is inside other code. -/
def Leaves (top : Bool) (_ : List Enclosure) ⦃α : Type⦄ (m : Check Custody α)
    (os : List Occurrence) : Prop :=
  ∀ s : State Custody, (top = false → s.scopes.atGlobal = false) →
    (m.after s).scopes.kinds = s.scopes.kinds ∧
      ∃ ds : List Stmt, ds.Perm (typeDeclarations os) ∧
        (m.after s).typeTables = ds.foldl TypeTables.declare s.typeTables

namespace Leaves
variable {α β : Type} {m : Check Custody α}

theorem of_same (h : Leaves top a m os) (hos : typeDeclarations os' = typeDeclarations os) :
    Leaves top a m os' := by
  intro s hs
  rw [hos]
  exact h s hs

theorem perm (h : Leaves top a m os) (hp : os.Perm os') : Leaves top a m os' := by
  intro s hs
  obtain ⟨hkinds, ds, hds, htables⟩ := h s hs
  exact ⟨hkinds, ds, hds.trans (hp.filterMap _), htables⟩

theorem seq {k : α → Check Custody β} (hm : Leaves top a m os)
    (hk : ∀ x, Leaves top a (k x) os') : Leaves top a (m >>= k) (os ++ os') := by
  intro s hs
  obtain ⟨hkinds, ds, hds, htables⟩ := hm s hs
  have hs' : top = false → (m.after s).scopes.atGlobal = false :=
    fun htop => (Scopes.atGlobal_of_kinds hkinds).trans (hs htop)
  obtain ⟨hkinds', ds', hds', htables'⟩ := hk (m.run s).1 (m.after s) hs'
  refine ⟨hkinds'.trans hkinds, ds ++ ds', ?_, ?_⟩
  · rw [typeDeclarations, List.filterMap_append]
    exact hds.append hds'
  · rw [List.foldl_append, ← htables]
    exact htables'

/-- A step that keeps the scopes and the tables. -/
theorem of_kept (h : ∀ s : State Custody, (m.after s).scopes.kinds = s.scopes.kinds ∧
    (m.after s).typeTables = s.typeTables) : Leaves top a m [] :=
  fun s _ => ⟨(h s).1, [], .refl _, (h s).2⟩

theorem of_undeclaring {A : Cause → Bool} (hreports : Reports A m) (hdeclared : Undeclaring m m) :
    Leaves top a m [] := by
  refine of_kept fun s => ⟨(hreports s).1, ?_⟩
  have htables : (m.after s).typeTables = ⟨(m.after s).declared.classes,
      (m.after s).declared.interfaces, (m.after s).declared.impls⟩ := rfl
  rw [htables, hdeclared s]
  rfl

theorem recorded {m : Check Custody Ty} (hm : Leaves top a m os) (span : Span) :
    Leaves top a (recorded span m) os :=
  fun s hs => hm s hs

end Leaves

theorem leaves_await (ty : Ty) (operand span : Span) : Leaves top a (await ty operand span) [] :=
  .of_undeclaring (reports_await allows_known rfl ty operand span)
    (undeclaring_core.await ty operand span)

theorem leaves_jump (word : Keyword) (span : Span) : Leaves top a (jump word span) [] :=
  .of_undeclaring (reports_jump (A := fun _ => true) rfl span) (undeclaring_core.jump word span)

theorem leaves_signature (sig : Signature) : Leaves top a (signature sig) [] :=
  .of_kept fun _ => ⟨rfl, rfl⟩

theorem leaves_declaredSignature (span : Span) (sig : Signature) :
    Leaves top a (declaredSignature span sig) [] := by
  refine .of_kept fun s => ?_
  unfold after
  cases hs : s.signature? span with
  | none =>
    rw [run_declaredSignature_none hs]
    exact ⟨rfl, rfl⟩
  | some f =>
    rw [run_declaredSignature_some hs]
    exact ⟨rfl, rfl⟩

theorem leaves_tally : Tally Leaves where
  perm := Leaves.perm
  seq := Leaves.seq
  get hk s := hk s s
  quiet h := .of_undeclaring h.reports h.declared
  inFrame {_ _ kind _} _ _ _ hm s hs := by
    obtain ⟨hkinds, hds⟩ := hm (s.enterFrame kind) fun _ => rfl
    exact ⟨Scopes.kinds_pop hkinds, hds⟩
  inBlock hm s hs := by
    obtain ⟨hkinds, hds⟩ := hm s.enterBlock fun _ => rfl
    exact ⟨Scopes.kinds_pop hkinds, hds⟩
  returning expected _ _ hm s hs := hm { s with returns := expected :: s.returns } hs
  exprNode e _ _ _ hm := by
    refine (hm.recorded e.span).of_same ?_
    rw [typeDeclarations_cons_none rfl, typeDeclarations_exprs]
  awaitNode span e m os hm := by
    have hboth := hm.seq fun ty => leaves_await ty e.span span
    rw [List.append_nil] at hboth
    exact (hboth.recorded span).of_same (typeDeclarations_cons_none rfl _ _)
  lambdaNode span sig b k os hk :=
    (((leaves_signature sig).seq hk).recorded span).of_same (typeDeclarations_cons_none rfl _ _)
  stmtNode s hs m os hm := by
    refine hm.of_same (typeDeclarations_cons_none ?_ _ _)
    cases s with
    | bind | brk | cont | fn | classDecl | interfaceDecl | implDecl => cases hs
    | _ => rfl
  binding {top a} span mutable name type e value := by
    have hbinding : Leaves top a (bindingTy type value e.span) [] :=
      .of_undeclaring (reports_bindingTy (A := fun _ => true) (fun _ _ => rfl) (fun _ => rfl) type
        value e.span) (undeclaring_core.bindingTy type value e.span)
    exact hbinding.of_same (typeDeclarations_cons_none rfl _ _)
  brk span := (leaves_jump .breakKw span).of_same (typeDeclarations_cons_none rfl _ _)
  cont span := (leaves_jump .continueKw span).of_same (typeDeclarations_cons_none rfl _ _)

/-! ### Declarations that are come to -/

/-- A declaration by itself has the effect of one entry in the tables. -/
theorem typeTables_declareTypes {st : Stmt} (hst : st.declaresType = true) (s : State Custody) :
    ((declareTypes [st]).after s).typeTables = s.typeTables.declare st := by
  have hsteps : (declareTypes [st]).after s =
      (declareImpl st).after ((declareClass st).after ((declareInterface st).after (s.reserve st))) :=
    rfl
  rw [hsteps, after_reserve, after_declareInterface, after_declareClass, after_declareImpl]
  cases st with
  | classDecl span name fields ms =>
    exact congrArg (fun classes => (⟨classes, s.interfaces, s.impls⟩ : TypeTables))
      (s.classes.insert_reserve name.name _ _)
  | interfaceDecl span name heads =>
    exact congrArg (fun interfaces => (⟨s.classes, interfaces, s.impls⟩ : TypeTables))
      (s.interfaces.insert_reserve name.name _ _)
  | implDecl span interface target ms =>
    change (((Stmt.implDecl span interface target ms).declaringImpl s.typeNames).apply s).typeTables = _
    rw [Stmt.declaringImpl, TypeTables.declare]
    have hisClass : s.typeNames.isClass target.name = s.typeTables.classes.contains target.name := rfl
    cases hcls : s.typeTables.classes.contains target.name with
    | true =>
      have himpls : (if s.interfaces.contains interface.name then [(target.name, interface.name)]
            else []) ++ s.impls =
          if true && s.interfaces.contains interface.name then
            (target.name, interface.name) :: s.impls
          else s.impls := by
        cases s.interfaces.contains interface.name <;> rfl
      rw [if_pos (hisClass.trans hcls)]
      exact congrArg (fun impls => (⟨_, s.interfaces, impls⟩ : TypeTables)) himpls
    | false =>
      rw [if_neg (by rw [hisClass, hcls]; exact Bool.false_ne_true), Table.adjust_of_not_contains hcls]
      rfl
  | _ => cases hst

theorem leaves_declareHere {st : Stmt} (hst : st.declaresType = true) :
    Leaves false a (declareHere st) [⟨.stmt st, a⟩] := by
  intro s hs
  have hafter : (declareHere st).after s = (declareTypes [st]).after s := by
    change ((if !s.scopes.atGlobal then declareTypes [st] else pure () : Check Custody Unit).run s).2 = _
    rw [hs rfl]
    rfl
  have hnode : typeDeclarations [⟨.stmt st, a⟩] = [st] :=
    List.filterMap_cons_some (if_pos hst)
  rw [hafter, hnode]
  refine ⟨?_, [st], .refl _, typeTables_declareTypes hst s⟩
  exact (reports_declareTypes (A := fun _ => true) (fun _ => rfl) [st] s).1

theorem leaves_fn (span : Span) (name : Ident) (sig : Signature) (b : Block)
    (hb : Leaves false (.function sig.async :: a) (body b) (b.placed (.function sig.async :: a))) :
    Leaves top a (stmt (.fn span name sig b)) ((Stmt.fn span name sig b).placed a) := by
  have h := leaves_tally
  rw [Check.stmt]
  refine Leaves.of_same ?_ (typeDeclarations_cons_none rfl _ _)
  refine h.free_then (leaves_declaredSignature span sig) fun f => ?_
  exact h.quiet_then (quiet_bind _ _) fun _ => h.function sig f none hb

theorem leaves_inside : Declarations Leaves false where
  fn := leaves_fn
  classDecl span name fields ms hfields hms := by
    have h := leaves_tally
    rw [Check.stmt]
    refine (leaves_declareHere rfl).seq fun _ => h.get fun s => ?_
    exact (hfields _).seq fun _ => h.methods leaves_declaredSignature _ hms
  interfaceDecl span name heads := by
    rw [Check.stmt]
    exact leaves_declareHere rfl
  implDecl span interface target ms hms := by
    have h := leaves_tally
    rw [Check.stmt]
    refine (leaves_declareHere rfl).seq fun _ => ?_
    refine h.quiet_then (quiet_plain.implementation _ _ _ _) fun _ => ?_
    exact h.get fun s => h.methods leaves_declaredSignature _ hms

theorem leaves_reckoning : Reckoning Leaves :=
  ⟨leaves_tally, leaves_inside⟩

end Check

namespace Piece

/-- A piece of code with all code inside it. -/
def placed (a : List Enclosure) : Piece → List Occurrence
  | .expr e => e.placed a
  | .stmt s => s.placed a
  | .cond c => c.placed a
  | .block b => b.placed a
  | .body b => b.placed a

/-- The declarations of types in a piece of code. -/
def typeDeclarations (q : Piece) : List Stmt :=
  CarvFront.typeDeclarations (q.placed [])

/-- Code that declares types only inside it, wherever it stands: it is neither a declaration of a type
itself nor a list of statements in the scope around. -/
def encloses : Piece → Bool
  | .expr _ | .cond _ | .block _ => true
  | .stmt s => !s.declaresType
  | .body _ => false

end Piece

namespace Check

theorem leaves_piece_inside (q : Piece) : Leaves false [] (piece q) (q.placed []) := by
  have h := leaves_reckoning
  cases q with
  | expr e => exact h.then_quiet (h.expr e false []) fun _ => quiet_pure _
  | stmt s => exact h.stmt s false [] fun _ => h.inner
  | cond c => exact h.conditional c false []
  | block b => exact h.block b false []
  | body b => exact h.body b []

theorem leaves_piece {q : Piece} (hq : q.encloses = true) :
    Leaves true [] (piece q) (q.placed []) := by
  have h := leaves_reckoning
  cases q with
  | expr e => exact h.then_quiet (h.expr e true []) fun _ => quiet_pure _
  | stmt s =>
    cases s with
    | fn span name sig b => exact leaves_fn span name sig b (h.body b _)
    | classDecl | interfaceDecl | implDecl => cases hq
    | _ => exact h.stmt _ true [] fun hdecl => by cases hdecl
  | cond c => exact h.conditional c true []
  | block b => exact h.block b true []
  | body b => cases hq

/-- Whatever code is checked inside other code, a function, a loop, a block, a lambda or the body of a
method, the types that are known after it are those that the declarations inside it leave, one
after the other. Types that no declaration inside names are as they were before; classes and
interfaces that are declared inside are so for all code that follows, whatever the name stood for
before. -/
theorem types_outlast (q : Piece) (s : State Custody)
    (h : q.encloses = true ∨ s.scopes.atGlobal = false) :
    ∃ ds : List Stmt, ds.Perm q.typeDeclarations ∧
      ((piece q).after s).typeTables = ds.foldl TypeTables.declare s.typeTables ∧
      TypeTables.After ds s.typeTables ((piece q).after s).typeTables := by
  have hleaves : ∃ ds : List Stmt, ds.Perm q.typeDeclarations ∧
      ((piece q).after s).typeTables = ds.foldl TypeTables.declare s.typeTables := by
    obtain hq | hs := h
    · exact (leaves_piece hq s fun htop => by cases htop).2
    · exact (leaves_piece_inside q s fun _ => hs).2
  obtain ⟨ds, hperm, htables⟩ := hleaves
  refine ⟨ds, hperm, htables, ?_⟩
  rw [htables]
  exact TypeTables.after_foldl_declare ds s.typeTables

end Check

/-! ### A class that is declared again inside a function -/

namespace Program

theorem visits_stmt {τ : Type} [Tracking τ] {p : Program} {n : Nat} {t : Stmt}
    (h : p.stmts[n]? = some t) :
    p.Visits (τ := τ) (.stmt t) ((Check.stmts (p.stmts.take n)).after p.hoisted) := by
  obtain ⟨hn, ht⟩ := List.getElem?_eq_some_iff.mp h
  have hstmts : p.stmts = p.stmts.take n ++ t :: p.stmts.drop (n + 1) := by
    rw [← ht, List.getElem_cons_drop, List.take_append_drop]
  have hwhole : p.Visits (τ := τ) (.body ⟨p.span, p.stmts.take n ++ t :: p.stmts.drop (n + 1)⟩)
      p.hoisted := hstmts ▸ .whole
  exact hwhole.part .inBody

/-- A class, and a function with a class of the same name. -/
def namesakeSource : Source where
  name := "main.carv"
  text := "class C \x7b x: int \x7d\nfn f() \x7b class C \x7b y: string \x7d \x7d\n"
    ++ "let c = new C \x7b x: 1 \x7d;\n"

/-- The program of that text. -/
def namesakes : Program :=
  (ofSource namesakeSource).1

/-- The state in which the function is come to. -/
def beforeNamesake : State Custody :=
  (Check.stmts (namesakes.stmts.take 1)).after namesakes.hoisted

theorem types_outlast_namesake :
    ∃ t : Stmt, namesakes.Visits (.stmt t) beforeNamesake ∧ (Piece.stmt t).encloses = true ∧
      ∃ ds : List Stmt, ds.Perm (Piece.stmt t).typeDeclarations ∧
        ((Check.piece (.stmt t)).after beforeNamesake).typeTables =
          ds.foldl TypeTables.declare beforeNamesake.typeTables ∧
        TypeTables.After ds beforeNamesake.typeTables
          ((Check.piece (.stmt t)).after beforeNamesake).typeTables := by
  have hstmt : namesakes.stmts[1]?.map (Piece.stmt · |>.encloses) = some true := by decide +kernel
  obtain ⟨t, ht, hencloses⟩ := Option.map_eq_some_iff.mp hstmt
  exact ⟨t, visits_stmt ht, hencloses, Check.types_outlast _ _ (.inl hencloses)⟩

/-- The fields of a class in the order of their names. -/
def fieldNames (s : State Custody) (cls : String) : Option (List String) :=
  (s.classes.find? cls).map (·.fields.names)

/-- Before the function the class has the field `x`, after it the field `y`. The object that is made
later has a field that its class, as it stands around it, declares; but that is reported. -/
theorem class_not_restored :
    (ofSource namesakeSource).2.totalErrors = 0 ∧
    (∃ t : Stmt, namesakes.Visits (.stmt t) beforeNamesake ∧ t.functionNames = ["f"] ∧
      fieldNames beforeNamesake "C" = some ["x"] ∧
      fieldNames ((Check.piece (.stmt t)).after beforeNamesake) "C" = some ["y"]) ∧
    (namesakes.check {}).errors = [⟨3, 17, .error, .unknownMember, "class 'C' has no field 'x'"⟩] := by
  have hstmt : namesakes.stmts[1]?.map (fun t => (t.functionNames,
      fieldNames ((Check.piece (.stmt t)).after beforeNamesake) "C")) = some (["f"], some ["y"]) := by
    decide +kernel
  obtain ⟨t, ht, hfacts⟩ := Option.map_eq_some_iff.mp hstmt
  obtain ⟨hname, hfields⟩ := Prod.mk.inj hfacts
  exact ⟨by decide +kernel, ⟨t, visits_stmt ht, hname, by decide +kernel, hfields⟩,
    by decide +kernel⟩

end Program
end CarvFront
