import CarvFront.Proofs.KnownTypes
import CarvFront.Proofs.MethodSets
import CarvFront.Proofs.NestedTypes
import CarvFront.Proofs.ReadingAhead

/-! Types with a name are always registered: wherever checking a program comes to, every class and
every interface that occurs in a type is in the tables. So a member is never looked for in a class
or an interface that is not there, and a class is there when it is come to. What is there under the
name of the class may be another declaration of it. -/
namespace CarvFront

/-! ### The start -/

namespace State
variable {τ : Type} {n : TypeNames}

theorem scopes_foldl_define {g : Scopes → String × FnTy → Scopes}
    (hg : ∀ scopes e, g scopes e = scopes.define e.1 e.2.toTy) {es : List (String × FnTy)}
    (hes : ∀ e ∈ es, n.Knows e.2.toTy) {scopes : Scopes}
    (h : ∀ scope ∈ scopes.toList, scope.names.All n.Knows) :
    ∀ scope ∈ (es.foldl g scopes).toList, scope.names.All n.Knows := by
  induction es generalizing scopes with
  | nil => exact h
  | cons e es ih =>
    obtain ⟨he, hes⟩ := List.forall_mem_cons.mp hes
    obtain ⟨hinner, houter⟩ := List.forall_mem_cons.mp h
    apply ih hes
    rw [hg]
    exact List.forall_mem_cons.mpr ⟨hinner.insert e.1 he, houter⟩

theorem registered_start [Tracking τ] : (start : State τ).Registered where
  scopes := by
    refine scopes_foldl_define (fun _ _ => rfl) (fun e he => TypeNames.knows_of_nil ?_) ?_
    · exact Builtin.nominals_tables Builtin.globals List.mem_cons_self e he
    · exact List.forall_mem_singleton.mpr Table.all_empty
  classes := Table.all_empty
  interfaces := Table.all_empty
  signatures := List.forall_mem_nil _
  returns _ h := absurd h List.not_mem_nil
  types := List.forall_mem_nil _

end State

/-! ### The points of a walk -/

namespace Check
variable {τ α : Type} {s s' : State τ}
variable {n : TypeNames}

theorem Sound.registered {Q : TypeNames → α → Prop} {m : Check τ α} (hm : Sound s.typeNames Q m)
    (hs : s.Registered) : (m.after s).Registered :=
  (hm s hs (.refl _)).1

theorem Keeping.registered {m : Check τ α} (hm : Keeping s.typeNames m) (hs : s.Registered) :
    (m.after s).Registered :=
  Sound.registered hm hs

variable [Tracking τ]

theorem registered_enterFrame (hs : s.Registered) (kind : ScopeKind) : (s.enterFrame kind).Registered :=
  { hs with scopes := hs.push kind }

theorem registered_enterBlock (hs : s.Registered) : s.enterBlock.Registered :=
  { hs with scopes := hs.push .block }

theorem knowsSelf_none : KnowsSelf n none := by
  intro ty h
  cases h

theorem keeping_openDeclared (span : Span) (sig : Signature) {self? : Option Ty}
    (hself : KnowsSelf n self?) : Keeping n (openDeclared span sig self? : Check τ Unit) :=
  (sound_declaredSignature span sig).seq fun _ _ hn hf =>
    keeping_openFunction sig hf fun ty hty => (hself ty hty).mono hn

/-- Methods of a class or an implementation up to the one that is come to. -/
theorem keeping_openMethod {owner : Ty} (howner : n.Knows owner) (pre : List Method) (m : Method) :
    Keeping n (do
      methods owner pre
      openDeclared m.span m.sig (m.receiver.self? owner) : Check τ Unit) :=
  (keeping_methods (keeping_bodies pre) howner).seq fun _ _ hn _ =>
    keeping_openDeclared _ _ (knows_self (howner.mono hn) _)

/-- Where a piece of code comes to one of its parts, all types are still registered. -/
theorem Calls.registered {q q' : Piece} (hc : Calls s q q' s') (hs : s.Registered) :
    s'.Registered := by
  cases hc with
  | hole => exact (keeping_parts _ _).registered hs
  | element => exact (sound_exprs _ _).registered hs
  | key => exact (sound_entries _ _).registered hs
  | value => exact ((sound_entries _ _).seq fun n' _ _ _ => sound_expr _ n').registered hs
  | argument =>
    refine Keeping.registered ((sound_expr _ _).seq fun _ ty _ hty => ?_) hs
    exact (sound_openCall _ hty _ _).seq fun n' call _ _ => keeping_arguments call 0 _ n'
  | index => exact (sound_expr _ _).registered hs
  | right => exact (sound_expr _ _).registered hs
  | piped =>
    exact ((sound_expr _ _).seq fun _ ty _ hty => sound_openCall _ hty _ _).registered hs
  | pipeArgument =>
    refine Keeping.registered ((sound_expr _ _).seq fun _ ty _ hty => ?_) hs
    refine (sound_openCall _ hty _ _).seq fun n₁ call _ _ => (sound_expr _ n₁).seq fun _ first _ _ => ?_
    exact (remarks_mute.pass call 0 _ first).keeping.seq fun n₂ _ _ _ => keeping_arguments call 1 _ n₂
  | pipedOther =>
    exact ((sound_expr _ _).seq fun _ ty _ hty => sound_openCall _ hty _ _).registered hs
  | targetObject => exact (sound_expr _ _).registered hs
  | targetCollection => exact (sound_expr _ _).registered hs
  | targetIndex => exact ((sound_expr _ _).seq fun n' _ _ _ => sound_expr _ n').registered hs
  | targetOther => exact (sound_expr _ _).registered hs
  | field =>
    refine Keeping.registered (sound_get fun s _ _ => (remarks_mute.demand _ _ _).keeping.seq fun n' _ _ _ => ?_) hs
    exact keeping_initialisers _ _ _ n'
  | lambda =>
    exact ((sound_signature _).seq fun _ _ _ hf =>
      keeping_openFunction _ hf knowsSelf_none).registered hs
  | function =>
    refine Keeping.registered ((sound_declaredSignature _ _).seq fun _ f _ hf => ?_) hs
    exact (keeping_bind _ hf).seq fun _ _ hn _ => keeping_openFunction _ (hf.mono hn) knowsSelf_none
  | init => exact registered_enterFrame hs .loop
  | test => exact (keeping_loopInit _ _).registered (registered_enterFrame hs .loop)
  | turn =>
    refine Keeping.registered ((keeping_loopInit _ _).seq fun n' _ _ _ => ?_)
      (registered_enterFrame hs .loop)
    exact keeping_loopTest _ n'
  | post =>
    refine Keeping.registered ((keeping_loopInit _ _).seq fun n₁ _ _ _ => ?_)
      (registered_enterFrame hs .loop)
    exact (keeping_loopTest _ n₁).seq fun n₂ _ _ _ => keeping_block _ n₂
  | items => exact registered_enterFrame hs .loop
  | itemTurn =>
    refine Keeping.registered ((sound_expr _ _).seq fun _ ty _ hty => ?_)
      (registered_enterFrame hs .loop)
    exact keeping_bind _ (hty.of_subset ty.nominals_items)
  | whileTest => exact registered_enterFrame hs .loop
  | whileTurn =>
    exact ((sound_expr _ _).seq fun _ _ _ _ => (remarks_mute.demand _ _ _).keeping).registered
      (registered_enterFrame hs .loop)
  | loopTurn => exact registered_enterFrame hs .loop
  | fieldDefault =>
    refine Keeping.registered ((keeping_declareHere _).seq fun _ _ _ _ => sound_get fun s _ _ => ?_) hs
    exact keeping_defaults _ _ _
  | method =>
    refine Keeping.registered ((keeping_declareHere _).seq fun _ _ _ _ => sound_get fun s _ _ => ?_) hs
    refine (keeping_defaults _ _ _).seq fun _ _ hn _ => ?_
    exact keeping_openMethod ((knows_ownerTy fun h => h).mono hn) _ _
  | implMethod =>
    refine Keeping.registered ((keeping_declareHere _).seq fun _ _ _ _ => ?_) hs
    refine (remarks_mute.implementation _ _ _ _).keeping.seq fun _ _ _ _ => sound_get fun s _ _ => ?_
    exact keeping_openMethod (knows_ownerTy fun h => h) _ _
  | chosen => exact ((sound_expr _ _).seq fun _ _ _ _ => (remarks_mute.demand _ _ _).keeping).registered hs
  | otherwise =>
    refine Keeping.registered ((sound_expr _ _).seq fun _ _ _ _ => ?_) hs
    exact (remarks_mute.demand _ _ _).keeping.seq fun n' _ _ _ => keeping_block _ n'
  | elseIf =>
    refine Keeping.registered ((sound_expr _ _).seq fun _ _ _ _ => ?_) hs
    exact (remarks_mute.demand _ _ _).keeping.seq fun n' _ _ _ => keeping_block _ n'
  | inBlock => exact (keeping_stmts _ _).registered (registered_enterBlock hs)
  | inBody => exact (keeping_stmts _ _).registered hs
  -- The other parts are the first ones that are checked.
  | _ => exact hs

theorem keeping_piece (n : TypeNames) (q : Piece) : Keeping n (piece q : Check τ Unit) := by
  cases q with
  | expr e => exact (sound_expr e n).seq fun _ _ _ _ => keeping_pure ()
  | stmt s => exact keeping_stmt s n
  | cond c => exact keeping_conditional c n
  | block b => exact keeping_block b n
  | body b => exact keeping_body b n

theorem keeping_hoist (n : TypeNames) (st : Stmt) : Keeping n (hoist st : Check τ Unit) := by
  unfold hoist
  split
  · refine (sound_signature _).seq fun _ f _ hf => ?_
    exact (keeping_keepSignature _ hf).seq fun _ _ hn _ => keeping_bind _ (hf.mono hn)
  · exact keeping_pure ()

end Check

namespace Program
variable {τ : Type} [Tracking τ]
variable {p : Program} {s : State τ}

/-- The states in which declarations of a program are read ahead: names are reserved first, then
interfaces, classes, implementations and functions are declared, some of them already. -/
inductive ReadsAhead (p : Program) : State τ → Prop where
  | reserved {pre post : List Stmt} (h : p.stmts = pre ++ post) :
    ReadsAhead p (pre.foldl State.reserve .start)
  | interfaces {pre post : List Stmt} (h : p.stmts = pre ++ post) :
    ReadsAhead p ((pre.forM Check.declareInterface).after (p.stmts.foldl State.reserve .start))
  | classes {pre post : List Stmt} (h : p.stmts = pre ++ post) :
    ReadsAhead p (Check.after (do
      p.stmts.forM Check.declareInterface
      pre.forM Check.declareClass) (p.stmts.foldl State.reserve .start))
  | implementations {pre post : List Stmt} (h : p.stmts = pre ++ post) :
    ReadsAhead p (Check.after (do
      p.stmts.forM Check.declareInterface
      p.stmts.forM Check.declareClass
      pre.forM Check.declareImpl) (p.stmts.foldl State.reserve .start))
  | functions {pre post : List Stmt} (h : p.stmts = pre ++ post) :
    ReadsAhead p (Check.after (do
      Check.declareTypes p.stmts
      pre.forM Check.hoist) .start)

/-- The states that checking a program goes through. -/
def Reaches (p : Program) (s : State τ) : Prop :=
  p.ReadsAhead s ∨ p.Passes s

theorem ReadsAhead.registered (h : p.ReadsAhead s) : s.Registered := by
  have hstart := State.registered_start (τ := τ)
  have hreserved := (hstart.reserveAll p.stmts).1
  have hinterfaces {n : TypeNames} (ss : List Stmt) :
      Check.Keeping n (ss.forM Check.declareInterface : Check τ Unit) :=
    Check.keeping_forM fun st _ _ => Check.keeping_declareInterface st
  have hclasses {n : TypeNames} (ss : List Stmt) :
      Check.Keeping n (ss.forM Check.declareClass : Check τ Unit) :=
    Check.keeping_forM fun st _ _ => Check.keeping_declareClass st
  cases h with
  | reserved => exact (hstart.reserveAll _).1
  | interfaces => exact (hinterfaces _).registered hreserved
  | classes =>
    exact ((hinterfaces _).seq fun _ _ _ _ => hclasses _).registered hreserved
  | implementations =>
    refine Check.Keeping.registered ((hinterfaces _).seq fun _ _ _ _ => (hclasses _).seq ?_) hreserved
    exact fun _ _ _ _ => Check.keeping_forM fun st _ _ => Check.keeping_declareImpl st
  | functions =>
    refine Check.Keeping.registered ((Check.keeping_declareTypes _).seq fun _ _ _ _ => ?_) hstart
    exact Check.keeping_forM fun st _ n => Check.keeping_hoist n st

theorem Visits.registered {q : Piece} (h : p.Visits q s) : s.Registered := by
  induction h with
  | whole => exact (ReadsAhead.functions (List.append_nil _).symm).registered
  | part _ hc ih => exact hc.registered ih

theorem Reaches.registered (h : p.Reaches s) : s.Registered := by
  obtain h | ⟨q, s₀, hv, rfl | rfl⟩ := h
  · exact h.registered
  · exact hv.registered
  · exact (Check.keeping_piece _ q).registered hv.registered

end Program

/-! ### Statements of the program itself -/

namespace Check
variable {s : State Custody}

theorem atGlobal_stmts (ss : List Stmt) (s : State Custody) :
    ((stmts ss).after s).scopes.atGlobal = s.scopes.atGlobal := by
  rw [Scopes.atGlobal, (contained_congruence.stmts ss s).outer]
  rfl

/-- Steps that end inside other code. -/
def EndsInside {α : Type} (m : Check Custody α) : Prop :=
  ∀ s : State Custody, (m.after s).scopes.atGlobal = false

theorem EndsInside.seq {α β : Type} {m : Check Custody α} {k : α → Check Custody β}
    (hk : ∀ a, EndsInside (k a)) : EndsInside (m >>= k) :=
  fun s => hk (m.run s).1 (m.after s)

theorem endsInside_openFunction (sig : Signature) (f : FnTy) (self? : Option Ty) :
    EndsInside (openFunction sig f self?) := by
  intro s
  have hparams (s : State Custody) :
      ((bindAll sig.params f.params).after s).scopes.outer = s.scopes.outer :=
    (contained_congruence.bindAll sig.params f.params s).outer
  have hbody (s' : State Custody) (hs' : s'.scopes.outer = s.scopes.toList) :
      ((bindAll sig.params f.params).after s').scopes.outer.isEmpty = false := by
    rw [hparams, hs']
    rfl
  cases self? with
  | none => exact hbody (s.enterFrame _) rfl
  | some ty => exact hbody ((s.enterFrame _).bind "self" ty) rfl

end Check

namespace Program
variable {p : Program} {s : State Custody}

/-- Where the innermost scope is that of the program, statements are those of the program, and the
statements before them have been checked. -/
def Outermost (p : Program) (s : State Custody) : Piece → Prop
  | .body b => s.scopes.atGlobal = true → b = ⟨p.span, p.stmts⟩ ∧ s = p.hoisted
  | .stmt t => s.scopes.atGlobal = true →
    ∃ pre post, p.stmts = pre ++ t :: post ∧ s = (Check.stmts pre).after p.hoisted
  | _ => True

theorem Visits.outermost {q : Piece} (h : p.Visits q s) : p.Outermost s q := by
  have hinside {s : State Custody} {P : Prop} (hs : s.scopes.atGlobal = false)
      (hg : s.scopes.atGlobal = true) : P := absurd (hs.symm.trans hg) Bool.false_ne_true
  have hopen := Check.endsInside_openFunction
  induction h with
  | whole => exact fun _ => ⟨rfl, rfl⟩
  | part _ hc ih =>
    cases hc with
    | lambda => exact hinside (Check.EndsInside.seq (hopen _ · none) _)
    | function => exact hinside (Check.EndsInside.seq (fun f => .seq fun _ => hopen _ f none) _)
    | method =>
      refine hinside (Check.EndsInside.seq (fun _ => .seq fun s => .seq fun _ => ?_) _)
      exact .seq fun _ => .seq fun f => hopen _ f _
    | implMethod =>
      refine hinside (Check.EndsInside.seq (fun _ => .seq fun _ => .seq fun s => ?_) _)
      exact .seq fun _ => .seq fun f => hopen _ f _
    | init => exact hinside rfl
    | inBlock => exact hinside (Check.atGlobal_stmts _ _)
    | inBody =>
      intro hg
      rw [Check.atGlobal_stmts] at hg
      obtain ⟨hb, rfl⟩ := ih hg
      exact ⟨_, _, (congrArg Block.stmts hb).symm, rfl⟩
    | _ => trivial

end Program

/-! ### Where the fields of a class come from -/

namespace Stmt

def isClass : Stmt → Bool
  | .classDecl _ _ _ _ => true
  | _ => false

/-- The fields that a class is declared with. -/
def fieldNames : Stmt → List String
  | .classDecl _ _ fields _ => fields.map (·.name.name)
  | _ => []

theorem declaresType_of_isClass {st : Stmt} (h : st.isClass = true) : st.declaresType = true := by
  cases st with
  | classDecl => rfl
  | _ => cases h

end Stmt

namespace TypeTables
variable {D ds : List Stmt} {t t' : TypeTables}

theorem HasFields.declared {name : String} {d : Stmt} (h : t.HasFields name d) :
    ∃ c, t.classes.find? name = some c ∧ d.classNames = [name] ∧
      ∀ f, c.fields.contains f = true ↔ f ∈ d.fieldNames := by
  obtain ⟨span, cls, fields, ms, c, rfl, rfl, hc, hfields⟩ := h
  exact ⟨c, hc, rfl, hfields⟩

/-- Every class has the fields that one of some declarations gives it. -/
def FieldsFrom (D : List Stmt) (t : TypeTables) : Prop :=
  ∀ name, t.classes.contains name = true → ∃ d ∈ D, t.HasFields name d

theorem FieldsFrom.after (h : t.FieldsFrom D) (hds : ds ⊆ D) (ht : After ds t t') :
    t'.FieldsFrom D := by
  intro name hname
  by_cases hdeclared : name ∈ ds.flatMap Stmt.classNames
  · obtain ⟨d, hd, hfields⟩ := ht.declaredClass hdeclared
    exact ⟨d, hds hd, hfields⟩
  · have hsame := ht.fields hdeclared
    have hold : t.classes.contains name = true := by
      have hsome := congrArg Option.isSome hsame
      rw [Option.isSome_map, Option.isSome_map] at hsome
      exact hsome.symm.trans hname
    obtain ⟨d, hd, hfields⟩ := h name hold
    exact ⟨d, hd, hfields.of_same hsame⟩

end TypeTables

namespace Check
open TypeTables
variable {s : State Custody}

/-- Classes that are declared ahead have the fields of a declaration. -/
theorem after_forM_declareClass (ss : List Stmt) (s : State Custody) :
    After (ss.filter Stmt.isClass) s.typeTables ((ss.forM declareClass).after s).typeTables := by
  induction ss generalizing s with
  | nil => exact .refl _
  | cons st ss ih =>
    have hrest := ih ((declareClass st).after s)
    cases st with
    | classDecl span cls fields ms =>
      have hfirst : After [.classDecl span cls fields ms] s.typeTables
          ((declareClass (.classDecl span cls fields ms)).after s).typeTables := by
        rw [after_declareClass]
        exact s.typeTables.after_insertClass span cls fields ms _ _
      exact hfirst.trans hrest
    | _ => exact hrest

theorem Leaves.after {top : Bool} {a : List Enclosure} {α : Type} {m : Check Custody α}
    {os : List Occurrence} (h : Leaves top a m os) (hs : top = false → s.scopes.atGlobal = false) :
    ∃ ds ⊆ typeDeclarations os, After ds s.typeTables (m.after s).typeTables := by
  obtain ⟨-, ds, hds, htables⟩ := h s hs
  refine ⟨ds, hds.subset, ?_⟩
  rw [htables]
  exact after_foldl_declare ds s.typeTables

/-- A statement of the program itself adds only what is declared in the code inside it. -/
theorem after_stmt (st : Stmt) (hg : s.scopes.atGlobal) :
    ∃ ds ⊆ typeDeclarations (st.placed []), After ds s.typeTables ((stmt st).after s).typeTables := by
  have h := leaves_reckoning
  have hnone : true = false → s.scopes.atGlobal = false := fun htop => by cases htop
  cases hst : st.declaresType with
  | false =>
    have hencloses : (Piece.stmt st).encloses = true := by rw [Piece.encloses, hst]; rfl
    exact (leaves_piece hencloses).after hnone
  | true => ?_
  cases st with
  | classDecl span name fields ms =>
    have hinner : Leaves true [] (do
        let c := (← get).classes.find? name.name
        defaults c fields
        methods (ownerTy c name.name) ms) (placedFields [] fields ++ placedMethods [] ms) :=
      h.get fun s => (h.defaults _ fields true []).seq fun _ =>
        h.methods leaves_declaredSignature _ (h.bodies ms [])
    obtain ⟨ds, hds, hafter⟩ := hinner.after hnone
    refine ⟨ds, fun d hd => List.mem_cons_of_mem _ (hds hd), ?_⟩
    rw [stmt, after_bind, after_declareHere hg]
    exact hafter
  | interfaceDecl span name heads =>
    refine ⟨[], List.nil_subset _, ?_⟩
    rw [stmt, after_declareHere hg]
    exact .refl _
  | implDecl span interface target ms =>
    have hinner : Leaves true [] (do
        implementation interface target ms span
        let c := (← get).classes.find? target.name
        methods (ownerTy c target.name) ms) (placedMethods [] ms) := by
      refine h.quiet_then (quiet_plain.implementation _ _ _ _) fun _ => ?_
      exact h.get fun s => h.methods leaves_declaredSignature _ (h.bodies ms [])
    obtain ⟨ds, hds, hafter⟩ := hinner.after hnone
    refine ⟨ds, fun d hd => List.mem_cons_of_mem _ (hds hd), ?_⟩
    rw [stmt, after_bind, after_declareHere hg]
    exact hafter
  | _ => cases hst

theorem fieldsFrom_stmts {D : List Stmt} {ss : List Stmt}
    (hss : ∀ st ∈ ss, typeDeclarations (st.placed []) ⊆ D) (hg : s.scopes.atGlobal)
    (hs : s.typeTables.FieldsFrom D) : ((stmts ss).after s).typeTables.FieldsFrom D := by
  induction ss generalizing s with
  | nil =>
    rw [stmts]
    exact hs
  | cons st ss ih =>
    obtain ⟨hst, hss⟩ := List.forall_mem_cons.mp hss
    obtain ⟨ds, hds, hafter⟩ := after_stmt st hg
    rw [stmts, after_bind]
    apply ih hss
    · rw [Scopes.atGlobal, (contained_congruence.stmt st s).outer]
      exact hg
    · exact hs.after (fun d hd => hst (hds hd)) hafter

end Check

theorem placed_subset {ss : List Stmt} {st : Stmt} (h : st ∈ ss) (a : List Enclosure) :
    st.placed a ⊆ placedStmts a ss := by
  induction ss with
  | nil => cases h
  | cons s ss ih =>
    rw [placedStmts]
    rcases List.mem_cons.mp h with rfl | h
    · exact List.subset_append_left _ _
    · exact List.subset_append_of_subset_right _ (ih h)

namespace Program
variable {p : Program}

/-- All classes, interfaces and implementations in a program, wherever they are declared. -/
def typeDeclarations (p : Program) : List Stmt :=
  CarvFront.typeDeclarations p.occurrences

theorem typeDeclarations_stmt {st : Stmt} (h : st ∈ p.stmts) :
    CarvFront.typeDeclarations (st.placed []) ⊆ p.typeDeclarations :=
  List.filterMap_subset _ (placed_subset h [])

theorem mem_typeDeclarations {st : Stmt} (h : st ∈ p.stmts) (hst : st.declaresType = true) :
    st ∈ p.typeDeclarations :=
  typeDeclarations_stmt h (List.mem_filterMap.mpr ⟨_, Check.mem_placed st [], if_pos hst⟩)

theorem mem_flatMap_isClass {ss : List Stmt} {name : String} (h : name ∈ ss.flatMap Stmt.classNames) :
    name ∈ (ss.filter Stmt.isClass).flatMap Stmt.classNames := by
  obtain ⟨st, hst, hname⟩ := List.mem_flatMap.mp h
  refine List.mem_flatMap.mpr ⟨st, List.mem_filter.mpr ⟨hst, ?_⟩, hname⟩
  cases st with
  | classDecl => rfl
  | _ => cases hname

/-- When the types and functions of a program are declared, every class has the fields of a
declaration. -/
theorem fieldsFrom_hoisted (p : Program) :
    (p.hoisted : State Custody).typeTables.FieldsFrom p.typeDeclarations := by
  intro name hname
  have hclass : name ∈ p.stmts.flatMap Stmt.classNames := by
    rw [← isClass_iff, ← p.declaring_hoisted.names]
    exact hname
  let s : State Custody :=
    (p.stmts.forM Check.declareInterface).after (p.stmts.foldl State.reserve .start)
  have hafter := Check.after_forM_declareClass p.stmts s
  obtain ⟨d, hd, hfields⟩ := hafter.declaredClass (mem_flatMap_isClass hclass)
  obtain ⟨hmem, hisClass⟩ := List.mem_filter.mp hd
  refine ⟨d, mem_typeDeclarations hmem (Stmt.declaresType_of_isClass hisClass), hfields.of_same ?_⟩
  -- Implementations add methods only, and functions change no class.
  obtain ⟨-, -, -, -, c, -, -, hc, -⟩ := hfields
  have hhoist := Check.settled_steps.forM p.stmts Check.settled_steps.hoist
    ((Check.declareTypes p.stmts).after (.start : State Custody))
  have himpls := Check.find?_forM_declareImpl p.declaring_classes.names hc p.stmts
  rw [← Check.after_declareTypes, ← hhoist.classes] at himpls
  change ((p.hoisted : State Custody).classes.find? name).map _ = _
  rw [hc]
  exact congrArg (Option.map (·.fields)) himpls

/-! ### Classes that are come to -/

variable {s : State Custody} {span : Span} {name : Ident} {fields : List Field} {ms : List Method}

/-- A class inside other code has just been declared. -/
theorem find?_class_inside (hs : s.scopes.atGlobal = false) :
    ∃ c, ((Check.declareHere (.classDecl span name fields ms)).after s).classes.find? name.name =
        some c ∧ ∀ f ∈ fields, c.fields.contains f.name.name = true := by
  let st : Stmt := .classDecl span name fields ms
  have hleaves : Check.Leaves false [] (Check.declareHere st) [⟨.stmt st, []⟩] :=
    Check.leaves_declareHere rfl
  obtain ⟨-, ds, hds, htables⟩ := hleaves s fun _ => hs
  have hafter := TypeTables.after_foldl_declare ds s.typeTables
  rw [← htables, List.perm_singleton.mp hds] at hafter
  obtain ⟨d, hd, hfields⟩ := hafter.declaredClass (List.mem_singleton_self name.name)
  cases List.mem_singleton.mp hd
  obtain ⟨c, hc, -, hcontains⟩ := hfields.declared
  exact ⟨c, hc, fun f hf => (hcontains _).mpr (List.mem_map_of_mem hf)⟩

/-- A class of the program itself was declared before, and may have the fields of another declaration
with its name. -/
theorem find?_class_outermost (hv : p.Visits (.stmt (.classDecl span name fields ms)) s)
    (hs : s.scopes.atGlobal = true) :
    ∃ c, ((Check.declareHere (.classDecl span name fields ms)).after s).classes.find? name.name =
        some c ∧ ∀ f ∈ fields, c.fields.contains f.name.name = true ∨
          ∃ d ∈ p.typeDeclarations, d.classNames = [name.name] ∧ f.name.name ∉ d.fieldNames := by
  obtain ⟨pre, post, hstmts, rfl⟩ := hv.outermost hs
  have hmem : .classDecl span name fields ms ∈ p.stmts := by
    rw [hstmts]
    exact List.mem_append_right _ List.mem_cons_self
  have hpre : ∀ st ∈ pre, CarvFront.typeDeclarations (st.placed []) ⊆ p.typeDeclarations := by
    intro st hst
    apply typeDeclarations_stmt
    rw [hstmts]
    exact List.mem_append_left _ hst
  let s₀ : State Custody := p.hoisted
  have hgrow : s₀.typeNames.Within ((Check.stmts pre).after s₀).typeNames :=
    (Check.keeping_stmts pre s₀.typeNames s₀ Visits.whole.registered (.refl _)).2.1
  have hclass : s₀.typeNames.has (.cls name.name) = true := by
    rw [p.declaring_hoisted.names]
    exact (namedIn_typeNames hmem).classes _ (List.mem_singleton_self _)
  have hfrom := Check.fieldsFrom_stmts hpre p.declaring_hoisted.atTop p.fieldsFrom_hoisted
  obtain ⟨d, hd, hfields⟩ := hfrom name.name (hgrow _ hclass)
  obtain ⟨c, hc, hnames, hcontains⟩ := hfields.declared
  refine ⟨c, ?_, fun f _ => ?_⟩
  · rw [Check.after_declareHere hs]
    exact hc
  · by_cases hf : f.name.name ∈ d.fieldNames
    · exact .inl ((hcontains _).mpr hf)
    · exact .inr ⟨d, hd, hnames, hf⟩

theorem knows_expr {e : Expr} (h : s.Registered) :
    ((Check.expr e).after s).typeNames.Knows ((Check.expr e).run s).1 :=
  (Check.sound_expr e s.typeNames s h (.refl _)).2.2

/-- All through the check of a program, every class and every interface in any type that is held, in
the scopes, the tables, the signatures that wait, the types to be returned or the types of expressions,
is in the tables, and so is every one in the type of an expression that is come to. Hence a member is
looked for only in a class or an interface that is there, and a class is there when it is come to. It
has all the fields it is declared with, unless it stands at the top of the program and another
declaration of a class of that name, somewhere in the program, lacks the field. -/
theorem nominals_registered (p : Program) :
    (∀ s : State Custody, p.Reaches s → s.Registered) ∧
    (∀ (e : Expr) (s : State Custody), p.Visits (.expr e) s →
      ((Check.expr e).after s).typeNames.Knows ((Check.expr e).run s).1) ∧
    (∀ (span : Span) (object : Expr) (name : Ident) (s : State Custody),
      p.Visits (.expr (.member span object name)) s →
        (∀ cls, ((Check.expr object).run s).1.target.1 = .cls cls →
          ((Check.expr object).after s).classes.contains cls = true) ∧
        (∀ interface, ((Check.expr object).run s).1.target.1 = .interface interface →
          ((Check.expr object).after s).interfaces.contains interface = true)) ∧
    (∀ (span : Span) (name : Ident) (fields : List Field) (ms : List Method) (s : State Custody),
      p.Visits (.stmt (.classDecl span name fields ms)) s →
        ∃ c, ((Check.declareHere (.classDecl span name fields ms)).after s).classes.find? name.name =
            some c ∧
          ∀ f ∈ fields, c.fields.contains f.name.name = true ∨
            s.scopes.atGlobal = true ∧ ∃ d ∈ p.typeDeclarations,
              d.classNames = [name.name] ∧ f.name.name ∉ d.fieldNames) := by
  refine ⟨fun s hs => hs.registered, fun e s hv => knows_expr hv.registered, ?_, ?_⟩
  · intro span object name s hv
    have hknows := knows_expr (e := object) hv.registered
    rw [TypeNames.Knows, ← Ty.nominals_target] at hknows
    constructor
    · intro cls hcls
      rw [hcls] at hknows
      exact hknows _ (List.mem_singleton_self _)
    · intro interface hinterface
      rw [hinterface] at hknows
      exact hknows _ (List.mem_singleton_self _)
  · intro span name fields ms s hv
    cases hs : s.scopes.atGlobal with
    | false =>
      obtain ⟨c, hc, hfields⟩ := find?_class_inside hs
      exact ⟨c, hc, fun f hf => .inl (hfields f hf)⟩
    | true =>
      obtain ⟨c, hc, hfields⟩ := find?_class_outermost hv hs
      exact ⟨c, hc, fun f hf => (hfields f hf).imp_right fun h => ⟨rfl, h⟩⟩

theorem visits_first {τ : Type} [Tracking τ] {p : Program} {t : Stmt} (h : p.stmts[0]? = some t) :
    p.Visits (τ := τ) (.stmt t) p.hoisted := by
  have hv := visits_stmt (τ := τ) h
  rw [List.take_zero, Check.stmts] at hv
  exact hv

/-- Two classes of one name. -/
def twinSource : Source where
  name := "main.carv"
  text := "class C \x7b x: int = \"a\" \x7d\nclass C \x7b y: int \x7d\n"

/-- The program of that text. -/
def twins : Program :=
  (ofSource twinSource).1

theorem nominals_registered_twins :
    ∃ span name fields ms, twins.Visits (τ := Custody) (.stmt (.classDecl span name fields ms))
        twins.hoisted ∧
      ∃ c, ((Check.declareHere (.classDecl span name fields ms)).after
          (twins.hoisted : State Custody)).classes.find? name.name = some c ∧
        ∀ f ∈ fields, c.fields.contains f.name.name = true ∨
          (twins.hoisted : State Custody).scopes.atGlobal = true ∧ ∃ d ∈ twins.typeDeclarations,
            d.classNames = [name.name] ∧ f.name.name ∉ d.fieldNames := by
  have hstmt : twins.stmts[0]?.map Stmt.isClass = some true := by decide +kernel
  obtain ⟨t, ht, hclass⟩ := Option.map_eq_some_iff.mp hstmt
  cases t with
  | classDecl span name fields ms =>
    have hv := visits_first (τ := Custody) ht
    exact ⟨span, name, fields, ms, hv, (nominals_registered twins).2.2.2 span name fields ms _ hv⟩
  | _ => cases hclass

/-- The class that is come to first has no field `x` any more, so the default of the field is taken to
be right though it is not. -/
theorem field_unknown_twins :
    (ofSource twinSource).2.totalErrors = 0 ∧
    (∃ t : Stmt, twins.Visits (τ := Custody) (.stmt t) twins.hoisted ∧
      t.classNames = ["C"] ∧ t.fieldNames = ["x"] ∧
      Check.fieldTy (((Check.declareHere t).after (twins.hoisted : State Custody)).classes.find? "C")
        "x" = .unknown) ∧
    (twins.check {}).errors = [] := by
  have hstmt : twins.stmts[0]?.map (fun t => (t.classNames, t.fieldNames,
      Check.fieldTy (((Check.declareHere t).after (twins.hoisted : State Custody)).classes.find? "C")
        "x")) = some (["C"], ["x"], .unknown) := by
    decide +kernel
  obtain ⟨t, ht, hfacts⟩ := Option.map_eq_some_iff.mp hstmt
  simp only [Prod.mk.injEq] at hfacts
  exact ⟨by decide +kernel, ⟨t, visits_first ht, hfacts⟩, by decide +kernel⟩

end Program
end CarvFront
