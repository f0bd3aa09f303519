import CarvFront.Proofs.Tally

/-! Jumps and awaits are judged by where they stand, and all of them are: a jump needs a loop as the
innermost loop or function around it, an `await` an asynchronous function as the innermost one. -/
namespace CarvFront

namespace Occurrence

/-- Whether the innermost loop or function around is a loop. -/
def inLoop (o : Occurrence) : Bool :=
  o.around.head? = some .loop

/-- Whether the innermost function around is asynchronous. -/
def inAsync (o : Occurrence) : Bool :=
  o.around.find? Enclosure.isFunction = some (.function true)

/-- What is wrong with the place of a node. -/
def fault? (o : Occurrence) : Option Finding :=
  match o.node with
  | .stmt (.brk span) => if o.inLoop then none else some ⟨.outsideLoop .breakKw, span⟩
  | .stmt (.cont span) => if o.inLoop then none else some ⟨.outsideLoop .continueKw, span⟩
  | .expr (.await span _) => if o.inAsync then none else some ⟨.awaitOutsideAsync, span⟩
  | _ => none

end Occurrence

/-! ### Scopes stand for the code around -/

namespace Scopes

/-- The constructs that the scopes belong to, the innermost first. -/
def enclosures (s : Scopes) : List Enclosure :=
  s.kinds.filterMap ScopeKind.enclosure?

theorem inLoop_eq (s : Scopes) : s.inLoop = decide (s.enclosures.head? = some .loop) := by
  unfold inLoop enclosures kinds
  induction s.toList with
  | nil => rfl
  | cons scope scopes ih =>
    obtain ⟨kind, names⟩ := scope
    cases kind with
    | global | block => exact ih
    | function async => rfl
    | loop => rfl

theorem inAsync_eq (s : Scopes) :
    s.inAsync = decide (s.enclosures.find? Enclosure.isFunction = some (.function true)) := by
  unfold inAsync enclosures kinds
  induction s.toList with
  | nil => rfl
  | cons scope scopes ih =>
    obtain ⟨kind, names⟩ := scope
    cases kind with
    | global | block | loop => exact ih
    | function async => cases async <;> rfl

end Scopes

/-! ### Steps -/

def Cause.isMisplaced : Cause → Bool
  | .outsideLoop _ | .awaitOutsideAsync => true
  | _ => false

/-- What was said of the places of jumps and awaits. -/
def State.misplaced {τ : Type} (s : State τ) : List Finding :=
  s.findings.filter (·.cause.isMisplaced)

namespace Check
variable {τ α β : Type} {a : List Enclosure} {os os' : List Occurrence}
variable {m : Check τ α}

/-- A step says nothing about places. -/
abbrev Unplaced (m : Check τ α) : Prop :=
  Reports (fun c => !c.isMisplaced) m

theorem allows_unplaced : Allows fun c => !c.isMisplaced := by
  intro c hc
  cases c with
  | outsideLoop | awaitOutsideAsync => cases hc
  | _ => rfl

theorem unplaced_unknownType (name : String) : (!(Cause.unknownType name).isMisplaced) = true :=
  rfl

/-- In code with `a` around, a step reports what is wrong with the places of just these nodes. -/
def Judges (a : List Enclosure) (m : Check τ α) (os : List Occurrence) : Prop :=
  ∀ s : State τ, s.scopes.enclosures = a → (m.after s).scopes.kinds = s.scopes.kinds ∧
    (m.after s).misplaced.Perm (os.filterMap Occurrence.fault? ++ s.misplaced)

theorem Reports.judges (h : Unplaced m) : Judges a m [] := by
  intro s _
  obtain ⟨hkinds, -, fs, hfs, heq⟩ := h s
  have hnone : fs.filter (·.cause.isMisplaced) = [] := by
    refine List.filter_eq_nil_iff.mpr fun f hf => ?_
    simpa using hfs f hf
  refine ⟨hkinds, ?_⟩
  rw [State.misplaced, heq, List.filter_append, hnone]
  exact .refl _

theorem Judges.perm (h : Judges a m os) (hp : os.Perm os') : Judges a m os' := by
  intro s hs
  obtain ⟨hkinds, hperm⟩ := h s hs
  exact ⟨hkinds, hperm.trans ((hp.filterMap _).append_right _)⟩

theorem Judges.seq {k : α → Check τ β} (hm : Judges a m os) (hk : ∀ x, Judges a (k x) os') :
    Judges a (m >>= k) (os ++ os') := by
  intro s hs
  obtain ⟨hkinds, hperm⟩ := hm s hs
  have hs' : (m.after s).scopes.enclosures = a := by
    rw [Scopes.enclosures, hkinds]
    exact hs
  obtain ⟨hkinds', hperm'⟩ := hk (m.run s).1 (m.after s) hs'
  refine ⟨hkinds'.trans hkinds, hperm'.trans ?_⟩
  rw [List.filterMap_append, List.append_assoc]
  exact (hperm.append_left _).trans (List.perm_append_comm_assoc _ _ _)

/-- A node that may stand anywhere. -/
theorem Judges.node (h : Judges a m os) {n : Node} (hn : Occurrence.fault? ⟨n, a⟩ = none) :
    Judges a m (⟨n, a⟩ :: os) := by
  intro s hs
  rw [List.filterMap_cons_none hn]
  exact h s hs

theorem Judges.exprs (h : Judges a m os) {es : List Expr}
    (hes : ∀ e ∈ es, Occurrence.fault? ⟨.expr e, a⟩ = none) :
    Judges a m (es.map (⟨.expr ·, a⟩) ++ os) := by
  induction es with
  | nil => exact h
  | cons e es ih =>
    obtain ⟨he, hrest⟩ := List.forall_mem_cons.mp hes
    exact (ih hrest).node he

/-- Types are noted without regard to places. -/
theorem Judges.recorded (span : Span) {m : Check τ Ty} (hm : Judges a m os) :
    Judges a (recorded span m) os :=
  fun s hs => hm s hs

theorem Judges.returning (expected : Option Ty) {m : Check τ Unit} (hm : Judges a m os) :
    Judges a (returning expected m) os :=
  fun s hs => hm { s with returns := expected :: s.returns } hs

/-- A demand that a node stands where it may. -/
theorem judges_demand {o : Occurrence} {cause : Cause} (hc : cause.isMisplaced = true) (span : Span)
    {ok : State τ → Bool} (ho : ∀ s : State τ, s.scopes.enclosures = a →
      o.fault? = if ok s then none else some ⟨cause, span⟩) :
    Judges a (do demand (ok (← get)) cause span : Check τ Unit) [o] := by
  intro s hs
  have hf := ho s hs
  change ((demand (ok s) cause span).after s).scopes.kinds = s.scopes.kinds ∧
    ((demand (ok s) cause span).after s).misplaced.Perm _
  cases hok : ok s with
  | true =>
    rw [hok, if_pos rfl] at hf
    rw [List.filterMap_cons_none hf]
    exact ⟨rfl, .refl _⟩
  | false =>
    rw [hok, if_neg Bool.false_ne_true] at hf
    rw [List.filterMap_cons_some hf]
    refine ⟨rfl, ?_⟩
    have hm : ((demand false cause span).after s).misplaced = ⟨cause, span⟩ :: s.misplaced :=
      List.filter_cons_of_pos hc
    rw [hm]
    exact .refl _

theorem judges_jump {w : Keyword} {span : Span} {n : Node} (hn : ∀ a : List Enclosure,
    Occurrence.fault? ⟨n, a⟩ =
      if Occurrence.inLoop ⟨n, a⟩ then none else some ⟨.outsideLoop w, span⟩) :
    Judges a (jump w span : Check τ Unit) [⟨n, a⟩] :=
  judges_demand rfl span fun s hs => by
    rw [s.scopes.inLoop_eq, hs]
    exact hn a

section Tracking
variable [Tracking τ]

theorem judges_await (ty : Ty) (e : Expr) (span : Span) :
    Judges a (await ty e.span span : Check τ Ty) [⟨.expr (.await span e), a⟩] := by
  have hplace : Judges a (do demand (← get).scopes.inAsync .awaitOutsideAsync span : Check τ Unit)
      [⟨.expr (.await span e), a⟩] :=
    judges_demand rfl span fun s hs => by
      rw [s.scopes.inAsync_eq, hs]
      rfl
  have hrest : Judges a (do demandNoBorrows span; accept (ty.awaited e.span) : Check τ Ty) [] := by
    refine Reports.judges (((reports_plain allows_unplaced).demandNoBorrows span).seq fun _ => ?_)
    exact (reports_plain allows_unplaced).accept (ty.ordinary_awaited e.span)
  have heq : (await ty e.span span : Check τ Ty) =
      (do demand (← get).scopes.inAsync .awaitOutsideAsync span) >>= fun _ =>
        (do demandNoBorrows span; accept (ty.awaited e.span)) := rfl
  rw [heq]
  exact hplace.seq fun _ => hrest

theorem Judges.inFrame {kind : ScopeKind} {e : Enclosure} (he : kind.enclosure? = some e)
    {m : Check τ Unit} (hm : Judges (e :: a) m os) : Judges a (inFrame kind m) os := by
  intro s hs
  have hinner : (s.enterFrame kind).scopes.enclosures = e :: a := by
    rw [← hs]
    exact List.filterMap_cons_some he
  obtain ⟨hkinds, hperm⟩ := hm (s.enterFrame kind) hinner
  exact ⟨Scopes.kinds_pop hkinds, hperm⟩

theorem Judges.inBlock {m : Check τ Unit} (hm : Judges a m os) : Judges a (inBlock m) os := by
  intro s hs
  obtain ⟨hkinds, hperm⟩ := hm s.enterBlock hs
  exact ⟨Scopes.kinds_pop hkinds, hperm⟩

/-! ### The walk -/

theorem Expr.fault?_eq_none {e : Expr} (he : e.isCommon = true) :
    Occurrence.fault? ⟨.expr e, a⟩ = none := by
  cases e with
  | await => cases he
  | _ => rfl

theorem Stmt.fault?_eq_none {s : Stmt} (hs : s.isCommon = true ∨ s.isDeclaration = true) :
    Occurrence.fault? ⟨.stmt s, a⟩ = none := by
  cases s with
  | brk | cont => obtain hs | hs := hs <;> cases hs
  | _ => rfl

theorem judges_tally : Tally fun _ a _ (m : Check τ _) os => Judges a m os where
  perm := Judges.perm
  seq := Judges.seq
  get hk s hs := hk s s hs
  quiet hm := (hm.reports.mono allows_unplaced).judges
  inFrame he _ _ hm := hm.inFrame he
  inBlock := Judges.inBlock
  returning expected _ _ hm := hm.returning expected
  exprNode e he m os hm := by
    refine Judges.node ((hm.recorded e.span).exprs fun t ht => ?_) (Expr.fault?_eq_none he)
    exact Expr.fault?_eq_none (Expr.common_of_passedOver ht).1
  awaitNode span e m os hm := by
    have hnode := hm.seq fun ty => judges_await ty e span
    exact (hnode.recorded span).perm (List.perm_append_singleton _ _)
  lambdaNode span sig b k os hk := by
    have hsig : Unplaced (signature sig : Check τ FnTy) := reports_signature unplaced_unknownType sig
    exact ((hsig.judges.seq hk).recorded span).node rfl
  stmtNode s hs m os hm := hm.node (Stmt.fault?_eq_none (.inl hs))
  binding span mutable name type e value :=
    (reports_bindingTy allows_unplaced unplaced_unknownType type value e.span).judges.node rfl
  brk span := judges_jump fun _ => rfl
  cont span := judges_jump fun _ => rfl

theorem judges_declares (top : Bool) :
    Declarations (fun _ a _ (m : Check τ _) os => Judges a m os) top :=
  judges_tally.declares
    (fun span sig => (reports_declaredSignature unplaced_unknownType span sig).judges)
    (fun s => (reports_declareHere unplaced_unknownType s).judges)
    (fun hs _ _ hm => hm.node (Stmt.fault?_eq_none (.inr hs))) top

theorem judges_program (p : Program) : Judges [] (program p : Check τ Unit) p.occurrences := by
  have htypes : Unplaced (declareTypes p.stmts : Check τ Unit) :=
    reports_declareTypes unplaced_unknownType p.stmts
  have hhoist : Unplaced (p.stmts.forM hoist : Check τ Unit) :=
    reports_forM p.stmts (reports_hoist unplaced_unknownType)
  have hwalk : Reckoning fun _ a _ (m : Check τ _) os => Judges a m os :=
    ⟨judges_tally, judges_declares false⟩
  refine htypes.judges.seq fun _ => hhoist.judges.seq fun _ => ?_
  exact hwalk.stmts p.stmts true [] (judges_declares true)

end Tracking
end Check

/-! ### Reports -/

def Issue.position (i : Issue) : Position :=
  ⟨i.line, i.column⟩

def Node.isJump : Node → Bool
  | .stmt (.brk _) | .stmt (.cont _) => true
  | _ => false

def Node.isAwait : Node → Bool
  | .expr (.await _ _) => true
  | _ => false

/-- The errors of one code in a report, by their places. -/
theorem State.positions_report {τ : Type} (s : State τ) (o : Options) {code : Code}
    (h : ∀ c : Cause, c.code = code → c.severity = .error) :
    (((s.report o).errors.filter (·.code = code)).map Issue.position).Perm
      ((s.findings.filter (·.cause.code = code)).map (·.span.start)) := by
  have hfilter : ((s.report o).errors.filter (·.code = code)) =
      (s.findings.reverse.filter (·.cause.code = code)).map Issue.ofFinding := by
    unfold State.report
    rw [List.filter_map, List.filter_filter]
    congr 1
    apply List.filter_congr
    intro f _
    change (decide (f.cause.code = code) && decide (f.cause.severity = .error)) =
      decide (f.cause.code = code)
    by_cases hc : f.cause.code = code
    · rw [decide_eq_true (h _ hc), Bool.and_true]
    · rw [decide_eq_false hc, Bool.false_and]
  rw [hfilter, List.map_map, List.filter_reverse, List.map_reverse]
  exact List.reverse_perm _

theorem enclosures_start {τ : Type} [Tracking τ] :
    (State.start : State τ).scopes.enclosures = [] := by
  have hkinds : (State.start : State τ).scopes.kinds = [.global] :=
    List.foldlRecOn (motive := fun s => Scopes.kinds s = [.global]) _ _ rfl fun _ hs _ _ => hs
  rw [Scopes.enclosures, hkinds]
  rfl

/-- A fault of a node has the code of its kind, and stands where the node does. -/
theorem Occurrence.fault?_by_code (o : Occurrence) :
    (o.fault?.filter (·.cause.code = .controlOutsideLoop)).map (·.span.start) =
        (if o.node.isJump && !o.inLoop then some o.node.span.start else none) ∧
      (o.fault?.filter (·.cause.code = .awaitOutsideAsync)).map (·.span.start) =
        if o.node.isAwait && !o.inAsync then some o.node.span.start else none := by
  obtain ⟨node, around⟩ := o
  unfold fault?
  cases node with
  | expr e =>
    cases e with
    | await span e => cases inAsync _ <;> exact ⟨rfl, rfl⟩
    | _ => exact ⟨rfl, rfl⟩
  | stmt s =>
    cases s with
    | brk span | cont span => cases inLoop _ <;> exact ⟨rfl, rfl⟩
    | _ => exact ⟨rfl, rfl⟩

/-- The misplaced nodes of one code, by their places. -/
theorem positions_fault {code : Code} {stray : Occurrence → Bool}
    (h : ∀ o : Occurrence, (o.fault?.filter (·.cause.code = code)).map (·.span.start) =
      if stray o then some o.node.span.start else none) (os : List Occurrence) :
    ((os.filterMap Occurrence.fault?).filter (·.cause.code = code)).map (·.span.start) =
      (os.filter stray).map (·.node.span.start) := by
  rw [List.filter_filterMap, List.map_filterMap, ← List.filterMap_eq_filter, List.map_filterMap]
  congr 1
  funext o
  rw [h, Option.guard]
  cases stray o <;> rfl

namespace Program
variable (p : Program)

theorem misplaced_finalState :
    (p.finalState Custody).misplaced.Perm (p.occurrences.filterMap Occurrence.fault?) := by
  obtain ⟨-, hperm⟩ := Check.judges_program (τ := Custody) p .start enclosures_start
  have hstart : (State.start : State Custody).misplaced = [] := rfl
  rwa [hstart, List.append_nil] at hperm

/-- The errors of a code about places are where the nodes are misplaced. -/
theorem positions_check (o : Options) {code : Code} {stray : Occurrence → Bool}
    (herror : ∀ c : Cause, c.code = code → c.severity = .error ∧ c.isMisplaced = true)
    (hstray : ∀ x : Occurrence, (x.fault?.filter (·.cause.code = code)).map (·.span.start) =
      if stray x then some x.node.span.start else none) :
    (((p.check o).errors.filter (·.code = code)).map Issue.position).Perm
      ((p.occurrences.filter stray).map (·.node.span.start)) := by
  have hcode : (p.finalState Custody).findings.filter (·.cause.code = code) =
      (p.finalState Custody).misplaced.filter (·.cause.code = code) := by
    rw [State.misplaced, List.filter_filter]
    apply List.filter_congr
    intro f _
    by_cases hc : f.cause.code = code
    · rw [(herror _ hc).2, Bool.and_true]
    · rw [decide_eq_false hc, Bool.false_and]
  have hreport := (p.finalState Custody).positions_report o fun c hc => (herror c hc).1
  rw [hcode] at hreport
  rw [← positions_fault hstray]
  exact hreport.trans ((p.misplaced_finalState.filter _).map _)

/-- The errors about jumps outside of loops are just where a jump stands whose innermost loop or
function around is not a loop, and those about awaits just where an `await` stands whose innermost
function around, if there is one, is not asynchronous. Each is reported once. -/
theorem misplaced_iff_reported (o : Options) :
    (((p.check o).errors.filter (·.code = .controlOutsideLoop)).map Issue.position).Perm
        ((p.occurrences.filter fun x => x.node.isJump && !x.inLoop).map (·.node.span.start)) ∧
      (((p.check o).errors.filter (·.code = .awaitOutsideAsync)).map Issue.position).Perm
        ((p.occurrences.filter fun x => x.node.isAwait && !x.inAsync).map (·.node.span.start)) := by
  constructor
  · refine p.positions_check o (fun c hc => ?_) fun x => x.fault?_by_code.1
    cases c with
    | outsideLoop => exact ⟨rfl, rfl⟩
    | _ => exact absurd hc (of_decide_eq_false rfl)
  · refine p.positions_check o (fun c hc => ?_) fun x => x.fault?_by_code.2
    cases c with
    | awaitOutsideAsync => exact ⟨rfl, rfl⟩
    | _ => exact absurd hc (of_decide_eq_false rfl)

end Program
end CarvFront
