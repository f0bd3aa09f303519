import CarvFront.Proofs.Implementations
import CarvFront.Proofs.DeclarationOrder

/-! Conformance is assignability of methods, one by one, against the one set of methods that a class
has. Implementations of a class all add to that set, and of two methods with one name the last
counts: what an implementation is judged by may come from another one. -/
namespace CarvFront

/-! ### Conformance and receivers -/

/-- The table with each value changed by `f`. -/
def Table.mapValues {α β : Type} (f : α → β) (t : Table α) : Table β :=
  ⟨t.entries.map fun e => (e.1, f e.2), List.pairwise_map.mpr t.sorted⟩

theorem Table.find?_mapValues {α β : Type} (f : α → β) (t : Table α) (name : String) :
    (t.mapValues f).find? name = (t.find? name).map f := by
  have h (es : List (String × α)) :
      lookup name (es.map fun e => (e.1, f e.2)) = (lookup name es).map f := by
    induction es with
    | nil => rfl
    | cons e es ih =>
      obtain ⟨key, value⟩ := e
      simp only [List.map_cons, lookup, ih]
      split <;> rfl
  exact h t.entries

namespace Conformance
variable {name : String}

/-- The codes of what stops an implementation from being accepted. -/
def codes : List Code :=
  [.missingMethod, .methodArity, .returnMismatch, .parameterMismatch]

/-- The same implementation, were all methods to take their object in one way. -/
def alike (c : Conformance) : Conformance :=
  { c with
    required := c.required.mapValues fun m => { m with receiver := .ref }
    provided := c.provided.mapValues fun m => { m with receiver := .ref } }

variable {c : Conformance} {impls : Implements}

/-- Every finding stops the implementation or warns of a receiver. -/
def Grounded (f : Finding) : Prop :=
  f.cause.code ∈ codes ∧ f.cause.severity = .error ∨
    f.cause.code = .receiverMismatch ∧ f.cause.severity = .warning

theorem Grounded.code_mem_iff {f : Finding} (h : Grounded f) :
    f.cause.code ∈ codes ↔ f.cause.severity = .error := by
  obtain ⟨hcode, hseverity⟩ | ⟨hcode, hseverity⟩ := h
  · exact iff_of_true hcode hseverity
  · rw [hcode, hseverity]
    exact iff_of_false (by decide) error_ne_warning.symm

/-- What is wrong with a method that is there, but for the way it takes its object. -/
def faults (c : Conformance) (impls : Implements) (name : String) (want got : FnTy) :
    List Finding :=
  (if want.params.length ≠ got.params.length then
    [⟨.methodArity name c.interface want.params.length got.params.length, c.methodSpan name⟩]
   else c.parameters impls name (c.methodSpan name) 1 want.params got.params)
  ++ (if got.ret.assignable impls want.ret then []
      else [⟨.returnMismatch name c.interface want.ret got.ret, c.methodSpan name⟩])

/-- What a method that takes its object in another way than the interface has it is warned of. -/
def receiverNotes (c : Conformance) (name : String) (want got : Receiver) : List Finding :=
  if want = got then [] else [⟨.receiverMismatch name c.interface want got, c.methodSpan name⟩]

theorem method_eq (name : String) (want got : MethodTy) :
    c.method impls name want got =
      c.faults impls name want.fn got.fn ++ c.receiverNotes name want.receiver got.receiver :=
  rfl

theorem parameters_alike (name : String) (span : Span) (i : Nat) (wants gots : List Ty) :
    c.alike.parameters impls name span i wants gots =
      c.parameters impls name span i wants gots := by
  induction wants generalizing i gots with
  | nil => rfl
  | cons want wants ih =>
    cases gots with
    | nil => rfl
    | cons got gots =>
      rw [parameters, parameters, ih]
      rfl

theorem faults_alike (name : String) (want got : FnTy) :
    c.alike.faults impls name want got = c.faults impls name want got := by
  unfold faults
  rw [parameters_alike]
  rfl

theorem parameters_stop {span : Span} {i : Nat} {wants gots : List Ty} :
    ∀ f ∈ c.parameters impls name span i wants gots,
      f.cause.code ∈ codes ∧ f.cause.severity = .error := by
  induction wants generalizing i gots with
  | nil => exact List.forall_mem_nil _
  | cons want wants ih =>
    cases gots with
    | nil => exact List.forall_mem_nil _
    | cons got gots =>
      rw [parameters]
      apply List.forall_mem_append.mpr ⟨?_, ih⟩
      split
      · exact List.forall_mem_nil _
      · exact List.forall_mem_singleton.mpr ⟨.tail _ (.tail _ (.tail _ (.head _))), rfl⟩

theorem faults_stop {want got : FnTy} :
    ∀ f ∈ c.faults impls name want got, f.cause.code ∈ codes ∧ f.cause.severity = .error := by
  rw [faults, List.forall_mem_append]
  constructor
  · split
    · exact List.forall_mem_singleton.mpr ⟨.tail _ (.head _), rfl⟩
    · exact parameters_stop
  · split
    · exact List.forall_mem_nil _
    · exact List.forall_mem_singleton.mpr ⟨.tail _ (.tail _ (.head _)), rfl⟩

theorem receiverNotes_warn {want got : Receiver} : ∀ f ∈ c.receiverNotes name want got,
      f.cause.code = .receiverMismatch ∧ f.cause.severity = .warning := by
  unfold receiverNotes
  split
  · exact List.forall_mem_nil _
  · exact List.forall_mem_singleton.mpr ⟨rfl, rfl⟩

theorem grounded_findings : ∀ f ∈ c.findings impls, Grounded f := by
  intro f hf
  rw [findings, List.mem_flatMap] at hf
  obtain ⟨⟨name, want⟩, -, hf⟩ := hf
  change f ∈ c.one impls name want at hf
  unfold one at hf
  cases hgot : c.provided.find? name with
  | none =>
    rw [hgot] at hf
    cases List.mem_singleton.mp hf
    exact .inl ⟨.head _, rfl⟩
  | some got =>
    rw [hgot] at hf
    change f ∈ c.method impls name want got at hf
    rw [method_eq, List.mem_append] at hf
    obtain hf | hf := hf
    · exact .inl (faults_stop f hf)
    · exact .inr (receiverNotes_warn f hf)

/-- The errors about a method are those there were if it took its object as it should. -/
theorem errors_one (name : String) (want : MethodTy) :
    (c.one impls name want).filter (·.cause.severity = .error) =
      c.alike.one impls name { want with receiver := .ref } := by
  have hprovided : c.alike.provided.find? name =
      (c.provided.find? name).map fun m => { m with receiver := .ref } :=
    c.provided.find?_mapValues _ name
  unfold one
  rw [hprovided]
  cases c.provided.find? name with
  | none => rfl
  | some got =>
    have hfaults : (c.faults impls name want.fn got.fn).filter (·.cause.severity = .error) =
        c.faults impls name want.fn got.fn := by
      apply List.filter_eq_self.mpr
      intro f hf
      exact decide_eq_true (faults_stop f hf).2
    have hnotes : (c.receiverNotes name want.receiver got.receiver).filter
        (·.cause.severity = .error) = [] := by
      apply List.filter_eq_nil_iff.mpr
      intro f hf
      rw [(receiverNotes_warn f hf).2]
      decide
    change (c.method impls name want got).filter _ = c.alike.method impls name _ _
    rw [method_eq, method_eq, List.filter_append, hfaults, hnotes, faults_alike]
    rfl

theorem accepts_iff_noErrors :
    (∀ f ∈ c.findings impls, f.cause.code ∉ codes) ↔ NoErrors (c.findings impls) := by
  apply forall₂_congr
  intro f hf
  rw [(grounded_findings f hf).code_mem_iff]
  cases f.cause.severity <;> decide

/-- An implementation is accepted if the class has every method of the interface, with a type that
may stand for the one that is asked for. No error comes of the way a method takes its object: the
errors are those there were if all methods took it in one way. -/
theorem accepts_iff_assignable (c : Conformance) (impls : Implements) :
    ((∀ f ∈ c.findings impls, f.cause.code ∉ codes) ↔
      ∀ name want, c.required.find? name = some want →
        ∃ got, c.provided.find? name = some got ∧ got.fn.toTy.assignable impls want.fn.toTy) ∧
    (∀ f ∈ c.findings impls, f.cause.severity = .error → f.cause.code ∈ codes) ∧
    (c.findings impls).filter (·.cause.severity = .error) = c.alike.findings impls := by
  refine ⟨accepts_iff_noErrors.trans noErrors_findings_iff, ?_, ?_⟩
  · intro f hf
    exact (grounded_findings f hf).code_mem_iff.mpr
  · rw [findings, findings, List.filter_flatMap]
    change _ = (c.required.entries.map _).flatMap _
    rw [List.flatMap_map]
    exact List.flatMap_congr fun e _ => errors_one e.1 e.2

end Conformance

/-! ### The methods of a class -/

/-- The last of some methods with that name. -/
def lastNamed (ms : List Method) (name : String) : Option Method :=
  (ms.filter (·.name.name = name)).getLast?

theorem lastNamed_append (ms ms' : List Method) (name : String) :
    lastNamed (ms ++ ms') name = (lastNamed ms' name).or (lastNamed ms name) := by
  unfold lastNamed
  rw [List.filter_append, List.getLast?_append]

/-- The type of a method, given the types with a name. -/
def Method.methodTy (known : String → Option Ty) (m : Method) : MethodTy :=
  ⟨m.receiver, m.sig.fnTy known⟩

theorem find?_methodEntries (known : String → Option Ty) (t : Table MethodTy) (ms : List Method)
    (name : String) :
    (t.insertAll (methodEntries known ms)).find? name =
      ((lastNamed ms name).map (·.methodTy known)).or (t.find? name) := by
  induction ms generalizing t with
  | nil => rfl
  | cons m ms ih =>
    change ((t.insert m.name.name (m.methodTy known)).insertAll (methodEntries known ms)).find? name
      = _
    rw [ih, Table.find?_insert, ← List.singleton_append, lastNamed_append, Option.map_or,
      Option.or_assoc]
    congr 1
    by_cases h : m.name.name = name <;> simp [lastNamed, h]

/-- The methods that a statement adds to those of the class `cls`. -/
def Stmt.methodsFor (cls : String) : Stmt → List Method
  | .implDecl _ _ target ms => if target.name = cls then ms else []
  | _ => []

namespace Check
variable {n : TypeNames} {s : State Custody} {cls : String} {c : ClassDef}

theorem find?_declareImpl (hs : s.typeNames = n) (hc : s.classes.find? cls = some c) (st : Stmt) :
    ((declareImpl st).after s).classes.find? cls = some
      { c with methods := c.methods.insertAll (methodEntries n.known (st.methodsFor cls)) } := by
  rw [after_declareImpl, hs]
  cases st with
  | implDecl span interface target ms =>
    by_cases h : target.name = cls
    · have hclass : n.isClass target.name := by
        rw [h, ← hs]
        exact Option.isSome_of_mem hc
      rw [Stmt.declaringImpl, if_pos hclass, Stmt.methodsFor, if_pos h]
      change (s.classes.adjust target.name _).find? cls = _
      rw [Table.find?_adjust, if_pos h, hc]
      rfl
    · rw [Stmt.methodsFor, if_neg h, Stmt.declaringImpl]
      split
      · change (s.classes.adjust target.name _).find? cls = _
        rw [Table.find?_adjust, if_neg h]
        exact hc
      · exact hc
  | _ => exact hc

/-- Implementations add their methods to those of the class, in order. -/
theorem find?_forM_declareImpl (hs : s.typeNames = n) (hc : s.classes.find? cls = some c)
    (ss : List Stmt) :
    ((ss.forM declareImpl).after s).classes.find? cls = some
      { c with
        methods := c.methods.insertAll
          (methodEntries n.known (ss.flatMap (Stmt.methodsFor cls))) } := by
  induction ss generalizing s c with
  | nil => exact hc
  | cons st ss ih =>
    have hnames : ((declareImpl st).after s).typeNames = n := by
      rw [after_declareImpl, State.typeNames_declaringImpl, hs]
    rw [List.flatMap_cons, methodEntries, List.map_append, Table.insertAll, List.foldl_append]
    exact ih hnames (find?_declareImpl hs hc st)

end Check

namespace Program

/-- The methods of a class are those of its body, and then those of every implementation. -/
theorem methods_hoisted (p : Program) {cls : String} {c : ClassDef}
    (h : (p.hoisted : State Custody).classes.find? cls = some c) :
    ∃ own : Table MethodTy, c.methods = own.insertAll
      (methodEntries p.typeNames.known (p.stmts.flatMap (Stmt.methodsFor cls))) := by
  have hnames := p.declaring_classes.names
  have hhoist := Check.settled_steps.forM p.stmts Check.settled_steps.hoist
    ((Check.declareTypes p.stmts).after (.start : State Custody))
  have hclass : p.typeNames.isClass cls := by
    rw [← p.declaring_hoisted.names]
    exact Option.isSome_of_mem h
  rw [← hnames] at hclass
  obtain ⟨body, hbody⟩ := Option.isSome_iff_exists.mp hclass
  have hdeclared := Check.find?_forM_declareImpl hnames hbody p.stmts
  rw [← Check.after_declareTypes, ← hhoist.classes] at hdeclared
  change (p.hoisted : State Custody).classes.find? cls = _ at hdeclared
  cases h.symm.trans hdeclared
  exact ⟨body.methods, rfl⟩

end Program

namespace Check

theorem findings_implementation {interface target : Ident} {required : Table MethodTy}
    {c : ClassDef} {s : State Custody} (hi : s.interfaces.find? interface.name = some required)
    (hc : s.classes.find? target.name = some c) (ms : List Method) (span : Span) :
    ((implementation interface target ms span).after s).findings =
      (Conformance.findings ⟨interface.name, target.name, required, c.methods, ms, span⟩
        s.implements).reverse ++ s.findings := by
  rw [implementation, after_get]
  dsimp only
  rw [hi, hc]
  rfl

end Check

namespace Program

/-- Whether a method may stand for the method `want` of an interface, once the types of a program are
declared. -/
def Serves (p : Program) (m : Method) (want : MethodTy) : Prop :=
  (p.hoisted : State Custody).assignable (m.sig.fnTy p.typeNames.known).toTy want.fn.toTy

/-- An implementation with one method of its own for each method of the interface is accepted exactly
if no later implementation for the class puts another method in the place of one of these that may
not stand for the one that is asked for. Earlier implementations and the body of the class do not
matter. -/
theorem accepts_iff_of_selfSufficient (p : Program) (htop : p.typesOnTop)
    (before later : List Stmt) (span : Span) (interface target : Ident) (ms : List Method)
    (hp : p.stmts = before ++ .implDecl span interface target ms :: later)
    (required : Table MethodTy)
    (hinterface : (p.hoisted : State Custody).interfaces.find? interface.name = some required)
    (hclass : (p.hoisted : State Custody).classes.contains target.name)
    (hown : ∀ name want, required.find? name = some want →
      ∃ m, ms.filter (·.name.name = name) = [m] ∧ p.Serves m want) :
    let s := (Check.stmts before).after (p.hoisted : State Custody)
    ∃ fs, ((Check.implementation interface target ms span).after s).findings = fs ++ s.findings ∧
      ((∀ f ∈ fs, f.cause.code ∉ Conformance.codes) ↔
        ∀ name want m, required.find? name = some want →
          lastNamed (later.flatMap (Stmt.methodsFor target.name)) name = some m →
          p.Serves m want) := by
  intro s
  obtain ⟨c, hc⟩ := Option.isSome_iff_exists.mp hclass
  obtain ⟨own, hmethods⟩ := p.methods_hoisted hc
  have hinner : ∀ st ∈ before, st.innerTypes = [] := by
    intro st hst
    have hmem : st ∈ p.stmts := hp ▸ List.mem_append_left _ hst
    exact List.isEmpty_iff.mp (List.all_eq_true.mp htop st hmem)
  have hsettled : (p.hoisted : State Custody).Settled s :=
    Check.settled_stmts hinner p.declaring_hoisted.atTop
  have hfindings := Check.findings_implementation (hsettled.interfaces ▸ hinterface)
    (hsettled.classes ▸ hc) ms span
  refine ⟨_, hfindings, ?_⟩
  simp only [List.mem_reverse]
  rw [Conformance.accepts_iff_noErrors, Conformance.noErrors_findings_iff]
  have hprovided (name : String) (m : Method) (hm : ms.filter (·.name.name = name) = [m]) :
      c.methods.find? name = some
        (((lastNamed (later.flatMap (Stmt.methodsFor target.name)) name).getD m).methodTy
          p.typeNames.known) := by
    have hlast : lastNamed ms name = some m := by
      rw [lastNamed, hm]
      rfl
    rw [hmethods, find?_methodEntries, hp, List.flatMap_append, List.flatMap_cons, Stmt.methodsFor,
      if_pos rfl, lastNamed_append, lastNamed_append, hlast]
    cases lastNamed (later.flatMap (Stmt.methodsFor target.name)) name <;> rfl
  constructor
  · intro h name want m hwant hm
    obtain ⟨m₀, hm₀, -⟩ := hown name want hwant
    obtain ⟨got, hgot, hty⟩ := h name want hwant
    dsimp only at hgot
    rw [hprovided name m₀ hm₀, hm] at hgot
    cases hgot
    rwa [hsettled.implements] at hty
  · intro h name want hwant
    obtain ⟨m₀, hm₀, hserves⟩ := hown name want hwant
    refine ⟨_, hprovided name m₀ hm₀, ?_⟩
    rw [hsettled.implements]
    cases hm : lastNamed (later.flatMap (Stmt.methodsFor target.name)) name with
    | none => exact hserves
    | some m => exact h name want m hwant hm

/-! Two interfaces that ask for a method of one name, and a class that implements both. -/

namespace Rivals

def line (n : Nat) : Span :=
  ⟨⟨n, 1⟩, ⟨n, 2⟩⟩

def sig (n : Nat) (ret : BasicType) : Signature :=
  ⟨false, [], some (.basic (line n) ret)⟩

def method (n : Nat) (ret : BasicType) : Method :=
  ⟨⟨"m", line n⟩, .ref, sig n ret, ⟨line n, []⟩, line n⟩

def asking (n : Nat) (name : String) (ret : BasicType) : Stmt :=
  .interfaceDecl (line n) ⟨name, line n⟩ [⟨⟨"m", line n⟩, .ref, sig n ret, line n⟩]

/-- What stands before the first implementation. The class has another method of that name. -/
def before (ret : BasicType) : List Stmt :=
  [asking 1 "A" .int, asking 2 "B" ret, .classDecl (line 3) ⟨"C", line 3⟩ [] [method 3 .string]]

/-- The implementation of `B` puts its method in the place of the one that `A` was implemented
with. -/
def program (ret : BasicType) : Program :=
  ⟨before ret ++ .implDecl (line 4) ⟨"A", line 4⟩ ⟨"C", line 4⟩ [method 4 .int] ::
    [.implDecl (line 5) ⟨"B", line 5⟩ ⟨"C", line 5⟩ [method 5 ret]], line 0⟩

def required : Table MethodTy :=
  .ofList [("m", ⟨.ref, ⟨[], .int⟩⟩)]

theorem find?_required (ret : BasicType) :
    ((program ret).hoisted : State Custody).interfaces.find? "A" = some required :=
  rfl

/-- The first implementation has the one method it needs. -/
theorem serves_own (ret : BasicType) (name : String) (want : MethodTy)
    (h : required.find? name = some want) :
    ∃ m, [method 4 .int].filter (·.name.name = name) = [m] ∧ (program ret).Serves m want := by
  have hentry : (name, want) ∈ [("m", ⟨.ref, ⟨[], .int⟩⟩)] :=
    (required.find?_eq_some_iff name want).mp h
  cases List.mem_singleton.mp hentry
  exact ⟨method 4 .int, rfl, Ty.assignable_refl _ (.fn [] .int)⟩

/-- Where the first implementation is come to. -/
def reached (ret : BasicType) : State Custody :=
  (Check.stmts (before ret)).after (program ret).hoisted

/-- The first implementation, when it is come to. -/
def judged (ret : BasicType) : State Custody :=
  (Check.implementation ⟨"A", line 4⟩ ⟨"C", line 4⟩ [method 4 .int] (line 4)).after (reached ret)

end Rivals

theorem accepts_rivals :
    (Rivals.program .any).typesOnTop ∧
    ((Rivals.program .any).hoisted : State Custody).classes.contains "C" ∧
    (∀ name want, Rivals.required.find? name = some want →
      ∃ m, [Rivals.method 4 .int].filter (·.name.name = name) = [m] ∧
        (Rivals.program .any).Serves m want) ∧
    ∃ fs, (Rivals.judged .any).findings = fs ++ (Rivals.reached .any).findings ∧
      ∀ f ∈ fs, f.cause.code ∉ Conformance.codes := by
  have htop : (Rivals.program .any).typesOnTop := by decide +kernel
  have hclass : ((Rivals.program .any).hoisted : State Custody).classes.contains "C" := by
    decide +kernel
  refine ⟨htop, hclass, Rivals.serves_own .any, ?_⟩
  obtain ⟨fs, hfs, hiff⟩ := accepts_iff_of_selfSufficient (Rivals.program .any) htop
    (Rivals.before .any) _ (Rivals.line 4) ⟨"A", Rivals.line 4⟩ ⟨"C", Rivals.line 4⟩ _ rfl
    Rivals.required (Rivals.find?_required .any) hclass (Rivals.serves_own .any)
  refine ⟨fs, hfs, hiff.mpr ?_⟩
  intro name want m hwant hm
  have hentry : (name, want) ∈ [("m", ⟨.ref, ⟨[], .int⟩⟩)] :=
    (Rivals.required.find?_eq_some_iff name want).mp hwant
  cases List.mem_singleton.mp hentry
  cases hm.symm.trans (rfl : _ = some (Rivals.method 5 .any))
  exact Ty.assignable_fn_iff.mpr ⟨Ty.assignableAll_refl _ [], Ty.assignable_of_isDynamic (.inl rfl)⟩

/-- An implementation that has every method it needs is not accepted, since another one for the class
has a method of that name with another type. -/
theorem rejects_rivals :
    (Rivals.program .string).typesOnTop ∧
    ((Rivals.program .string).hoisted : State Custody).interfaces.find? "A" =
      some Rivals.required ∧
    ((Rivals.program .string).hoisted : State Custody).classes.contains "C" ∧
    (∀ name want, Rivals.required.find? name = some want →
      ∃ m, [Rivals.method 4 .int].filter (·.name.name = name) = [m] ∧
        (Rivals.program .string).Serves m want) ∧
    (Rivals.reached .string).findings = [] ∧
    (Rivals.judged .string).findings.map (·.cause.code) = [.returnMismatch] := by
  refine ⟨by decide +kernel, rfl, by decide +kernel, Rivals.serves_own .string, ?_, ?_⟩
  · rfl
  · decide +kernel

end Program
end CarvFront
