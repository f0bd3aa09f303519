import CarvFront.Proofs.Declarations
import CarvFront.Proofs.Refinement

/-! Classes and interfaces in types. Types hold them by name only, so a name has to be in the tables
for its type to mean anything. Every judgement and every declaration makes types of names that are
there already, and no table loses a name. -/
namespace CarvFront

/-- A class or an interface by its name. -/
inductive Nominal where
  | cls (name : String)
  | interface (name : String)
deriving DecidableEq

namespace Ty

mutual

/-- The classes and interfaces that occur in a type. -/
def nominals : Ty → List Nominal
  | .cls name => [.cls name]
  | .interface name => [.interface name]
  | .array t | .chan t | .optional t | .future t | .ref _ t => t.nominals
  | .map k v => k.nominals ++ v.nominals
  | .fn ps r => nominalsAll ps ++ r.nominals
  | _ => []

def nominalsAll : List Ty → List Nominal
  | [] => []
  | t :: ts => t.nominals ++ nominalsAll ts

end

attribute [local simp] nominals nominalsAll

theorem mem_nominalsAll {ts : List Ty} {x : Nominal} :
    x ∈ nominalsAll ts ↔ ∃ t ∈ ts, x ∈ t.nominals := by
  induction ts with
  | nil => simp
  | cons t ts ih => simp [ih]

/-! ### Types of operations -/

theorem nominals_target (t : Ty) : t.target.1.nominals = t.nominals := by
  cases t with
  | ref => rw [nominals]; rfl
  | _ => rfl

theorem nominals_deref (t : Ty) (span : Span) : (t.deref span).ty.nominals = t.nominals := by
  cases t with
  | ref => rw [nominals]; rfl
  | _ => rfl

theorem nominals_awaited (t : Ty) (span : Span) : (t.awaited span).ty.nominals = t.nominals := by
  cases t with
  | future => rw [nominals]; rfl
  | _ => rfl

theorem nominals_output (t : Ty) : (t.output?.getD t).nominals ⊆ t.nominals := by
  cases t with
  | future => rw [nominals]; exact List.Subset.refl _
  | _ => exact List.Subset.refl _

end Ty

theorem BinOp.nominals_result (op : BinOp) (left right : Ty) (span : Span) :
    (op.result left right span).ty.nominals ⊆ left.nominals := by
  have harith : (op.arithmetic left right span).ty.nominals ⊆ left.nominals := by
    unfold arithmetic
    split
    · exact List.nil_subset _
    split
    · exact List.nil_subset _
    split
    · dsimp only
      split <;> exact List.nil_subset _
    · exact List.Subset.refl _
  cases op with
  | add | sub | mul | div | mod => exact harith
  | _ => exact List.nil_subset _

theorem UnaryOp.nominals_result (op : UnaryOp) (operand : Ty) (span : Span) :
    (op.result operand span).ty.nominals ⊆ operand.nominals := by
  cases op with
  | neg => exact List.Subset.refl _
  | not | bitNot => exact List.nil_subset _

theorem State.nominals_element {τ : Type} (s : State τ) (object index : Ty) (place span : Span) :
    (s.element object index place span).ty.nominals ⊆ object.nominals := by
  rw [← object.nominals_target, element]
  cases object.target.1 with
  | array elem => exact List.Subset.refl _
  | map key value => exact List.subset_append_right _ _
  | _ => exact List.nil_subset _

theorem Ty.nominals_items (t : Ty) : t.items.nominals ⊆ t.nominals := by
  rw [← t.nominals_target, items]
  cases t.target.1 with
  | array elem => exact List.Subset.refl _
  | _ => exact List.nil_subset _

/-! ### What is built in -/

theorem Table.mem_of_find? {α : Type} {t : Table α} {name : String} {a : α}
    (h : t.find? name = some a) : (name, a) ∈ t.entries := by
  have hlookup (es : List (String × α)) (h : lookup name es = some a) : (name, a) ∈ es := by
    induction es with
    | nil => cases h
    | cons e es ih =>
      obtain ⟨key, value⟩ := e
      rw [lookup] at h
      split at h
      · next heq =>
        cases h
        exact heq ▸ List.mem_cons_self
      · exact List.mem_cons_of_mem _ (ih h)
  exact hlookup t.entries h

namespace Builtin

/-- Nothing that is built in knows a class or an interface. -/
theorem nominals_tables : ∀ t ∈ [globals, net, web], ∀ e ∈ t.entries, e.2.toTy.nominals = [] := by
  decide +kernel

theorem nominals_members {path : String} {e : String × FnTy} (h : e ∈ members path) :
    e.2.toTy.nominals = [] := by
  unfold members module? at h
  split at h
  · exact nominals_tables net (by simp) e h
  · exact nominals_tables web (by simp) e h
  · cases h

theorem nominals_memberTy (path : String) (member : Ident) :
    (memberTy path member).ty.nominals = [] := by
  unfold memberTy member?
  cases hm : module? path with
  | none => rfl
  | some t =>
    cases hf : t.find? member.name with
    | none => simp [hf, Ty.nominals]
    | some f =>
      have hmem : (member.name, f) ∈ members path := by
        rw [members, hm]
        exact Table.mem_of_find? hf
      simpa [hf] using nominals_members hmem

end Builtin

/-! ### Names that are known -/

namespace TypeNames

/-- Whether a class or an interface is among those with a name. -/
def has (n : TypeNames) : Nominal → Bool
  | .cls name => n.isClass name
  | .interface name => n.isInterface name

/-- All classes and interfaces of the one are among those of the other. -/
def Within (n n' : TypeNames) : Prop :=
  ∀ x, n.has x = true → n'.has x = true

/-- All classes and interfaces in a type have a name. -/
def Knows (n : TypeNames) (ty : Ty) : Prop :=
  ∀ x ∈ ty.nominals, n.has x = true

variable {n n' n'' : TypeNames} {ty ty' : Ty}

theorem Within.refl (n : TypeNames) : n.Within n :=
  fun _ h => h

theorem Within.trans (h : n.Within n') (h' : n'.Within n'') : n.Within n'' :=
  fun x hx => h' x (h x hx)

theorem Knows.mono (h : n.Knows ty) (hn : n.Within n') : n'.Knows ty :=
  fun x hx => hn x (h x hx)

theorem Knows.of_subset (h : n.Knows ty) (hty : ty'.nominals ⊆ ty.nominals) : n.Knows ty' :=
  fun x hx => h x (hty hx)

/-- Types without classes and interfaces. -/
theorem knows_of_nil (h : ty.nominals = []) : n.Knows ty := by
  intro x hx
  rw [h] at hx
  cases hx

theorem knows_fn_iff {ps : List Ty} {r : Ty} :
    n.Knows (.fn ps r) ↔ (∀ p ∈ ps, n.Knows p) ∧ n.Knows r := by
  unfold Knows
  rw [Ty.nominals, List.forall_mem_append]
  refine and_congr_left fun _ => ?_
  simp only [Ty.mem_nominalsAll]
  exact ⟨fun h p hp x hx => h x ⟨p, hp, hx⟩, fun h x ⟨p, hp, hx⟩ => h p hp x hx⟩

theorem knows_map_iff {k v : Ty} : n.Knows (.map k v) ↔ n.Knows k ∧ n.Knows v := by
  unfold Knows
  rw [Ty.nominals, List.forall_mem_append]

/-- A name stands for a type that is known. -/
theorem knows_known {name : String} (h : n.known name = some ty) : n.Knows ty := by
  unfold known at h
  split at h
  · next hclass =>
    cases h
    exact List.forall_mem_singleton.mpr hclass
  · split at h
    · next hinterface =>
      cases h
      exact List.forall_mem_singleton.mpr hinterface
    · cases h

end TypeNames

mutual

/-- Annotations stand for types that are known. -/
theorem TypeExpr.knows_ty (n : TypeNames) : ∀ t : TypeExpr, n.Knows (t.ty n.known)
  | .basic _ b => TypeNames.knows_of_nil (by cases b <;> rfl)
  | .array _ e | .chan _ e | .future _ e | .optional _ e | .ref _ _ e => e.knows_ty n
  | .map _ k v => TypeNames.knows_map_iff.mpr ⟨k.knows_ty n, v.knows_ty n⟩
  | .fn _ ps r => TypeNames.knows_fn_iff.mpr ⟨knows_tys n ps, r.knows_ty n⟩
  | .named _ name => by
    rw [TypeExpr.ty]
    cases h : n.known name with
    | none => exact TypeNames.knows_of_nil rfl
    | some ty => exact TypeNames.knows_known h

theorem TypeExpr.knows_tys (n : TypeNames) : ∀ ts : List TypeExpr, ∀ ty ∈ tys n.known ts, n.Knows ty
  | [] => List.forall_mem_nil _
  | t :: ts => List.forall_mem_cons.mpr ⟨t.knows_ty n, knows_tys n ts⟩

end

theorem Signature.knows_fnTy (n : TypeNames) (sig : Signature) :
    n.Knows (sig.fnTy n.known).toTy := by
  have hopt (t : Option TypeExpr) {other : Ty} (hother : other.nominals = []) :
      n.Knows ((t.map (·.ty n.known)).getD other) := by
    cases t with
    | none => exact TypeNames.knows_of_nil hother
    | some t => exact t.knows_ty n
  refine TypeNames.knows_fn_iff.mpr ⟨fun p hp => ?_, ?_⟩
  · obtain ⟨param, -, rfl⟩ := List.mem_map.mp hp
    exact hopt param.type rfl
  · dsimp only [fnTy]
    split
    · exact hopt sig.ret rfl
    · exact hopt sig.ret rfl

/-! ### What a state knows of types -/

namespace Table
variable {α : Type} {P Q : α → Prop} {t : Table α}

/-- All values in a table have some property. -/
def All (P : α → Prop) (t : Table α) : Prop :=
  ∀ name a, t.find? name = some a → P a

theorem all_empty : (∅ : Table α).All P := by
  intro name a h
  cases h

theorem All.insert (h : t.All P) (name : String) {a : α} (ha : P a) : (t.insert name a).All P := by
  intro other b hb
  rw [find?_insert] at hb
  split at hb
  · cases hb
    exact ha
  · exact h other b hb

theorem All.mono (h : t.All P) (hPQ : ∀ a, P a → Q a) : t.All Q :=
  fun name a ha => hPQ a (h name a ha)

end Table

namespace TypeNames

/-- The types of all methods are known. -/
def KnowsMethods (n : TypeNames) (ms : Table MethodTy) : Prop :=
  ms.All fun m => n.Knows m.fn.toTy

/-- The types of all fields and methods are known. -/
structure KnowsClass (n : TypeNames) (c : ClassDef) : Prop where
  fields : c.fields.All n.Knows
  methods : n.KnowsMethods c.methods

variable {n n' : TypeNames}

theorem KnowsMethods.mono {ms : Table MethodTy} (h : n.KnowsMethods ms) (hn : n.Within n') :
    n'.KnowsMethods ms :=
  Table.All.mono h fun _ hm => hm.mono hn

theorem KnowsClass.mono {c : ClassDef} (h : n.KnowsClass c) (hn : n.Within n') : n'.KnowsClass c :=
  ⟨h.fields.mono fun _ ht => ht.mono hn, h.methods.mono hn⟩

theorem knowsClass_empty : n.KnowsClass ⟨∅, ∅⟩ :=
  ⟨Table.all_empty, Table.all_empty⟩

end TypeNames

/-- All types in a state are known: those of names in scope, of fields and methods, of functions that
were declared but not yet come to, of what has to be returned, and of expressions. -/
structure State.TypesIn {τ : Type} (n : TypeNames) (s : State τ) : Prop where
  scopes : ∀ scope ∈ s.scopes.toList, scope.names.All n.Knows
  classes : s.classes.All n.KnowsClass
  interfaces : s.interfaces.All n.KnowsMethods
  signatures : ∀ e ∈ s.signatures, n.Knows e.2.toTy
  returns : ∀ ty, some ty ∈ s.returns → n.Knows ty
  types : ∀ e ∈ s.types, n.Knows e.2

namespace State
variable {τ : Type} {n n' : TypeNames} {s : State τ}

theorem TypesIn.mono (h : s.TypesIn n) (hn : n.Within n') : s.TypesIn n' where
  scopes scope hscope := (h.scopes scope hscope).mono fun _ ht => ht.mono hn
  classes := h.classes.mono fun _ hc => hc.mono hn
  interfaces := h.interfaces.mono fun _ hm => hm.mono hn
  signatures e he := (h.signatures e he).mono hn
  returns ty hty := (h.returns ty hty).mono hn
  types e he := (h.types e he).mono hn

/-- Every class and every interface that occurs in a type of the state is in its tables. -/
def Registered (s : State τ) : Prop :=
  s.TypesIn s.typeNames

section
variable (h : s.TypesIn n)
include h

theorem TypesIn.lookup {name : String} {ty : Ty} (hty : s.scopes.lookup name = some ty) :
    n.Knows ty := by
  obtain ⟨scope, hscope, hfind⟩ := List.exists_of_findSome?_eq_some hty
  exact h.scopes scope hscope name ty hfind

theorem TypesIn.signature? {span : Span} {f : FnTy} (hf : s.signature? span = some f) :
    n.Knows f.toTy := by
  obtain ⟨e, he, rfl⟩ := Option.map_eq_some_iff.mp hf
  exact h.signatures e (List.mem_of_find?_eq_some he)

theorem TypesIn.bind [Tracking τ] (name : String) {ty : Ty} (hty : n.Knows ty) :
    (s.bind name ty).TypesIn n :=
  { h with
    scopes := List.forall_mem_cons.mpr
      ⟨(h.scopes _ List.mem_cons_self).insert name hty,
        fun scope hscope => h.scopes scope (List.mem_cons_of_mem _ hscope)⟩ }

theorem TypesIn.push (kind : ScopeKind) :
    ∀ scope ∈ (s.scopes.push kind).toList, scope.names.All n.Knows :=
  List.forall_mem_cons.mpr ⟨Table.all_empty, h.scopes⟩

theorem TypesIn.pop : ∀ scope ∈ s.scopes.pop.toList, scope.names.All n.Knows := by
  intro scope hscope
  apply h.scopes
  unfold Scopes.pop at hscope
  split at hscope
  · exact hscope
  · next houter =>
    rw [Scopes.toList, houter]
    exact List.mem_cons_of_mem _ hscope

theorem TypesIn.keepSignature (span : Span) {f : FnTy} (hf : n.Knows f.toTy) :
    (s.keepSignature span f).TypesIn n :=
  { h with
    signatures := List.forall_mem_cons.mpr
      ⟨hf, fun e he => h.signatures e (List.mem_of_mem_filter he)⟩ }

theorem TypesIn.dropSignature (span : Span) : (s.dropSignature span).TypesIn n :=
  { h with signatures := fun e he => h.signatures e (List.mem_of_mem_filter he) }

/-- A member of an object has a type that is known, if that of the object is. -/
theorem TypesIn.member (object : Ty) (member : Ident) : n.Knows (s.member object member).ty := by
  have hnil {ty : Ty} (hty : ty.nominals = []) : n.Knows ty := TypeNames.knows_of_nil hty
  unfold State.member
  dsimp only
  split
  · unfold classMember
    split
    · exact hnil rfl
    · next c hc =>
      have hcls := h.classes _ c hc
      split
      · next ty hty => exact hcls.fields _ ty hty
      · split
        · next m hm => exact hcls.methods _ m hm
        · exact hnil rfl
  · unfold interfaceMember
    split
    · exact hnil rfl
    · next ms hms =>
      split
      · next m hm => exact h.interfaces _ ms hms _ m hm
      · exact hnil rfl
  · split
    · exact hnil (Builtin.nominals_memberTy _ _)
    · exact hnil rfl
  · next htarget => exact hnil (congrArg Ty.nominals htarget)
  · next htarget => exact hnil (congrArg Ty.nominals htarget)
  · exact hnil rfl

end

end State
end CarvFront
