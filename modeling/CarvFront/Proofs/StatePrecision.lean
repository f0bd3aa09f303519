import CarvFront.Check.Program
import CarvFront.Proofs.Precision

/-! States of checking that say less than others: the same names are known, and each has a type that
says less. -/
namespace CarvFront
variable {α : Type} {R : α → α → Prop} {a a' : Option α}

instance refl_forall₂ {α : Type} {R : α → α → Prop} [Std.Refl R] : Std.Refl (List.Forall₂ R) :=
  ⟨List.forall₂_refl⟩

instance refl_rel {α : Type} {R : α → α → Prop} [Std.Refl R] : Std.Refl (Option.Rel R) :=
  ⟨fun a => by cases a with
    | none => exact .none
    | some a => exact .some (refl a)⟩

theorem isSome_eq_of_rel (h : Option.Rel R a a') : a'.isSome = a.isSome := by
  cases h <;> rfl

theorem rel_cases (h : Option.Rel R a a') :
    (a = none ∧ a' = none) ∨ ∃ x x', a = some x ∧ a' = some x' ∧ R x x' := by
  cases h with
  | none => exact .inl ⟨rfl, rfl⟩
  | some h => exact .inr ⟨_, _, rfl, rfl, h⟩

theorem rel_bind {β : Type} {S : β → β → Prop} {f : α → Option β} (h : Option.Rel R a a')
    (hf : ∀ x x', R x x' → Option.Rel S (f x) (f x')) : Option.Rel S (a.bind f) (a'.bind f) := by
  cases h with
  | none => exact .none
  | some h => exact hf _ _ h

theorem rel_getElem? {l l' : List α} (h : List.Forall₂ R l l') (i : Nat) :
    Option.Rel R l[i]? l'[i]? := by
  induction h generalizing i with
  | nil => exact .none
  | cons ha _ ih =>
    cases i with
    | zero => exact .some ha
    | succ i => exact ih i

theorem rel_find? {p q : α → Bool} {l l' : List α} (hpq : ∀ a a', R a a' → q a' = p a)
    (h : List.Forall₂ R l l') : Option.Rel R (l.find? p) (l'.find? q) := by
  induction h with
  | nil => exact .none
  | cons ha _ ih =>
    rw [List.find?_cons, List.find?_cons, hpq _ _ ha]
    split
    · exact .some ha
    · exact ih

/-! ### Tables -/

namespace Table
variable {α : Type} {R : α → α → Prop}

/-- Tables with the same names, and related values under each. -/
def Rel (R : α → α → Prop) (t t' : Table α) : Prop :=
  ∀ name, Option.Rel R (t.find? name) (t'.find? name)

instance [Std.Refl R] : Std.Refl (Rel R) := ⟨fun t name => refl (t.find? name)⟩

theorem Rel.insert {t t' : Table α} (h : t.Rel R t') (name : String) {a a' : α} (ha : R a a') :
    (t.insert name a).Rel R (t'.insert name a') := by
  intro other
  rw [find?_insert, find?_insert]
  split
  · exact .some ha
  · exact h other

theorem Rel.contains {t t' : Table α} (h : t.Rel R t') (name : String) :
    t'.contains name = t.contains name :=
  isSome_eq_of_rel (h name)

theorem Rel.empty : (∅ : Table α).Rel R ∅ := fun _ => .none

/-- The entries are what can be found. -/
theorem find?_eq_some_iff (t : Table α) (name : String) (a : α) :
    t.find? name = some a ↔ (name, a) ∈ t.entries := by
  obtain ⟨es, hs⟩ := t
  change lookup name es = some a ↔ (name, a) ∈ es
  induction es with
  | nil => simp [lookup]
  | cons e es ih =>
    obtain ⟨k, v⟩ := e
    obtain ⟨hk, hs⟩ := List.pairwise_cons.mp hs
    by_cases hkn : k = name
    · subst hkn
      have hnot : (k, a) ∉ es := fun h => String.lt_irrefl k (hk _ h)
      simp [lookup, hnot, eq_comm]
    · simp [lookup, hkn, Ne.symm hkn, ih hs]

end Table

/-! ### Scopes -/

/-- The same kind of scope with types that say less. -/
structure Scope.Loosens (a b : Scope) : Prop where
  kind : b.kind = a.kind
  names : a.names.Rel Ty.Loosens b.names

instance : Std.Refl Scope.Loosens := ⟨fun _ => ⟨rfl, refl _⟩⟩

/-- The same scopes with types that say less. -/
def Scopes.Loosens (s s' : Scopes) : Prop :=
  List.Forall₂ Scope.Loosens s.toList s'.toList

instance : Std.Refl Scopes.Loosens := ⟨fun s => refl s.toList⟩

namespace Scopes.Loosens
variable {s s' : Scopes} (h : s.Loosens s')
include h

theorem push (kind : ScopeKind) : (s.push kind).Loosens (s'.push kind) :=
  .cons ⟨rfl, .empty⟩ h

theorem pop : s.pop.Loosens s'.pop := by
  obtain ⟨inner, outer⟩ := s
  obtain ⟨inner', outer'⟩ := s'
  obtain - | ⟨hi, ho⟩ := h
  cases ho with
  | nil => exact .cons hi .nil
  | cons hj ho => exact .cons hj ho

theorem define (name : String) {t t' : Ty} (ht : t.Loosens t') :
    (s.define name t).Loosens (s'.define name t') := by
  obtain - | ⟨hi, ho⟩ := h
  exact .cons ⟨hi.kind, hi.names.insert name ht⟩ ho

theorem atGlobal : s'.atGlobal = s.atGlobal := by
  obtain ⟨inner, outer⟩ := s
  obtain ⟨inner', outer'⟩ := s'
  obtain - | ⟨hi, ho⟩ := h
  cases ho <;> rfl

theorem lookup (name : String) : Option.Rel Ty.Loosens (s.lookup name) (s'.lookup name) := by
  unfold Scopes.lookup
  unfold Scopes.Loosens at h
  generalize s.toList = l, s'.toList = l' at h ⊢
  induction h with
  | nil => exact .none
  | @cons scope scope' _ _ hi _ ih =>
    have hn := hi.names name
    rw [List.findSome?_cons, List.findSome?_cons]
    generalize scope.names.find? name = t, scope'.names.find? name = t' at hn ⊢
    cases hn with
    | none => exact ih
    | some ht => exact .some ht

theorem resolvesGlobally (name : String) : s'.resolvesGlobally name = s.resolvesGlobally name := by
  have hf := rel_find? (fun _ _ hi => hi.names.contains name) h
  unfold Scopes.resolvesGlobally
  revert hf
  generalize s.toList.find? _ = scope, s'.toList.find? _ = scope'
  rintro (hi | -)
  · simp only [hi.kind]
  · rfl

theorem inAsync : s'.inAsync = s.inAsync := by
  have hf := rel_find? (fun _ _ hi => congrArg ScopeKind.isFunction hi.kind) h
  unfold Scopes.inAsync
  revert hf
  generalize s.toList.find? _ = scope, s'.toList.find? _ = scope'
  rintro (hi | -)
  · simp only [hi.kind]
  · rfl

theorem inLoop : s'.inLoop = s.inLoop := by
  unfold Scopes.inLoop
  unfold Scopes.Loosens at h
  generalize s.toList = l, s'.toList = l' at h ⊢
  induction h with
  | nil => rfl
  | cons hi _ ih =>
    rw [List.takeWhile_cons, List.takeWhile_cons, hi.kind]
    split
    · rw [List.any_cons, List.any_cons, hi.kind, ih]
    · rfl

end Scopes.Loosens

/-! ### States -/

/-- A method that says less. -/
structure MethodTy.Loosens (m m' : MethodTy) : Prop where
  receiver : m'.receiver = m.receiver
  fn : m.fn.Loosens m'.fn

instance : Std.Refl MethodTy.Loosens := ⟨fun _ => ⟨rfl, refl _⟩⟩

/-- The same members with types that say less. -/
structure ClassDef.Loosens (c c' : ClassDef) : Prop where
  fields : c.fields.Rel Ty.Loosens c'.fields
  methods : c.methods.Rel MethodTy.Loosens c'.methods

instance : Std.Refl ClassDef.Loosens := ⟨fun _ => ⟨refl _, refl _⟩⟩

/-- The same names are known, with types that say less. What was moved and borrowed may differ, and
so may the findings. -/
structure State.Loosens {τ : Type} (s s' : State τ) : Prop where
  scopes : s.scopes.Loosens s'.scopes
  classes : s.classes.Rel ClassDef.Loosens s'.classes
  interfaces : s.interfaces.Rel (Table.Rel MethodTy.Loosens) s'.interfaces
  impls : s'.impls = s.impls
  signature? : ∀ span, Option.Rel FnTy.Loosens (s.signature? span) (s'.signature? span)
  returns : List.Forall₂ (Option.Rel Ty.Loosens) s.returns s'.returns
  replaced : s'.replaced = s.replaced
  openNames : s'.openNames = s.openNames

namespace State
variable {τ : Type}

instance : Std.Refl (Loosens (τ := τ)) :=
  ⟨fun _ => ⟨refl _, refl _, refl _, rfl, fun _ => refl _, refl _, rfl, rfl⟩⟩

theorem signature?_dropSignature (s : State τ) (span other : Span) :
    (s.dropSignature span).signature? other =
      if span = other then none else s.signature? other := by
  simp only [signature?, dropSignature, List.find?_filter]
  split
  · next heq =>
    subst heq
    simp
  · next hne =>
    congr 2
    funext e
    by_cases he : e.1 = other
    · simp [he, Ne.symm hne]
    · simp [he]

theorem signature?_keepSignature (s : State τ) (span other : Span) (f : FnTy) :
    (s.keepSignature span f).signature? other =
      if span = other then some f else s.signature? other := by
  have hdrop := s.signature?_dropSignature span other
  simp only [signature?, keepSignature, dropSignature, List.find?_cons] at hdrop ⊢
  by_cases h : span = other
  · simp [h]
  · simpa [h] using hdrop

namespace Loosens
variable {s s' : State τ} (h : s.Loosens s')
variable {object object' : Ty}
include h

theorem implements : s'.implements = s.implements := by
  unfold State.implements
  rw [h.impls]

theorem known : s'.known = s.known := by
  funext name
  unfold State.known
  rw [h.classes.contains, h.interfaces.contains]

theorem isVariadic : s'.isVariadic = s.isVariadic := by
  funext name
  unfold State.isVariadic
  rw [h.replaced, h.scopes.resolvesGlobally]

theorem assignable {a b a' b' : Ty} (ha : a.Loosens a') (hb : b.Loosens b')
    (hab : s.assignable a b) : s'.assignable a' b' := by
  unfold State.assignable
  rw [h.implements]
  exact ha.assignable hb hab

theorem keepSignature (span : Span) {f f' : FnTy} (hf : f.Loosens f') :
    (s.keepSignature span f).Loosens (s'.keepSignature span f') where
  __ := h
  signature? other := by
    rw [signature?_keepSignature, signature?_keepSignature]
    split
    · exact .some hf
    · exact h.signature? other

theorem dropSignature (span : Span) : (s.dropSignature span).Loosens (s'.dropSignature span) where
  __ := h
  signature? other := by
    rw [signature?_dropSignature, signature?_dropSignature]
    split
    · exact .none
    · exact h.signature? other

theorem bind [Tracking τ] (name : String) {t t' : Ty} (ht : t.Loosens t') :
    (s.bind name t).Loosens (s'.bind name t') where
  __ := h
  scopes := h.scopes.define name ht
  replaced := by
    simp only [State.bind]
    rw [h.scopes.atGlobal, h.replaced]

/-! ### Members and elements -/

theorem classMember (cls : String) (member : Ident) (shared : Bool) :
    (s.classMember cls member shared).Loosens (s'.classMember cls member shared) := by
  unfold State.classMember
  rcases rel_cases (h.classes cls) with ⟨hc, hc'⟩ | ⟨c, c', hc, hc', hcls⟩
  · simp only [hc, hc']
    exact Judgement.loosens_refl _
  simp only [hc, hc']
  rcases rel_cases (hcls.fields member.name) with ⟨hf, hf'⟩ | ⟨t, t', hf, hf', ht⟩
  · simp only [hf, hf']
    rcases rel_cases (hcls.methods member.name) with ⟨hm, hm'⟩ | ⟨m, m', hm, hm', hmm⟩
    · simp only [hm, hm']
      exact Judgement.loosens_refl _
    · simp only [hm, hm']
      exact Judgement.loosens_demand hmm.fn.toTy fun _ => .inr rfl
  · simp only [hf, hf']
    exact Judgement.loosens_of_ty ht

theorem interfaceMember (interface : String) (member : Ident) (shared : Bool) :
    (s.interfaceMember interface member shared).Loosens
      (s'.interfaceMember interface member shared) := by
  unfold State.interfaceMember
  rcases rel_cases (h.interfaces interface) with ⟨hi, hi'⟩ | ⟨ms, ms', hi, hi', hms⟩
  · simp only [hi, hi']
    exact Judgement.loosens_refl _
  simp only [hi, hi']
  rcases rel_cases (hms member.name) with ⟨hm, hm'⟩ | ⟨m, m', hm, hm', hmm⟩
  · simp only [hm, hm']
    exact Judgement.loosens_refl _
  · simp only [hm, hm', hmm.receiver]
    exact Judgement.loosens_demand hmm.fn.toTy id

theorem member (ho : object.Loosens object') (member : Ident) :
    (s.member object member).Loosens (s'.member object' member) := by
  have ht := ho.target
  unfold State.member
  generalize object.target = target, object'.target = target' at ht ⊢
  obtain ⟨t, shared⟩ := target
  obtain ⟨t', shared'⟩ := target'
  by_cases hd : t'.isDynamic
  · cases t' with
    | any | unknown => exact Judgement.loosens_of_isDynamic _ rfl
    | _ => cases hd
  · obtain ⟨ht, rfl⟩ := ht.resolve_left hd
    cases t with
    | cls name =>
      obtain rfl := ht.resolve_left hd
      exact h.classMember name member _
    | interface name =>
      obtain rfl := ht.resolve_left hd
      exact h.interfaceMember name member _
    | module path =>
      obtain rfl := ht.resolve_left hd
      exact Judgement.loosens_refl _
    | any | unknown => exact absurd ht hd
    | _ => exact Judgement.loosens_of_error rfl

/-- A field can be assigned to without errors if it could before, and what may be assigned says
less; nothing is known of it when the object is left open. -/
theorem assignedField (ho : object.Loosens object') (member : Ident) (span : Span)
    (hf : NoErrors (s.assignedField object member span).2) :
    NoErrors (s'.assignedField object' member span).2 ∧
      ((s'.assignedField object' member span).1 = none ∨
        Option.Rel Ty.Loosens (s.assignedField object member span).1
          (s'.assignedField object' member span).1) := by
  have ht := ho.target
  unfold State.assignedField at hf ⊢
  generalize object.target = target, object'.target = target' at ht hf ⊢
  obtain ⟨t, shared⟩ := target
  obtain ⟨t', shared'⟩ := target'
  by_cases hd : t'.isDynamic
  · cases t' with
    | any | unknown => exact ⟨noErrors_nil, .inl rfl⟩
    | _ => cases hd
  · obtain ⟨ht, rfl⟩ := ht.resolve_left hd
    cases t with
    | cls name =>
      obtain rfl := ht.resolve_left hd
      have hfield := rel_bind (h.classes name) fun _ _ hc => hc.fields member.name
      dsimp only at hf ⊢
      rcases rel_cases hfield with ⟨hn, hn'⟩ | ⟨t, t', ht, ht', htt⟩
      · simp only [hn, noErrors_singleton] at hf
        cases hf
      · simp only [ht, ht']
        refine ⟨?_, .inr (.some htt)⟩
        split
        · exact noErrors_singleton.mpr rfl
        · exact noErrors_nil
    | any | unknown => exact absurd ht hd
    | _ => cases noErrors_singleton.mp hf

theorem element {index index' : Ty} (ho : object.Loosens object') (hi : index.Loosens index')
    (place span : Span) :
    (s.element object index place span).Loosens (s'.element object' index' place span) := by
  have ht := ho.target
  unfold State.element
  generalize object.target = target, object'.target = target' at ht ⊢
  obtain ⟨t, shared⟩ := target
  obtain ⟨t', shared'⟩ := target'
  by_cases hd : t'.isDynamic
  · cases t' with
    | any | unknown => exact Judgement.loosens_of_isDynamic _ rfl
    | _ => cases hd
  · obtain ⟨ht, -⟩ := ht.resolve_left hd
    cases t with
    | array elem =>
      obtain ⟨elem', rfl, he⟩ := ht.resolve_left hd
      exact Judgement.loosens_demand he (Or.imp (hi.fits rfl) id)
    | map key value =>
      obtain ⟨key', value', rfl, hk, hv⟩ := ht.resolve_left hd
      exact Judgement.loosens_demand hv (Or.imp (h.assignable hi hk) id)
    | string =>
      obtain rfl := ht.resolve_left hd
      exact Judgement.loosens_demand (refl _) (Or.imp (hi.fits rfl) id)
    | any | unknown => exact absurd ht hd
    | _ => exact Judgement.loosens_of_error rfl

end Loosens
end State

/-! ### Implementations -/

namespace Conformance
variable {c c' : Conformance} {impls : Implements}

theorem noErrors_parameters {name : String} {span span' : Span} {i : Nat}
    {wants wants' gots gots' : List Ty} (hw : List.Forall₂ Ty.Loosens wants wants')
    (hg : List.Forall₂ Ty.Loosens gots gots')
    (h : NoErrors (c.parameters impls name span i wants gots)) :
    NoErrors (c'.parameters impls name span' i wants' gots') := by
  induction hw generalizing i gots gots' with
  | nil => exact noErrors_nil
  | cons hwant _ ih =>
    cases hg with
    | nil => exact noErrors_nil
    | cons hgot hgots =>
      simp only [parameters, noErrors_append, noErrors_ite] at h ⊢
      exact ⟨h.1.imp (hwant.assignable hgot) id, ih hgots h.2⟩

theorem noErrors_method {name : String} {want want' got got' : MethodTy}
    (hw : want.Loosens want') (hg : got.Loosens got')
    (h : NoErrors (c.method impls name want got)) :
    NoErrors (c'.method impls name want' got') := by
  simp only [method, noErrors_append, noErrors_ite] at h ⊢
  obtain ⟨⟨hparams, hret⟩, -⟩ := h
  refine ⟨⟨?_, hret.imp (hg.fn.ret.assignable hw.fn.ret) id⟩, ?_⟩
  · rw [← hw.fn.params.length_eq, ← hg.fn.params.length_eq]
    split at hparams
    · cases noErrors_singleton.mp hparams
    · next hlen =>
      rw [if_neg hlen]
      exact noErrors_parameters hw.fn.params hg.fn.params hparams
  · split
    · exact noErrors_nil
    · exact noErrors_singleton.mpr rfl

/-- A class that has what an interface asks for has it when both say less. -/
theorem noErrors_findings (hr : c.required.Rel MethodTy.Loosens c'.required)
    (hp : c.provided.Rel MethodTy.Loosens c'.provided) (h : NoErrors (c.findings impls)) :
    NoErrors (c'.findings impls) := by
  intro f hf
  obtain ⟨⟨name, want'⟩, hmem, hf⟩ := List.mem_flatMap.mp hf
  have hreq := hr name
  rw [(c'.required.find?_eq_some_iff name want').mpr hmem] at hreq
  rcases rel_cases hreq with ⟨-, hnone⟩ | ⟨want, _, hw, hsome, hwant⟩
  · cases hnone
  obtain rfl := Option.some.inj hsome
  have hone : NoErrors (c.one impls name want) := fun g hg =>
    h g (List.mem_flatMap.mpr ⟨(name, want), (c.required.find?_eq_some_iff name want).mp hw, hg⟩)
  rcases rel_cases (hp name) with ⟨hg, hg'⟩ | ⟨got, got', hg, hg', hgot⟩
  · simp only [one, hg, noErrors_singleton] at hone
    cases hone
  · simp only [one, hg, hg'] at hone hf
    exact noErrors_method hwant hgot hone f hf

end Conformance
end CarvFront
