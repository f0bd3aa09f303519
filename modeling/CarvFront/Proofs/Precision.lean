import Mathlib.Data.List.Forall2
import CarvFront.Check.Call

/-! Types that say less than others. A rule of typing that two types obey is obeyed by whatever says
less than they do. -/
namespace CarvFront

/-! ### Types -/

mutual

/-- The second type is the first with some parts of it, or all of it, left open. -/
def Ty.Loosens : Ty → Ty → Prop
  | .array a, b => b.isDynamic ∨ ∃ b', b = .array b' ∧ a.Loosens b'
  | .chan a, b => b.isDynamic ∨ ∃ b', b = .chan b' ∧ a.Loosens b'
  | .optional a, b => b.isDynamic ∨ ∃ b', b = .optional b' ∧ a.Loosens b'
  | .future a, b => b.isDynamic ∨ ∃ b', b = .future b' ∧ a.Loosens b'
  | .ref mutable a, b => b.isDynamic ∨ ∃ b', b = .ref mutable b' ∧ a.Loosens b'
  | .map k v, b => b.isDynamic ∨ ∃ k' v', b = .map k' v' ∧ k.Loosens k' ∧ v.Loosens v'
  | .fn ps r, b => b.isDynamic ∨ ∃ ps' r', b = .fn ps' r' ∧ Ty.LoosensAll ps ps' ∧ r.Loosens r'
  | .int, b => b.isDynamic ∨ b = .int
  | .float, b => b.isDynamic ∨ b = .float
  | .bool, b => b.isDynamic ∨ b = .bool
  | .string, b => b.isDynamic ∨ b = .string
  | .char, b => b.isDynamic ∨ b = .char
  | .void, b => b.isDynamic ∨ b = .void
  | .nil, b => b.isDynamic ∨ b = .nil
  | .cls name, b => b.isDynamic ∨ b = .cls name
  | .interface name, b => b.isDynamic ∨ b = .interface name
  | .module path, b => b.isDynamic ∨ b = .module path
  | .any, b | .unknown, b => b.isDynamic

/-- Types in order, each with some parts of it left open. -/
def Ty.LoosensAll : List Ty → List Ty → Prop
  | [], bs => bs = []
  | a :: as, bs => ∃ b bs', bs = b :: bs' ∧ a.Loosens b ∧ Ty.LoosensAll as bs'

end

namespace Ty

theorem loosensAll_iff {as bs : List Ty} : LoosensAll as bs ↔ List.Forall₂ Loosens as bs := by
  induction as generalizing bs with
  | nil => simp [LoosensAll]
  | cons a as ih =>
    rw [List.forall₂_cons_left_iff]
    simp only [LoosensAll, ih]
    constructor
    · rintro ⟨b, bs', rfl, hb, hbs⟩
      exact ⟨b, bs', hb, hbs, rfl⟩
    · rintro ⟨b, bs', hb, hbs, rfl⟩
      exact ⟨b, bs', rfl, hb, hbs⟩

theorem loosens_of_isDynamic (a : Ty) {b : Ty} (h : b.isDynamic) : a.Loosens b := by
  cases a <;> first | exact h | exact .inl h

mutual

theorem loosens_refl : ∀ a : Ty, a.Loosens a
  | .int | .float | .bool | .string | .char | .void | .nil | .cls _ | .interface _ | .module _ =>
    .inr rfl
  | .any | .unknown => rfl
  | .array a | .chan a | .optional a | .future a | .ref _ a => .inr ⟨a, rfl, loosens_refl a⟩
  | .map k v => .inr ⟨k, v, rfl, loosens_refl k, loosens_refl v⟩
  | .fn ps r => .inr ⟨ps, r, rfl, loosensAll_refl ps, loosens_refl r⟩

theorem loosensAll_refl : ∀ as : List Ty, LoosensAll as as
  | [] => rfl
  | a :: as => ⟨a, as, rfl, loosens_refl a, loosensAll_refl as⟩

end

instance : Std.Refl Loosens := ⟨loosens_refl⟩

namespace Loosens

/-- What says nothing cannot say less. -/
theorem isDynamic {a b : Ty} (h : a.Loosens b) (ha : a.isDynamic) : b.isDynamic := by
  cases a with
  | any | unknown => exact h
  | _ => cases ha

/-- Ordered types have no parts. -/
theorem of_isComparable {a b : Ty} (h : a.Loosens b) (ha : a.isComparable) :
    b.isDynamic ∨ b = a := by
  cases a with
  | int | float | string | char | bool => exact h
  | _ => cases ha

theorem ne_optional {a b : Ty} (h : a.Loosens b) (ha : ∀ t, a ≠ .optional t) (t : Ty) :
    b ≠ .optional t := by
  rintro rfl
  cases a with
  | optional a => exact ha a rfl
  | _ => simp [Loosens, Ty.isDynamic] at h

/-- What is behind a reference says less than before, unless that is left open altogether. -/
theorem target {a b : Ty} (h : a.Loosens b) :
    b.target.1.isDynamic ∨ (a.target.1.Loosens b.target.1 ∧ b.target.2 = a.target.2) := by
  cases a with
  | ref mutable a =>
    rcases h with h | ⟨b, rfl, h⟩
    · cases b with
      | any | unknown => exact .inl rfl
      | _ => cases h
    · exact .inr ⟨h, rfl⟩
  | _ =>
    cases b with
    | ref mutable b => simp [Loosens, Ty.isDynamic] at h
    | _ => exact .inr ⟨h, rfl⟩

end Loosens

/-- The type of what a loop takes from a value in turn. -/
def item (t : Ty) : Ty :=
  match t.target.1 with
  | .array elem => elem
  | _ => .any

theorem Loosens.item {a b : Ty} (h : a.Loosens b) : a.item.Loosens b.item := by
  have ht := h.target
  unfold Ty.item
  generalize a.target.1 = t, b.target.1 = u at ht ⊢
  cases u with
  | array elem' =>
    obtain ⟨ht, -⟩ := ht.resolve_left nofun
    cases t with
    | array elem =>
      obtain ⟨_, heq, he⟩ := ht.resolve_left nofun
      cases heq
      exact he
    | _ => simp [Loosens, Ty.isDynamic] at ht
  | _ => exact loosens_of_isDynamic _ rfl

/-! ### Assignability -/

variable {impls : Implements}

theorem assignable_of_isDynamic {a b : Ty} (h : a.isDynamic ∨ b.isDynamic) :
    a.assignable impls b := by
  unfold assignable
  rw [if_pos (.inr h)]

/-- A plain value goes into an optional. -/
theorem assignable_optional {a b : Ty} (ha : ∀ t, a ≠ .optional t) (h : a.assignable impls b) :
    a.assignable impls (.optional b) := by
  cases a with
  | optional t => exact absurd rfl (ha t)
  | _ => simp [assignable, h]

mutual

/-- Two types that say less than one type go together. -/
theorem Loosens.assignable_of_common : ∀ {a b c : Ty}, a.Loosens b → a.Loosens c →
    b.assignable impls c
  | .any, _, _, hb, _ | .unknown, _, _, hb, _ => assignable_of_isDynamic (.inl hb)
  | .int, _, _, hb, hc | .float, _, _, hb, hc | .bool, _, _, hb, hc | .string, _, _, hb, hc
  | .char, _, _, hb, hc | .void, _, _, hb, hc | .nil, _, _, hb, hc | .cls _, _, _, hb, hc
  | .interface _, _, _, hb, hc | .module _, _, _, hb, hc => by
    rcases hb with hb | rfl
    · exact assignable_of_isDynamic (.inl hb)
    rcases hc with hc | rfl
    · exact assignable_of_isDynamic (.inr hc)
    · simp [assignable]
  | .array _, _, _, hb, hc | .chan _, _, _, hb, hc | .optional _, _, _, hb, hc
  | .future _, _, _, hb, hc | .ref _ _, _, _, hb, hc => by
    rcases hb with hb | ⟨b, rfl, hb⟩
    · exact assignable_of_isDynamic (.inl hb)
    rcases hc with hc | ⟨c, rfl, hc⟩
    · exact assignable_of_isDynamic (.inr hc)
    · simp [assignable, hb.assignable_of_common hc]
  | .map _ _, _, _, hb, hc => by
    rcases hb with hb | ⟨k, v, rfl, hk, hv⟩
    · exact assignable_of_isDynamic (.inl hb)
    rcases hc with hc | ⟨l, w, rfl, hl, hw⟩
    · exact assignable_of_isDynamic (.inr hc)
    · simp [assignable, hk.assignable_of_common hl, hv.assignable_of_common hw]
  | .fn _ _, _, _, hb, hc => by
    rcases hb with hb | ⟨ps, r, rfl, hps, hr⟩
    · exact assignable_of_isDynamic (.inl hb)
    rcases hc with hc | ⟨qs, t, rfl, hqs, ht⟩
    · exact assignable_of_isDynamic (.inr hc)
    · simp [assignable, LoosensAll.assignableAll_of_common hqs hps, hr.assignable_of_common ht]

theorem LoosensAll.assignableAll_of_common : ∀ {as bs cs : List Ty}, LoosensAll as bs →
    LoosensAll as cs → assignableAll impls bs cs
  | [], _, _, hb, hc => by
    obtain rfl := hb
    obtain rfl := hc
    simp [assignableAll]
  | _ :: _, _, _, hb, hc => by
    obtain ⟨b, bs, rfl, hb, hbs⟩ := hb
    obtain ⟨c, cs, rfl, hc, hcs⟩ := hc
    simp [assignableAll, hb.assignable_of_common hc, hbs.assignableAll_of_common hcs]

end

mutual

/-- Assignability is kept when either side says less. -/
theorem Loosens.assignable {a b a' b' : Ty} (ha : a.Loosens a') (hb : b.Loosens b')
    (h : a.assignable impls b) : a'.assignable impls b' := by
  by_cases ha' : a'.isDynamic
  · exact assignable_of_isDynamic (.inl ha')
  by_cases hb' : b'.isDynamic
  · exact assignable_of_isDynamic (.inr hb')
  unfold Ty.assignable at h
  split at h
  · next hab =>
    rcases hab with rfl | hab | hab
    · exact ha.assignable_of_common hb
    · exact absurd (ha.isDynamic hab) ha'
    · exact absurd (hb.isDynamic hab) hb'
  · split at h
    · -- whole numbers widen
      obtain rfl := ha.resolve_left ha'
      obtain rfl := hb.resolve_left hb'
      simp [Ty.assignable]
    · -- nothing goes into an optional
      obtain rfl := ha.resolve_left ha'
      obtain ⟨y, rfl, -⟩ := hb.resolve_left hb'
      simp [Ty.assignable]
    · obtain ⟨x, rfl, hx⟩ := ha.resolve_left ha'
      obtain ⟨y, rfl, hy⟩ := hb.resolve_left hb'
      simp [Ty.assignable, hx.assignable hy h]
    · -- a plain value goes into an optional; it stays plain, so the same rule applies
      next hplain _ =>
      obtain ⟨y, rfl, hy⟩ := hb.resolve_left hb'
      exact assignable_optional (ha.ne_optional fun t ht => hplain t ht) (ha.assignable hy h)
    · obtain ⟨x, rfl, hx⟩ := ha.resolve_left ha'
      obtain ⟨y, rfl, hy⟩ := hb.resolve_left hb'
      simp [Ty.assignable, hx.assignable hy h]
    · obtain ⟨x, rfl, hx⟩ := ha.resolve_left ha'
      obtain ⟨y, rfl, hy⟩ := hb.resolve_left hb'
      simp [Ty.assignable, hx.assignable hy h]
    · obtain ⟨x, rfl, hx⟩ := ha.resolve_left ha'
      obtain ⟨y, rfl, hy⟩ := hb.resolve_left hb'
      simp [Ty.assignable, hx.assignable hy h]
    · obtain ⟨k', v', rfl, hk, hv⟩ := ha.resolve_left ha'
      obtain ⟨l', w', rfl, hl, hw⟩ := hb.resolve_left hb'
      obtain ⟨hkl, hvw⟩ := Bool.and_eq_true_iff.mp h
      simp [Ty.assignable, hk.assignable hl hkl, hv.assignable hw hvw]
    · obtain ⟨x, rfl, hx⟩ := ha.resolve_left ha'
      obtain ⟨y, rfl, hy⟩ := hb.resolve_left hb'
      obtain ⟨hmn, h⟩ := Bool.and_eq_true_iff.mp h
      rw [Ty.assignable, hmn, hx.assignable hy h]
      simp
    · obtain rfl := ha.resolve_left ha'
      obtain rfl := hb.resolve_left hb'
      simp [Ty.assignable, h]
    · obtain ⟨ps', r', rfl, hps, hr⟩ := ha.resolve_left ha'
      obtain ⟨qs', t', rfl, hqs, ht⟩ := hb.resolve_left hb'
      obtain ⟨hpq, hrt⟩ := Bool.and_eq_true_iff.mp h
      simp [Ty.assignable, hqs.assignableAll hps hpq, hr.assignable ht hrt]
    · cases h
termination_by sizeOf a + sizeOf b
decreasing_by
  all_goals
    subst_vars
    simp +arith

theorem LoosensAll.assignableAll {as bs as' bs' : List Ty} (ha : LoosensAll as as')
    (hb : LoosensAll bs bs') (h : assignableAll impls as bs) : assignableAll impls as' bs' := by
  unfold Ty.assignableAll at h
  split at h
  · obtain rfl := ha
    obtain rfl := hb
    simp [Ty.assignableAll]
  · obtain ⟨a', as', rfl, ha, has⟩ := ha
    obtain ⟨b', bs', rfl, hb, hbs⟩ := hb
    obtain ⟨hab, h⟩ := Bool.and_eq_true_iff.mp h
    simp [Ty.assignableAll, ha.assignable hb hab, has.assignableAll hbs h]
  · cases h
termination_by sizeOf as + sizeOf bs
decreasing_by
  all_goals
    subst_vars
    simp +arith

end

theorem Loosens.fits {t t' wanted : Ty} (hw : wanted.isComparable) (h : t.Loosens t')
    (hf : t.fits wanted) : t'.fits wanted := by
  simp only [Ty.fits, Bool.or_eq_true, decide_eq_true_eq] at hf ⊢
  rcases hf with rfl | hf
  · exact (h.of_isComparable hw).symm
  · exact .inr (h.isDynamic hf)

theorem Loosens.isComparable {t t' : Ty} (h : t.Loosens t')
    (hc : t.isComparable || t.isDynamic) : t'.isComparable || t'.isDynamic := by
  rw [Bool.or_eq_true] at hc ⊢
  rcases hc with hc | hc
  · rcases h.of_isComparable hc with h | rfl
    · exact .inr h
    · exact .inl hc
  · exact .inr (h.isDynamic hc)

theorem isComparable_of_isNumeric {t : Ty} (h : t.isNumeric) : t.isComparable := by
  cases t with
  | int | float => rfl
  | _ => cases h

/-- What a future gives, or the type itself if it is no future. -/
theorem Loosens.output {t t' : Ty} (h : t.Loosens t') :
    (t.output?.getD t).Loosens (t'.output?.getD t') := by
  by_cases hd : t'.isDynamic
  · refine loosens_of_isDynamic _ ?_
    cases t' with
    | any | unknown => rfl
    | _ => cases hd
  · cases t with
    | future t =>
      obtain ⟨u, rfl, hu⟩ := h.resolve_left hd
      exact hu
    | _ =>
      cases t' with
      | future t' => simp [Loosens, Ty.isDynamic] at h
      | _ => exact h

end Ty

/-- The type of a function with some parts of it left open. -/
structure FnTy.Loosens (f f' : FnTy) : Prop where
  params : List.Forall₂ Ty.Loosens f.params f'.params
  ret : f.ret.Loosens f'.ret

instance : Std.Refl FnTy.Loosens := ⟨fun f => ⟨List.forall₂_refl f.params, refl f.ret⟩⟩

theorem FnTy.Loosens.toTy {f f' : FnTy} (h : f.Loosens f') : f.toTy.Loosens f'.toTy :=
  .inr ⟨f'.params, f'.ret, rfl, Ty.loosensAll_iff.mpr h.params, h.ret⟩

/-- A key and a value whose types say less. -/
structure Ty.LoosensBoth (a b : Ty × Ty) : Prop where
  key : a.1.Loosens b.1
  value : a.2.Loosens b.2

instance : Std.Refl Ty.LoosensBoth := ⟨fun _ => ⟨refl _, refl _⟩⟩

/-- A call that asks for less, of each argument or of none. -/
structure OpenCall.Loosens (call call' : OpenCall) : Prop where
  params : call'.params = [] ∨ List.Forall₂ Ty.Loosens call.params call'.params
  ret : call.ret.Loosens call'.ret

instance : Std.Refl OpenCall.Loosens := ⟨fun call => ⟨.inr (List.forall₂_refl call.params), refl _⟩⟩

/-! ### Judgements -/

/-- Only warnings. -/
def NoErrors (fs : List Finding) : Prop :=
  ∀ f ∈ fs, f.cause.severity = .warning

@[simp] theorem noErrors_nil : NoErrors [] := List.forall_mem_nil _

@[simp] theorem noErrors_singleton {cause : Cause} {span : Span} :
    NoErrors [⟨cause, span⟩] ↔ cause.severity = .warning := by
  simp [NoErrors]

@[simp] theorem noErrors_append {fs gs : List Finding} :
    NoErrors (fs ++ gs) ↔ NoErrors fs ∧ NoErrors gs := by
  simp [NoErrors, or_imp, forall_and]

theorem noErrors_ite {ok : Bool} {cause : Cause} {span : Span} :
    NoErrors (if ok then [] else [⟨cause, span⟩]) ↔ ok ∨ cause.severity = .warning := by
  cases ok <;> simp

namespace Judgement

/-- The second judgement is without errors if the first one is, and its type says less. -/
def Loosens (j j' : Judgement) : Prop :=
  NoErrors j.findings → j.ty.Loosens j'.ty ∧ NoErrors j'.findings

theorem loosens_refl (j : Judgement) : j.Loosens j :=
  fun h => ⟨refl j.ty, h⟩

theorem loosens_of_ty {t t' : Ty} (h : t.Loosens t') : Loosens ⟨t, []⟩ ⟨t', []⟩ :=
  fun _ => ⟨h, noErrors_nil⟩

theorem loosens_of_isDynamic (j : Judgement) {t : Ty} (h : t.isDynamic) : j.Loosens ⟨t, []⟩ :=
  fun _ => ⟨j.ty.loosens_of_isDynamic h, noErrors_nil⟩

theorem loosens_of_error {t : Ty} {cause : Cause} {span : Span} {j : Judgement}
    (h : cause.severity = .error) : Loosens ⟨t, [⟨cause, span⟩]⟩ j := by
  intro hf
  rw [noErrors_singleton, h] at hf
  cases hf

theorem loosens_demand {t t' : Ty} {ok ok' : Bool} {cause cause' : Cause} {span : Span}
    (ht : t.Loosens t')
    (hok : ok ∨ cause.severity = .warning → ok' ∨ cause'.severity = .warning) :
    (demand t ok cause span).Loosens (demand t' ok' cause' span) :=
  fun h => ⟨ht, noErrors_ite.mpr (hok (noErrors_ite.mp h))⟩

end Judgement

namespace BinOp

/-- Arithmetic is on numbers and texts. -/
theorem isComparable_of_arithmetic {op : BinOp} {l r : Ty} {span : Span}
    (hd : ¬ (l.isDynamic || r.isDynamic)) (h : NoErrors (op.arithmetic l r span).findings) :
    l.isComparable ∧ r.isComparable := by
  by_cases hs : op = .add ∧ l = .string ∧ r = .string
  · obtain ⟨-, rfl, rfl⟩ := hs
    exact ⟨rfl, rfl⟩
  rw [arithmetic, if_neg hs, if_neg hd] at h
  by_cases hn : l.isNumeric && r.isNumeric
  · obtain ⟨hl, hr⟩ := Bool.and_eq_true_iff.mp hn
    exact ⟨Ty.isComparable_of_isNumeric hl, Ty.isComparable_of_isNumeric hr⟩
  · rw [if_neg hn] at h
    cases noErrors_singleton.mp h

theorem arithmetic_of_isDynamic (op : BinOp) {l r : Ty} (span : Span)
    (hd : l.isDynamic || r.isDynamic) : op.arithmetic l r span = ⟨.any, []⟩ := by
  have hs : ¬ (op = .add ∧ l = .string ∧ r = .string) := by
    rintro ⟨-, rfl, rfl⟩
    cases hd
  rw [arithmetic, if_neg hs, if_pos hd]

theorem loosens_arithmetic (op : BinOp) {l r l' r' : Ty} (hl : l.Loosens l') (hr : r.Loosens r')
    (span : Span) : (op.arithmetic l r span).Loosens (op.arithmetic l' r' span) := by
  by_cases hd' : l'.isDynamic || r'.isDynamic
  · rw [op.arithmetic_of_isDynamic span hd']
    exact Judgement.loosens_of_isDynamic _ rfl
  -- neither operand became dynamic, so neither lost anything
  · intro h
    have hd : ¬ (l.isDynamic || r.isDynamic) := by
      rw [Bool.or_eq_true] at hd' ⊢
      exact fun hd => hd' (hd.imp hl.isDynamic hr.isDynamic)
    obtain ⟨hlc, hrc⟩ := isComparable_of_arithmetic hd h
    rw [Bool.or_eq_true, not_or] at hd'
    obtain rfl := (hl.of_isComparable hlc).resolve_left hd'.1
    obtain rfl := (hr.of_isComparable hrc).resolve_left hd'.2
    exact ⟨refl _, h⟩

theorem loosens_result (op : BinOp) {l r l' r' : Ty} (hl : l.Loosens l') (hr : r.Loosens r')
    (span : Span) : (op.result l r span).Loosens (op.result l' r' span) := by
  cases op with
  | add | sub | mul | div | mod => exact loosens_arithmetic _ hl hr span
  | eq | notEq => exact Judgement.loosens_refl _
  | less | greater | lessEq | greaterEq =>
    refine Judgement.loosens_demand (refl _) (Or.imp (fun hok => ?_) id)
    rw [Bool.and_eq_true] at hok ⊢
    exact ⟨hl.isComparable hok.1, hr.isComparable hok.2⟩
  | and | or | bitAnd | bitOr | bitXor | shl | shr =>
    refine Judgement.loosens_demand (refl _) (Or.imp (fun hok => ?_) id)
    rw [Bool.and_eq_true] at hok ⊢
    exact ⟨hl.fits rfl hok.1, hr.fits rfl hok.2⟩

end BinOp

theorem UnaryOp.loosens_result (op : UnaryOp) {t t' : Ty} (h : t.Loosens t') (span : Span) :
    (op.result t span).Loosens (op.result t' span) := by
  cases op with
  | neg =>
    refine Judgement.loosens_demand h (Or.imp (fun hok => ?_) id)
    rw [Bool.or_eq_true] at hok ⊢
    rcases hok with hn | hd
    · rcases h.of_isComparable (Ty.isComparable_of_isNumeric hn) with h | rfl
      · exact .inr h
      · exact .inl hn
    · exact .inr (h.isDynamic hd)
  | not | bitNot => exact Judgement.loosens_demand (refl _) (Or.imp (h.fits rfl) id)

namespace Ty

theorem Loosens.deref {t t' : Ty} (h : t.Loosens t') (span : Span) :
    (t.deref span).Loosens (t'.deref span) := by
  by_cases hd : t'.isDynamic
  · have heq : t'.deref span = ⟨t', []⟩ := by
      cases t' with
      | any | unknown => rfl
      | _ => cases hd
    rw [heq]
    exact Judgement.loosens_of_isDynamic _ hd
  · cases t with
    | ref mutable t =>
      obtain ⟨u, rfl, hu⟩ := h.resolve_left hd
      exact Judgement.loosens_of_ty hu
    | _ =>
      cases t' with
      | ref mutable t' => simp [Loosens, Ty.isDynamic] at h
      | any | unknown => cases hd rfl
      | _ => exact fun _ => ⟨h, noErrors_singleton.mpr rfl⟩

theorem Loosens.awaited {t t' : Ty} (h : t.Loosens t') (operand : Span) :
    (t.awaited operand).Loosens (t'.awaited operand) := by
  by_cases hd : t'.isDynamic
  · have heq : t'.awaited operand = ⟨t', []⟩ := by
      cases t' with
      | any | unknown => rfl
      | _ => cases hd
    rw [heq]
    exact Judgement.loosens_of_isDynamic _ hd
  · cases t with
    | future t =>
      obtain ⟨u, rfl, hu⟩ := h.resolve_left hd
      exact Judgement.loosens_of_ty hu
    | any | unknown => exact absurd h hd
    | _ => exact Judgement.loosens_of_error rfl

end Ty
end CarvFront
