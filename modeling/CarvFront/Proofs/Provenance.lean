import CarvFront.Proofs.Reporting
import CarvFront.Proofs.RegisteredTypes
import CarvFront.Proofs.Simulation

/-! What is let off as built in is what is built in. Beside the scopes of a walk the bindings of all
open scopes are kept a second time, each with where it comes from. A variadic function is recognised
by a list of names that were given away at the top of the program and by the kind of the scope that
binds the name; these tell exactly whether the visible binding is the one that was there before the
program. -/
namespace CarvFront

/-- Where a binding comes from. -/
inductive Origin where
  /-- It was there before the program. -/
  | builtin
  /-- The program made it. -/
  | program
deriving DecidableEq

/-- The bindings of all open scopes with their origins, beside another way to keep track. -/
structure Traced (τ : Type) where
  /-- The scopes inside the program, the innermost first. -/
  inside : List (Table (Ty × Origin))
  /-- The top of the program. -/
  top : Table (Ty × Origin)
  inner : τ

namespace Traced
variable {τ : Type}

/-- What is there before a program. -/
def seeded : Table (Ty × Origin) :=
  Builtin.globals.entries.foldl (fun t e => t.insert e.1 (e.2.toTy, .builtin)) ∅

/-- Bind a name in the innermost scope. -/
def define (t : Traced τ) (name : String) (ty : Ty) : Traced τ :=
  match t.inside with
  | [] => { t with top := t.top.insert name (ty, .program) }
  | scope :: scopes => { t with inside := scope.insert name (ty, .program) :: scopes }

def enter (t : Traced τ) : Traced τ :=
  { t with inside := ∅ :: t.inside }

def leave (t : Traced τ) : Traced τ :=
  { t with inside := t.inside.tail }

theorem tail_define (t : Traced τ) (name : String) (ty : Ty) :
    (t.define name ty).inside.tail = t.inside.tail := by
  unfold define
  split
  · rfl
  · next h => rw [h, List.tail_cons, List.tail_cons]

/-- All open scopes, the innermost first. -/
def scopes (t : Traced τ) : List (Table (Ty × Origin)) :=
  t.inside ++ [t.top]

/-- The visible binding of a name. -/
def lookup (t : Traced τ) (name : String) : Option (Ty × Origin) :=
  t.scopes.findSome? (·.find? name)

/-- Where the visible binding of a name comes from. -/
def origin? (t : Traced τ) (name : String) : Option Origin :=
  (t.lookup name).map (·.2)

instance tracking [Tracking τ] : Tracking (Traced τ) where
  empty := ⟨[], seeded, Tracking.empty⟩
  enterFrame t := { t.enter with inner := Tracking.enterFrame t.inner }
  leaveFrame t := { t.leave with inner := Tracking.leaveFrame t.inner }
  enterBlock t := { t.enter with inner := Tracking.enterBlock t.inner }
  leaveBlock t := { t.leave with inner := Tracking.leaveBlock t.inner }
  bind name ty t := { t.define name ty with inner := Tracking.bind name ty t.inner }
  move name site t := { t with inner := Tracking.move name site t.inner }
  movedAt? t := Tracking.movedAt? t.inner
  borrow name mutable t :=
    ((Tracking.borrow name mutable t.inner).1,
      { t with inner := (Tracking.borrow name mutable t.inner).2 })
  isBorrowed t := Tracking.isBorrowed t.inner
  borrowed t := Tracking.borrowed t.inner

/-- To keep the origins too makes no difference to moves and borrows. -/
theorem simulation [Tracking τ] :
    Tracking.Simulation fun (a : τ) (b : Traced τ) => b.inner = a where
  empty := rfl
  enterFrame h := congrArg Tracking.enterFrame h
  leaveFrame h := congrArg Tracking.leaveFrame h
  enterBlock h := congrArg Tracking.enterBlock h
  leaveBlock h := congrArg Tracking.leaveBlock h
  bind h name ty := congrArg (Tracking.bind name ty) h
  move h name site := congrArg (Tracking.move name site) h
  movedAt? h name := congrArg (Tracking.movedAt? · name) h.symm
  borrow h name mutable := by
    subst h
    exact ⟨rfl, rfl⟩
  isBorrowed h name := congrArg (Tracking.isBorrowed · name) h.symm
  borrowed h := congrArg Tracking.borrowed h.symm

end Traced

/-! ### Scopes with origins -/

/-- A scope and its copy bind the same names to the same types. -/
def Mirrors (g : Table (Ty × Origin)) (scope : Scope) : Prop :=
  ∀ name, (g.find? name).map (·.1) = scope.names.find? name

namespace Mirrors
variable {g : Table (Ty × Origin)} {scope : Scope}

theorem contains (h : Mirrors g scope) (name : String) :
    scope.names.contains name = (g.find? name).isSome := by
  rw [Table.contains, ← h name, Option.isSome_map]

theorem empty (kind : ScopeKind) : Mirrors ∅ ⟨kind, ∅⟩ :=
  fun _ => rfl

theorem insert (h : Mirrors g scope) (name : String) (ty : Ty) (origin : Origin) :
    Mirrors (g.insert name (ty, origin)) { scope with names := scope.names.insert name ty } := by
  intro other
  rw [Table.find?_insert, Table.find?_insert]
  split
  · rfl
  · exact h other

end Mirrors

theorem findSome?_mirrors {gs : List (Table (Ty × Origin))} {scopes : List Scope}
    (h : List.Forall₂ Mirrors gs scopes) (name : String) :
    (gs.findSome? (·.find? name)).map (·.1) = scopes.findSome? (·.names.find? name) := by
  induction h with
  | nil => rfl
  | @cons g scope gs scopes hg _ ih =>
    rw [List.findSome?_cons, List.findSome?_cons, ← hg name]
    cases g.find? name with
    | some b => rfl
    | none => exact ih

/-- The innermost binding of a name is at the top exactly if no scope inside has one. -/
theorem find?_global_iff {inside : List (Table (Ty × Origin))} {top : Table (Ty × Origin)}
    {scopes : List Scope} (h : List.Forall₂ Mirrors (inside ++ [top]) scopes) {kinds : List ScopeKind}
    (hkinds : scopes.map Scope.kind = kinds ++ [.global]) (hinside : .global ∉ kinds) (name : String) :
    (∃ scope, scopes.find? (·.names.contains name) = some scope ∧ scope.kind = .global) ↔
      (∀ g ∈ inside, g.find? name = none) ∧ (top.find? name).isSome := by
  induction inside generalizing scopes kinds with
  | nil =>
    cases h with
    | cons htop hrest =>
    cases hrest
    cases kinds with
    | nil =>
      have hkind := (List.cons.inj hkinds).1
      rw [List.find?_cons, htop.contains, List.find?_nil]
      cases top.find? name with
      | some b => simpa using hkind
      | none => simp
    | cons kind kinds => simp at hkinds
  | cons g inside ih =>
    cases h with
    | @cons _ scope _ scopes hg hrest =>
    cases kinds with
    | nil =>
      have hlen := hrest.length_eq
      simp only [List.map_cons, List.nil_append, List.cons.injEq, List.map_eq_nil_iff] at hkinds
      rw [hkinds.2] at hlen
      simp at hlen
    | cons kind kinds =>
      obtain ⟨hkind, hkinds⟩ := List.cons.inj hkinds
      obtain ⟨hne, hinside⟩ := not_or.mp (mt List.mem_cons.mpr hinside)
      rw [List.find?_cons, hg.contains, List.forall_mem_cons]
      cases hfind : g.find? name with
      | some b =>
        have hkind' : scope.kind ≠ .global := fun heq => hne (heq.symm.trans hkind)
        simpa using hkind'
      | none => simpa using ih hrest hkinds hinside

/-! ### The invariant -/

/-- The copy is true to the scopes: it binds the same names to the same types; inside the program all
bindings are its own; and at the top each name is as it was before the program, or else the program
took it and, if it is the name of a variadic function, that is known. -/
structure Faithful {τ : Type} (scopes : Scopes) (t : Traced τ) (replaced : List String) : Prop where
  mirrors : List.Forall₂ Mirrors t.scopes scopes.toList
  inside : ∀ g ∈ t.inside, ∀ name b, g.find? name = some b → b.2 = .program
  top : ∀ name, (t.top.find? name = Traced.seeded.find? name ∧ name ∉ replaced) ∨
    ∃ ty, t.top.find? name = some (ty, .program) ∧ (Builtin.isVariadic name → name ∈ replaced)

/-- No scope inside a program counts as its top. -/
def Scopes.Nested (s : Scopes) : Prop :=
  ∃ kinds, s.kinds = kinds ++ [.global] ∧ .global ∉ kinds

namespace Faithful
variable {τ : Type} {scopes : Scopes} {t : Traced τ} {replaced : List String}

theorem withInner (h : Faithful scopes t replaced) (inner : τ) :
    Faithful scopes { t with inner } replaced :=
  ⟨h.mirrors, h.inside, h.top⟩

/-- A scope is entered. -/
theorem enter (h : Faithful scopes t replaced) (kind : ScopeKind) :
    Faithful (scopes.push kind) t.enter replaced where
  mirrors := .cons (.empty kind) h.mirrors
  inside g hg name b hb := by
    cases hg with
    | head => cases hb
    | tail _ hg => exact h.inside g hg name b hb
  top := h.top

/-- The innermost scope is left, and those around are as they were. -/
theorem leave {scopes' : Scopes} {t' : Traced τ} (h : Faithful scopes' t' replaced)
    (houter : scopes'.outer = scopes.toList) (hinside : t'.inside.tail = t.inside) :
    Faithful scopes'.pop t'.leave replaced := by
  obtain ⟨inside, top, inner⟩ := t'
  obtain ⟨⟨kind, names⟩, outer⟩ := scopes'
  subst houter
  cases inside with
  | nil =>
    have hlen := h.mirrors.length_eq
    simp [Traced.scopes, Scopes.toList] at hlen
  | cons g gs =>
    cases h.mirrors with
    | cons _ hrest =>
      exact ⟨hrest, fun g' hg' => h.inside g' (List.mem_cons_of_mem g hg'), h.top⟩

/-- A name is bound at the top of the program, where it takes the place of what was there before. -/
theorem define_top {top : Table (Ty × Origin)} {inner : τ}
    (h : Faithful scopes ⟨[], top, inner⟩ replaced) (name : String) (ty : Ty) :
    Faithful (scopes.define name ty) ⟨[], top.insert name (ty, .program), inner⟩
      (if Builtin.isVariadic name then name :: replaced else replaced) where
  mirrors := by
    obtain ⟨scope, outer⟩ := scopes
    cases h.mirrors with
    | cons hscope houter => exact .cons (hscope.insert name ty .program) houter
  inside := h.inside
  top other := by
    rw [Table.find?_insert]
    by_cases heq : name = other
    · subst heq
      refine .inr ⟨ty, if_pos rfl, fun hvariadic => ?_⟩
      rw [if_pos hvariadic]
      exact List.mem_cons_self
    · rw [if_neg heq]
      refine (h.top other).imp (And.imp_right fun hreplaced => ?_)
        (Exists.imp fun _ => And.imp_right fun hreplaced hvariadic => ?_)
      · split
        · exact mt List.mem_cons.mp (not_or.mpr ⟨Ne.symm heq, hreplaced⟩)
        · exact hreplaced
      · split
        · exact List.mem_cons_of_mem name (hreplaced hvariadic)
        · exact hreplaced hvariadic

/-- A name is bound inside the program. -/
theorem define_inside {g : Table (Ty × Origin)} {gs : List (Table (Ty × Origin))}
    {top : Table (Ty × Origin)} {inner : τ} (h : Faithful scopes ⟨g :: gs, top, inner⟩ replaced)
    (name : String) (ty : Ty) :
    Faithful (scopes.define name ty) ⟨g.insert name (ty, .program) :: gs, top, inner⟩ replaced where
  mirrors := by
    obtain ⟨scope, outer⟩ := scopes
    cases h.mirrors with
    | cons hscope houter => exact .cons (hscope.insert name ty .program) houter
  inside := by
    obtain ⟨hg, hgs⟩ := List.forall_mem_cons.mp h.inside
    refine List.forall_mem_cons.mpr ⟨fun other b hb => ?_, hgs⟩
    rw [Table.find?_insert] at hb
    split at hb
    · cases hb
      rfl
    · exact hg other b hb
  top := h.top

theorem atGlobal_iff (h : Faithful scopes t replaced) : scopes.atGlobal ↔ t.inside = [] := by
  have hlen : t.inside.length = scopes.outer.length := by
    have hlen := h.mirrors.length_eq
    rw [Traced.scopes, List.length_append] at hlen
    exact Nat.succ.inj hlen
  rw [Scopes.atGlobal, List.isEmpty_iff_length_eq_zero, ← hlen, List.length_eq_zero_iff]

theorem define (h : Faithful scopes t replaced) (name : String) (ty : Ty) :
    Faithful (scopes.define name ty) (t.define name ty)
      (if scopes.atGlobal && Builtin.isVariadic name then name :: replaced else replaced) := by
  have hglobal := h.atGlobal_iff
  obtain ⟨inside, top, inner⟩ := t
  cases inside with
  | nil =>
    rw [hglobal.mpr rfl, Bool.true_and]
    exact h.define_top name ty
  | cons g gs =>
    rw [Bool.eq_false_iff.mpr (mt hglobal.mp (List.cons_ne_nil g gs)), Bool.false_and]
    exact h.define_inside name ty

end Faithful

/-- Where the copy was true it still is, and the scopes around are as they were. -/
def State.TracedTo {τ : Type} (t t' : State (Traced τ)) : Prop :=
  Faithful t.scopes t.tracking t.replaced →
    Faithful t'.scopes t'.tracking t'.replaced ∧ t'.scopes.outer = t.scopes.outer ∧
    t'.scopes.inner.kind = t.scopes.inner.kind ∧ t'.tracking.inside.tail = t.tracking.inside.tail

theorem State.TracedTo.trans {τ : Type} {t t' t'' : State (Traced τ)} (h : t.TracedTo t')
    (h' : t'.TracedTo t'') : t.TracedTo t'' := by
  intro hfaithful
  obtain ⟨hfaithful, houter, hkind, htail⟩ := h hfaithful
  obtain ⟨hfaithful', houter', hkind', htail'⟩ := h' hfaithful
  exact ⟨hfaithful', houter'.trans houter, hkind'.trans hkind, htail'.trans htail⟩

namespace Check
variable {τ α : Type}

/-- A step after which the copy is still true, and which leaves the scopes around alone. -/
def Traces ⦃α : Type⦄ (m _ : Check (Traced τ) α) : Prop :=
  ∀ t : State (Traced τ), t.TracedTo (m.after t)

theorem traces_congruence [Tracking τ] : Congruence (Traces (τ := τ)) where
  toCalm := calm_of_states (fun _ h => ⟨h, rfl, rfl, rfl⟩) .trans
    (fun _ _ _ h => ⟨h, rfl, rfl, rfl⟩) (fun _ _ _ h => ⟨h.withInner _, rfl, rfl, rfl⟩)
    fun _ _ _ h => ⟨h.withInner _, rfl, rfl, rfl⟩
  kept _ _ _ hk t := hk t t (.refl t) rfl t
  signatures _ _ h := ⟨h, rfl, rfl, rfl⟩
  declare _ _ h := ⟨h, rfl, rfl, rfl⟩
  openNames _ h := ⟨h, rfl, rfl, rfl⟩
  bind name ty t h := by
    exact ⟨(h.define name ty).withInner _, rfl, rfl, t.tracking.tail_define name ty⟩
  inFrame := fun kind _ _ hm t h => by
    obtain ⟨h', houter, -, htail⟩ := hm (t.enterFrame kind) ((h.enter kind).withInner _)
    have hpop := State.pop_eq_of_extends houter
    exact ⟨(h'.leave houter htail).withInner _, congrArg Scopes.outer hpop,
      congrArg (·.inner.kind) hpop, congrArg List.tail htail⟩
  inBlock := fun hm t h => by
    obtain ⟨h', houter, -, htail⟩ := hm t.enterBlock ((h.enter .block).withInner _)
    have hpop := State.pop_eq_of_extends houter
    exact ⟨(h'.leave houter htail).withInner _, congrArg Scopes.outer hpop,
      congrArg (·.inner.kind) hpop, congrArg List.tail htail⟩
  returning := fun expected _ _ hm t h => hm { t with returns := expected :: t.returns } h

end Check

/-- The copy is true to the scopes, and these are nested as in a program. -/
structure State.Explained {τ : Type} (t : State (Traced τ)) : Prop where
  faithful : Faithful t.scopes t.tracking t.replaced
  nested : t.scopes.Nested

theorem Scopes.Nested.push {s : Scopes} (h : s.Nested) {kind : ScopeKind} (hkind : kind ≠ .global) :
    (s.push kind).Nested := by
  obtain ⟨kinds, hkinds, hinside⟩ := h
  refine ⟨kind :: kinds, congrArg (kind :: ·) hkinds, ?_⟩
  exact mt List.mem_cons.mp (not_or.mpr ⟨hkind.symm, hinside⟩)

namespace Check
variable {τ : Type} [Tracking τ]

theorem explained_invariant : Invariant (Traces (τ := τ)) State.Explained where
  toCongruence := traces_congruence
  keeps hm t h := by
    obtain ⟨hfaithful, houter, hkind, -⟩ := hm t h.faithful
    refine ⟨hfaithful, ?_⟩
    have hkinds : (Check.after _ t).scopes.kinds = t.scopes.kinds :=
      congrArg₂ (fun k (scopes : List Scope) => k :: scopes.map Scope.kind) hkind houter
    unfold Scopes.Nested
    rw [hkinds]
    exact h.nested
  enterFrame kind hkind t h := ⟨(h.faithful.enter kind).withInner _, h.nested.push hkind⟩
  enterBlock t h := ⟨(h.faithful.enter .block).withInner _, h.nested.push (by decide)⟩
  expecting expected t h := ⟨h.faithful, h.nested⟩

end Check

namespace State
variable {τ : Type} [Tracking τ]

omit [Tracking τ] in
/-- Functions that are added one after another are copied one after another. -/
theorem mirrors_foldl {f : Scopes → String × FnTy → Scopes}
    (hf : ∀ scopes e, f scopes e = scopes.define e.1 e.2.toTy) (es : List (String × FnTy))
    (scopes : Scopes) (g : Table (Ty × Origin)) (h : Mirrors g scopes.inner) :
    Mirrors (es.foldl (fun t e => t.insert e.1 (e.2.toTy, .builtin)) g) (es.foldl f scopes).inner ∧
      (es.foldl f scopes).outer = scopes.outer ∧
      (es.foldl f scopes).inner.kind = scopes.inner.kind := by
  induction es generalizing scopes g with
  | nil => exact ⟨h, rfl, rfl⟩
  | cons e es ih =>
    rw [List.foldl_cons, List.foldl_cons, hf]
    exact ih (scopes.define e.1 e.2.toTy) _ (h.insert e.1 e.2.toTy .builtin)

omit [Tracking τ] in
theorem explained_seeded {t : State (Traced τ)} {f : Scopes → String × FnTy → Scopes}
    (hf : ∀ scopes e, f scopes e = scopes.define e.1 e.2.toTy)
    (hscopes : t.scopes = Builtin.globals.entries.foldl f .empty) (hinside : t.tracking.inside = [])
    (htop : t.tracking.top = Traced.seeded) (hreplaced : t.replaced = []) : t.Explained := by
  obtain ⟨hmirrors, houter, hkind⟩ :=
    mirrors_foldl hf Builtin.globals.entries .empty ∅ (Mirrors.empty .global)
  rw [← hscopes] at hmirrors houter hkind
  refine ⟨⟨?_, ?_, fun name => .inl ⟨congrArg (·.find? name) htop, ?_⟩⟩, [], ?_, List.not_mem_nil⟩
  · rw [Traced.scopes, hinside, htop, Scopes.toList, houter]
    exact .cons hmirrors .nil
  · rw [hinside]
    exact List.forall_mem_nil _
  · rw [hreplaced]
    exact List.not_mem_nil
  · rw [Scopes.kinds, Scopes.toList, houter, List.map_cons, hkind]
    rfl

theorem explained_start : (start : State (Traced τ)).Explained :=
  explained_seeded (fun _ _ => rfl) rfl rfl rfl rfl

end State

/-! ### What the origins tell -/

namespace Faithful
variable {τ : Type} {scopes : Scopes} {t : Traced τ} {replaced : List String} {name : String}

theorem seeded_of_variadic (h : name ∈ Builtin.variadic) :
    (Traced.seeded.find? name).map (·.2) = some .builtin := by
  have hall : ∀ name ∈ Builtin.variadic, (Traced.seeded.find? name).map (·.2) = some .builtin := by
    decide +kernel
  exact hall name h

section
variable (h : Faithful scopes t replaced)
include h

/-- A binding that was there before the program is visible if no scope inside hides it and the program
did not put another in its place. -/
theorem origin?_builtin_iff : t.origin? name = some .builtin ↔
      (∀ g ∈ t.inside, g.find? name = none) ∧ (t.top.find? name).map (·.2) = some .builtin := by
  rw [Traced.origin?, Traced.lookup, Traced.scopes, List.findSome?_append, List.findSome?_singleton]
  cases hinside : t.inside.findSome? (·.find? name) with
  | none =>
    rw [List.findSome?_eq_none_iff] at hinside
    exact (and_iff_right hinside).symm
  | some b =>
    obtain ⟨g, hg, hb⟩ := List.exists_of_findSome?_eq_some hinside
    have hprogram := h.inside g hg name b hb
    constructor
    · intro hbuiltin
      cases hprogram.symm.trans (Option.some.inj hbuiltin)
    · rintro ⟨hnone, -⟩
      rw [hnone g hg] at hb
      cases hb

theorem top_builtin_iff (hname : name ∈ Builtin.variadic) :
    (t.top.find? name).map (·.2) = some .builtin ↔ name ∉ replaced := by
  obtain ⟨hseeded, hreplaced⟩ | ⟨ty, hty, hreplaced⟩ := h.top name
  · rw [hseeded]
    exact iff_of_true (seeded_of_variadic hname) hreplaced
  · rw [hty]
    refine iff_of_false (fun heq => ?_) (not_not.mpr (hreplaced (List.contains_iff_mem.mpr hname)))
    cases heq

/-- A visible binding that was there before the program is what it was then. -/
theorem lookup_of_builtin (ho : t.origin? name = some .builtin) :
    t.lookup name = Traced.seeded.find? name := by
  obtain ⟨hinside, htop⟩ := h.origin?_builtin_iff.mp ho
  have hlookup : t.lookup name = t.top.find? name := by
    rw [Traced.lookup, Traced.scopes, List.findSome?_append,
      List.findSome?_eq_none_iff.mpr hinside, List.findSome?_singleton]
    rfl
  obtain ⟨hseeded, -⟩ | ⟨ty, hty, -⟩ := h.top name
  · exact hlookup.trans hseeded
  · rw [hty] at htop
    cases htop

/-- A variadic function is visible exactly if the program has no binding of its name in any open
scope. -/
theorem origin?_builtin_iff_untaken (hname : name ∈ Builtin.variadic) :
    t.origin? name = some .builtin ↔ ∀ g ∈ t.scopes, ∀ ty, g.find? name ≠ some (ty, .program) := by
  rw [h.origin?_builtin_iff, Traced.scopes, List.forall_mem_append, List.forall_mem_singleton]
  refine and_congr ⟨fun hnone g hg ty hty => ?_, fun hnone g hg => ?_⟩ ⟨fun htop ty hty => ?_, fun hnone => ?_⟩
  · rw [hnone g hg] at hty
    cases hty
  · cases hb : g.find? name with
    | none => rfl
    | some b =>
      obtain ⟨ty, origin⟩ := b
      cases h.inside g hg name _ hb
      exact absurd hb (hnone g hg ty)
  · rw [hty] at htop
    cases htop
  · obtain ⟨hseeded, -⟩ | ⟨ty, hty, -⟩ := h.top name
    · rw [hseeded]
      exact seeded_of_variadic hname
    · exact absurd hty (hnone ty)

end

end Faithful

theorem Scopes.resolvesGlobally_iff (s : Scopes) (name : String) :
    s.resolvesGlobally name ↔
      ∃ scope, s.toList.find? (·.names.contains name) = some scope ∧ scope.kind = .global := by
  unfold resolvesGlobally
  cases s.toList.find? (·.names.contains name) with
  | none => simp
  | some scope => simp

namespace State
variable {τ : Type} {t : State (Traced τ)}

/-- What is let off as variadic is what was there before the program. -/
theorem Explained.isVariadic_iff (h : t.Explained) (name : String) :
    t.isVariadic name ↔ name ∈ Builtin.variadic ∧ t.tracking.origin? name = some .builtin := by
  obtain ⟨hfaithful, kinds, hkinds, hinside⟩ := h
  have hresolves : t.scopes.resolvesGlobally name ↔
      (∀ g ∈ t.tracking.inside, g.find? name = none) ∧ (t.tracking.top.find? name).isSome := by
    rw [Scopes.resolvesGlobally_iff]
    exact find?_global_iff hfaithful.mirrors hkinds hinside name
  rw [State.isVariadic, Bool.and_eq_true_iff, Bool.and_eq_true_iff, Builtin.isVariadic,
    List.contains_iff_mem, and_assoc]
  refine and_congr_right fun hname => ?_
  have hreplaced : (!t.replaced.contains name) = true ↔
      (t.tracking.top.find? name).map (·.2) = some .builtin := by
    rw [hfaithful.top_builtin_iff hname, Bool.not_eq_true', ← List.contains_iff_mem, Bool.not_eq_true]
  rw [hreplaced, hresolves, hfaithful.origin?_builtin_iff]
  constructor
  · rintro ⟨htop, hnone, -⟩
    exact ⟨hnone, htop⟩
  · rintro ⟨hnone, htop⟩
    refine ⟨htop, hnone, ?_⟩
    cases hfind : t.tracking.top.find? name with
    | some b => rfl
    | none =>
      rw [hfind] at htop
      cases htop

/-- The state without the origins. -/
def forget (t : State (Traced τ)) : State τ where
  scopes := t.scopes
  tracking := t.tracking.inner
  classes := t.classes
  interfaces := t.interfaces
  impls := t.impls
  signatures := t.signatures
  returns := t.returns
  replaced := t.replaced
  openNames := t.openNames
  findings := t.findings
  types := t.types

theorem forget_of_related {s : State τ}
    (h : State.Related (fun (a : τ) x (b : Traced τ) y => b.inner = a ∧ x = y) s t) :
    t.forget = s := by
  obtain ⟨halike, htypes, hinner, hfindings⟩ := h
  cases s
  rw [forget, State.mk.injEq]
  exact ⟨halike.scopes.symm, hinner, halike.classes.symm, halike.interfaces.symm, halike.impls.symm,
    halike.signatures.symm, halike.returns.symm, halike.replaced.symm, halike.openNames.symm,
    hfindings.symm, htypes.symm⟩

end State

/-! ### Walks side by side -/

namespace Check
variable {τ₁ τ₂ : Type} [Tracking τ₁] [Tracking τ₂]
  {R : τ₁ → List Finding → τ₂ → List Finding → Prop}

/-- Walks in relation come to the same parts, in relation. -/
theorem related_leading (hR : Tracking.Kept R) (hA : Answered R) : Leading (Related R) (Related R) where
  toSteps := (related_congruence hR hA).toSteps
  handled := (related_congruence hR hA).handled
  whole hm := hm
  next := (related_congruence hR hA).seq
  look := (related_congruence hR hA).get
  enterFrame kind _ _ _ h := ⟨rfl, h.enterFrame hR kind⟩
  enterBlock _ _ h := ⟨rfl, h.enterBlock hR⟩
  expecting expected _ _ h := ⟨rfl, h.expecting expected⟩

end Check

namespace Program
variable {τ₁ τ₂ : Type} [Tracking τ₁] [Tracking τ₂] {p : Program}

/-- While a program is read ahead, any two walks take the same steps. -/
theorem ReadsAhead.steps {P : ∀ ⦃α : Type⦄, Check τ₁ α → Check τ₂ α → Prop} (h : Check.Congruence P)
    {s : State τ₁} (hr : p.ReadsAhead s) :
    ∃ (m₁ : Check τ₁ Unit) (m₂ : Check τ₂ Unit), P m₁ m₂ ∧ s = m₁.after .start ∧
      p.ReadsAhead (m₂.after .start) := by
  have hinterfaces := h.forM p.stmts h.declareInterface
  have hclasses := h.forM p.stmts h.declareClass
  cases hr with
  | reserved hp => exact ⟨_, _, h.reserve _, rfl, .reserved hp⟩
  | @interfaces pre _ hp =>
    have hm := h.seq (h.reserve p.stmts) fun _ => h.forM pre h.declareInterface
    exact ⟨_, _, hm, rfl, .interfaces hp⟩
  | @classes pre _ hp =>
    have hm := h.seq (h.reserve p.stmts) fun _ => h.seq hinterfaces fun _ =>
      h.forM pre h.declareClass
    exact ⟨_, _, hm, rfl, .classes hp⟩
  | @implementations pre _ hp =>
    have hm := h.seq (h.reserve p.stmts) fun _ => h.seq hinterfaces fun _ =>
      h.seq hclasses fun _ => h.forM pre h.declareImpl
    exact ⟨_, _, hm, rfl, .implementations hp⟩
  | @functions pre _ hp =>
    have hm := h.seq (h.declareTypes p.stmts) fun _ => h.forM pre h.hoist
    exact ⟨_, _, hm, rfl, .functions hp⟩

section Related
variable {R : τ₁ → List Finding → τ₂ → List Finding → Prop} (hR : Tracking.Kept R)
  (hA : Check.Answered R) (hempty : R Tracking.empty [] Tracking.empty [])
include hR hA hempty

theorem Visits.related {q : Piece} {s₁ : State τ₁} (hv : p.Visits q s₁) :
    ∃ s₂ : State τ₂, p.Visits q s₂ ∧ State.Related R s₁ s₂ := by
  have h := Check.related_congruence hR hA
  induction hv with
  | whole =>
    have hhoisted := h.seq (h.declareTypes p.stmts) fun _ => h.forM p.stmts h.hoist
    exact ⟨p.hoisted, .whole, (hhoisted .start .start ⟨rfl, rfl, hempty⟩).2⟩
  | part _ hc ih =>
    obtain ⟨s₂, hv₂, hs⟩ := ih
    obtain ⟨_, m₁, m₂, hm, rfl, hcalls⟩ := (Check.related_leading hR hA).calls hc
    exact ⟨m₂.after s₂, .part hv₂ (hcalls s₂), (hm _ s₂ hs).2⟩

/-- Walks in relation go through the same points, in relation. -/
theorem Reaches.related {s₁ : State τ₁} (hr : p.Reaches s₁) :
    ∃ s₂ : State τ₂, p.Reaches s₂ ∧ State.Related R s₁ s₂ := by
  obtain hr | ⟨q, s₀, hv, hs⟩ := hr
  · obtain ⟨m₁, m₂, hm, rfl, hr₂⟩ := hr.steps (Check.related_congruence hR hA)
    exact ⟨m₂.after .start, .inl hr₂, (hm .start .start ⟨rfl, rfl, hempty⟩).2⟩
  · obtain ⟨s₂, hv₂, hs₂⟩ := hv.related hR hA hempty
    obtain rfl | rfl := hs
    · exact ⟨s₂, .inr ⟨q, s₂, hv₂, .inl rfl⟩, hs₂⟩
    · have hpiece := (Check.related_leading hR hA).piece q
      exact ⟨(Check.piece q).after s₂, .inr ⟨q, s₂, hv₂, .inr rfl⟩, (hpiece s₀ s₂ hs₂).2⟩

end Related

theorem Reaches.explained {τ : Type} [Tracking τ] {t : State (Traced τ)} (hr : p.Reaches t) :
    t.Explained := by
  have h := Check.explained_invariant (τ := τ)
  obtain hr | hp := hr
  · obtain ⟨m, _, hm, rfl, -⟩ := hr.steps h.toCongruence
    exact h.keeps hm _ State.explained_start
  · exact hp.keeps h State.explained_start

end Program

/-! ### Calls -/

namespace Check
variable {τ : Type} (s : State τ) (callee : Expr) (ty : Ty) (count : Nat) (span : Span)

theorem findings_demand_iff (ok : Bool) (cause : Cause) :
    ((demand ok cause span).after s).findings = s.findings ↔ ok := by
  cases ok with
  | true => exact iff_of_true rfl rfl
  | false => exact iff_of_false (List.cons_ne_self _ _) Bool.false_ne_true

/-- The number of arguments matters only where a function is called that is not variadic. -/
theorem findings_openCall_iff :
    ((openCall callee ty count span).after s).findings = s.findings ↔
      ∀ params ret, ty = .fn params ret →
        (callee.ident?.map s.isVariadic).getD false ∨ count = params.length := by
  cases ty with
  | fn params ret =>
    refine (findings_demand_iff s span _ _).trans ?_
    rw [Bool.or_eq_true_iff, decide_eq_true_iff]
    constructor
    · intro h params' ret' heq
      cases heq
      exact h
    · exact fun h => h params ret rfl
  | _ =>
    refine iff_of_true rfl fun params ret heq => ?_
    cases heq

/-- Only where a function with a name is called that is not variadic, arguments are given away. -/
theorem takes_openCall_iff :
    ((openCall callee ty count span).run s).1.takes ↔
      (∃ params ret, ty = .fn params ret) ∧ callee.callee ≠ .anonymous ∧
        ¬ (callee.ident?.map s.isVariadic).getD false := by
  cases ty with
  | fn params ret =>
    rw [and_iff_right ⟨params, ret, rfl⟩, Bool.not_eq_true, ← Bool.not_eq_true',
      ← decide_eq_true_iff (p := callee.callee ≠ .anonymous)]
    exact Bool.and_eq_true_iff
  | _ =>
    refine iff_of_false Bool.false_ne_true ?_
    rintro ⟨⟨params, ret, heq⟩, -⟩
    cases heq

/-- What is passed is given away where the call takes its arguments. -/
theorem tracking_pass [Tracking τ] (call : OpenCall) (i : Nat) (arg : Expr) :
    ((pass call i arg ty).after s).tracking =
      if call.takes then ((give arg ty ⟨arg.span.start.line, "function call"⟩).after s).tracking
      else s.tracking := by
  -- Whether the argument fits changes what is found only.
  obtain ⟨fs, hfs⟩ : ∃ fs, (pass call i arg ty).after s =
      (if call.takes then give arg ty ⟨arg.span.start.line, "function call"⟩
        else pure () : Check τ Unit).after { s with findings := fs } := by
    unfold pass
    dsimp only
    split
    · rw [after_bind, demandAssignable, after_get, demand_eq_report]
      exact ⟨_, rfl⟩
    · exact ⟨s.findings, rfl⟩
  rw [hfs]
  split
  · unfold give
    split
    · split <;> rfl
    · rfl
  · rfl

end Check

namespace Traced
variable {τ : Type}

/-- What is called is a variadic function that was there before the program, by its name. -/
def CallsBuiltin (t : Traced τ) (callee : Expr) : Prop :=
  ∃ name ∈ Builtin.variadic, callee.ident? = some name ∧ t.origin? name = some .builtin

/-- A call takes what is passed if a function is called by a name, of its own or of a member, and the
function was not there before the program. -/
def Takes (t : Traced τ) (callee : Expr) (ty : Ty) : Prop :=
  (∃ params ret, ty = .fn params ret) ∧ callee.callee ≠ .anonymous ∧ ¬ t.CallsBuiltin callee

end Traced

theorem State.Explained.callsBuiltin_iff {τ : Type} {t : State (Traced τ)} (h : t.Explained)
    (callee : Expr) :
    (callee.ident?.map t.isVariadic).getD false ↔ t.tracking.CallsBuiltin callee := by
  unfold Traced.CallsBuiltin
  cases callee.ident? with
  | none =>
    refine iff_of_false Bool.false_ne_true ?_
    rintro ⟨name, -, heq, -⟩
    cases heq
  | some name =>
    refine (h.isVariadic_iff name).trans ⟨fun ⟨hname, ho⟩ => ⟨name, hname, rfl, ho⟩, ?_⟩
    rintro ⟨other, hname, heq, ho⟩
    cases heq
    exact ⟨hname, ho⟩

namespace Program

/-- At every point of a program a name is let off as variadic exactly if it is the name of a variadic
function and the visible binding is the one from before the program, which is so if the program has no
binding of the name in an open scope. Hence the number of arguments is not looked at exactly where
such a function is called by its name or what is called is no function, and arguments are given away
exactly where any other function is called by a name. -/
theorem variadic_iff_builtin (p : Program) :
    (∀ s : State Custody, p.Reaches s → ∃ t : State (Traced Custody), p.Reaches t ∧ t.forget = s) ∧
    ∀ t : State (Traced Custody), p.Reaches t →
      (∀ name, (t.tracking.lookup name).map (·.1) = t.forget.scopes.lookup name ∧
        (t.tracking.origin? name = some .builtin →
          t.tracking.lookup name = Traced.seeded.find? name)) ∧
      (∀ name, t.forget.isVariadic name ↔
        name ∈ Builtin.variadic ∧ t.tracking.origin? name = some .builtin) ∧
      (∀ name ∈ Builtin.variadic, t.tracking.origin? name = some .builtin ↔
        ∀ scope ∈ t.tracking.scopes, ∀ ty, scope.find? name ≠ some (ty, .program)) ∧
      ∀ (callee : Expr) (ty : Ty) (count : Nat) (span : Span),
        (((Check.openCall callee ty count span).after t.forget).findings = t.forget.findings ↔
          ∀ params ret, ty = .fn params ret →
            t.tracking.CallsBuiltin callee ∨ count = params.length) ∧
        ∀ (s : State Custody) (i : Nat) (arg : Expr) (argTy : Ty),
          let call := ((Check.openCall callee ty count span).run t.forget).1
          (t.tracking.Takes callee ty → ((Check.pass call i arg argTy).after s).tracking =
            ((Check.give arg argTy ⟨arg.span.start.line, "function call"⟩).after s).tracking) ∧
          (¬ t.tracking.Takes callee ty →
            ((Check.pass call i arg argTy).after s).tracking = s.tracking) := by
  constructor
  · intro s hs
    obtain ⟨t, ht, hrelated⟩ := hs.related Traced.simulation.kept Traced.simulation.answered ⟨rfl, rfl⟩
    exact ⟨t, ht, State.forget_of_related hrelated⟩
  intro t ht
  have h := ht.explained
  refine ⟨fun name => ⟨findSome?_mirrors h.faithful.mirrors name, h.faithful.lookup_of_builtin⟩,
    h.isVariadic_iff, fun name hname => h.faithful.origin?_builtin_iff_untaken hname,
    fun callee ty count span => ⟨?_, fun s i arg argTy => ?_⟩⟩
  · rw [← h.callsBuiltin_iff callee]
    exact Check.findings_openCall_iff t.forget callee ty count span
  · have htakes : _ ↔ t.tracking.Takes callee ty :=
      (Check.takes_openCall_iff t.forget callee ty count span).trans
        (and_congr_right' (and_congr_right' (not_congr (h.callsBuiltin_iff callee))))
    refine ⟨fun hyes => ?_, fun hno => ?_⟩
    · rw [Check.tracking_pass, if_pos (htakes.mpr hyes)]
    · rw [Check.tracking_pass, if_neg (mt htakes.mp hno)]

/-- A program that takes the name of one variadic function before it starts, and of another one on
its way. -/
def takers : Program :=
  (Program.ofSource ⟨"", "fn print(n: int) \x7b\x7d let println = 1;"⟩).1

theorem variadic_iff_builtin_takers :
    ∃ t t' : State (Traced Custody), takers.Reaches t ∧ t.forget = takers.hoisted ∧
      takers.Reaches t' ∧ t'.forget = takers.finalState Custody ∧
      ["print", "println", "exit"].map t.forget.isVariadic = [false, true, true] ∧
      ["print", "println", "exit"].map t'.forget.isVariadic = [false, false, true] ∧
      t.tracking.origin? "print" ≠ some .builtin ∧ t.tracking.origin? "println" = some .builtin ∧
      t'.tracking.origin? "println" ≠ some .builtin ∧ t'.tracking.origin? "exit" = some .builtin ∧
      t'.tracking.lookup "exit" = Traced.seeded.find? "exit" ∧
      ∀ span count, (((Check.openCall (.ident span "print") (.fn [.int] .any) count span).after
        t.forget).findings = t.forget.findings ↔ count = 1) := by
  have hfacts : ["print", "println", "exit"].map (takers.hoisted : State Custody).isVariadic =
        [false, true, true] ∧
      ["print", "println", "exit"].map (takers.finalState Custody).isVariadic =
        [false, false, true] := by
    decide +kernel
  have hstart : takers.Reaches (takers.hoisted : State Custody) := .inr ⟨_, _, .whole, .inl rfl⟩
  have hend : takers.Reaches (takers.finalState Custody) :=
    .inr ⟨_, _, .whole, .inr takers.finalState_eq⟩
  generalize (takers.hoisted : State Custody) = s at *
  generalize takers.finalState Custody = s' at *
  obtain ⟨hcover, hpoint⟩ := variadic_iff_builtin takers
  obtain ⟨t, ht, rfl⟩ := hcover s hstart
  obtain ⟨t', ht', rfl⟩ := hcover s' hend
  obtain ⟨-, hiff, -, hcalls⟩ := hpoint t ht
  obtain ⟨hlookup, hlast, -⟩ := hpoint t' ht'
  obtain ⟨hs, hs'⟩ := hfacts
  have hvariadic : "print" ∈ Builtin.variadic ∧ "println" ∈ Builtin.variadic := by decide
  simp only [List.map_cons, List.map_nil, List.cons.injEq, and_true] at hs hs'
  have hprint : t.tracking.origin? "print" ≠ some .builtin := fun ho =>
    Bool.false_ne_true (hs.1.symm.trans ((hiff "print").mpr ⟨hvariadic.1, ho⟩))
  have hexit := ((hlast "exit").mp hs'.2.2).2
  refine ⟨t, t', ht, rfl, ht', rfl, by simp [hs], by simp [hs'], hprint,
    ((hiff "println").mp hs.2.1).2, fun ho => ?_, hexit, (hlookup "exit").2 hexit,
    fun span count => (hcalls _ _ _ _).1.trans ⟨fun h => ?_, ?_⟩⟩
  · exact Bool.false_ne_true (hs'.2.1.symm.trans ((hlast "println").mpr ⟨hvariadic.2, ho⟩))
  · obtain ⟨name, -, hname, ho⟩ | hcount := h [.int] .any rfl
    · cases hname
      exact absurd ho hprint
    · exact hcount
  · rintro rfl params ret heq
    cases heq
    exact .inr rfl

/-- A value is passed to what `callee` stands for, and used again. -/
def passing (callee : String) : Source :=
  ⟨"", "fn take(a: string) \x7b\x7d\nlet s = \"a\";\n" ++ callee ++ "(s);\nlet t = s;\n"⟩

/-- A function that is not built in does not take what is passed to it if it is not called by a
name. -/
theorem nameless_takes_nothing :
    "take" ∉ Builtin.variadic ∧
    (ofSource (passing "take")).2.totalErrors = 0 ∧
    (ofSource (passing "[take][0]")).2.totalErrors = 0 ∧
    ((ofSource (passing "take")).1.finalState Custody).findings.map (·.cause.code) =
      [.useAfterMove] ∧
    ((ofSource (passing "[take][0]")).1.finalState Custody).findings = [] := by
  decide +kernel

end Program

end CarvFront
