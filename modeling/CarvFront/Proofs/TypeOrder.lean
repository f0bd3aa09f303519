import CarvFront.Proofs.Precision
import Mathlib.Order.Defs.Unbundled

/-! Types that leave nothing open are ordered by what may stand where another is wanted. -/
namespace CarvFront.Ty

/-! ### Types that leave nothing open -/

mutual

/-- No part of the type stands for all others. -/
def isStatic : Ty → Bool
  | .any | .unknown => false
  | .array t | .chan t | .optional t | .future t | .ref _ t => t.isStatic
  | .map k v => k.isStatic && v.isStatic
  | .fn ps r => areStatic ps && r.isStatic
  | _ => true

def areStatic : List Ty → Bool
  | [] => true
  | t :: ts => t.isStatic && areStatic ts

end

theorem not_isDynamic {t : Ty} (h : t.isStatic) : ¬ t.isDynamic := by
  cases t with
  | any | unknown => cases h
  | _ => nofun

/-! ### The rules of assignability -/

/-- The rules by which a value of one type serves as one of another, where neither stands for all
others. Which rule applies follows from the two types alone. -/
inductive Serves (impls : Implements) : Ty → Ty → Prop
  | same (a : Ty) : Serves impls a a
  | widen : Serves impls .int .float
  | absent (b : Ty) : Serves impls .nil (.optional b)
  | lift {a b : Ty} (h : a.assignable impls b) : Serves impls (.optional a) (.optional b)
  | present {a b : Ty} (plain : ∀ t, a ≠ .optional t) (h : a.assignable impls b) :
      Serves impls a (.optional b)
  | array {a b : Ty} (h : a.assignable impls b) : Serves impls (.array a) (.array b)
  | future {a b : Ty} (h : a.assignable impls b) : Serves impls (.future a) (.future b)
  | chan {a b : Ty} (h : a.assignable impls b) : Serves impls (.chan a) (.chan b)
  | map {k v l w : Ty} (hk : k.assignable impls l) (hv : v.assignable impls w) :
      Serves impls (.map k v) (.map l w)
  | ref {m n : Bool} {a b : Ty} (hm : n → m) (h : a.assignable impls b) :
      Serves impls (.ref m a) (.ref n b)
  | cls {c i : String} (h : impls c i) : Serves impls (.cls c) (.interface i)
  | fn {ps qs : List Ty} {r s : Ty} (hp : assignableAll impls qs ps) (hr : r.assignable impls s) :
      Serves impls (.fn ps r) (.fn qs s)

variable {impls : Implements}

theorem serves_of_assignable {a b : Ty} (h : a.assignable impls b) (ha : ¬ a.isDynamic)
    (hb : ¬ b.isDynamic) : Serves impls a b := by
  unfold assignable at h
  split at h
  · next hab =>
    obtain rfl := hab.resolve_right (not_or.mpr ⟨ha, hb⟩)
    exact .same a
  · split at h
    · exact .widen
    · exact .absent _
    · exact .lift h
    · next hplain _ =>
      apply Serves.present
      · intro t ht
        exact hplain t ht
      · exact h
    · exact .array h
    · exact .future h
    · exact .chan h
    · obtain ⟨hk, hv⟩ := Bool.and_eq_true_iff.mp h
      exact .map hk hv
    · next m _ n _ _ _ =>
      obtain ⟨hm, h⟩ := Bool.and_eq_true_iff.mp h
      apply Serves.ref ?_ h
      intro hn
      simpa [hn] using hm
    · exact .cls h
    · obtain ⟨hp, hr⟩ := Bool.and_eq_true_iff.mp h
      exact .fn hp hr
    · cases h

theorem Serves.assignable {a b : Ty} (h : Serves impls a b) : a.assignable impls b := by
  cases h with
  | same =>
    unfold Ty.assignable
    rw [if_pos (.inl rfl)]
  | widen | absent => simp [Ty.assignable]
  | present plain h => exact assignable_optional plain h
  | lift h | array h | future h | chan h | cls h => simp [Ty.assignable, h]
  | map hk hv => simp [Ty.assignable, hk, hv]
  | ref hm h =>
    rename_i m n _ _
    rw [Ty.assignable, h]
    cases m <;> cases n <;> simp_all
  | fn hp hr => simp [Ty.assignable, hp, hr]

theorem assignable_refl (impls : Implements) (a : Ty) : a.assignable impls a :=
  (Serves.same a).assignable

theorem assignableAll_refl (impls : Implements) (as : List Ty) : assignableAll impls as as := by
  induction as with
  | nil => simp [assignableAll]
  | cons a as ih => simp [assignableAll, assignable_refl impls a, ih]

theorem length_eq_of_assignableAll {as bs : List Ty} (h : assignableAll impls as bs) :
    as.length = bs.length := by
  induction as generalizing bs with
  | nil =>
    cases bs with
    | nil => rfl
    | cons b bs => simp [assignableAll] at h
  | cons a as ih =>
    cases bs with
    | nil => simp [assignableAll] at h
    | cons b bs =>
      rw [assignableAll, Bool.and_eq_true_iff] at h
      exact congrArg (· + 1) (ih h.2)

/-- A function serves as one that asks for more and promises less. -/
theorem assignable_fn_iff {ps qs : List Ty} {r s : Ty} :
    (Ty.fn ps r).assignable impls (.fn qs s) ↔
      assignableAll impls qs ps ∧ r.assignable impls s := by
  constructor
  · intro h
    cases serves_of_assignable h Bool.false_ne_true Bool.false_ne_true with
    | same => exact ⟨assignableAll_refl impls ps, assignable_refl impls r⟩
    | fn hp hr => exact ⟨hp, hr⟩
  · rintro ⟨hp, hr⟩
    exact (Serves.fn hp hr).assignable

/-! ### Transitivity -/

/-- An optional serves only as an optional. -/
theorem Serves.plain {a b : Ty} (h : Serves impls a b) (hb : ∀ t, b ≠ .optional t) (t : Ty) :
    a ≠ .optional t := by
  rintro rfl
  cases h with
  | same => exact hb t rfl
  | lift _ => exact hb _ rfl
  | present plain _ => exact plain t rfl

mutual

/-- Assignability goes through a type that leaves nothing open. -/
theorem assignable_trans {a b c : Ty} (hab : a.assignable impls b) (hbc : b.assignable impls c)
    (hs : b.isStatic) : a.assignable impls c := by
  by_cases ha : a.isDynamic
  · exact assignable_of_isDynamic (.inl ha)
  by_cases hc : c.isDynamic
  · exact assignable_of_isDynamic (.inr hc)
  have hb := not_isDynamic hs
  -- the second rule says what the middle type is, and this leaves few rules for the first
  cases serves_of_assignable hbc hb hc with
  | same => exact hab
  | present plain h =>
    have hpass := (serves_of_assignable hab ha hb).plain plain
    exact assignable_optional hpass (assignable_trans hab h hs)
  | widen =>
    cases serves_of_assignable hab ha hb with
    | same => exact hbc
  | absent =>
    cases serves_of_assignable hab ha hb with
    | same => exact hbc
  | lift h =>
    cases serves_of_assignable hab ha hb with
    | same => exact hbc
    | absent => exact (Serves.absent _).assignable
    | lift h' => exact (Serves.lift (assignable_trans h' h hs)).assignable
    | present plain h' => exact assignable_optional plain (assignable_trans h' h hs)
  | array h =>
    cases serves_of_assignable hab ha hb with
    | same => exact hbc
    | array h' => exact (Serves.array (assignable_trans h' h hs)).assignable
  | future h =>
    cases serves_of_assignable hab ha hb with
    | same => exact hbc
    | future h' => exact (Serves.future (assignable_trans h' h hs)).assignable
  | chan h =>
    cases serves_of_assignable hab ha hb with
    | same => exact hbc
    | chan h' => exact (Serves.chan (assignable_trans h' h hs)).assignable
  | map hk hv =>
    obtain ⟨hsk, hsv⟩ := Bool.and_eq_true_iff.mp hs
    cases serves_of_assignable hab ha hb with
    | same => exact hbc
    | map hk' hv' =>
      exact (Serves.map (assignable_trans hk' hk hsk) (assignable_trans hv' hv hsv)).assignable
  | ref hm h =>
    cases serves_of_assignable hab ha hb with
    | same => exact hbc
    | ref hm' h' =>
      exact (Serves.ref (fun hn => hm' (hm hn)) (assignable_trans h' h hs)).assignable
  | cls h =>
    cases serves_of_assignable hab ha hb with
    | same => exact hbc
  | fn hp hr =>
    obtain ⟨hsp, hsr⟩ := Bool.and_eq_true_iff.mp hs
    cases serves_of_assignable hab ha hb with
    | same => exact hbc
    | fn hp' hr' =>
      exact (Serves.fn (assignableAll_trans hp hp' hsp) (assignable_trans hr' hr hsr)).assignable
termination_by sizeOf a + sizeOf b + sizeOf c
decreasing_by
  all_goals
    subst_vars
    simp +arith

theorem assignableAll_trans {as bs cs : List Ty} (hab : assignableAll impls as bs)
    (hbc : assignableAll impls bs cs) (hs : areStatic bs) :
    assignableAll impls as cs := by
  match as, bs, cs with
  | [], [], [] => exact hbc
  | a :: as, b :: bs, c :: cs =>
    rw [assignableAll, Bool.and_eq_true_iff] at hab hbc ⊢
    obtain ⟨hsb, hsbs⟩ := Bool.and_eq_true_iff.mp hs
    exact ⟨assignable_trans hab.1 hbc.1 hsb, assignableAll_trans hab.2 hbc.2 hsbs⟩
  | [], _ :: _, _ | _ :: _, [], _ => simp [assignableAll] at hab
  | [], [], _ :: _ | _ :: _, _ :: _, [] => simp [assignableAll] at hbc
termination_by sizeOf as + sizeOf bs + sizeOf cs
decreasing_by all_goals simp +arith

end

/-! ### Antisymmetry -/

mutual

theorem assignable_antisymm {a b : Ty} (hab : a.assignable impls b) (hba : b.assignable impls a)
    (ha : a.isStatic) (hb : b.isStatic) : a = b := by
  have hback := serves_of_assignable hba (not_isDynamic hb) (not_isDynamic ha)
  cases serves_of_assignable hab (not_isDynamic ha) (not_isDynamic hb) with
  | same => rfl
  | widen => cases hback
  | absent => cases hback
  | present plain _ =>
    -- an optional would have to serve as a plain value
    exact absurd rfl (hback.plain plain _)
  | lift h =>
    cases hback with
    | same => rfl
    | lift h' => exact congrArg Ty.optional (assignable_antisymm h h' ha hb)
    | present plain _ => exact absurd rfl (plain _)
  | array h =>
    cases hback with
    | same => rfl
    | array h' => exact congrArg Ty.array (assignable_antisymm h h' ha hb)
  | future h =>
    cases hback with
    | same => rfl
    | future h' => exact congrArg Ty.future (assignable_antisymm h h' ha hb)
  | chan h =>
    cases hback with
    | same => rfl
    | chan h' => exact congrArg Ty.chan (assignable_antisymm h h' ha hb)
  | map hk hv =>
    obtain ⟨hak, hav⟩ := Bool.and_eq_true_iff.mp ha
    obtain ⟨hbk, hbv⟩ := Bool.and_eq_true_iff.mp hb
    cases hback with
    | same => rfl
    | map hk' hv' =>
      rw [assignable_antisymm hk hk' hak hbk, assignable_antisymm hv hv' hav hbv]
  | ref hm h =>
    cases hback with
    | same => rfl
    | ref hm' h' =>
      rw [Bool.eq_iff_iff.mpr ⟨hm', hm⟩, assignable_antisymm h h' ha hb]
  | cls h => cases hback
  | fn hp hr =>
    obtain ⟨hap, har⟩ := Bool.and_eq_true_iff.mp ha
    obtain ⟨hbp, hbr⟩ := Bool.and_eq_true_iff.mp hb
    cases hback with
    | same => rfl
    | fn hp' hr' =>
      rw [assignableAll_antisymm hp' hp hap hbp, assignable_antisymm hr hr' har hbr]
termination_by sizeOf a + sizeOf b
decreasing_by
  all_goals
    subst_vars
    simp +arith

theorem assignableAll_antisymm {as bs : List Ty} (hab : assignableAll impls as bs)
    (hba : assignableAll impls bs as) (ha : areStatic as) (hb : areStatic bs) : as = bs := by
  match as, bs with
  | [], [] => rfl
  | a :: as, b :: bs =>
    rw [assignableAll, Bool.and_eq_true_iff] at hab hba
    obtain ⟨ha, has⟩ := Bool.and_eq_true_iff.mp ha
    obtain ⟨hb, hbs⟩ := Bool.and_eq_true_iff.mp hb
    rw [assignable_antisymm hab.1 hba.1 ha hb, assignableAll_antisymm hab.2 hba.2 has hbs]
  | [], _ :: _ | _ :: _, [] => simp [assignableAll] at hab
termination_by sizeOf as + sizeOf bs
decreasing_by all_goals simp +arith

end

/-- Whatever classes implement, types that leave nothing open are in a partial order. -/
theorem assignable_isPartialOrder (impls : Implements) :
    IsPartialOrder {t : Ty // t.isStatic} fun a b => a.val.assignable impls b.val where
  refl a := assignable_refl impls a.val
  trans _ b _ hab hbc := assignable_trans hab hbc b.property
  antisymm a b hab hba := Subtype.ext (assignable_antisymm hab hba a.property b.property)

end CarvFront.Ty
