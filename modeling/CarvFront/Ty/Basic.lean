/-! The types of values, apart from how programs write them. -/
namespace CarvFront

/-- The type of a value. Classes and interfaces are known by name, modules by path. -/
inductive Ty where
  | int
  | float
  | bool
  | string
  | char
  | void
  | any
  | nil
  /-- The type of what could not be typed. It goes with everything, so that one mistake is reported
  once. -/
  | unknown
  | array (elem : Ty)
  | map (key value : Ty)
  | fn (params : List Ty) (ret : Ty)
  | chan (elem : Ty)
  | optional (inner : Ty)
  | ref (mutable : Bool) (inner : Ty)
  | future (output : Ty)
  | cls (name : String)
  | interface (name : String)
  | module (path : String)

/-- The type of a function. -/
structure FnTy where
  params : List Ty
  ret : Ty

/-- The type of a function among the types of values. -/
def FnTy.toTy (f : FnTy) : Ty :=
  .fn f.params f.ret

namespace Ty

instance : Inhabited Ty := ⟨.unknown⟩

/-! ### Equality -/

mutual

/-- Whether two types are the same. -/
def same : Ty → Ty → Bool
  | .int, .int | .float, .float | .bool, .bool | .string, .string | .char, .char
  | .void, .void | .any, .any | .nil, .nil | .unknown, .unknown => true
  | .array a, .array b | .chan a, .chan b | .optional a, .optional b | .future a, .future b =>
    same a b
  | .map k v, .map l w => same k l && same v w
  | .fn ps r, .fn qs s => sameAll ps qs && same r s
  | .ref m a, .ref n b => m == n && same a b
  | .cls a, .cls b | .interface a, .interface b | .module a, .module b => a == b
  | _, _ => false

/-- Whether two lists of types are the same. -/
def sameAll : List Ty → List Ty → Bool
  | [], [] => true
  | a :: as, b :: bs => same a b && sameAll as bs
  | _, _ => false

end

mutual

private theorem same_self : ∀ a : Ty, same a a = true
  | .int | .float | .bool | .string | .char | .void | .any | .nil | .unknown => rfl
  | .array a | .chan a | .optional a | .future a => by simp [same, same_self a]
  | .map k v => by simp [same, same_self k, same_self v]
  | .fn ps r => by simp [same, sameAll_self ps, same_self r]
  | .ref _ a => by simp [same, same_self a]
  | .cls _ | .interface _ | .module _ => by simp [same]

private theorem sameAll_self : ∀ as : List Ty, sameAll as as = true
  | [] => rfl
  | a :: as => by simp [sameAll, same_self a, sameAll_self as]

end

mutual

private theorem eq_of_same : ∀ {a b : Ty}, same a b = true → a = b
  | .int, b, h | .float, b, h | .bool, b, h | .string, b, h | .char, b, h | .void, b, h
  | .any, b, h | .nil, b, h | .unknown, b, h => by cases b <;> simp [same] at h ⊢
  | .array a, b, h | .chan a, b, h | .optional a, b, h | .future a, b, h => by
    cases b <;> simp [same] at h ⊢
    exact eq_of_same h
  | .map k v, b, h => by
    cases b <;> simp [same] at h ⊢
    exact ⟨eq_of_same h.1, eq_of_same h.2⟩
  | .fn ps r, b, h => by
    cases b <;> simp [same] at h ⊢
    exact ⟨eq_of_sameAll h.1, eq_of_same h.2⟩
  | .ref m a, b, h => by
    cases b <;> simp [same] at h ⊢
    exact ⟨h.1, eq_of_same h.2⟩
  | .cls _, b, h | .interface _, b, h | .module _, b, h => by
    cases b <;> simp [same] at h ⊢
    exact h

private theorem eq_of_sameAll : ∀ {as bs : List Ty}, sameAll as bs = true → as = bs
  | [], bs, h => by cases bs <;> simp [sameAll] at h ⊢
  | a :: as, bs, h => by
    cases bs <;> simp [sameAll] at h ⊢
    exact ⟨eq_of_same h.1, eq_of_sameAll h.2⟩

end

theorem same_iff {a b : Ty} : same a b = true ↔ a = b :=
  ⟨eq_of_same, fun h => h ▸ same_self a⟩

instance : DecidableEq Ty := fun a b =>
  if h : same a b then isTrue (same_iff.mp h)
  else isFalse fun he => h (same_iff.mpr he)

/-! ### Classes of types -/

/-- Whether values are copied at every use, or given away. -/
inductive Category where
  | copy
  | move
deriving DecidableEq

/-- Texts, collections, objects and futures are given away; an optional follows its content. -/
def category : Ty → Category
  | .string | .array _ | .map _ _ | .cls _ | .interface _ | .future _ => .move
  | .optional t => t.category
  | _ => .copy

def isMove (t : Ty) : Bool :=
  t.category = .move

/-- Types that stand for all others. -/
def isDynamic : Ty → Bool
  | .any | .unknown => true
  | _ => false

def isNumeric : Ty → Bool
  | .int | .float => true
  | _ => false

/-- Whether values are ordered. -/
def isComparable : Ty → Bool
  | .int | .float | .string | .char | .bool => true
  | _ => false

/-- What awaiting a value of the type gives. -/
def output? : Ty → Option Ty
  | .future t => some t
  | _ => none

/-- The type behind a reference, and whether the reference may not change it. Only one reference is
followed. -/
def target : Ty → Ty × Option Bool
  | .ref mutable t => (t, some !mutable)
  | t => (t, none)

/-! ### Text -/

mutual

/-- How messages write a type. -/
def text : Ty → String
  | .int => "int"
  | .float => "float"
  | .bool => "bool"
  | .string => "string"
  | .char => "char"
  | .void => "void"
  | .any => "any"
  | .nil => "nil"
  | .unknown => "unknown"
  | .array t => "[" ++ t.text ++ "]"
  | .map k v => "\x7b" ++ k.text ++ ": " ++ v.text ++ "\x7d"
  | .fn [] r => "fn() -> " ++ r.text
  | .fn (p :: ps) r => "fn(" ++ p.text ++ textTail ps ++ ") -> " ++ r.text
  | .chan t => "chan<" ++ t.text ++ ">"
  | .optional t => t.text ++ "?"
  | .ref mutable t => (if mutable then "&mut " else "&") ++ t.text
  | .future t => "Future<" ++ t.text ++ ">"
  | .cls name | .interface name => name
  | .module path => "module \"" ++ path ++ "\""

/-- The parameters after the first. -/
def textTail : List Ty → String
  | [] => ""
  | t :: ts => ", " ++ t.text ++ textTail ts

end
end Ty

/-- How messages write the type of a function. -/
def FnTy.text (f : FnTy) : String :=
  f.toTy.text

end CarvFront
