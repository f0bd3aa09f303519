import CarvFront.Ty.Basic

/-! When a value of one type may stand where another type is wanted. -/
namespace CarvFront

/-- Which class implements which interface. -/
abbrev Implements := String → String → Bool

namespace Ty

/-- No class implements any interface. -/
def noImpls : Implements := fun _ _ => false

mutual

/-- Whether a value of type `a` may stand where a `b` is wanted. Whole numbers widen, nothing and
plain values go into an optional, containers follow their content, a mutable reference serves as a
shared one, a class as an interface that it implements, and a function as one that asks for more and
promises less. -/
def assignable (impls : Implements) (a b : Ty) : Bool :=
  if a = b ∨ a.isDynamic ∨ b.isDynamic then true
  else match a, b with
    | .int, .float => true
    | .nil, .optional _ => true
    | .optional a, .optional b => assignable impls a b
    | a, .optional b => assignable impls a b
    | .array a, .array b => assignable impls a b
    | .future a, .future b => assignable impls a b
    | .chan a, .chan b => assignable impls a b
    | .map k v, .map l w => assignable impls k l && assignable impls v w
    | .ref m a, .ref n b => (m == n || (m && !n)) && assignable impls a b
    | .cls c, .interface i => impls c i
    | .fn ps r, .fn qs s => assignableAll impls qs ps && assignable impls r s
    | _, _ => false
termination_by sizeOf a + sizeOf b
decreasing_by all_goals simp +arith

/-- Whether two lists are equally long and each value of the first may stand in its place of the
second. -/
def assignableAll (impls : Implements) (as bs : List Ty) : Bool :=
  match as, bs with
  | [], [] => true
  | a :: as, b :: bs => assignable impls a b && assignableAll impls as bs
  | _, _ => false
termination_by sizeOf as + sizeOf bs
decreasing_by all_goals simp +arith

end

end Ty
end CarvFront
