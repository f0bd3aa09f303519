import CarvFront.Check.Member

/-! Imports. -/
namespace CarvFront

/-- The name that a module is known by: its path after the last slash, without `.carv`. -/
def moduleName (path : String) : String :=
  let file := (path.toList.reverse.takeWhile (· ≠ '/')).reverse
  let ending := ".carv".toList
  if ending.isSuffixOf file then String.ofList (file.take (file.length - ending.length))
  else String.ofList file

namespace Check
variable {τ : Type} [Tracking τ]

/-- Bind a member of a module under its own name. Members of modules that are not built in can be
anything. -/
def importMember (path : String) (member : Ident) : Check τ Unit := do
  let ty ← if Builtin.hasModule path then accept (Builtin.memberTy path member) else pure .any
  bind member.name ty

/-- Bind what an import makes visible. After a wildcard import of a module that is not built in any
name may be one of its members. -/
def require (path : String) : Import → Check τ Unit
  | .module (some newName) => bind newName.name (.module path)
  | .module none => bind (moduleName path) (.module path)
  | .named names => names.forM (importMember path)
  | .wildcard =>
    if Builtin.hasModule path then
      (Builtin.members path).forM fun (name, f) => bind name f.toTy
    else do
      modify fun s => { s with openNames := true }
      bind (moduleName path) (.module path)

end Check
end CarvFront
