import CarvFront.Check.Operator

/-! The types of members and elements. A reference to an object gives the members of the object. -/
namespace CarvFront

/-- A member of a module that is built in. -/
def Builtin.memberTy (path : String) (member : Ident) : Judgement :=
  match Builtin.member? path member.name with
  | some f => ⟨f.toTy, []⟩
  | none => ⟨.unknown, [⟨.noModuleMember path member.name, member.span⟩]⟩

namespace State
variable {τ : Type} (s : State τ)

/-- A field or a method of a class. Methods that change their object want more than a shared
reference. -/
def classMember (cls : String) (member : Ident) (shared : Bool) : Judgement :=
  match s.classes.find? cls with
  | none => ⟨.unknown, []⟩
  | some c =>
    match c.fields.find? member.name with
    | some ty => ⟨ty, []⟩
    | none =>
      match c.methods.find? member.name with
      | some m =>
        .demand m.fn.toTy (!(shared && m.receiver = .refMut))
          (.callThroughShared member.name cls) member.span
      | none => ⟨.unknown, [⟨.noClassMember cls member.name, member.span⟩]⟩

/-- A method of an interface. -/
def interfaceMember (interface : String) (member : Ident) (shared : Bool) : Judgement :=
  match s.interfaces.find? interface with
  | none => ⟨.unknown, []⟩
  | some methods =>
    match methods.find? member.name with
    | some m =>
      .demand m.fn.toTy (!(shared && m.receiver = .refMut))
        (.callThroughSharedInterface member.name interface) member.span
    | none => ⟨.unknown, [⟨.noInterfaceMethod interface member.name, member.span⟩]⟩

/-- A member that is read. -/
def member (object : Ty) (member : Ident) : Judgement :=
  let (target, shared) := object.target
  match target with
  | .cls name => s.classMember name member (shared = some true)
  | .interface name => s.interfaceMember name member (shared = some true)
  | .module path =>
    if Builtin.hasModule path then Builtin.memberTy path member else ⟨.any, []⟩
  | .any | .unknown => ⟨target, []⟩
  | _ => ⟨.unknown, [⟨.noMember target member.name, member.span⟩]⟩

/-- A field that is assigned to: its type, if it has one, and what is wrong. -/
def assignedField (object : Ty) (member : Ident) (span : Span) : Option Ty × List Finding :=
  let (target, shared) := object.target
  match target with
  | .cls name =>
    match (s.classes.find? name).bind (·.fields.find? member.name) with
    | some ty =>
      (some ty, if shared = some true then [⟨.assignThroughShared member.name, span⟩] else [])
    | none => (none, [⟨.noClassField name member.name, member.span⟩])
  | .any | .unknown => (none, [])
  | _ => (none, [⟨.noField target member.name, member.span⟩])

/-- An element of a collection, or a character of a text. `place` is where the index stands. -/
def element (object index : Ty) (place span : Span) : Judgement :=
  match object.target.1 with
  | .array elem => .demand elem (index.fits .int) (.arrayIndex index) place
  | .map key value => .demand value (s.assignable index key) (.mapKey key index) place
  | .string => .demand .char (index.fits .int) (.stringIndex index) place
  | .any => ⟨.any, []⟩
  | .unknown => ⟨.unknown, []⟩
  | other => ⟨.unknown, [⟨.notIndexable other, span⟩]⟩

end State
end CarvFront
