import CarvFront.Grammar.Expression

/-! The grammar of functions, classes, interfaces, implementations and imports. -/
namespace CarvFront.Grammar
open CarvFront.Parser

variable (r : Rules)

/-- `[async] fn name(params) [-> T] { … }` -/
def functionDecl : Parser Stmt := do
  let start ← here
  let async ← eat (.word .asyncKw)
  word .fnKw
  let name ← ident
  sym .lparen
  let sig ← signature r async
  let body ← block r
  pure (.fn (start.merge body.span) name sig body)

/-- `self`, `&self`, `&mut self` or nothing, with the comma behind. -/
def receiver : Parser Receiver := do
  match ← peek, ← lookAhead 1, ← lookAhead 2 with
  | .word .selfKw, _, _ => do
    let _ ← next
    let _ ← eat (.sym .comma)
    pure .value
  | .sym .amp, .word .selfKw, _ => do
    let _ ← next
    let _ ← next
    let _ ← eat (.sym .comma)
    pure .ref
  | .sym .amp, .word .mutKw, .word .selfKw => do
    let _ ← next
    let _ ← next
    let _ ← next
    let _ ← eat (.sym .comma)
    pure .refMut
  | _, _, _ => pure .none

/-- A method with a body. -/
def method : Parser Method := do
  let start ← here
  let async ← eat (.word .asyncKw)
  word .fnKw
  let name ← ident
  sym .lparen
  let receiver ← receiver
  let sig ← signature r async
  let body ← block r
  pure ⟨name, receiver, sig, body, start.merge body.span⟩

/-- A method of an interface. -/
def methodHead : Parser MethodHead := do
  let start ← here
  word .fnKw
  let name ← ident
  sym .lparen
  let receiver ← receiver
  let sig ← signature r false
  let stop ← before
  semicolon
  pure ⟨name, receiver, sig, start.merge stop⟩

/-- `name: T = default`, with a comma or semicolon behind if one is there. -/
def field : Parser Field := do
  let name ← ident
  sym .colon
  let type ← r.type
  let default ← do
    if ← eat (.sym .eq) then
      let e ← r.expr
      pure (some e)
    else pure none
  let stop ← before
  if ← eat (.sym .comma) then pure ()
  else
    let _ ← eat (.sym .semicolon)
  pure ⟨name, type, default, name.span.merge stop⟩

/-- What stands in a class. -/
inductive ClassItem where
  | field (f : Field)
  | method (m : Method)

def ClassItem.field? : ClassItem → Option Field
  | .field f => some f
  | .method _ => none

def ClassItem.method? : ClassItem → Option Method
  | .field _ => none
  | .method m => some m

/-- A field or a method. -/
def classItem : Parser ClassItem := do
  match ← peek with
  | .word .fnKw | .word .asyncKw => do
    let m ← method r
    pure (.method m)
  | .ident _ => do
    let f ← field r
    pure (.field f)
  | got => fail (.expected .classItem got)

/-- `class Name { … }` -/
def classDecl : Parser Stmt := do
  let start ← next
  let name ← ident
  sym .lbrace
  let items ← allInBraces (classItem r)
  sym .rbrace
  let stop ← before
  pure (.classDecl (start.merge stop) name (items.filterMap ClassItem.field?)
    (items.filterMap ClassItem.method?))

/-- `interface Name { … }` -/
def interfaceDecl : Parser Stmt := do
  let start ← next
  let name ← ident
  sym .lbrace
  let methods ← allInBraces (methodHead r)
  sym .rbrace
  let stop ← before
  pure (.interfaceDecl (start.merge stop) name methods)

/-- `impl Interface for Class { … }` -/
def implDecl : Parser Stmt := do
  let start ← next
  let interface ← ident
  word .forKw
  let target ← ident
  sym .lbrace
  let methods ← allInBraces (method r)
  sym .rbrace
  let stop ← before
  pure (.implDecl (start.merge stop) interface target methods)

/-- What a `require` names: `* from "path"`, `{ a, b } from "path"` or `"path" as name`. -/
def required : Parser (String × Import) := do
  match ← peek with
  | .sym .star => do
    let _ ← next
    word .fromKw
    let path ← stringLiteral
    pure (path, .wildcard)
  | .sym .lbrace => do
    let _ ← next
    let names ← items .rbrace ident
    word .fromKw
    let path ← stringLiteral
    pure (path, .named names)
  | _ => do
    let path ← stringLiteral
    if ← eat (.word .asKw) then
      let newName ← ident
      pure (path, .module (some newName))
    else pure (path, .module none)

/-- `require …;` -/
def require : Parser Stmt := do
  let start ← next
  let (path, imports) ← required
  let stop ← before
  semicolon
  pure (.require (start.merge stop) path imports)

end CarvFront.Grammar
