import CarvFront.Proofs.Rendering
import Mathlib.Computability.Language
import Mathlib.Order.CompletePartialOrder

/-! The language of the syntax tree: for every tree, all the ways to write it as tokens. Commas and
semicolons that may be left out or added are where writings of one tree differ. -/
namespace CarvFront

/-- A sign of the grammar: a token, or the `>` that closes a generic type. That may be the first
half of a token. -/
inductive Terminal where
  | token (k : Kind)
  | close

/-- Ways to write something. -/
abbrev Phrases := Language Terminal

namespace Phrases

def tok (k : Kind) : Phrases := {[.token k]}
abbrev sign (s : Symbol) : Phrases := tok (.sym s)
abbrev key (w : Keyword) : Phrases := tok (.word w)
abbrev called (name : String) : Phrases := tok (.ident name)

/-- The end of a generic type. -/
def closing : Phrases := {[.close]}

/-- Nothing, and only if `p` holds. -/
def given (p : Prop) : Phrases := {w | p ∧ w = []}

/-- Something that is left out unless `b` says it is there. -/
def upon (b : Bool) (l : Phrases) : Phrases := if b then l else 1

@[simp] theorem upon_true (l : Phrases) : upon true l = l := rfl
@[simp] theorem upon_false (l : Phrases) : upon false l = 1 := rfl

theorem upon_le (b : Bool) (l : Phrases) : upon b l ≤ 1 + l := by
  cases b with
  | true => exact le_add_self
  | false => exact le_self_add

/-- A name, or the reserved word of that spelling. -/
def nameOrWord (name : String) : Phrases :=
  {w | w ∈ called name ∨ ∃ k : Keyword, k.text = name ∧ w ∈ key k}

/-- With commas between them. One more may follow the last. -/
def commaList : List Phrases → Phrases
  | [] => 1
  | [l] => l * (1 + sign .comma)
  | l :: ls => l * sign .comma * commaList ls

/-- One after the other. Behind those that are marked stands a semicolon, which may be left out
behind the last. -/
def series : List (Phrases × Bool) → Phrases
  | [] => 1
  | [(l, ended)] => l * upon ended (1 + sign .semicolon)
  | (l, ended) :: ls => l * upon ended (sign .semicolon) * series ls

/-- All of two lists, each in its order. -/
def interleaved : List Phrases → List Phrases → Phrases
  | [], ms => ms.prod
  | fs, [] => fs.prod
  | f :: fs, m :: ms => f * interleaved fs (m :: ms) + m * interleaved (f :: fs) ms
termination_by fs ms => fs.length + ms.length

end Phrases

open Phrases

/-! ### Types and signatures -/

/-- The word of a basic type. -/
def BasicType.kind : BasicType → Kind
  | .int => .ident "int"
  | .float => .ident "float"
  | .bool => .ident "bool"
  | .string => .ident "string"
  | .char => .ident "char"
  | .void => .ident "void"
  | .any => .ident "any"
  | .nil => .word .nilKw

mutual

/-- A function type may leave out that it returns nothing. The words of basic types name nothing
else. -/
def TypeExpr.phrases : TypeExpr → Phrases
  | .basic _ t => tok t.kind
  | .array _ elem => sign .lbracket * elem.phrases * sign .rbracket
  | .map _ key value =>
    sign .lbrace * key.phrases * sign .colon * value.phrases * sign .rbrace
  | .fn _ params ret =>
    key .fnKw * sign .lparen * commaList (typePhrases params) * sign .rparen *
      (sign .arrow * ret.phrases + given (∃ s, ret = .basic s .void))
  | .chan _ elem => called "chan" * sign .less * elem.phrases * closing
  | .future _ output => called "Future" * sign .less * output.phrases * closing
  | .optional _ inner => inner.phrases * sign .question
  | .ref _ mutable inner => sign .amp * upon mutable (key .mutKw) * inner.phrases
  | .named _ name => given (∀ t : BasicType, t.kind ≠ .ident name) * called name

def typePhrases : List TypeExpr → List Phrases
  | [] => []
  | t :: ts => t.phrases :: typePhrases ts

end

def annotated : Option TypeExpr → Phrases
  | none => 1
  | some t => sign .colon * t.phrases

def returned : Option TypeExpr → Phrases
  | none => 1
  | some t => sign .arrow * t.phrases

def Param.phrases (p : Param) : Phrases :=
  called p.name.name * annotated p.type

/-- What follows the opening parenthesis. -/
def Signature.phrases (sig : Signature) : Phrases :=
  commaList (sig.params.map Param.phrases) * sign .rparen * returned sig.ret

def Signature.asyncWord (sig : Signature) : Phrases :=
  upon sig.async (key .asyncKw)

/-- A receiver with the comma behind it, which may be left out. -/
def Receiver.phrases : Receiver → Phrases
  | .none => 1
  | .value => key .selfKw * (1 + sign .comma)
  | .ref => sign .amp * key .selfKw * (1 + sign .comma)
  | .refMut => sign .amp * key .mutKw * key .selfKw * (1 + sign .comma)

def MethodHead.phrases (m : MethodHead) : Phrases :=
  given (m.sig.async = false) * key .fnKw * called m.name.name * sign .lparen *
    m.receiver.phrases * m.sig.phrases

def Import.phrases (path : String) : Import → Phrases
  | .module none => tok (.string path)
  | .module (some newName) => tok (.string path) * key .asKw * called newName.name
  | .named names =>
    sign .lbrace * commaList (names.map (called ·.name)) * sign .rbrace * key .fromKw *
      tok (.string path)
  | .wildcard => sign .star * key .fromKw * tok (.string path)

/-! ### Expressions and statements -/

/-- Statements that end with a semicolon. -/
def Stmt.isSimple : Stmt → Bool
  | .bind _ _ _ _ _ | .ret _ _ | .brk _ | .cont _ | .require _ _ _ | .expr _ _ => true
  | _ => false

/-- Statements that may stand first in the header of a loop. -/
def Stmt.isInit : Stmt → Bool
  | .bind _ _ _ _ _ | .expr _ _ => true
  | _ => false

/-- An operand that binds at least as tightly as its place asks for. -/
def Expr.tight (n : Nat) (e : Expr) (phrases : Phrases) : Phrases :=
  given (n ≤ e.level) * phrases

mutual

/-- Operands bind as tightly as their place asks for: what stands to the right of an operator that
groups from the left, more tightly than that operator. -/
@[simp] def Expr.phrases : Expr → Phrases
  | .int _ n => tok (.int n)
  | .float _ d => tok (.float d)
  | .string _ s => tok (.string s)
  | .char _ c => tok (.char c)
  | .bool _ b => key (if b then .trueKw else .falseKw)
  | .nil _ => key .nilKw
  | .interp _ ps => given (ps.any Part.isHole = true) * partPhrases .stringStart "" ps
  | .array _ es => sign .lbracket * commaList (phrasesAll es) * sign .rbracket
  | .map _ es => sign .lbrace * commaList (entryPhrases es) * sign .rbrace
  | .ident _ name => called name + given (name = Keyword.selfKw.text) * key .selfKw
  | .call _ f args =>
    f.tight 13 f.phrases * sign .lparen * commaList (phrasesAll args) * sign .rparen
  | .member _ object name => object.tight 13 object.phrases * sign .dot * nameOrWord name.name
  | .index _ object i =>
    object.tight 13 object.phrases * sign .lbracket * i.phrases * sign .rbracket
  | .binary _ op l r =>
    l.tight (op.level + 2) l.phrases * sign op.symbol * r.tight (op.level + 3) r.phrases
  | .unary _ op e => sign op.symbol * e.tight 12 e.phrases
  | .borrow _ mutable e =>
    sign .amp * upon mutable (key .mutKw) * e.tight 12 e.phrases
  | .deref _ e => sign .star * e.tight 12 e.phrases
  | .await _ e => key .awaitKw * e.tight 12 e.phrases
  | .pipe _ l r => l.tight 1 l.phrases * sign .pipeGt * r.tight 2 r.phrases
  | .assign _ op target value =>
    target.tight 1 target.phrases * sign op.symbol * value.phrases
  | .new _ cls fields =>
    key .newKw * called cls.name * sign .lbrace * commaList (initPhrases fields) * sign .rbrace
  | .lambda _ sig body =>
    sig.asyncWord * key .fnKw * sign .lparen * sig.phrases * body.phrases
  | .paren _ e => sign .lparen * e.phrases * sign .rparen

def phrasesAll : List Expr → List Phrases
  | [] => []
  | e :: es => e.phrases :: phrasesAll es

def entryPhrases : List (Expr × Expr) → List Phrases
  | [] => []
  | (key, value) :: es => (key.phrases * sign .colon * value.phrases) :: entryPhrases es

def initPhrases : List (Ident × Expr) → List Phrases
  | [] => []
  | (name, e) :: fs => (called name.name * sign .colon * e.phrases) :: initPhrases fs

/-- The pieces of a string that goes on with the text `s`, up to its end. The token of the text up
to the first hole is made by `start`. Texts that are empty are not in the tree. -/
def partPhrases (start : String → Kind) (s : String) : List Part → Phrases
  | [] => tok (.stringEnd s)
  | .text t :: ps => given (s = "" ∧ t ≠ "") * partPhrases start t ps
  | .hole e :: ps =>
    tok (start s) * tok .holeStart * e.phrases * tok .holeEnd * partPhrases .stringPart "" ps

def Block.phrases : Block → Phrases
  | ⟨_, stmts⟩ => sign .lbrace * series (stmtPhrases stmts) * sign .rbrace

/-- A statement without the semicolon behind it. -/
@[simp] def Stmt.phrases : Stmt → Phrases
  | .bind _ const name type value =>
    key (if const then .constKw else .letKw) * called name.name * annotated type * sign .eq *
      value.phrases
  | .fn _ name sig body =>
    sig.asyncWord * key .fnKw * called name.name * sign .lparen * sig.phrases * body.phrases
  | .ret _ value => key .returnKw * optionalPhrases value
  | .brk _ => key .breakKw
  | .cont _ => key .continueKw
  | .cond c => c.phrases
  | .forLoop _ init test post body =>
    key .forKw * sign .lparen * loopInitPhrases init * sign .semicolon * optionalPhrases test *
      sign .semicolon * optionalPhrases post * sign .rparen * body.phrases
  | .forIn _ item iterable body =>
    key .forKw * called item.name * key .inKw * iterable.phrases * body.phrases
  | .whileLoop _ test body => key .whileKw * test.phrases * body.phrases
  | .loop _ body => key .loopKw * body.phrases
  | .block body => body.phrases
  | .classDecl _ name fields methods =>
    key .classKw * called name.name * sign .lbrace *
      interleaved (fieldPhrases fields) (methodPhrases methods) * sign .rbrace
  | .interfaceDecl _ name methods =>
    key .interfaceKw * called name.name * sign .lbrace *
      series (methods.map fun m => (m.phrases, true)) * sign .rbrace
  | .implDecl _ interface target methods =>
    key .implKw * called interface.name * key .forKw * called target.name * sign .lbrace *
      (methodPhrases methods).prod * sign .rbrace
  | .require _ path imports => key .requireKw * imports.phrases path
  | .expr _ e => e.phrases

def stmtPhrases : List Stmt → List (Phrases × Bool)
  | [] => []
  | s :: ss => (s.phrases, s.isSimple) :: stmtPhrases ss

def optionalPhrases : Option Expr → Phrases
  | none => 1
  | some e => e.phrases

def loopInitPhrases : Option Stmt → Phrases
  | none => 1
  | some s => given (s.isInit = true) * s.phrases

def Conditional.phrases : Conditional → Phrases
  | ⟨_, test, body, otherwise⟩ =>
    key .ifKw * test.phrases * body.phrases * otherwise.phrases

def Otherwise.phrases : Otherwise → Phrases
  | .none => 1
  | .block body => key .elseKw * body.phrases
  | .elseIf c => key .elseKw * c.phrases

def defaultPhrases : Option Expr → Phrases
  | none => 1
  | some e => sign .eq * e.phrases

/-- A field, with a comma or a semicolon behind it if there is one. -/
def Field.phrases : Field → Phrases
  | ⟨name, type, default, _⟩ =>
    called name.name * sign .colon * type.phrases * defaultPhrases default *
      (1 + sign .comma + sign .semicolon)

def fieldPhrases : List Field → List Phrases
  | [] => []
  | f :: fs => f.phrases :: fieldPhrases fs

def Method.phrases : Method → Phrases
  | ⟨name, receiver, sig, body, _⟩ =>
    sig.asyncWord * key .fnKw * called name.name * sign .lparen * receiver.phrases *
      sig.phrases * body.phrases

def methodPhrases : List Method → List Phrases
  | [] => []
  | m :: ms => m.phrases :: methodPhrases ms

end

def Program.phrases (p : Program) : Phrases :=
  series (stmtPhrases p.stmts)

end CarvFront
