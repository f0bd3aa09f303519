import CarvFront.Proofs.Reading

/-! Expressions written out as tokens: which trees need no further parentheses, and how deep reading
them goes. -/
namespace CarvFront

/-! ### Operators -/

def BinOp.symbol : BinOp → Symbol
  | .or => .orOr
  | .and => .andAnd
  | .bitOr => .pipe
  | .bitXor => .caret
  | .bitAnd => .amp
  | .eq => .eqEq
  | .notEq => .bangEq
  | .less => .less
  | .greater => .greater
  | .lessEq => .lessEq
  | .greaterEq => .greaterEq
  | .shl => .shl
  | .shr => .shr
  | .add => .plus
  | .sub => .minus
  | .mul => .star
  | .div => .slash
  | .mod => .percent

/-- The ten levels of binary operators, the loosest first. -/
def BinOp.level : BinOp → Nat
  | .or => 0
  | .and => 1
  | .bitOr => 2
  | .bitXor => 3
  | .bitAnd => 4
  | .eq | .notEq => 5
  | .less | .greater | .lessEq | .greaterEq => 6
  | .shl | .shr => 7
  | .add | .sub => 8
  | .mul | .div | .mod => 9

def UnaryOp.symbol : UnaryOp → Symbol
  | .neg => .minus
  | .not => .bang
  | .bitNot => .tilde

def AssignOp.symbol : AssignOp → Symbol
  | .assign => .eq
  | .add => .plusEq
  | .sub => .minusEq
  | .mul => .starEq
  | .div => .slashEq
  | .mod => .percentEq
  | .bitAnd => .ampEq
  | .bitOr => .pipeEq
  | .bitXor => .caretEq

/-- How tightly an expression holds together: assignments, pipes, the levels of binary operators,
prefixes, calls with members and indices, and all that needs nothing around it. -/
def Expr.level : Expr → Nat
  | .assign _ _ _ _ => 0
  | .pipe _ _ _ => 1
  | .binary _ op _ _ => op.level + 2
  | .unary _ _ _ | .borrow _ _ _ | .deref _ _ | .await _ _ => 12
  | .call _ _ _ | .member _ _ _ | .index _ _ _ => 13
  | _ => 14

/-! ### Canonical form -/

def Part.isHole : Part → Bool
  | .hole _ => true
  | .text _ => false

/-- No text is empty, and no two stand side by side. -/
def Part.separated : List Part → Bool
  | [] => true
  | .hole _ :: ps => separated ps
  | .text _ :: .text _ :: _ => false
  | .text s :: ps => !s.isEmpty && separated ps

mutual

/-- Every operand binds at least as tightly as its place asks for; what stands to the right of an
operator that groups from the left, more tightly. Lambdas are left out. -/
def Expr.canonical : Expr → Bool
  | .interp _ ps => ps.any Part.isHole && Part.separated ps && canonicalParts ps
  | .array _ es => canonicalAll es
  | .map _ es => canonicalEntries es
  | .call _ f args => 13 ≤ f.level && f.canonical && canonicalAll args
  | .member _ object _ => 13 ≤ object.level && object.canonical
  | .index _ object i => 13 ≤ object.level && object.canonical && i.canonical
  | .binary _ op l r =>
    op.level + 2 ≤ l.level && op.level + 3 ≤ r.level && l.canonical && r.canonical
  | .unary _ _ e | .borrow _ _ e | .deref _ e | .await _ e => 12 ≤ e.level && e.canonical
  | .pipe _ l r => 1 ≤ l.level && 2 ≤ r.level && l.canonical && r.canonical
  | .assign _ _ target value => 1 ≤ target.level && target.canonical && value.canonical
  | .new _ _ fields => canonicalFields fields
  | .lambda _ _ _ => false
  | .paren _ e => e.canonical
  | _ => true

def canonicalAll : List Expr → Bool
  | [] => true
  | e :: es => e.canonical && canonicalAll es

def canonicalEntries : List (Expr × Expr) → Bool
  | [] => true
  | (key, value) :: es => key.canonical && value.canonical && canonicalEntries es

def canonicalFields : List (Ident × Expr) → Bool
  | [] => true
  | (_, e) :: fs => e.canonical && canonicalFields fs

def canonicalParts : List Part → Bool
  | [] => true
  | .text _ :: ps => canonicalParts ps
  | .hole e :: ps => e.canonical && canonicalParts ps

end

/-! ### Tokens -/

/-- A name behind a dot is the reserved word of that spelling, if there is one. -/
def memberKind (name : String) : Kind :=
  match Keyword.ofText? name with
  | some w => .word w
  | none => .ident name

mutual

def Expr.tokens : Expr → List Kind
  | .int _ n => [.int n]
  | .float _ d => [.float d]
  | .string _ s => [.string s]
  | .char _ c => [.char c]
  | .bool _ b => [.word (if b then .trueKw else .falseKw)]
  | .nil _ => [.word .nilKw]
  | .interp _ ps => partTokens .stringStart "" ps
  | .array _ es => .sym .lbracket :: commas (tokensAll es) ++ [.sym .rbracket]
  | .map _ es => .sym .lbrace :: commas (entryTokens es) ++ [.sym .rbrace]
  | .ident _ name => [if name = Keyword.selfKw.text then .word .selfKw else .ident name]
  | .call _ f args => f.tokens ++ .sym .lparen :: commas (tokensAll args) ++ [.sym .rparen]
  | .member _ object name => object.tokens ++ [.sym .dot, memberKind name.name]
  | .index _ object i => object.tokens ++ .sym .lbracket :: i.tokens ++ [.sym .rbracket]
  | .binary _ op l r => l.tokens ++ .sym op.symbol :: r.tokens
  | .unary _ op e => .sym op.symbol :: e.tokens
  | .borrow _ mutable e =>
    .sym .amp :: (if mutable then .word .mutKw :: e.tokens else e.tokens)
  | .deref _ e => .sym .star :: e.tokens
  | .await _ e => .word .awaitKw :: e.tokens
  | .pipe _ l r => l.tokens ++ .sym .pipeGt :: r.tokens
  | .assign _ op target value => target.tokens ++ .sym op.symbol :: value.tokens
  | .new _ cls fields =>
    .word .newKw :: .ident cls.name :: .sym .lbrace :: commas (fieldTokens fields) ++
      [.sym .rbrace]
  | .lambda _ _ _ => []
  | .paren _ e => .sym .lparen :: e.tokens ++ [.sym .rparen]

def tokensAll : List Expr → List (List Kind)
  | [] => []
  | e :: es => e.tokens :: tokensAll es

def entryTokens : List (Expr × Expr) → List (List Kind)
  | [] => []
  | (key, value) :: es => (key.tokens ++ .sym .colon :: value.tokens) :: entryTokens es

def fieldTokens : List (Ident × Expr) → List (List Kind)
  | [] => []
  | (name, e) :: fs => (.ident name.name :: .sym .colon :: e.tokens) :: fieldTokens fs

/-- The pieces of a string that goes on with `s`. The token of the text up to the first hole is made
by `start`. -/
def partTokens (start : String → Kind) (s : String) : List Part → List Kind
  | [] => [.stringEnd s]
  | .text t :: ps => partTokens start (s ++ t) ps
  | .hole e :: ps =>
    start s :: .holeStart :: e.tokens ++ .holeEnd :: partTokens .stringPart "" ps

end

/-! ### Depth -/

/-- How many operators of one level, or calls, members and indices, are grouped from the left. Each
of them is read one level deeper than the one before. -/
def Expr.folds : Expr → Nat
  | .binary _ op l _ => (if l.level = op.level + 2 then l.folds else 0) + 1
  | .pipe _ l _ => (if l.level = 1 then l.folds else 0) + 1
  | .call _ e _ | .member _ e _ | .index _ e _ => (if e.level = 13 then e.folds else 0) + 1
  | _ => 0

/-- The operators on a level that an expression starts with. -/
def Expr.foldsAt (level : Nat) (e : Expr) : Nat :=
  if e.level = level then e.folds else 0

mutual

/-- How many levels deeper reading an expression goes. -/
def Expr.nesting : Expr → Nat
  | .interp _ ps => partNesting ps
  | .array _ es => nestingAll es
  | .map _ es => entryNesting es
  | .call _ f args => max f.nesting (f.foldsAt 13 + 1 + nestingAll args)
  | .member _ object _ => max object.nesting (object.foldsAt 13 + 1)
  | .index _ object i => max object.nesting (object.foldsAt 13 + 1 + (i.nesting + 1))
  | .binary _ op l r => max l.nesting (l.foldsAt (op.level + 2) + 1 + r.nesting)
  | .unary _ _ e | .borrow _ _ e | .deref _ e | .await _ e | .paren _ e => e.nesting + 1
  | .pipe _ l r => max l.nesting (l.foldsAt 1 + 1 + r.nesting)
  | .assign _ _ target value => max target.nesting (value.nesting + 1)
  | .new _ _ fields => fieldNesting fields
  | _ => 0

def nestingAll : List Expr → Nat
  | [] => 0
  | e :: es => max (e.nesting + 1) (nestingAll es)

def entryNesting : List (Expr × Expr) → Nat
  | [] => 0
  | (key, value) :: es => max (max (key.nesting + 1) (value.nesting + 1)) (entryNesting es)

def fieldNesting : List (Ident × Expr) → Nat
  | [] => 0
  | (_, e) :: fs => max (e.nesting + 1) (fieldNesting fs)

def partNesting : List Part → Nat
  | [] => 0
  | .text _ :: ps => partNesting ps
  | .hole e :: ps => max (e.nesting + 1) (partNesting ps)

end

/-! ### Trees without places -/

/-- The span that stands for none. -/
def Span.nowhere : Span := .point .first

def Ident.bare (i : Ident) : Ident := ⟨i.name, .nowhere⟩

mutual

/-- The expression without its spans. Lambdas keep theirs inside. -/
def Expr.bare : Expr → Expr
  | .int _ n => .int .nowhere n
  | .float _ d => .float .nowhere d
  | .string _ s => .string .nowhere s
  | .char _ c => .char .nowhere c
  | .bool _ b => .bool .nowhere b
  | .nil _ => .nil .nowhere
  | .interp _ ps => .interp .nowhere (bareParts ps)
  | .array _ es => .array .nowhere (bareAll es)
  | .map _ es => .map .nowhere (bareEntries es)
  | .ident _ name => .ident .nowhere name
  | .call _ f args => .call .nowhere f.bare (bareAll args)
  | .member _ object name => .member .nowhere object.bare name.bare
  | .index _ object i => .index .nowhere object.bare i.bare
  | .binary _ op l r => .binary .nowhere op l.bare r.bare
  | .unary _ op e => .unary .nowhere op e.bare
  | .borrow _ mutable e => .borrow .nowhere mutable e.bare
  | .deref _ e => .deref .nowhere e.bare
  | .await _ e => .await .nowhere e.bare
  | .pipe _ l r => .pipe .nowhere l.bare r.bare
  | .assign _ op target value => .assign .nowhere op target.bare value.bare
  | .new _ cls fields => .new .nowhere cls.bare (bareFields fields)
  | .lambda _ sig body => .lambda .nowhere sig body
  | .paren _ e => .paren .nowhere e.bare

def bareAll : List Expr → List Expr
  | [] => []
  | e :: es => e.bare :: bareAll es

def bareEntries : List (Expr × Expr) → List (Expr × Expr)
  | [] => []
  | (key, value) :: es => (key.bare, value.bare) :: bareEntries es

def bareFields : List (Ident × Expr) → List (Ident × Expr)
  | [] => []
  | (name, e) :: fs => (name.bare, e.bare) :: bareFields fs

def bareParts : List Part → List Part
  | [] => []
  | .text s :: ps => .text s :: bareParts ps
  | .hole e :: ps => .hole e.bare :: bareParts ps

end

/-- Two expressions that differ at most in their spans. -/
def Expr.Same (e e' : Expr) : Prop := e.bare = e'.bare

end CarvFront
