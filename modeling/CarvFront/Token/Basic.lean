import CarvFront.Span
import CarvFront.Double.Shortest

/-! Tokens: the words and signs of the language, with the text each is shown as. -/
namespace CarvFront

/-- The reserved words. Names of basic types are not among them: they are words only where a type
is expected. -/
inductive Keyword where
  | letKw | constKw | fnKw | asyncKw | awaitKw | returnKw | mutKw
  | ifKw | elseKw | forKw | inKw | whileKw | loopKw | breakKw | continueKw
  | classKw | interfaceKw | implKw | newKw | selfKw
  | requireKw | fromKw | asKw
  | trueKw | falseKw | nilKw
deriving DecidableEq

namespace Keyword

/-- The reserved words in the order they are listed to users. -/
def all : List Keyword :=
  [.letKw, .constKw, .fnKw, .asyncKw, .awaitKw, .returnKw, .mutKw,
   .ifKw, .elseKw, .forKw, .inKw, .whileKw, .loopKw, .breakKw, .continueKw,
   .classKw, .interfaceKw, .implKw, .newKw, .selfKw,
   .requireKw, .fromKw, .asKw,
   .trueKw, .falseKw, .nilKw]

/-- How a reserved word is spelled. -/
def text : Keyword → String
  | .letKw => "let"
  | .constKw => "const"
  | .fnKw => "fn"
  | .asyncKw => "async"
  | .awaitKw => "await"
  | .returnKw => "return"
  | .mutKw => "mut"
  | .ifKw => "if"
  | .elseKw => "else"
  | .forKw => "for"
  | .inKw => "in"
  | .whileKw => "while"
  | .loopKw => "loop"
  | .breakKw => "break"
  | .continueKw => "continue"
  | .classKw => "class"
  | .interfaceKw => "interface"
  | .implKw => "impl"
  | .newKw => "new"
  | .selfKw => "self"
  | .requireKw => "require"
  | .fromKw => "from"
  | .asKw => "as"
  | .trueKw => "true"
  | .falseKw => "false"
  | .nilKw => "nil"

/-- The reserved word of that spelling. -/
def ofText? (s : String) : Option Keyword :=
  all.find? fun w => w.text == s

/-- Words that begin a statement. Recovery after an error resumes at these. -/
def startsStatement : Keyword → Bool
  | .letKw | .constKw | .fnKw | .asyncKw | .returnKw | .ifKw | .forKw | .whileKw | .loopKw
  | .breakKw | .continueKw | .classKw | .interfaceKw | .implKw | .requireKw => true
  | _ => false

end Keyword

/-- Operators and punctuation. -/
inductive Symbol where
  | plus | minus | star | slash | percent
  | eqEq | bangEq | less | greater | lessEq | greaterEq
  | andAnd | orOr | bang | amp | pipe | caret | tilde | shl | shr | pipeGt | question
  | eq | plusEq | minusEq | starEq | slashEq | percentEq | ampEq | pipeEq | caretEq
  | lparen | rparen | lbrace | rbrace | lbracket | rbracket
  | comma | colon | semicolon | dot | arrow
deriving DecidableEq

namespace Symbol

/-- How a sign is spelled. -/
def text : Symbol → String
  | .plus => "+"
  | .minus => "-"
  | .star => "*"
  | .slash => "/"
  | .percent => "%"
  | .eqEq => "=="
  | .bangEq => "!="
  | .less => "<"
  | .greater => ">"
  | .lessEq => "<="
  | .greaterEq => ">="
  | .andAnd => "&&"
  | .orOr => "||"
  | .bang => "!"
  | .amp => "&"
  | .pipe => "|"
  | .caret => "^"
  | .tilde => "~"
  | .shl => "<<"
  | .shr => ">>"
  | .pipeGt => "|>"
  | .question => "?"
  | .eq => "="
  | .plusEq => "+="
  | .minusEq => "-="
  | .starEq => "*="
  | .slashEq => "/="
  | .percentEq => "%="
  | .ampEq => "&="
  | .pipeEq => "|="
  | .caretEq => "^="
  | .lparen => "("
  | .rparen => ")"
  | .lbrace => "\x7b"
  | .rbrace => "\x7d"
  | .lbracket => "["
  | .rbracket => "]"
  | .comma => ","
  | .colon => ":"
  | .semicolon => ";"
  | .dot => "."
  | .arrow => "->"

/-- The sign of two characters. -/
def ofTwo? : Char → Char → Option Symbol
  | '=', '=' => some .eqEq
  | '!', '=' => some .bangEq
  | '<', '=' => some .lessEq
  | '>', '=' => some .greaterEq
  | '&', '&' => some .andAnd
  | '|', '|' => some .orOr
  | '<', '<' => some .shl
  | '>', '>' => some .shr
  | '|', '>' => some .pipeGt
  | '+', '=' => some .plusEq
  | '-', '=' => some .minusEq
  | '*', '=' => some .starEq
  | '/', '=' => some .slashEq
  | '%', '=' => some .percentEq
  | '&', '=' => some .ampEq
  | '|', '=' => some .pipeEq
  | '^', '=' => some .caretEq
  | '-', '>' => some .arrow
  | _, _ => none

/-- The sign of one character. -/
def ofOne? : Char → Option Symbol
  | '+' => some .plus
  | '-' => some .minus
  | '*' => some .star
  | '/' => some .slash
  | '%' => some .percent
  | '<' => some .less
  | '>' => some .greater
  | '!' => some .bang
  | '&' => some .amp
  | '|' => some .pipe
  | '^' => some .caret
  | '~' => some .tilde
  | '?' => some .question
  | '=' => some .eq
  | '(' => some .lparen
  | ')' => some .rparen
  | '{' => some .lbrace
  | '}' => some .rbrace
  | '[' => some .lbracket
  | ']' => some .rbracket
  | ',' => some .comma
  | ':' => some .colon
  | ';' => some .semicolon
  | '.' => some .dot
  | _ => none

/-- The longest sign at the start of a text, with its length. -/
def ofChars? : List Char → Option (Symbol × Nat)
  | [] => none
  | [c] => (ofOne? c).map (·, 1)
  | c :: d :: _ =>
    match ofTwo? c d with
    | some s => some (s, 2)
    | none => (ofOne? c).map (·, 1)

end Symbol

/-- A token without its place. A text with holes, `"a ${x} b"`, is a start, then for each hole its
opening, its tokens and its closing, with the text between holes as parts, and an end. -/
inductive Kind where
  | int (value : Int)
  | float (value : Double)
  | string (text : String)
  | char (value : Char)
  | stringStart (text : String)
  | stringPart (text : String)
  | stringEnd (text : String)
  | holeStart
  | holeEnd
  | ident (name : String)
  | word (w : Keyword)
  | sym (s : Symbol)
  | eof
deriving DecidableEq

namespace Kind

/-- How messages show a token. -/
def text : Kind → String
  | .int n => toString n
  | .float d => d.text
  | .string s => "\"" ++ s ++ "\""
  | .char c => "'" ++ c.toString ++ "'"
  | .stringStart _ => "string start"
  | .stringPart _ => "string part"
  | .stringEnd _ => "string end"
  | .holeStart => "$\x7b"
  | .holeEnd => "interpolation end"
  | .ident name => name
  | .word w => w.text
  | .sym s => s.text
  | .eof => "end of file"

/-- Whether the token is a reserved word. -/
def isWord : Kind → Bool
  | .word _ => true
  | _ => false

/-- Whether the token is a word that begins a statement. -/
def startsStatement : Kind → Bool
  | .word w => w.startsStatement
  | _ => false

end Kind

/-- A token and where it stands. -/
structure Token where
  kind : Kind
  span : Span
deriving DecidableEq

end CarvFront
