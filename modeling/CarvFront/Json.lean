/-! JSON values and their indented text. -/
namespace CarvFront

/-- A JSON value. A number is a whole number divided by a power of ten; members keep their
order. -/
inductive Json where
  | null
  | bool (value : Bool)
  | number (mantissa : Int) (scale : Nat)
  | string (text : String)
  | array (items : List Json)
  | object (members : List (String × Json))

namespace Json

instance : Inhabited Json := ⟨.null⟩

/-- A whole number. -/
def nat (n : Nat) : Json := .number n 0

/-- The first member of that name. -/
def field? (name : String) : Json → Option Json
  | .object ms => (ms.find? (·.1 == name)).map (·.2)
  | _ => none

/-- The text, if the value is one. -/
def text? : Json → Option String
  | .string s => some s
  | _ => none

/-- The truth value, if the value is one. -/
def bool? : Json → Option Bool
  | .bool b => some b
  | _ => none

/-- The number, if the value is a whole one from 0 up to and excluding `bound`. -/
def below? (bound : Nat) : Json → Option Nat
  | .number (.ofNat n) 0 => if n < bound then some n else none
  | _ => none

/-- Escapes keep to what JSON demands: the quote, the backslash and the control characters. -/
def escapeChar (c : Char) : List Char :=
  if c = '"' then ['\\', '"']
  else if c = '\\' then ['\\', '\\']
  else if c = '\x08' then ['\\', 'b']
  else if c = '\t' then ['\\', 't']
  else if c = '\n' then ['\\', 'n']
  else if c = '\x0c' then ['\\', 'f']
  else if c = '\r' then ['\\', 'r']
  else if c.toNat < 0x20 then
    ['\\', 'u', '0', '0', Nat.digitChar (c.toNat / 16), Nat.digitChar (c.toNat % 16)]
  else [c]

/-- A text between quotes. -/
def quote (s : String) : String :=
  String.ofList ('"' :: s.toList.flatMap escapeChar ++ ['"'])

/-- The start of a line at some depth: two blanks a level. -/
def newline (depth : Nat) : String :=
  String.ofList ('\n' :: List.replicate (2 * depth) ' ')

/-- The text of a number: the mantissa with its point moved left by `scale` places. -/
def numberText (mantissa : Int) (scale : Nat) : String :=
  let sign := if mantissa < 0 then "-" else ""
  let digits := Nat.toDigits 10 mantissa.natAbs
  let digits := List.replicate (scale + 1 - digits.length) '0' ++ digits
  let whole := digits.take (digits.length - scale)
  let part := digits.drop (digits.length - scale)
  sign ++ String.ofList whole ++ (if part.isEmpty then "" else "." ++ String.ofList part)

mutual

/-- The text of a value inside `depth` brackets: one item a line, a blank after a colon. -/
def prettyAt (depth : Nat) : Json → String
  | .null => "null"
  | .bool b => if b then "true" else "false"
  | .number m s => numberText m s
  | .string s => quote s
  | .array [] => "[]"
  | .array (v :: vs) =>
    "[" ++ newline (depth + 1) ++ prettyAt (depth + 1) v ++ prettyItems depth vs
      ++ newline depth ++ "]"
  | .object [] => "\x7b\x7d"
  | .object ((k, v) :: ms) =>
    "\x7b" ++ newline (depth + 1) ++ quote k ++ ": " ++ prettyAt (depth + 1) v
      ++ prettyMembers depth ms ++ newline depth ++ "\x7d"

/-- The items after the first. -/
def prettyItems (depth : Nat) : List Json → String
  | [] => ""
  | v :: vs => "," ++ newline (depth + 1) ++ prettyAt (depth + 1) v ++ prettyItems depth vs

/-- The members after the first. -/
def prettyMembers (depth : Nat) : List (String × Json) → String
  | [] => ""
  | (k, v) :: ms =>
    "," ++ newline (depth + 1) ++ quote k ++ ": " ++ prettyAt (depth + 1) v
      ++ prettyMembers depth ms

end

/-- The indented text of a value. -/
def pretty (v : Json) : String :=
  prettyAt 0 v

end Json
end CarvFront
