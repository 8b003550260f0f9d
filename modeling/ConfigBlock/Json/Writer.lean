import ConfigBlock.Json.Tree

/-!
# Writing JSON

The compact layout has no white space at all; the indented one puts every item and member
on a line of its own, two blanks deeper than its container. In strings only the quote, the
backslash and control characters are escaped.
-/

namespace ConfigBlock

inductive JsonLayout where
  | compact
  | indented
  deriving DecidableEq, Repr

namespace JsonLayout

/-- What separates an item from the bracket or comma before it, `depth` containers down. -/
def lineBreak : JsonLayout → Nat → List Char
  | .compact, _ => []
  | .indented, depth => '\n' :: List.replicate (2 * depth) ' '

def colon : JsonLayout → List Char
  | .compact => [':']
  | .indented => [':', ' ']

end JsonLayout

namespace Json

def hexDigit (n : Nat) : Char := Nat.digitChar (n % 16)

def escapeChar (c : Char) : List Char :=
  if c = '"' then ['\\', '"']
  else if c = '\\' then ['\\', '\\']
  else if c = '\x08' then ['\\', 'b']
  else if c = '\t' then ['\\', 't']
  else if c = '\n' then ['\\', 'n']
  else if c = '\x0c' then ['\\', 'f']
  else if c = '\r' then ['\\', 'r']
  else if c.toNat < 32 then ['\\', 'u', '0', '0', hexDigit (c.toNat / 16), hexDigit c.toNat]
  else [c]

/-- A string; one that is no text is written as a lone half of a surrogate pair. -/
def writeString : Option String → List Char
  | some s => '"' :: s.toList.flatMap escapeChar ++ ['"']
  | none => "\"\\ud800\"".toList

end Json

namespace JsonNumeral

/-- An exponent always shows its sign. -/
def writeExponent : Option Int → List Char
  | none => []
  | some e => 'e' :: (if e < 0 then '-' else '+') :: Nat.toDigits 10 e.natAbs

def write (n : JsonNumeral) : List Char :=
  (if n.negative then ['-'] else []) ++ Nat.toDigits 10 n.whole ++
    (if n.fraction = [] then [] else '.' :: n.fraction) ++ writeExponent n.exponent

end JsonNumeral

namespace Json

mutual

def write (layout : JsonLayout) (depth : Nat) : Json → List Char
  | .null => "null".toList
  | .bool b => if b then "true".toList else "false".toList
  | .number n => n.write
  | .string s => writeString s
  | .array [] => ['[', ']']
  | .array (item :: items) =>
    '[' :: layout.lineBreak (depth + 1) ++ write layout (depth + 1) item ++
      writeItems layout depth items
  | .object [] => ['{', '}']
  | .object ((key, value) :: members) =>
    '{' :: layout.lineBreak (depth + 1) ++ writeString key ++ layout.colon ++
      write layout (depth + 1) value ++ writeMembers layout depth members

/-- The items after the first one, and the closing bracket. -/
def writeItems (layout : JsonLayout) (depth : Nat) : List Json → List Char
  | [] => layout.lineBreak depth ++ [']']
  | item :: items =>
    ',' :: layout.lineBreak (depth + 1) ++ write layout (depth + 1) item ++
      writeItems layout depth items

/-- The members after the first one, and the closing brace. -/
def writeMembers (layout : JsonLayout) (depth : Nat) : List (Option String × Json) → List Char
  | [] => layout.lineBreak depth ++ ['}']
  | (key, value) :: members =>
    ',' :: layout.lineBreak (depth + 1) ++ writeString key ++ layout.colon ++
      write layout (depth + 1) value ++ writeMembers layout depth members

end

def compact (j : Json) : String := String.ofList (write .compact 0 j)

def indented (j : Json) : String := String.ofList (write .indented 0 j)

end Json
end ConfigBlock
