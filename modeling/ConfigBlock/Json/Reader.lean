import ConfigBlock.Json.Tree
import ConfigBlock.Number.Text

/-!
# Reading JSON

The reader accepts a single JSON value between white space. Every function takes the
unread text and gives what it found with the text behind it. Values nest, so the main
functions carry a bound on how many of them may call each other; `read?` starts with a
bound that no text of the given length can use up.
-/

namespace ConfigBlock
namespace Json

def isBlank (c : Char) : Bool := c == ' ' || c == '\n' || c == '\t' || c == '\r'

def skipBlanks (cs : List Char) : List Char := cs.dropWhile isBlank

/-- The text behind `word`, if it starts the text. -/
def keyword? (word cs : List Char) : Option (List Char) :=
  if word.isPrefixOf cs then some (cs.drop word.length) else none

/-- A part of a string: a character, or a UTF-16 unit given by its number. -/
inductive Piece where
  | char (c : Char)
  | unit (n : Nat)
  deriving DecidableEq, Repr

def hexValue? (c : Char) : Option Nat :=
  if '0' ≤ c ∧ c ≤ '9' then some (c.toNat - '0'.toNat)
  else if 'a' ≤ c ∧ c ≤ 'f' then some (c.toNat - 'a'.toNat + 10)
  else if 'A' ≤ c ∧ c ≤ 'F' then some (c.toNat - 'A'.toNat + 10)
  else none

/-- The character that a backslash and `c` stand for. -/
def unescape? (c : Char) : Option Char :=
  if c = '"' ∨ c = '\\' ∨ c = '/' then some c
  else if c = 'b' then some '\x08'
  else if c = 'f' then some '\x0c'
  else if c = 'n' then some '\n'
  else if c = 'r' then some '\r'
  else if c = 't' then some '\t'
  else none

/-- Read the parts of a string up to its closing quote and step over that quote. -/
def pieces? : List Char → Option (List Piece × List Char)
  | [] => none
  | '"' :: cs => some ([], cs)
  | '\\' :: 'u' :: a :: b :: c :: d :: cs => do
    let n := (← hexValue? a) * 4096 + (← hexValue? b) * 256 + (← hexValue? c) * 16 + (← hexValue? d)
    let (ps, rest) ← pieces? cs
    pure (.unit n :: ps, rest)
  | '\\' :: c :: cs => do
    let escaped ← unescape? c
    let (ps, rest) ← pieces? cs
    pure (.char escaped :: ps, rest)
  | c :: cs => do
    if c.toNat < 32 ∨ c = '\\' then none
    else
      let (ps, rest) ← pieces? cs
      pure (.char c :: ps, rest)

def isHighSurrogate (n : Nat) : Bool := 0xD800 ≤ n && n ≤ 0xDBFF

def isLowSurrogate (n : Nat) : Bool := 0xDC00 ≤ n && n ≤ 0xDFFF

/-- The text that the parts of a string make up. Half of a surrogate pair is no text. -/
def decode? : List Piece → Option (List Char)
  | [] => some []
  | .char c :: ps => do pure (c :: (← decode? ps))
  | .unit n :: .unit m :: ps =>
    if isHighSurrogate n then
      if isLowSurrogate m then do
        pure (Char.ofNat (0x10000 + (n - 0xD800) * 1024 + (m - 0xDC00)) :: (← decode? ps))
      else none
    else if isLowSurrogate n then none
    else do pure (Char.ofNat n :: (← decode? (.unit m :: ps)))
  | .unit n :: ps =>
    if isHighSurrogate n || isLowSurrogate n then none
    else do pure (Char.ofNat n :: (← decode? ps))

def string? (cs : List Char) : Option (Option String × List Char) := do
  let (ps, rest) ← pieces? cs
  pure ((decode? ps).map String.ofList, rest)

def digits? (cs : List Char) : Option (List Char × List Char) :=
  let run := cs.takeWhile CharClass.isDigit
  if run = [] then none else some (run, cs.dropWhile CharClass.isDigit)

/-- Read the whole part of a number, which has no zero in front of another digit. -/
def whole? (cs : List Char) : Option (Nat × List Char) := do
  let (run, rest) ← digits? cs
  if run.head? = some '0' ∧ run.length ≠ 1 then none
  else pure (NumberText.digitsValue run, rest)

def fraction? : List Char → Option (List Char × List Char)
  | '.' :: cs => digits? cs
  | cs => some ([], cs)

def exponentDigits? (cs : List Char) : Option (Option Int × List Char) := do
  let (negative, unsigned) := NumberText.splitSign cs
  let (run, rest) ← digits? unsigned
  let n : Int := NumberText.digitsValue run
  pure (some (if negative then -n else n), rest)

def exponent? : List Char → Option (Option Int × List Char)
  | 'e' :: cs => exponentDigits? cs
  | 'E' :: cs => exponentDigits? cs
  | cs => some (none, cs)

def unsigned? (negative : Bool) (cs : List Char) : Option (Json × List Char) := do
  let (whole, cs) ← whole? cs
  let (fraction, cs) ← fraction? cs
  let (exponent, cs) ← exponent? cs
  pure (.number ⟨negative, whole, fraction, exponent⟩, cs)

mutual

/-- Read a value; blanks in front of it are already gone. -/
def value? : Nat → List Char → Option (Json × List Char)
  | 0, _ => none
  | bound + 1, cs =>
    match cs with
    | [] => none
    | '"' :: cs => do
      let (s, rest) ← string? cs
      pure (.string s, rest)
    | '[' :: cs =>
      match skipBlanks cs with
      | ']' :: rest => some (.array [], rest)
      | cs => do
        let (items, rest) ← items? bound cs
        pure (.array items, rest)
    | '{' :: cs =>
      match skipBlanks cs with
      | '}' :: rest => some (.object [], rest)
      | cs => do
        let (members, rest) ← members? bound cs
        pure (.object members, rest)
    | 'n' :: cs => do pure (.null, ← keyword? "ull".toList cs)
    | 't' :: cs => do pure (.bool true, ← keyword? "rue".toList cs)
    | 'f' :: cs => do pure (.bool false, ← keyword? "alse".toList cs)
    | '-' :: cs => unsigned? true cs
    | cs => unsigned? false cs

/-- Read the items of an array, of which there is at least one, and its closing bracket. -/
def items? : Nat → List Char → Option (List Json × List Char)
  | 0, _ => none
  | bound + 1, cs => do
    let (item, rest) ← value? bound cs
    match skipBlanks rest with
    | ']' :: rest => pure ([item], rest)
    | ',' :: rest =>
      let (items, rest) ← items? bound (skipBlanks rest)
      pure (item :: items, rest)
    | _ => none

/-- Read the members of an object, of which there is at least one, and its closing brace. -/
def members? : Nat → List Char → Option (List (Option String × Json) × List Char)
  | 0, _ => none
  | bound + 1, cs =>
    match cs with
    | '"' :: cs => do
      let (key, rest) ← string? cs
      match skipBlanks rest with
      | ':' :: rest =>
        let (value, rest) ← value? bound (skipBlanks rest)
        match skipBlanks rest with
        | '}' :: rest => pure ([(key, value)], rest)
        | ',' :: rest =>
          let (members, rest) ← members? bound (skipBlanks rest)
          pure ((key, value) :: members, rest)
        | _ => none
      | _ => none
    | _ => none

end

/-- Read a text that holds one value and white space around it. -/
def read? (text : String) : Option Json :=
  let cs := text.toList
  match value? (2 * cs.length + 2) (skipBlanks cs) with
  | some (j, rest) => if skipBlanks rest = [] then some j else none
  | none => none

end Json
end ConfigBlock
