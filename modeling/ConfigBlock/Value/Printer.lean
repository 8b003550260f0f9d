import ConfigBlock.Number.Positional
import ConfigBlock.Number.Text
import ConfigBlock.Value.Basic

/-!
# Printing values

Every value has one canonical form. Bare text is printed as a literal. In a literal only
the quote is escaped; a backslash is written as it is. A number always shows a point, and
never an exponent: a whole number is printed with all its digits, any other one with the
fewest digits that read back.
-/

namespace ConfigBlock

/-- Put a backslash in front of every quote. -/
def escape (text : List Char) : List Char :=
  text.flatMap fun c => if c = '"' then ['\\', '"'] else [c]

namespace Double

def printMagnitude (rank : Nat) : List Char :=
  if units rank % unitsPerOne = 0 then
    Nat.toDigits 10 (units rank / unitsPerOne) ++ ['.', '0']
  else
    let d := Decimal.shortest .up rank
    Nat.toDigits 10 d.whole ++ '.' :: d.fraction

def print : Double → List Char
  | .finite negative rank => if negative then '-' :: printMagnitude rank else printMagnitude rank
  | .infinite negative => if negative then "-inf".toList else "inf".toList
  | .nan => "NaN".toList

end Double

namespace Value

def printQuoted (s : String) : List Char := '"' :: escape s.toList ++ ['"']

def print : Value → List Char
  | .text s => printQuoted s
  | .quoted s => printQuoted s
  | .integer n => NumberText.ofInteger n
  | .number d => d.print
  | .boolean b => if b then "true".toList else "false".toList
  | .env name => "env(".toList ++ printQuoted name ++ [')']

end Value

@[simp] theorem escape_quote (cs : List Char) : escape ('"' :: cs) = '\\' :: '"' :: escape cs := rfl

theorem escape_cons_of_ne {c : Char} (h : c ≠ '"') (cs : List Char) :
    escape (c :: cs) = c :: escape cs := by
  simp [escape, h]

end ConfigBlock
