import ConfigBlock.Number.Double
import ConfigBlock.Source.CharClass

/-!
# Reading numbers from their digits

Integers are an optional sign and digits, and must fit 64 bits. Doubles may also have a
point with digits on either side of it; they are rounded to the nearest double, however
many digits are given. Neither form has an exponent.
-/

namespace ConfigBlock
namespace NumberText

/-- The number a run of decimal digits stands for. -/
def digitsValue (digits : List Char) : Nat := Nat.ofDigitChars 10 digits 0

/-- Whether the text starts with a minus sign, and what follows the sign if any. -/
def splitSign : List Char → Bool × List Char
  | '-' :: cs => (true, cs)
  | '+' :: cs => (false, cs)
  | cs => (false, cs)

def readInteger? (text : List Char) : Option Int64 :=
  let (negative, digits) := splitSign text
  let magnitude : Int := digitsValue digits
  let n := if negative then -magnitude else magnitude
  if digits ≠ [] ∧ digits.all CharClass.isDigit ∧
      Int64.minValue.toInt ≤ n ∧ n ≤ Int64.maxValue.toInt then
    some (.ofInt n)
  else none

/-- The value of `whole.fraction`, rounded once. -/
def decimal (negative : Bool) (whole fraction : List Char) : Double :=
  .ofRatio negative (digitsValue (whole ++ fraction)) (powerOfTen fraction.length)

def readDouble? (text : List Char) : Option Double :=
  let (negative, unsigned) := splitSign text
  let whole := unsigned.takeWhile CharClass.isDigit
  match unsigned.dropWhile CharClass.isDigit with
  | [] => if whole ≠ [] then some (decimal negative whole []) else none
  | '.' :: fraction =>
    if whole ++ fraction ≠ [] ∧ fraction.all CharClass.isDigit then
      some (decimal negative whole fraction)
    else none
  | _ => none

/-- The plain decimal form of an integer. -/
def ofInteger (n : Int64) : List Char :=
  if n.toInt < 0 then '-' :: Nat.toDigits 10 n.toInt.natAbs else Nat.toDigits 10 n.toInt.natAbs

@[simp] theorem digitsValue_toDigits (n : Nat) : digitsValue (Nat.toDigits 10 n) = n :=
  Nat.ofDigitChars_ten_toDigits

end NumberText
end ConfigBlock
