import ConfigBlock.Json.Tree
import ConfigBlock.Number.Positional
import ConfigBlock.Number.Text

/-!
# Numbers in JSON

A double is written with the fewest digits that read back, positionally while its leading
digit stands at most five places behind the point or sixteen in front of it, and with an
exponent otherwise. Reading is quicker than it is exact: as many leading digits as fit 64
bits are kept, and the kept integer is scaled by a rounded power of ten.
-/

namespace ConfigBlock
namespace JsonNumeral

/-- The integer a number without point and exponent stands for. Minus zero is none. -/
def int? (n : JsonNumeral) : Option Int :=
  if n.fraction = [] ∧ n.exponent = none ∧ ¬(n.negative = true ∧ n.whole = 0) then
    some (if n.negative then -n.whole else n.whole)
  else none

/-- A run of digits taken into a 64-bit integer as far as they fit: the integer, and the
digits that did not fit. -/
def accumulate (significand : Nat) : List Char → Nat × List Char
  | [] => (significand, [])
  | c :: cs =>
    let next := significand * 10 + (c.toNat - '0'.toNat)
    if next < UInt64.size then accumulate next cs else (significand, c :: cs)

/-- The kept digits as an integer, and the power of ten that scales it. Digits of the whole
part that do not fit still count as places; those of the fraction are dropped. -/
def significand (n : JsonNumeral) : Nat × Int :=
  let whole := accumulate 0 (Nat.toDigits 10 n.whole)
  let fraction := accumulate whole.1 n.fraction
  let places : Int := n.fraction.length - fraction.2.length
  (fraction.1, whole.2.length - places + n.exponent.getD 0)

/-- The largest power of ten that a double can hold. -/
def maxPower : Nat := 308

def powerRank (e : Nat) : Nat := Double.nearestRank (powerOfTen e) 1

def timesRank (r q : Nat) : Nat :=
  Double.nearestRank (Double.units r * Double.units q) (Double.unitsPerOne * Double.unitsPerOne)

def dividedRank (r q : Nat) : Nat := Double.nearestRank (Double.units r) (Double.units q)

/-- Scale a rank by a power of ten, in steps that a double can hold. Too large a result is
refused, too small a one becomes zero. -/
def scale? (rank : Nat) (e : Int) : Option Nat :=
  if e.natAbs ≤ maxPower then
    if 0 ≤ e then
      let scaled := timesRank rank (powerRank e.natAbs)
      if scaled < finiteMagnitudes then some scaled else none
    else some (dividedRank rank (powerRank e.natAbs))
  else if rank = 0 then some 0
  else if 0 ≤ e then none
  else scale? (dividedRank rank (powerRank maxPower)) (e + maxPower)
termination_by e.natAbs
decreasing_by
  simp only [maxPower] at *
  omega

def double? (n : JsonNumeral) : Option Double := do
  let (digits, e) := n.significand
  let rank ← scale? (Double.nearestRank digits 1) e
  pure (.ofRank n.negative rank)

/-- A decimal in the notation that its leading digit asks for. -/
def ofDecimal (negative : Bool) (d : Decimal) : JsonNumeral :=
  let count := (Nat.toDigits 10 d.digits).length
  let lead : Int := count - 1 + d.exponent
  if -5 ≤ lead ∧ lead ≤ 15 then
    ⟨negative, d.whole, if d.fraction = [] then ['0'] else d.fraction, none⟩
  else
    let scaled : Decimal := ⟨d.digits, -(count - 1)⟩
    ⟨negative, scaled.whole, scaled.fraction, some lead⟩

end JsonNumeral

namespace Json

/-- A double; there is no way to write one that is not finite. -/
def ofDouble : Double → Json
  | .finite negative rank =>
    if rank.val = 0 then .number ⟨negative, 0, ['0'], none⟩
    else .number (.ofDecimal negative (.shortest .toEven rank))
  | _ => .null

def int? : Json → Option Int
  | .number n => n.int?
  | _ => none

def double? : Json → Option Double
  | .number n => n.double?
  | _ => none

end Json
end ConfigBlock
