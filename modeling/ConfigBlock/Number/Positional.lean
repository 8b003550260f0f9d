import ConfigBlock.Number.Shortest

/-!
# Positional notation

The digits of a decimal before and after its point. The fraction has exactly as many
digits as the negative exponent asks for, so no digit is lost and none is added.
-/

namespace ConfigBlock

/-- The last `count` decimal digits of a number, with zeros in front if it has fewer. -/
def lastDigits : Nat → Nat → List Char
  | 0, _ => []
  | count + 1, n => lastDigits count (n / 10) ++ [Nat.digitChar (n % 10)]

@[simp] theorem length_lastDigits (count n : Nat) : (lastDigits count n).length = count := by
  induction count generalizing n with
  | zero => rfl
  | succ count ih => simp [lastDigits, ih]

namespace Decimal

def places (d : Decimal) : Nat := (-d.exponent).toNat

def whole (d : Decimal) : Nat :=
  d.digits * powerOfTen d.exponent.toNat / powerOfTen d.places

def fraction (d : Decimal) : List Char := lastDigits d.places d.digits

@[simp] theorem length_fraction (d : Decimal) : d.fraction.length = d.places := by
  simp [fraction]

end Decimal
end ConfigBlock
