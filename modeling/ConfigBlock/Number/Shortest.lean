import ConfigBlock.Number.Double

/-!
# The fewest digits that read back

Every finite double lies closest to itself among the doubles, so a decimal close enough
to it reads back as the same double. `shortest` looks for one on coarser grids first: on
the grid of `n` leading digits only the two points around the exact value need a test.
Two points that both read back are told apart by their distance, and an exact tie by the
rule that the caller brings.
-/

namespace ConfigBlock

/-- The number `digits * 10 ^ exponent`. -/
structure Decimal where
  digits : Nat
  exponent : Int
  deriving DecidableEq, Repr

/-- Which of two equally near decimals is taken. -/
inductive TieRule where
  | up
  | toEven
  deriving DecidableEq, Repr

namespace TieRule

/-- Whether `lower + 1` is preferred to `lower`. -/
def prefersUpper : TieRule → Nat → Bool
  | .up, _ => true
  | .toEven, lower => lower % 2 == 1

end TieRule

namespace Decimal

/-- The rank of the nearest double. -/
def rank (d : Decimal) : Nat :=
  if 0 ≤ d.exponent then Double.nearestRank (d.digits * powerOfTen d.exponent.toNat) 1
  else Double.nearestRank d.digits (powerOfTen (-d.exponent).toNat)

/-- The same number with no zero at the end of its digits. -/
def stripZeros (d : Decimal) : Decimal :=
  if d.digits % 10 = 0 ∧ 0 < d.digits then stripZeros ⟨d.digits / 10, d.exponent + 1⟩ else d
termination_by d.digits
decreasing_by omega

/-- All digits of the magnitude of a rank. -/
def exact (rank : Nat) : Decimal := ⟨Double.units rank * Nat.pow 5 1074, -1074⟩

/-- How many digits the magnitude of a rank has before the point; zero or negative if the
first digit comes after it. -/
def pointPosition (rank : Nat) : Int :=
  (Nat.toDigits 10 (Double.units rank * powerOfTen 324 / Double.unitsPerOne)).length - 324

/-- The decimal with the given exponent that is nearest to a rank and reads back as it,
if the grid has one. -/
def onGrid? (tie : TieRule) (rank : Nat) (exponent : Int) : Option Decimal :=
  let num := Double.units rank * powerOfTen (-exponent).toNat
  let den := Double.unitsPerOne * powerOfTen exponent.toNat
  let lower : Decimal := ⟨num / den, exponent⟩
  let upper : Decimal := ⟨num / den + 1, exponent⟩
  let upperFirst :=
    den < 2 * (num % den) || (2 * (num % den) = den && tie.prefersUpper lower.digits)
  let choices := if upperFirst then [upper, lower] else [lower, upper]
  choices.find? fun d => d.rank = rank

/-- The shortest decimal that reads back as a positive rank. Seventeen digits always
suffice, so the exact form is never needed. -/
def shortest (tie : TieRule) (rank : Nat) : Decimal :=
  let point := pointPosition rank
  let found := (List.range 17).findSome? fun n : Nat => onGrid? tie rank (point - (n + 1))
  (found.getD (exact rank)).stripZeros

theorem onGrid?_rank {tie : TieRule} {rank : Nat} {exponent : Int} {d : Decimal}
    (h : onGrid? tie rank exponent = some d) : d.rank = rank := by
  simpa using List.find?_some h

end Decimal
end ConfigBlock
