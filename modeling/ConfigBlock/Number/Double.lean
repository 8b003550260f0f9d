/-!
# Binary floating-point numbers

A finite double is a sign and the rank of its magnitude among all finite magnitudes:
rank zero is zero and the next rank is the next larger number. The ranks are exactly
the bit patterns below the sign, so consecutive patterns stand for consecutive numbers.
Magnitudes are measured in units of `2 ^ -1074`, the smallest positive one, which makes
every finite magnitude a natural number and every rounding an integer division.
-/

namespace ConfigBlock

/-- The nearest natural number to `num / den`; of two equally near the even one. -/
def roundHalfEven (num den : Nat) : Nat :=
  if 2 * (num % den) < den then num / den
  else if den < 2 * (num % den) then num / den + 1
  else num / den + num / den % 2

def powerOfTen (n : Nat) : Nat := Nat.pow 10 n

/-- How many finite magnitudes there are, zero included. -/
def finiteMagnitudes : Nat := 2047 <<< 52

inductive Double where
  | finite (negative : Bool) (rank : Fin finiteMagnitudes)
  | infinite (negative : Bool)
  | nan
  deriving DecidableEq, Repr

namespace Double

def unitsPerOne : Nat := 1 <<< 1074

/-- The magnitude of a rank, in units. The first two blocks of `2 ^ 52` ranks are one
unit apart, and each later block doubles the distance. -/
def units (rank : Nat) : Nat :=
  let shift := (rank >>> 52) - 1
  (rank - (shift <<< 52)) <<< shift

/-- The rank nearest to `num / den`, a half going to the even rank. Ranks from
`finiteMagnitudes` on are too large to be finite. -/
def nearestRank (num den : Nat) : Nat :=
  let scaled := num * unitsPerOne
  let shift := (scaled / den).log2 - 52
  (shift <<< 52) + roundHalfEven scaled (den <<< shift)

def ofRank (negative : Bool) (rank : Nat) : Double :=
  if h : rank < finiteMagnitudes then .finite negative ⟨rank, h⟩ else .infinite negative

/-- The double nearest to a fraction, infinite if that is out of range. -/
def ofRatio (negative : Bool) (num den : Nat) : Double :=
  ofRank negative (nearestRank num den)

def ofInt (n : Int) : Double := ofRatio (n < 0) n.natAbs 1

def isFinite : Double → Bool
  | .finite .. => true
  | _ => false

/-- Numeric equality: the two zeros are equal, and nothing equals an undefined number. -/
def equals : Double → Double → Bool
  | .finite s r, .finite t q => r = q && (s = t || r.val = 0)
  | .infinite s, .infinite t => s = t
  | _, _ => false

def signBit : Nat := 1 <<< 63

def toBits : Double → Nat
  | .finite s r => (if s then signBit else 0) + r.val
  | .infinite s => (if s then signBit else 0) + finiteMagnitudes
  | .nan => finiteMagnitudes + (1 <<< 51)

def ofBits (bits : Nat) : Double :=
  let rank := bits % signBit
  if rank ≤ finiteMagnitudes then ofRank (signBit ≤ bits) rank else .nan

theorem ofRank_of_lt {negative : Bool} {rank : Nat} (h : rank < finiteMagnitudes) :
    ofRank negative rank = .finite negative ⟨rank, h⟩ := by
  simp [ofRank, h]

@[simp] theorem ofRank_val (negative : Bool) (rank : Fin finiteMagnitudes) :
    ofRank negative rank = .finite negative rank :=
  ofRank_of_lt rank.isLt

theorem equals_self_iff (d : Double) : d.equals d = true ↔ d ≠ .nan := by
  cases d <;> simp [equals]

end Double
end ConfigBlock
