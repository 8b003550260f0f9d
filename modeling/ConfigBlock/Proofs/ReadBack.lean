import ConfigBlock.Proofs.Form.Numeral
import ConfigBlock.Value.Printer
import Mathlib.Tactic.Ring

/-!
# Printed numbers read back

The rank nearest to a fraction depends on the value of the fraction alone, and the rank nearest
to the magnitude of a rank is that rank. A decimal form is therefore read as the rank it was
chosen for, whichever grid it was found on, and zeros at its end do not matter. It follows that
every integer and every finite double is printed as a numeral whose value it is, with the sign
of a zero kept.
-/

namespace ConfigBlock

theorem powerOfTen_succ (n : Nat) : powerOfTen (n + 1) = powerOfTen n * 10 := rfl

theorem powerOfTen_eq_shiftLeft (n : Nat) : powerOfTen n = 1 <<< n * Nat.pow 5 n := by
  rw [Nat.shiftLeft_eq, Nat.one_mul]
  exact Nat.mul_pow 2 5 n

theorem roundHalfEven_mul_right (num den : Nat) {k : Nat} (hk : 0 < k) :
    roundHalfEven (num * k) (den * k) = roundHalfEven num den := by
  unfold roundHalfEven
  rw [Nat.mul_mod_mul_right, Nat.mul_div_mul_right _ _ hk, ← Nat.mul_assoc]
  simp only [Nat.mul_lt_mul_right hk]

theorem roundHalfEven_mul_self (n : Nat) {den : Nat} (h : 0 < den) :
    roundHalfEven (n * den) den = n := by
  simp [roundHalfEven, h]

namespace Double

theorem unitsPerOne_pos : 0 < unitsPerOne := by
  have hpos (n : Nat) : 0 < 1 <<< n := by
    rw [Nat.one_shiftLeft]
    exact Nat.two_pow_pos n
  exact hpos 1074

/-- Only the value of a fraction counts for its nearest rank. -/
theorem nearestRank_mul_right (num den : Nat) {k : Nat} (hk : 0 < k) :
    nearestRank (num * k) (den * k) = nearestRank num den := by
  have hnum : num * k * unitsPerOne = num * unitsPerOne * k := Nat.mul_right_comm ..
  have hden (shift : Nat) : (den * k) <<< shift = den <<< shift * k := by
    rw [Nat.shiftLeft_eq, Nat.shiftLeft_eq, Nat.mul_right_comm]
  simp only [nearestRank, hnum, hden, Nat.mul_div_mul_right _ _ hk, roundHalfEven_mul_right _ _ hk]

/-- A rank is a block and a place in it, and from the second block on the place is a full
significand. -/
theorem exists_significand (rank : Nat) :
    ∃ shift significand, rank = shift * 2 ^ 52 + significand ∧
      units rank = significand * 2 ^ shift ∧ significand < 2 ^ 53 ∧
        (0 < shift → 2 ^ 52 ≤ significand) := by
  refine ⟨rank / 2 ^ 52 - 1, rank - (rank / 2 ^ 52 - 1) * 2 ^ 52, ?_, ?_, ?_, ?_⟩
  · omega
  · simp only [units, Nat.shiftRight_eq_div_pow, Nat.shiftLeft_eq]
  · omega
  · omega

/-- What is rounded to a place in its block is below the end of the block. -/
theorem quotient_lt (num den : Nat) :
    num / (den <<< ((num / den).log2 - 52)) < 2 ^ 53 := by
  rw [Nat.shiftLeft_eq, ← Nat.div_div_eq_div_mul, Nat.div_lt_iff_lt_mul (Nat.two_pow_pos _),
    ← Nat.pow_add]
  exact Nat.lt_of_lt_of_le Nat.lt_log2_self (Nat.pow_le_pow_right (by decide) (by omega))

theorem le_quotient (num den : Nat) (h : 52 ≤ (num / den).log2) :
    2 ^ 52 ≤ num / (den <<< ((num / den).log2 - 52)) := by
  have hpos : num / den ≠ 0 := by
    intro hz
    simp [hz] at h
  rw [Nat.shiftLeft_eq, ← Nat.div_div_eq_div_mul, Nat.le_div_iff_mul_le (Nat.two_pow_pos _),
    ← Nat.pow_add, Nat.add_sub_cancel' h]
  exact Nat.log2_self_le hpos

theorem log2_significand {shift significand : Nat} (hlt : significand < 2 ^ 53)
    (hle : 0 < shift → 2 ^ 52 ≤ significand) :
    (significand * 2 ^ shift).log2 - 52 = shift := by
  by_cases hs : 0 < shift
  · have hfull := hle hs
    have hpow : 0 < 2 ^ shift := Nat.two_pow_pos shift
    have hlog : (significand * 2 ^ shift).log2 = 52 + shift := by
      rw [Nat.log2_eq_iff (Nat.mul_ne_zero (by omega) (by omega))]
      constructor
      · rw [Nat.pow_add]
        exact Nat.mul_le_mul_right _ hfull
      · rw [Nat.add_right_comm, Nat.pow_add]
        exact Nat.mul_lt_mul_of_pos_right hlt hpow
    omega
  · obtain rfl : shift = 0 := by omega
    by_cases hz : significand = 0
    · simp [hz]
    · have hlog : significand.log2 < 53 := (Nat.log2_lt hz).2 hlt
      rw [Nat.pow_zero, Nat.mul_one]
      omega

theorem nearestRank_units (rank : Nat) : nearestRank (units rank) unitsPerOne = rank := by
  obtain ⟨shift, significand, hrank, hunits, hlt, hle⟩ := exists_significand rank
  have hpos : 0 < unitsPerOne * 2 ^ shift :=
    Nat.mul_pos unitsPerOne_pos (Nat.two_pow_pos shift)
  have hscaled : significand * 2 ^ shift * unitsPerOne =
      significand * (unitsPerOne * 2 ^ shift) := by ring
  simp only [nearestRank, hunits, Nat.mul_div_cancel _ unitsPerOne_pos, log2_significand hlt hle,
    Nat.shiftLeft_eq]
  rw [hscaled, roundHalfEven_mul_self _ hpos]
  exact hrank.symm

end Double

namespace Decimal

theorem rank_eq (d : Decimal) : d.rank =
    Double.nearestRank (d.digits * powerOfTen d.exponent.toNat) (powerOfTen d.places) := by
  unfold rank places
  split_ifs with h
  · obtain hz : (-d.exponent).toNat = 0 := by omega
    rw [hz]
    rfl
  · obtain hz : d.exponent.toNat = 0 := by omega
    rw [hz]
    simp [powerOfTen]

theorem nearestRank_powerOfTen (num n : Nat) :
    Double.nearestRank (num * Nat.pow 5 n) (powerOfTen n) = Double.nearestRank num (1 <<< n) := by
  have hpos : 0 < Nat.pow 5 n := Nat.pow_pos (by decide)
  rw [powerOfTen_eq_shiftLeft, Double.nearestRank_mul_right _ _ hpos]

theorem rank_exact (rank : Nat) : (exact rank).rank = rank := by
  -- Under a variable the power of five stays as it is, while that of a number is worked out.
  obtain ⟨n, hdigits, hn⟩ :
      ∃ n : Nat, (exact rank).digits = Double.units rank * Nat.pow 5 n ∧ n = 1074 := ⟨_, rfl, rfl⟩
  have hplaces : (exact rank).places = n := hn.symm ▸ rfl
  have hden : Double.unitsPerOne = 1 <<< n := hn.symm ▸ rfl
  have hup : powerOfTen (exact rank).exponent.toNat = 1 := rfl
  rw [rank_eq, hplaces, hup, hdigits, Nat.mul_one, nearestRank_powerOfTen, ← hden]
  exact Double.nearestRank_units rank

/-- A zero dropped from the digits and counted in the exponent changes nothing. -/
theorem rank_div_ten {d : Decimal} (h : d.digits % 10 = 0) :
    rank ⟨d.digits / 10, d.exponent + 1⟩ = d.rank := by
  obtain ⟨digits, exponent⟩ := d
  obtain ⟨n, rfl⟩ := Nat.dvd_of_mod_eq_zero h
  rw [rank_eq, rank_eq, Nat.mul_div_cancel_left n (by decide)]
  dsimp only [places]
  by_cases he : 0 ≤ exponent
  · have hup : (exponent + 1).toNat = exponent.toNat + 1 := by omega
    have hzero : (-(exponent + 1)).toNat = 0 ∧ (-exponent).toNat = 0 := by omega
    rw [hzero.1, hzero.2, hup, powerOfTen_succ]
    congr 1
    ring
  · have hdown : (-exponent).toNat = (-(exponent + 1)).toNat + 1 := by omega
    have hzero : (exponent + 1).toNat = 0 ∧ exponent.toNat = 0 := by omega
    rw [hzero.1, hzero.2, hdown, powerOfTen_succ, Nat.mul_comm 10 n, Nat.mul_right_comm]
    exact (Double.nearestRank_mul_right _ _ (by decide)).symm

theorem rank_stripZeros (d : Decimal) : d.stripZeros.rank = d.rank := by
  fun_induction stripZeros d with
  | case1 d h ih => rw [ih, rank_div_ten h.1]
  | case2 d h => rfl

theorem rank_shortest (tie : TieRule) (rank : Nat) : (shortest tie rank).rank = rank := by
  unfold shortest
  rw [rank_stripZeros]
  rcases hfound : (List.range 17).findSome? fun n : Nat =>
      onGrid? tie rank (pointPosition rank - (n + 1)) with _ | d
  · exact rank_exact rank
  · obtain ⟨n, -, hgrid⟩ := List.exists_of_findSome?_eq_some hfound
    exact onGrid?_rank hgrid

end Decimal

namespace NumberText

theorem digitsValue_append_digit (ds : List Char) {n : Nat} (h : n < 10) :
    digitsValue (ds ++ [n.digitChar]) = 10 * digitsValue ds + n := by
  rw [digitsValue, Nat.ofDigitChars_append, Nat.ofDigitChars_cons_digitChar_of_lt_ten h]
  rfl

theorem digitsValue_lastDigits (count n : Nat) :
    digitsValue (Nat.toDigits 10 (n / powerOfTen count) ++ lastDigits count n) = n := by
  induction count generalizing n with
  | zero => simp [lastDigits, powerOfTen]
  | succ count ih =>
    have hfront : n / powerOfTen (count + 1) = n / 10 / powerOfTen count := by
      rw [powerOfTen_succ, Nat.mul_comm, Nat.div_div_eq_div_mul]
    rw [lastDigits, hfront, ← List.append_assoc, digitsValue_append_digit _ (by omega), ih]
    omega

end NumberText

namespace Decimal

theorem digitsValue_whole_fraction (d : Decimal) :
    NumberText.digitsValue (Nat.toDigits 10 d.whole ++ d.fraction) =
      d.digits * powerOfTen d.exponent.toNat := by
  by_cases h : 0 ≤ d.exponent
  · have hz : d.places = 0 := by
      unfold places
      omega
    simp [whole, fraction, hz, lastDigits, powerOfTen]
  · have hz : d.exponent.toNat = 0 := by omega
    have hone : d.digits * powerOfTen d.exponent.toNat = d.digits := by simp [hz, powerOfTen]
    rw [whole, fraction, hone]
    exact NumberText.digitsValue_lastDigits _ _

end Decimal

namespace Numeral

theorem isDigit_digitChar {n : Nat} (h : n < 10) : CharClass.isDigit n.digitChar = true := by
  have hall : ∀ m < 10, CharClass.isDigit (Nat.digitChar m) = true := by decide
  exact hall n h

theorem allDigits_toDigits (n : Nat) : AllDigits (Nat.toDigits 10 n) := by
  induction n using Nat.strongRecOn with
  | ind n ih =>
    by_cases h : n < 10
    · simp [AllDigits, Nat.toDigits_of_lt_base h, isDigit_digitChar h]
    · rw [Nat.toDigits_of_base_le (by decide) (by omega)]
      intro c hc
      rcases List.mem_append.1 hc with hc | hc
      · exact ih (n / 10) (by omega) c hc
      · obtain rfl : c = (n % 10).digitChar := by simpa using hc
        exact isDigit_digitChar (by omega)

theorem allDigits_lastDigits (count n : Nat) : AllDigits (lastDigits count n) := by
  induction count generalizing n with
  | zero => simp [AllDigits, lastDigits]
  | succ count ih =>
    intro c hc
    rcases List.mem_append.1 hc with hc | hc
    · exact ih (n / 10) c hc
    · obtain rfl : c = (n % 10).digitChar := by simpa using hc
      exact isDigit_digitChar (by omega)

def Sign.ofNegative (negative : Bool) : Sign := if negative then .minus else .absent

@[simp] theorem Sign.negative_ofNegative (negative : Bool) :
    (Sign.ofNegative negative).negative = negative := by
  cases negative <;> rfl

theorem exists_form_of_integer (n : Int64) :
    ∃ f : Form, f.text = NumberText.ofInteger n ∧ f.value = .integer n := by
  have hsign : (Sign.ofNegative (n.toInt < 0)).apply n.toInt.natAbs = n.toInt := by
    rw [Sign.apply, Sign.negative_ofNegative]
    by_cases h : n.toInt < 0
    · rw [if_pos (decide_eq_true h)]
      omega
    · rw [if_neg (by simpa using h)]
      omega
  have hfits : FitsInt64 n.toInt := ⟨Int64.minValue_le_toInt n, Int64.toInt_le n⟩
  refine ⟨⟨.ofNegative (n.toInt < 0), Nat.toDigits 10 n.toInt.natAbs, none, allDigits_toDigits _,
    by simp, fun _ => ⟨Nat.toDigits_ne_nil, ?_⟩⟩, ?_, ?_⟩
  · rw [NumberText.digitsValue_toDigits, hsign]
    exact hfits
  · by_cases h : n.toInt < 0
    · simp [Form.text, NumberText.ofInteger, h, Sign.ofNegative, Sign.text, fractionText]
    · simp [Form.text, NumberText.ofInteger, h, Sign.ofNegative, Sign.text, fractionText]
  · simp [Form.value, hsign]

/-- The digits of a magnitude around its point, read as the rank they were printed for. -/
theorem exists_digits_of_printMagnitude (rank : Nat) :
    ∃ whole fraction, Double.printMagnitude rank = whole ++ '.' :: fraction ∧
      AllDigits whole ∧ AllDigits fraction ∧
        Double.nearestRank (NumberText.digitsValue (whole ++ fraction))
          (powerOfTen fraction.length) = rank := by
  unfold Double.printMagnitude
  split_ifs with h
  · obtain ⟨n, hn⟩ := Nat.dvd_of_mod_eq_zero h
    have hdiv : Double.units rank / Double.unitsPerOne = n := by
      rw [hn, Nat.mul_div_cancel_left n Double.unitsPerOne_pos]
    refine ⟨Nat.toDigits 10 n, ['0'], by rw [hdiv], allDigits_toDigits n, by
      simp [AllDigits]; decide, ?_⟩
    have hvalue : NumberText.digitsValue (Nat.toDigits 10 n ++ ['0']) = n * 10 := by
      have hdigit := NumberText.digitsValue_append_digit (Nat.toDigits 10 n) (n := 0) (by decide)
      rw [NumberText.digitsValue_toDigits] at hdigit
      rw [Nat.mul_comm]
      exact hdigit
    have hten : powerOfTen 1 = 1 * 10 := rfl
    rw [hvalue, List.length_singleton, hten, Double.nearestRank_mul_right _ _ (by decide),
      ← Double.nearestRank_mul_right _ _ Double.unitsPerOne_pos, Nat.one_mul, Nat.mul_comm n, ← hn,
      Double.nearestRank_units]
  · refine ⟨_, _, rfl, allDigits_toDigits _, allDigits_lastDigits _ _, ?_⟩
    rw [Decimal.digitsValue_whole_fraction, Decimal.length_fraction, ← Decimal.rank_eq,
      Decimal.rank_shortest]

theorem exists_form_of_finite (negative : Bool) (rank : Fin finiteMagnitudes) :
    ∃ f : Form, f.text = (Double.finite negative rank).print ∧
      f.value = .double (.finite negative rank) := by
  obtain ⟨whole, fraction, hprint, hwhole, hfraction, hrank⟩ :=
    exists_digits_of_printMagnitude rank
  refine ⟨⟨.ofNegative negative, whole, some fraction, hwhole, ?_, by simp⟩, ?_, ?_⟩
  · intro ds hds
    obtain rfl : fraction = ds := by simpa using hds
    exact hfraction
  · cases negative <;>
      simp [Form.text, Double.print, hprint, Sign.ofNegative, Sign.text, fractionText]
  · simp [Form.value, NumberText.decimal, Double.ofRatio, hrank]

end Numeral
end ConfigBlock
