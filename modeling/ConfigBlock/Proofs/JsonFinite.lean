import ConfigBlock.Json.Number
import ConfigBlock.Proofs.ReadBack

/-!
# Numbers read from JSON are finite

The reader of JSON rounds a number more than once, yet it never ends up beyond the finite doubles.
It starts from an integer of 64 bits, scales that up only as far as it stays finite, and scaling
down never leaves the block of ranks it starts in by more than one.
-/

namespace ConfigBlock

theorem roundHalfEven_le (num den : Nat) : roundHalfEven num den ≤ num / den + 1 := by
  unfold roundHalfEven
  split_ifs <;> omega

theorem le_roundHalfEven (num den : Nat) : num / den ≤ roundHalfEven num den := by
  unfold roundHalfEven
  split_ifs <;> omega

namespace Double

theorem mul_shiftLeft_lt {n k : Nat} (h : n < 2 ^ k) (s : Nat) : n * 1 <<< s < 2 ^ (k + s) := by
  rw [Nat.one_shiftLeft, Nat.pow_add]
  exact Nat.mul_lt_mul_of_pos_right h (Nat.two_pow_pos s)

/-- A fraction below a power of two has its nearest rank in the block of that power or below. -/
theorem nearestRank_le {num den k : Nat} (hk : 53 ≤ k) (h : num * unitsPerOne / den < 2 ^ k) :
    nearestRank num den ≤ (k - 51) * 2 ^ 52 := by
  generalize hv : num * unitsPerOne / den = v at h
  have hlog : v.log2 ≤ k - 1 := by
    by_cases hz : v = 0
    · simp [hz]
    · have := (Nat.log2_lt hz).2 h
      omega
  have hquotient : num * unitsPerOne / (den <<< (v.log2 - 52)) < 2 ^ 53 :=
    hv ▸ quotient_lt (num * unitsPerOne) den
  have hround := roundHalfEven_le (num * unitsPerOne) (den <<< (v.log2 - 52))
  simp only [nearestRank, hv, Nat.shiftLeft_eq _ 52]
  calc (v.log2 - 52) * 2 ^ 52 + roundHalfEven (num * unitsPerOne) (den <<< (v.log2 - 52))
      ≤ (k - 53) * 2 ^ 52 + 2 ^ 53 := by
        apply Nat.add_le_add
        · exact Nat.mul_le_mul_right _ (by omega)
        · omega
    _ = (k - 51) * 2 ^ 52 := by omega

theorem units_lt {rank m : Nat} (hm : 1 ≤ m) (h : rank ≤ m * 2 ^ 52) :
    units rank < 2 ^ (52 + m) := by
  obtain ⟨shift, significand, hrank, hunits, hlt, hle⟩ := exists_significand rank
  have hshift : shift + 1 ≤ m := by
    by_cases hs : 0 < shift
    · have := hle hs
      omega
    · omega
  calc units rank = significand * 2 ^ shift := hunits
    _ < 2 ^ 53 * 2 ^ shift := Nat.mul_lt_mul_of_pos_right hlt (Nat.two_pow_pos shift)
    _ = 2 ^ (53 + shift) := (Nat.pow_add 2 53 shift).symm
    _ ≤ 2 ^ (52 + m) := Nat.pow_le_pow_right (by decide) (by omega)

/-- A fraction that reaches a power of two has its nearest rank in the block of that power or
above. -/
theorem le_nearestRank {num den k : Nat} (hk : 52 ≤ k) (h : 2 ^ k ≤ num * unitsPerOne / den) :
    (k - 51) * 2 ^ 52 ≤ nearestRank num den := by
  generalize hv : num * unitsPerOne / den = v at h
  have hpos : v ≠ 0 := by
    have := Nat.two_pow_pos k
    omega
  have hlog : k ≤ v.log2 := (Nat.le_log2 hpos).2 h
  have hquotient : 2 ^ 52 ≤ num * unitsPerOne / (den <<< (v.log2 - 52)) :=
    hv ▸ le_quotient (num * unitsPerOne) den (hv ▸ by omega)
  have hround := le_roundHalfEven (num * unitsPerOne) (den <<< (v.log2 - 52))
  simp only [nearestRank, hv, Nat.shiftLeft_eq _ 52]
  calc (k - 51) * 2 ^ 52 = (k - 52) * 2 ^ 52 + 2 ^ 52 := by omega
    _ ≤ (v.log2 - 52) * 2 ^ 52 + roundHalfEven (num * unitsPerOne) (den <<< (v.log2 - 52)) := by
        apply Nat.add_le_add
        · exact Nat.mul_le_mul_right _ (by omega)
        · omega

theorem le_units {rank m : Nat} (h : (m + 1) * 2 ^ 52 ≤ rank) : 2 ^ (52 + m) ≤ units rank := by
  obtain ⟨shift, significand, hrank, hunits, hlt, hle⟩ := exists_significand rank
  have hshift : m ≤ shift := by omega
  have hfull : 2 ^ 52 ≤ significand := by
    by_cases hs : 0 < shift
    · exact hle hs
    · omega
  calc 2 ^ (52 + m) ≤ 2 ^ (52 + shift) := Nat.pow_le_pow_right (by decide) (by omega)
    _ = 2 ^ 52 * 2 ^ shift := Nat.pow_add 2 52 shift
    _ ≤ significand * 2 ^ shift := Nat.mul_le_mul_right _ hfull
    _ = units rank := hunits.symm

end Double

namespace JsonNumeral

open Double (units unitsPerOne)

/-- Dividing by at least `2 ^ j` leads `j` blocks down, but for one block lost in rounding. -/
theorem dividedRank_le {r q m j : Nat} (hj : j < m) (hr : r ≤ m * 2 ^ 52)
    (hq : unitsPerOne * 2 ^ j ≤ units q) : dividedRank r q ≤ (m + 1 - j) * 2 ^ 52 := by
  have hquotient : units r * unitsPerOne / units q < 2 ^ (52 + m - j) := by
    calc units r * unitsPerOne / units q
        ≤ units r * unitsPerOne / (unitsPerOne * 2 ^ j) :=
          Nat.div_le_div_left hq (Nat.mul_pos Double.unitsPerOne_pos (Nat.two_pow_pos j))
      _ = units r / 2 ^ j := by
          rw [Nat.mul_comm, Nat.mul_div_mul_left _ _ Double.unitsPerOne_pos]
      _ < 2 ^ (52 + m - j) := by
          rw [Nat.div_lt_iff_lt_mul (Nat.two_pow_pos j), ← Nat.pow_add,
            Nat.sub_add_cancel (by omega)]
          exact Double.units_lt (by omega) hr
  have hrank := Double.nearestRank_le (by omega) hquotient
  have hblocks : 52 + m - j - 51 = m + 1 - j := by omega
  rwa [hblocks] at hrank

/-- A power of ten that reaches `2 ^ j` is rounded to a rank that does, too. -/
theorem two_pow_le_powerRank {e j : Nat} (h : 2 ^ j ≤ powerOfTen e) :
    unitsPerOne * 2 ^ j ≤ units (powerRank e) := by
  have hscale (s : Nat) : 2 ^ j * 1 <<< s = 2 ^ (j + s) := by
    rw [Nat.one_shiftLeft, Nat.pow_add]
  have hscaled : 2 ^ (j + 1074) ≤ powerOfTen e * unitsPerOne / 1 := by
    rw [Nat.div_one, ← hscale 1074]
    exact Nat.mul_le_mul_right _ h
  have hrank := Double.le_nearestRank (by omega) hscaled
  have hblocks : j + 1074 - 51 = j + 1022 + 1 := by omega
  rw [hblocks] at hrank
  have hunits := Double.le_units hrank
  have hplaces : 52 + (j + 1022) = j + 1074 := by omega
  rw [hplaces, ← hscale 1074, Nat.mul_comm] at hunits
  exact hunits

theorem two_le_powerOfTen {e : Nat} (h : 1 ≤ e) : 2 ^ 1 ≤ powerOfTen e :=
  calc 2 ^ 1 ≤ 10 ^ 1 := by decide
    _ ≤ powerOfTen e := Nat.pow_le_pow_right (by decide) h

/-- The block of ranks that holds the integers of 64 bits. -/
def topBlock : Nat := 64 + 1074 - 51

theorem scale?_lt {rank r : Nat} {e : Int} (hrank : rank ≤ topBlock * 2 ^ 52)
    (h : scale? rank e = some r) : r < finiteMagnitudes := by
  have hlimit : finiteMagnitudes = 2047 * 2 ^ 52 := Nat.shiftLeft_eq 2047 52
  fun_induction scale? rank e with
  | case1 rank e hsmall hup scaled hfinite =>
    obtain rfl : scaled = r := Option.some.inj h
    exact hfinite
  | case2 => simp at h
  | case3 rank e hsmall hdown =>
    obtain rfl : dividedRank rank (powerRank e.natAbs) = r := Option.some.inj h
    have hone : 2 ^ 0 ≤ powerOfTen e.natAbs := Nat.pow_pos (by decide)
    have hle := dividedRank_le (by decide) hrank (two_pow_le_powerRank hone)
    have hblock : topBlock + 1 - 0 < 2047 := by decide
    omega
  | case4 =>
    obtain rfl : 0 = r := Option.some.inj h
    omega
  | case5 => simp at h
  | case6 rank e hlarge hzero hdown ih =>
    have htwo := two_le_powerOfTen (e := maxPower) (by decide)
    have hle := dividedRank_le (by decide) hrank (two_pow_le_powerRank htwo)
    rw [Nat.add_sub_cancel] at hle
    exact ih hle h

theorem accumulate_lt {significand : Nat} (h : significand < UInt64.size) (cs : List Char) :
    (accumulate significand cs).1 < UInt64.size := by
  induction cs generalizing significand with
  | nil => exact h
  | cons c cs ih =>
    rw [accumulate]
    split_ifs with hnext
    · exact ih hnext
    · exact h

theorem significand_lt (n : JsonNumeral) : n.significand.1 < UInt64.size :=
  accumulate_lt (accumulate_lt (by decide) _) _

theorem nearestRank_significand_le (n : JsonNumeral) :
    Double.nearestRank n.significand.1 1 ≤ topBlock * 2 ^ 52 := by
  have hscaled : n.significand.1 * unitsPerOne / 1 < 2 ^ (64 + 1074) := by
    rw [Nat.div_one]
    exact Double.mul_shiftLeft_lt n.significand_lt 1074
  exact Double.nearestRank_le (by decide) hscaled

theorem isFinite_of_double? {n : JsonNumeral} {d : Double} (h : n.double? = some d) :
    d.isFinite = true := by
  obtain ⟨rank, hscale, hd⟩ := Option.bind_eq_some_iff.1 h
  obtain rfl : Double.ofRank n.negative rank = d := Option.some.inj hd
  rw [Double.ofRank_of_lt (scale?_lt n.nearestRank_significand_le hscale)]
  rfl

end JsonNumeral

theorem Json.isFinite_of_double? {j : Json} {d : Double} (h : j.double? = some d) :
    d.isFinite = true := by
  cases j with
  | number n => exact JsonNumeral.isFinite_of_double? h
  | _ => simp [double?] at h

end ConfigBlock
