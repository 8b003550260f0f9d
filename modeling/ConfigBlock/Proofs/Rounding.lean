import ConfigBlock.Proofs.ReadBack
import Mathlib.Algebra.Order.Field.Rat
import Mathlib.Order.Monotone.Basic
import Mathlib.Tactic.FieldSimp
import Mathlib.Tactic.Linarith

/-!
# Correct rounding

The magnitudes of the ranks are an increasing sequence of rational numbers, which goes on beyond
the largest finite double as if exponents had no limit. The rank nearest to a fraction is correct
for it: no magnitude is nearer to the fraction, and of two that are equally near the one of even
rank is taken. These two conditions leave no choice.
-/

namespace ConfigBlock
namespace Double

/-- A block and a place in it are put together. At the end of a block its last place is the first
full place of the next one. -/
theorem units_block {shift significand : Nat} (hle : 0 < shift → 2 ^ 52 ≤ significand)
    (hlt : significand ≤ 2 ^ 53) :
    units (shift * 2 ^ 52 + significand) = significand * 2 ^ shift := by
  simp only [units, Nat.shiftRight_eq_div_pow, Nat.shiftLeft_eq]
  by_cases hfull : significand = 2 ^ 53
  · subst hfull
    have hblock : (shift * 2 ^ 52 + 2 ^ 53) / 2 ^ 52 - 1 = shift + 1 := by omega
    have hplace : shift * 2 ^ 52 + 2 ^ 53 - (shift + 1) * 2 ^ 52 = 2 ^ 52 := by omega
    rw [hblock, hplace, Nat.pow_succ]
    omega
  · have hblock : (shift * 2 ^ 52 + significand) / 2 ^ 52 - 1 = shift := by
      by_cases hs : 0 < shift
      · have := hle hs
        omega
      · omega
    rw [hblock, Nat.add_sub_cancel_left]

theorem units_lt_units_succ (rank : Nat) : units rank < units (rank + 1) := by
  obtain ⟨shift, significand, rfl, hunits, hlt, hle⟩ := exists_significand rank
  have hnext : units (shift * 2 ^ 52 + (significand + 1)) = (significand + 1) * 2 ^ shift :=
    units_block (fun hs => Nat.le_succ_of_le (hle hs)) hlt
  rw [hunits, Nat.add_assoc, hnext]
  exact Nat.mul_lt_mul_of_pos_right (Nat.lt_succ_self _) (Nat.two_pow_pos shift)

/-- The number that a rank stands for. -/
def magnitude (rank : Nat) : ℚ := units rank / unitsPerOne

theorem magnitude_strictMono : StrictMono magnitude := by
  apply strictMono_nat_of_lt_succ
  intro rank
  have hone : (0 : ℚ) < unitsPerOne := Nat.cast_pos.2 unitsPerOne_pos
  exact div_lt_div_of_pos_right (Nat.cast_lt.2 (units_lt_units_succ rank)) hone

/-- The rank is the correct rounding of a number: nearest, and even where another is as near. -/
structure Nearest (x : ℚ) (rank : Nat) : Prop where
  le : ∀ other, |magnitude rank - x| ≤ |magnitude other - x|
  even : ∀ other, other ≠ rank → |magnitude other - x| = |magnitude rank - x| → Even rank

variable {x : ℚ}

theorem abs_sub_lt_of_lt {rank other : Nat} (hrank : magnitude rank ≤ x) (h : other < rank) :
    |magnitude rank - x| < |magnitude other - x| := by
  have hlt := magnitude_strictMono h
  rw [abs_of_nonpos (by linarith), abs_of_nonpos (by linarith)]
  linarith

theorem abs_sub_lt_of_gt {rank other : Nat} (hrank : x ≤ magnitude rank) (h : rank < other) :
    |magnitude rank - x| < |magnitude other - x| := by
  have hlt := magnitude_strictMono h
  rw [abs_of_nonneg (by linarith), abs_of_nonneg (by linarith)]
  linarith

/-- For a number between two consecutive magnitudes, only these two need to be compared. -/
theorem nearest_of_between {lower rank : Nat} (hlower : magnitude lower ≤ x)
    (hupper : x ≤ magnitude (lower + 1)) (hrank : rank = lower ∨ rank = lower + 1)
    (hle : |magnitude rank - x| ≤ |magnitude lower - x| ∧
      |magnitude rank - x| ≤ |magnitude (lower + 1) - x|)
    (htie : |magnitude lower - x| = |magnitude (lower + 1) - x| → Even rank) :
    Nearest x rank := by
  constructor
  · intro other
    rcases Nat.lt_trichotomy other lower with h | rfl | h
    · exact hle.1.trans (abs_sub_lt_of_lt hlower h).le
    · exact hle.1
    · rcases Nat.eq_or_lt_of_le (Nat.succ_le_of_lt h) with rfl | h
      · exact hle.2
      · exact hle.2.trans (abs_sub_lt_of_gt hupper h).le
  · intro other hne hsame
    rcases Nat.lt_trichotomy other lower with h | rfl | h
    · exact absurd hsame (hle.1.trans_lt (abs_sub_lt_of_lt hlower h)).ne'
    · obtain rfl : rank = other + 1 := hrank.resolve_left (Ne.symm hne)
      exact htie hsame
    · rcases Nat.eq_or_lt_of_le (Nat.succ_le_of_lt h) with rfl | h
      · obtain rfl : rank = lower := hrank.resolve_right (Ne.symm hne)
        exact htie hsame.symm
      · exact absurd hsame (hle.2.trans_lt (abs_sub_lt_of_gt hupper h)).ne'

/-- Two correct roundings would both be even, and the rank behind the lower one would be nearer
than either. -/
theorem Nearest.not_lt {r s : Nat} (hr : Nearest x r) (hs : Nearest x s) : ¬r < s := by
  intro hlt
  have hsame : |magnitude s - x| = |magnitude r - x| := le_antisymm (hs.le r) (hr.le s)
  have hreven : Even r := hr.even s hlt.ne' hsame
  have hseven : Even s := hs.even r hlt.ne hsame.symm
  have hgap : r + 1 < s := by
    rcases hreven with ⟨k, rfl⟩
    rcases hseven with ⟨l, rfl⟩
    omega
  have hbelow : magnitude r < magnitude (r + 1) := magnitude_strictMono (Nat.lt_succ_self r)
  have habove : magnitude (r + 1) < magnitude s := magnitude_strictMono hgap
  have hmiddle : magnitude s - x = -(magnitude r - x) := by
    rcases abs_eq_abs.1 hsame with h | h
    · linarith
    · exact h
  have hnearer : |magnitude (r + 1) - x| < |magnitude s - x| := by
    rw [abs_of_pos (by linarith : 0 < magnitude s - x), abs_lt]
    constructor <;> linarith
  have hle := hs.le (r + 1)
  linarith

theorem Nearest.eq {r s : Nat} (hr : Nearest x r) (hs : Nearest x s) : r = s := by
  have h := hr.not_lt hs
  have h' := hs.not_lt hr
  omega

/-- The rank below a fraction, with the distances to it and to the next rank, measured in such
small steps that they are whole numbers. The distances decide which of the two is taken. -/
theorem exists_lower (num : Nat) {den : Nat} (hden : 0 < den) :
    ∃ (lower above gap : Nat) (step : ℚ), 0 < step ∧ above < gap ∧
      (num / den : ℚ) - magnitude lower = above * step ∧
      magnitude (lower + 1) - num / den = (gap - above) * step ∧
      nearestRank num den =
        if 2 * above < gap then lower
        else if gap < 2 * above then lower + 1 else lower + lower % 2 := by
  obtain ⟨shift, hshift⟩ : ∃ shift, (num * unitsPerOne / den).log2 - 52 = shift := ⟨_, rfl⟩
  have hrank : nearestRank num den =
      shift * 2 ^ 52 + roundHalfEven (num * unitsPerOne) (den * 2 ^ shift) := by
    simp only [nearestRank, hshift, Nat.shiftLeft_eq]
  obtain ⟨q, hq⟩ : ∃ q, num * unitsPerOne / (den * 2 ^ shift) = q := ⟨_, rfl⟩
  have hlt := quotient_lt (num * unitsPerOne) den
  have hle := le_quotient (num * unitsPerOne) den
  rw [hshift, Nat.shiftLeft_eq, hq] at hlt hle
  have hden' : (0 : ℚ) < den := Nat.cast_pos.2 hden
  have hone : (0 : ℚ) < unitsPerOne := Nat.cast_pos.2 unitsPerOne_pos
  have hmagnitude (n : Nat) (hn : n = q ∨ n = q + 1) :
      magnitude (shift * 2 ^ 52 + n) = den * 2 ^ shift * n * (1 / (den * unitsPerOne)) := by
    have hunits : units (shift * 2 ^ 52 + n) = n * 2 ^ shift :=
      units_block (fun hs => by have := hle (by omega); omega) (by omega)
    rw [magnitude, hunits]
    push_cast
    field_simp
  have hfraction : (num / den : ℚ) =
      (den * 2 ^ shift * q + (num * unitsPerOne % (den * 2 ^ shift) : Nat)) *
        (1 / (den * unitsPerOne)) := by
    have hdivide : (num * unitsPerOne : ℚ) =
        den * 2 ^ shift * q + (num * unitsPerOne % (den * 2 ^ shift) : Nat) := by
      exact_mod_cast hq ▸ (Nat.div_add_mod (num * unitsPerOne) (den * 2 ^ shift)).symm
    rw [← hdivide]
    field_simp
  refine ⟨shift * 2 ^ 52 + q, num * unitsPerOne % (den * 2 ^ shift), den * 2 ^ shift,
    1 / (den * unitsPerOne), one_div_pos.2 (mul_pos hden' hone),
    Nat.mod_lt _ (Nat.mul_pos hden (Nat.two_pow_pos shift)), ?_, ?_, ?_⟩
  · rw [hfraction, hmagnitude q (.inl rfl)]
    ring
  · rw [hfraction, Nat.add_assoc, hmagnitude (q + 1) (.inr rfl)]
    push_cast
    ring
  · rw [hrank, roundHalfEven, hq]
    split_ifs <;> omega

theorem nearest_nearestRank (num : Nat) {den : Nat} (hden : 0 < den) :
    Nearest (num / den) (nearestRank num den) := by
  obtain ⟨lower, above, gap, step, hstep, hgap, hbelow, habove, hrank⟩ := exists_lower num hden
  have hcast : (above : ℚ) < gap := Nat.cast_lt.2 hgap
  have hnonneg : (0 : ℚ) ≤ above * step := by positivity
  have hpos : 0 < (gap - above) * step := mul_pos (by linarith) hstep
  have hlower : magnitude lower ≤ num / den := by linarith
  have hupper : (num / den : ℚ) ≤ magnitude (lower + 1) := by linarith
  have hdown : |magnitude lower - num / den| = above * step := by
    rw [abs_sub_comm, hbelow, abs_of_nonneg hnonneg]
  have hup : |magnitude (lower + 1) - num / den| = (gap - above) * step := by
    rw [habove, abs_of_pos hpos]
  -- The two distances compare as the remainder does with half the gap.
  have hle : |magnitude lower - num / den| ≤ |magnitude (lower + 1) - num / den| ↔
      2 * above ≤ gap := by
    rw [hdown, hup, mul_le_mul_iff_left₀ hstep, le_sub_iff_add_le, ← two_mul]
    norm_cast
  have hge : |magnitude (lower + 1) - num / den| ≤ |magnitude lower - num / den| ↔
      gap ≤ 2 * above := by
    rw [hdown, hup, mul_le_mul_iff_left₀ hstep, sub_le_iff_le_add, ← two_mul]
    norm_cast
  rcases Nat.lt_trichotomy (2 * above) gap with h | h | h
  · rw [hrank, if_pos h]
    exact nearest_of_between hlower hupper (.inl rfl) ⟨le_rfl, hle.2 h.le⟩
      fun htie => absurd (hge.1 htie.ge) h.not_ge
  · rw [hrank, if_neg h.not_lt, if_neg h.not_gt]
    have hsame := le_antisymm (hle.2 h.le) (hge.2 h.ge)
    have heven : Even (lower + lower % 2) := Nat.even_iff.2 (by omega)
    rcases Nat.mod_two_eq_zero_or_one lower with hlast | hlast
    · rw [hlast] at heven ⊢
      exact nearest_of_between hlower hupper (.inl rfl) ⟨le_rfl, hsame.le⟩ fun _ => heven
    · rw [hlast] at heven ⊢
      exact nearest_of_between hlower hupper (.inr rfl) ⟨hsame.ge, le_rfl⟩ fun _ => heven
  · rw [hrank, if_neg h.not_gt, if_pos h]
    exact nearest_of_between hlower hupper (.inr rfl) ⟨hge.2 h.le, le_rfl⟩
      fun htie => absurd (hle.1 htie.le) h.not_ge

/-- The double is a number with its sign, correctly rounded. What is rounded to a magnitude that
no finite double has is infinite. -/
def Rounds (negative : Bool) (x : ℚ) (d : Double) : Prop :=
  ∃ rank, Nearest x rank ∧ d = ofRank negative rank

theorem rounds_iff (negative : Bool) (num : Nat) {den : Nat} (hden : 0 < den) (d : Double) :
    Rounds negative (num / den) d ↔ d = ofRatio negative num den := by
  constructor
  · rintro ⟨rank, hrank, rfl⟩
    rw [ofRatio, hrank.eq (nearest_nearestRank num hden)]
  · rintro rfl
    exact ⟨_, nearest_nearestRank num hden, rfl⟩

end Double
end ConfigBlock
