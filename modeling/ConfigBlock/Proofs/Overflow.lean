import ConfigBlock.Proofs.NumeralWord
import ConfigBlock.Proofs.RoundTrip

/-!
# Numbers too large to read back

A decimal is rounded to a finite double exactly if it lies below the middle between the largest
finite double and the next power of two. From there on it is read as an infinite number, for which
no numeral stands. A number that was read is therefore printed as a numeral that reads as the same
number, unless it was written that large: then what is printed for it is no value at all.
-/

namespace ConfigBlock

namespace Double

/-- The middle between the largest finite double and the power of two behind it. -/
def overflow : ℚ := 2 ^ 1024 - 2 ^ 970

/-- The rank of the largest finite double. -/
def largestRank : Nat := 2045 * 2 ^ 52 + (2 ^ 53 - 1)

theorem finiteMagnitudes_eq : finiteMagnitudes = largestRank + 1 := by decide +kernel

theorem odd_largestRank : Odd largestRank :=
  ⟨2045 * 2 ^ 51 + (2 ^ 52 - 1), by decide +kernel⟩

/-- The magnitudes of the last block with finite ones, and the first one behind it. -/
theorem magnitude_last {significand : Nat} (hle : 2 ^ 52 ≤ significand)
    (hlt : significand ≤ 2 ^ 53) :
    magnitude (2045 * 2 ^ 52 + significand) = significand * 2 ^ 971 := by
  have hunits : units (2045 * 2 ^ 52 + significand) = significand * 2 ^ 2045 :=
    units_block (fun _ => hle) hlt
  -- The exponent gets a name, so that the power is never computed.
  obtain ⟨n, hn⟩ : ∃ n, n = 1074 := ⟨_, rfl⟩
  have hone : unitsPerOne = 2 ^ n := by rw [unitsPerOne, ← hn, Nat.one_shiftLeft]
  have hpow : (2 : ℚ) ^ 2045 = 2 ^ 971 * 2 ^ n := by rw [← pow_add, hn]
  rw [magnitude, hunits, hone, Nat.cast_mul, Nat.cast_pow, Nat.cast_pow, Nat.cast_ofNat, hpow,
    ← mul_assoc]
  exact mul_div_cancel_right₀ _ (pow_ne_zero n two_ne_zero)

/-- The middle is as far above the largest finite magnitude as it is below the next one. -/
theorem exists_magnitude_overflow :
    ∃ step > 0, magnitude largestRank = overflow - step ∧
      magnitude finiteMagnitudes = overflow + step := by
  have hnext : finiteMagnitudes = 2045 * 2 ^ 52 + 2 ^ 53 := by decide +kernel
  have htop : (2 : ℚ) ^ 1024 = 2 ^ 54 * 2 ^ 970 := by rw [← pow_add]
  have hgap : (2 : ℚ) ^ 971 = 2 * 2 ^ 970 := by rw [← pow_succ']
  refine ⟨2 ^ 970, pow_pos two_pos 970, ?_, ?_⟩
  · rw [largestRank, magnitude_last (by decide) (by decide), overflow, htop, hgap]
    generalize (2 : ℚ) ^ 970 = step
    push_cast
    ring
  · rw [hnext, magnitude_last (by decide) (by decide), overflow, htop, hgap]
    generalize (2 : ℚ) ^ 970 = step
    push_cast
    ring

/-- Below the middle the largest finite magnitude is nearer than any larger one. From the middle
on the next magnitude is at least as near as any finite one. Where it is only as near, the middle
itself is rounded, and the tie does not go to the largest finite rank, which is odd. -/
theorem Nearest.lt_finiteMagnitudes_iff {x : ℚ} {rank : Nat} (h : Nearest x rank) :
    rank < finiteMagnitudes ↔ x < overflow := by
  obtain ⟨step, hstep, hlargest, hnext⟩ := exists_magnitude_overflow
  have hlast := finiteMagnitudes_eq
  constructor
  · intro hrank
    by_contra hx
    have hle : magnitude rank ≤ magnitude largestRank :=
      magnitude_strictMono.monotone (by omega)
    have hnear := h.le finiteMagnitudes
    rw [abs_of_nonpos (by linarith), le_abs] at hnear
    have hmiddle : x = overflow ∧ magnitude rank = magnitude largestRank := by
      rcases hnear with hnear | hnear
      · constructor <;> linarith
      · linarith
    obtain rfl : rank = largestRank := magnitude_strictMono.injective hmiddle.2
    have hsame : |magnitude finiteMagnitudes - x| = |magnitude largestRank - x| := by
      rw [hmiddle.1, hlargest, hnext]
      simp
    exact Nat.not_even_iff_odd.2 odd_largestRank (h.even finiteMagnitudes (by omega) hsame)
  · intro hx
    by_contra hrank
    have hle : magnitude finiteMagnitudes ≤ magnitude rank :=
      magnitude_strictMono.monotone (by omega)
    have hnear := h.le largestRank
    rw [abs_of_nonneg (by linarith), le_abs] at hnear
    rcases hnear with hnear | hnear
    · linarith
    · linarith

theorem ofRank_of_le {rank : Nat} (h : finiteMagnitudes ≤ rank) (negative : Bool) :
    ofRank negative rank = .infinite negative := by
  simp [ofRank, h]

end Double

namespace Numeral

/-- The word is a decimal that is too large for a finite double. -/
def Overflows (w : List Char) : Prop :=
  ∃ s whole fraction, DecimalWord w s whole fraction ∧
    Double.overflow ≤ decimalValue whole fraction

/-- A decimal stands for a finite double below the middle, and for an infinite one from there
on. -/
theorem decimal_cases (negative : Bool) (whole fraction : List Char) :
    if decimalValue whole fraction < Double.overflow then
      (NumberText.decimal negative whole fraction).isFinite = true
    else NumberText.decimal negative whole fraction = .infinite negative := by
  have hpower : 0 < powerOfTen fraction.length := Nat.pow_pos (by decide)
  have hnearest := Double.nearest_nearestRank (NumberText.digitsValue (whole ++ fraction)) hpower
  rw [← decimalValue_eq] at hnearest
  have hfinite := hnearest.lt_finiteMagnitudes_iff
  rw [NumberText.decimal, Double.ofRatio]
  split_ifs with hvalue
  · rw [Double.ofRank_of_lt (hfinite.2 hvalue)]
    rfl
  · exact Double.ofRank_of_le (not_lt.1 fun hrank => hvalue (hfinite.1 hrank)) negative

section Reading

variable {c c' : Cursor} {first : Char} {start : Start} {n : Number} {ds : List Diagnostic}

theorem finite_or_infinite_of_read (hc : c.current = some first)
    (h : Start.ofChar? first = some start) (hread : read start c = (.success n ds, c')) :
    (Value.ofNumber n).Finite ∨ ∃ negative, n = .double (.infinite negative) := by
  obtain ⟨-, ⟨s, es, hword⟩ | ⟨s, whole, fraction, hword, rfl⟩⟩ := exists_kind_of_read hc h hread
  · rw [read_integerWord hc h hword] at hread
    split_ifs at hread with hfits
    · cases hread
      exact .inl trivial
    · cases hread
  · have hcases := decimal_cases s.negative whole fraction
    split_ifs at hcases with hvalue
    · exact .inl hcases
    · exact .inr ⟨s.negative, by rw [hcases]⟩

/-- The words that are read as infinite numbers are those that are too large. -/
theorem infinite_iff_overflows (hc : c.current = some first)
    (h : Start.ofChar? first = some start) (hread : read start c = (.success n ds, c')) :
    (∃ negative, n = .double (.infinite negative)) ↔ Overflows (word c) := by
  constructor
  · rintro ⟨negative, rfl⟩
    obtain ⟨-, ⟨s, es, hword⟩ | ⟨s, whole, fraction, hword, hn⟩⟩ := exists_kind_of_read hc h hread
    · rw [read_integerWord hc h hword] at hread
      split_ifs at hread
      · cases hread
      · cases hread
    · have hcases := decimal_cases s.negative whole fraction
      rw [← Number.double.inj hn] at hcases
      split_ifs at hcases with hvalue
      · simp [Double.isFinite] at hcases
      · exact ⟨s, whole, fraction, hword, not_lt.1 hvalue⟩
  · rintro ⟨s, whole, fraction, hword, hvalue⟩
    have hcases := decimal_cases s.negative whole fraction
    rw [if_neg hvalue.not_gt] at hcases
    rw [read_decimalWord hc h hword, hcases] at hread
    cases hread
    exact ⟨s.negative, rfl⟩

end Reading
end Numeral

namespace Value

open ConfigBlock.Parser

/-- In front of a blank, a slash or a newline, what is printed for a value reads as its normal
form. -/
theorem reads_print {v : Value} (hl : v.Legible) (hf : v.Finite) {x : Char}
    (hx : Numeral.isStop x = true) (rest : List Char) :
    read.Reads v.print (x :: rest) v.normal silent := by
  obtain ⟨f, htext, hvalue, hreports⟩ := exists_form_of_print hl hf
  have hfollows : f.Follows (x :: rest) := f.follows_of_isStop hx
  intro pos
  have hread := f.reads hfollows pos
  rw [htext, hvalue, hreports] at hread
  exact hread

/-- A number that was read was read as a numeral. -/
theorem exists_numeral_of_read {c c' : Cursor} {v : Value} {ds : List Diagnostic}
    (hread : read c = (.success v ds, c'))
    (hkind : (∃ n, v = .integer n) ∨ ∃ d, v = .number d) :
    ∃ first start n es, c.current = some first ∧ Numeral.Start.ofChar? first = some start ∧
      Numeral.read start c = (.success n es, c') ∧ v = ofNumber n := by
  rcases hc : c.current with _ | first
  · rw [read, current_bind, hc] at hread
    simp at hread
  · rw [read_eq_readFrom first hc] at hread
    rcases hstart : Numeral.Start.ofChar? first with _ | start
    · rw [readFrom, hstart] at hread
      dsimp only at hread
      split_ifs at hread
      · obtain ⟨s, -, rfl⟩ := bind_pure_eq_success.1 hread
        simp at hkind
      · obtain ⟨b, -, rfl⟩ := bind_pure_eq_success.1 hread
        simp at hkind
      · obtain ⟨b, -, rfl⟩ := bind_pure_eq_success.1 hread
        simp at hkind
      · obtain ⟨s, -, rfl⟩ := bind_pure_eq_success.1 hread
        simp at hkind
      · simp at hread
    · rw [readFrom_start hstart] at hread
      rcases hnumeral : Numeral.read start c with ⟨⟨n, es⟩ | es, c₁⟩
      · obtain ⟨⟨rfl, -⟩, rfl⟩ : (ofNumber n = v ∧ _) ∧ c₁ = c' := by
          simpa [readNumeral, hnumeral, Outcome.map] using hread
        exact ⟨first, start, n, es, rfl, hstart, hnumeral, rfl⟩
      · simp [readNumeral, hnumeral, Outcome.map] at hread

/-- What is printed for an infinite number cannot be read: neither a value nor the digits of a
numeral start with a letter. -/
theorem read_print_infinite (negative : Bool) :
    read (.ofChars (print (.number (.infinite negative)) ++ ['\n'])) =
      if negative then
        (.failure [⟨.numeral (.unexpected 'i'), 1, 2, .error⟩], ⟨"inf\n".toList, ⟨1, 1, 2⟩⟩)
      else
        (.failure [⟨.value (.unexpected 'i'), 1, 1, .error⟩], ⟨"inf\n".toList, ⟨0, 1, 1⟩⟩) := by
  cases negative <;> decide +kernel

/-- A number that was read is printed so that it reads as the same number, with nothing to report,
exactly if it was not written too large for a finite double. Otherwise it is infinite, and reading
what is printed for it fails. -/
theorem read_print_of_read {c c' : Cursor} {v : Value} {ds : List Diagnostic}
    (hread : read c = (.success v ds, c'))
    (hkind : (∃ n, v = .integer n) ∨ ∃ d, v = .number d) :
    (read (.ofChars (v.print ++ ['\n'])) =
        (.success v [], ⟨['\n'], Position.origin.advance v.print⟩) ↔
      ¬Numeral.Overflows (Numeral.word c)) ∧
    (Numeral.Overflows (Numeral.word c) →
      ∃ negative, v = .number (.infinite negative) ∧
        v.print = (if negative then "-inf" else "inf").toList ∧
        read (.ofChars (v.print ++ ['\n'])) =
          if negative then
            (.failure [⟨.numeral (.unexpected 'i'), 1, 2, .error⟩], ⟨"inf\n".toList, ⟨1, 1, 2⟩⟩)
          else
            (.failure [⟨.value (.unexpected 'i'), 1, 1, .error⟩],
              ⟨"inf\n".toList, ⟨0, 1, 1⟩⟩)) := by
  obtain ⟨first, start, n, es, hc, hstart, hnumeral, rfl⟩ := exists_numeral_of_read hread hkind
  rw [← Numeral.infinite_iff_overflows hc hstart hnumeral]
  constructor
  · constructor
    · rintro hback ⟨negative, rfl⟩
      rw [ofNumber, read_print_infinite] at hback
      cases negative <;> simp at hback
    · intro hinfinite
      have hfinite := (Numeral.finite_or_infinite_of_read hc hstart hnumeral).resolve_right hinfinite
      have hlegible : (ofNumber n).Legible := by cases n <;> trivial
      have hnormal : (ofNumber n).normal = ofNumber n := by cases n <;> rfl
      have hback := reads_print hlegible hfinite (x := '\n') (by decide) [] .origin
      rwa [hnormal] at hback
  · rintro ⟨negative, rfl⟩
    refine ⟨negative, rfl, ?_, read_print_infinite negative⟩
    cases negative <;> rfl

/-- A fraction with a sign and without a whole part. -/
theorem read_print_of_read_fraction :
    let d := NumberText.decimal true [] ['5', '0']
    read (.ofText "-.50/") = (.success (.number d) [], ⟨['/'], ⟨4, 1, 5⟩⟩) ∧
      read (.ofText "-0.5\n") = (.success (.number d) [], ⟨['\n'], ⟨4, 1, 5⟩⟩) ∧
      ¬Numeral.Overflows "-.50".toList := by
  intro d
  have hread : read (.ofText "-.50/") = (.success (.number d) [], ⟨['/'], ⟨4, 1, 5⟩⟩) := by
    decide +kernel
  have hprint : print (.number d) = "-0.5".toList := by decide +kernel
  have hback : read (.ofText "-0.5\n") = (.success (.number d) [], ⟨['\n'], ⟨4, 1, 5⟩⟩) := by
    decide +kernel
  have hword : Numeral.word (.ofText "-.50/") = "-.50".toList := by decide +kernel
  obtain ⟨hiff, -⟩ := read_print_of_read hread (.inr ⟨d, rfl⟩)
  rw [hprint, hword] at hiff
  exact ⟨hread, hback, hiff.1 hback⟩

/-- A one with three hundred and nine zeros behind it is read as infinity, and what is printed for
that is no value. -/
theorem read_large_not_read_back :
    read (.ofChars ('1' :: List.replicate 309 '0' ++ ".0\n".toList)) =
        (.success (.number (.infinite false)) [], ⟨['\n'], ⟨312, 1, 313⟩⟩) ∧
      print (.number (.infinite false)) = "inf".toList ∧
      read (.ofText "inf\n") =
        (.failure [⟨.value (.unexpected 'i'), 1, 1, .error⟩], ⟨"inf\n".toList, ⟨0, 1, 1⟩⟩) := by
  decide +kernel

end Value
end ConfigBlock
