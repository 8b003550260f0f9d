import ConfigBlock.Proofs.Form.Numeral
import ConfigBlock.Proofs.Rounding
import Mathlib.Data.List.Induction
import Mathlib.Data.Nat.Digits.Defs

/-!
# What a numeral is read as

The word of a numeral goes from its first character to the next stop, and it decides alone what
the numeral is read as. Digits with an optional sign are an integer, if it fits 64 bits. With a
point before, behind or among the digits the word is a decimal and stands for the double that is
its value correctly rounded. A sign alone is not enough, and in every other word there is a first
character that does not belong to a numeral.

The grammar asks for a digit on one side of the point at least. A word that is only a point, with
or without a sign, is read as zero all the same, and no other word outside the grammar is read.
-/

namespace ConfigBlock
namespace Numeral

/-- The number that decimal digits stand for by their places, the last one counting ones. -/
def positional (ds : List Char) : Nat :=
  Nat.ofDigits 10 (ds.reverse.map fun c => c.toNat - '0'.toNat)

theorem digitsValue_eq_positional (ds : List Char) :
    NumberText.digitsValue ds = positional ds := by
  induction ds using List.reverseRecOn with
  | nil => rfl
  | append_singleton ds c ih =>
    simp only [NumberText.digitsValue, positional] at ih ⊢
    rw [Nat.ofDigitChars_append, Nat.ofDigitChars_cons, Nat.ofDigitChars_nil, ih,
      List.reverse_append, List.reverse_singleton, List.singleton_append, List.map_cons,
      Nat.ofDigits_cons]
    exact Nat.add_comm _ _

/-- The number with these digits before and behind its point. Where there are none, it is as if
there were a zero. -/
def decimalValue (whole fraction : List Char) : ℚ :=
  positional whole + positional fraction / 10 ^ fraction.length

theorem decimalValue_eq (whole fraction : List Char) :
    decimalValue whole fraction =
      (NumberText.digitsValue (whole ++ fraction) : Nat) / (powerOfTen fraction.length : Nat) := by
  have hjoin : NumberText.digitsValue (whole ++ fraction) =
      10 ^ fraction.length * positional whole + positional fraction := by
    rw [← digitsValue_eq_positional, ← digitsValue_eq_positional, NumberText.digitsValue,
      Nat.ofDigitChars_append, Nat.ofDigitChars_eq_ofDigitChars_zero]
    rfl
  have hpower : ((powerOfTen fraction.length : Nat) : ℚ) = 10 ^ fraction.length := by
    norm_cast
  rw [hjoin, hpower, decimalValue]
  push_cast
  field_simp

/-- The double that a decimal is read as is its only correct rounding. -/
theorem rounds_decimalValue_iff (negative : Bool) (whole fraction : List Char) (d : Double) :
    Double.Rounds negative (decimalValue whole fraction) d ↔
      d = NumberText.decimal negative whole fraction := by
  rw [decimalValue_eq]
  exact Double.rounds_iff negative _ (Nat.pow_pos (by decide)) d

theorem fitsInt64_iff (n : Int) : FitsInt64 n ↔ -2 ^ 63 ≤ n ∧ n ≤ 2 ^ 63 - 1 :=
  Iff.rfl

/-- A word goes on over everything but spaces, slashes and newlines. -/
def continues (x : Char) : Bool := x ∉ [' ', '/', '\n']

theorem continues_eq_not_isStop (x : Char) : continues x = !isStop x := by
  have hstop : isStop x = decide (x ∈ [' ', '/', '\n']) := by
    rw [Bool.eq_iff_iff, isStop_iff]
    simp
  rw [hstop, continues, decide_not]

/-- The text from the cursor to the next stop. -/
def word (c : Cursor) : List Char := c.run continues

def stop (c : Cursor) : Cursor := c.skipWhile continues

theorem rest_eq_word_append (c : Cursor) : c.rest = word c ++ (stop c).rest :=
  c.rest_eq_run_append _

theorem stops_stop (c : Cursor) : Stops (stop c).rest := by
  intro x hx
  simpa [continues_eq_not_isStop] using Cursor.of_mem_current_skipWhile (c := c) hx

/-- An optional sign and at least one digit. -/
structure IntegerWord (w : List Char) (s : Sign) (ds : List Char) : Prop where
  word : w = s.text ++ ds
  digits : AllDigits ds
  ne_nil : ds ≠ []

/-- An optional sign and a point, with any number of digits before and behind it. -/
structure DecimalWord (w : List Char) (s : Sign) (whole fraction : List Char) : Prop where
  word : w = s.text ++ (whole ++ '.' :: fraction)
  whole_digits : AllDigits whole
  fraction_digits : AllDigits fraction

/-- A character is out of place if it is no digit and not the first point of its word. -/
def OutOfPlace (before : List Char) (x : Char) : Prop :=
  CharClass.isDigit x = false ∧ ¬(x = '.' ∧ '.' ∉ before)

/-- Behind its first character, the word has its first character out of place between `before` and
`behind`. -/
structure Breaks (w before : List Char) (x : Char) (behind : List Char) : Prop where
  word : w = before ++ x :: behind
  ne_nil : before ≠ []
  outOfPlace : OutOfPlace before x
  first : ∀ earlier y later, before = earlier ++ y :: later → earlier ≠ [] → ¬OutOfPlace earlier y

/-- A word as it is quoted in a report, without a plus sign. -/
def withoutPlus (w : List Char) : List Char := if w.head? = some '+' then w.tail else w

theorem Sign.withoutPlus_text (s : Sign) {ds : List Char} (hd : AllDigits ds) :
    withoutPlus (s.text ++ ds) = s.kept ++ ds := by
  cases s with
  | absent =>
    have hhead : ds.head? ≠ some '+' := fun h => (head?_ne_sign hd '+' h).2 rfl
    simp [withoutPlus, Sign.text, Sign.kept, Sign.negative, hhead]
  | plus => rfl
  | minus => rfl

theorem Start.sign_of_text {first : Char} {start : Start} (h : ofChar? first = some start)
    {cs unsigned : List Char} {s : Sign} (htext : first :: cs = s.text ++ unsigned)
    (hunsigned : ∀ x ∈ unsigned.head?, x ≠ '-' ∧ x ≠ '+') : start.sign = s := by
  unfold ofChar? at h
  cases s with
  | absent =>
    obtain rfl : first :: cs = unsigned := htext
    obtain ⟨hm, hp⟩ := hunsigned first (by simp)
    rw [if_neg hm, if_neg hp] at h
    split_ifs at h <;> cases h <;> rfl
  | plus =>
    obtain ⟨rfl, -⟩ : first = '+' ∧ cs = unsigned := by simpa [Sign.text] using htext
    cases h
    rfl
  | minus =>
    obtain ⟨rfl, -⟩ : first = '-' ∧ cs = unsigned := by simpa [Sign.text] using htext
    cases h
    rfl

theorem head?_unsigned_ne_sign {whole rest : List Char} {fraction : Option (List Char)}
    (hw : AllDigits whole) (hr : Stops rest) :
    ∀ x ∈ (whole ++ fractionText fraction ++ rest).head?, x ≠ '-' ∧ x ≠ '+' := by
  cases whole with
  | cons d ds =>
    have := head?_ne_sign hw
    simpa using this
  | nil =>
    cases fraction with
    | some ds => simp [fractionText]
    | none =>
      intro x hx
      have hstop := hr x (by simpa [fractionText] using hx)
      constructor <;> rintro rfl <;> exact absurd hstop (by decide)

section Reading

variable {c : Cursor} {first : Char} {start : Start}

theorem read_complete (hc : c.current = some first) (h : Start.ofChar? first = some start)
    {s : Sign} {whole : List Char} {fraction : Option (List Char)} (hw : AllDigits whole)
    (hf : ∀ ds ∈ fraction, AllDigits ds)
    (hword : word c = s.text ++ (whole ++ fractionText fraction)) :
    read start c = finish s.kept ⟨collected whole fraction,
      phaseBehind whole fraction, none, stop c⟩ := by
  have hfirst : c.rest = first :: c.advance.rest := Cursor.rest_eq_cons hc
  have hunsigned : first :: c.advance.rest =
      s.text ++ (whole ++ fractionText fraction ++ (stop c).rest) := by
    rw [← hfirst, rest_eq_word_append, hword, List.append_assoc]
  obtain rfl := Start.sign_of_text h hunsigned (head?_unsigned_ne_sign hw (stops_stop c))
  have hread := read_eq_finish h hunsigned c.position
  rw [← hfirst, scan_unsigned hw hf (stops_stop c), ← Position.advance_append, ← hword] at hread
  exact hread

theorem isDigit_of_mem_head?_dropWhile {cs : List Char} {x : Char}
    (h : x ∈ (cs.dropWhile CharClass.isDigit).head?) : CharClass.isDigit x = false :=
  Cursor.of_mem_current_skipWhile (c := ⟨cs, .origin⟩) h

theorem allDigits_takeWhile (cs : List Char) : AllDigits (cs.takeWhile CharClass.isDigit) :=
  fun _ h => List.all_eq_true.1 List.all_takeWhile _ h

theorem exists_digits (cs : List Char) :
    ∃ whole fraction rest, AllDigits whole ∧ (∀ ds ∈ fraction, AllDigits ds) ∧
      cs = whole ++ fractionText fraction ++ rest ∧
        ∀ x ∈ rest.head?, CharClass.isDigit x = false ∧ (x = '.' → fraction ≠ none) := by
  have hwhole := List.takeWhile_append_dropWhile (p := CharClass.isDigit) (l := cs)
  by_cases hpoint : (cs.dropWhile CharClass.isDigit).head? = some '.'
  · obtain ⟨more, hmore⟩ := List.head?_eq_some_iff.1 hpoint
    have hfraction := List.takeWhile_append_dropWhile (p := CharClass.isDigit) (l := more)
    refine ⟨cs.takeWhile CharClass.isDigit, some (more.takeWhile CharClass.isDigit),
      more.dropWhile CharClass.isDigit, allDigits_takeWhile cs, ?_, ?_, ?_⟩
    · intro ds hds
      obtain rfl : more.takeWhile CharClass.isDigit = ds := by simpa using hds
      exact allDigits_takeWhile more
    · rw [fractionText, List.append_assoc, List.cons_append, hfraction, ← hmore, hwhole]
    · exact fun x hx => ⟨isDigit_of_mem_head?_dropWhile hx, by simp⟩
  · refine ⟨cs.takeWhile CharClass.isDigit, none, cs.dropWhile CharClass.isDigit,
      allDigits_takeWhile cs, by simp, ?_, ?_⟩
    · rw [fractionText, List.append_nil, hwhole]
    · intro x hx
      exact ⟨isDigit_of_mem_head?_dropWhile hx, fun h => absurd (h ▸ hx) hpoint⟩

/-- With its sign, a text that starts like a numeral does so over its first character at least. -/
theorem Start.exists_span (h : Start.ofChar? first = some start) (cs : List Char) :
    ∃ whole fraction rest, AllDigits whole ∧ (∀ ds ∈ fraction, AllDigits ds) ∧
      first :: cs = start.sign.text ++ (whole ++ fractionText fraction ++ rest) ∧
      start.sign.text ++ (whole ++ fractionText fraction) ≠ [] ∧
        ∀ x ∈ rest.head?, CharClass.isDigit x = false ∧ (x = '.' → fraction ≠ none) := by
  obtain ⟨unsigned, hunsigned, hunmarked⟩ := Start.exists_unsigned h cs
  obtain ⟨whole, fraction, rest, hw, hf, hspan, hrest⟩ := exists_digits unsigned
  rw [hspan] at hunsigned
  refine ⟨whole, fraction, rest, hw, hf, hunsigned, ?_, hrest⟩
  intro hnil
  obtain ⟨hsign, -, hpoint⟩ :
      start.sign.text = [] ∧ whole = [] ∧ fractionText fraction = [] := by simpa using hnil
  rw [← List.append_assoc, hnil, List.nil_append] at hunsigned
  obtain ⟨hdigit, hfraction⟩ := hrest first (by simp [← hunsigned])
  rcases hunmarked hsign with hfirst | hfirst
  · simp [hdigit] at hfirst
  · obtain ⟨ds, rfl⟩ := Option.ne_none_iff_exists'.1 (hfraction hfirst)
    simp [fractionText] at hpoint

theorem scan_blocked {phase : Phase} {x : Char} (hs : isStop x = false)
    (hd : CharClass.isDigit x = false) (hp : x = '.' → phase = .fraction) (p : Position)
    (behind : List Char) :
    scan phase p (x :: behind) = ⟨[], phase, some x, ⟨x :: behind, p⟩⟩ := by
  cases phase <;> simp_all [scan]

theorem scan_fault {whole : List Char} {fraction : Option (List Char)} {x : Char}
    (hw : AllDigits whole) (hf : ∀ ds ∈ fraction, AllDigits ds) (hs : isStop x = false)
    (hd : CharClass.isDigit x = false) (hp : x = '.' → fraction ≠ none) (p : Position)
    (behind : List Char) :
    let s := scan .sign p (whole ++ fractionText fraction ++ x :: behind)
    s.fault = some x ∧ s.cursor = ⟨x :: behind, p.advance (whole ++ fractionText fraction)⟩ := by
  intro s
  have hphase : x = '.' → phaseBehind whole fraction = .fraction :=
    fun hx => if_neg (hp hx)
  have hscan : s = _ := scan_span hw hf p (x :: behind)
  rw [scan_blocked hs hd hphase] at hscan
  simp [hscan, Scan.push]

theorem finish_of_fault {s : Scan} {x : Char} (h : s.fault = some x) (kept : List Char) :
    finish kept s = (.failure [s.cursor.error (.numeral (.unexpected x))], s.cursor) := by
  simp [finish, h]

/-- In the digits of a numeral only the point is no digit, and digits alone precede it. -/
theorem point_of_span {whole : List Char} {fraction : Option (List Char)} (hw : AllDigits whole)
    (hf : ∀ ds ∈ fraction, AllDigits ds) {earlier later : List Char} {y : Char}
    (h : whole ++ fractionText fraction = earlier ++ y :: later)
    (hy : CharClass.isDigit y = false) : y = '.' ∧ AllDigits earlier := by
  induction whole generalizing earlier with
  | nil =>
    cases fraction with
    | none => simp [fractionText] at h
    | some ds =>
      cases earlier with
      | nil =>
        obtain ⟨rfl, -⟩ : '.' = y ∧ ds = later := by simpa [fractionText] using h
        exact ⟨rfl, by simp [AllDigits]⟩
      | cons e earlier =>
        obtain ⟨-, rfl⟩ : '.' = e ∧ ds = earlier ++ y :: later := by simpa [fractionText] using h
        simp [hf _ rfl y (by simp)] at hy
  | cons d whole ih =>
    have hd : CharClass.isDigit d = true := hw d (by simp)
    cases earlier with
    | nil =>
      obtain ⟨rfl, -⟩ : d = y ∧ whole ++ fractionText fraction = later := by simpa using h
      simp [hd] at hy
    | cons e earlier =>
      obtain ⟨rfl, hrest⟩ : d = e ∧ whole ++ fractionText fraction = earlier ++ y :: later := by
        simpa using h
      obtain ⟨hpoint, hearlier⟩ := ih (fun c hc => hw c (by simp [hc])) hrest
      exact ⟨hpoint, by simpa [AllDigits, hd] using hearlier⟩

/-- Whatever comes behind the first character of a signed text comes behind its sign. -/
theorem Sign.exists_append {s : Sign} {unsigned earlier later : List Char} (hne : earlier ≠ [])
    (h : s.text ++ unsigned = earlier ++ later) :
    ∃ digits, earlier = s.text ++ digits ∧ unsigned = digits ++ later := by
  cases earlier with
  | nil => exact absurd rfl hne
  | cons e earlier =>
    cases s with
    | absent => exact ⟨e :: earlier, rfl, h⟩
    | plus | minus =>
      obtain ⟨rfl, hrest⟩ : _ = e ∧ unsigned = earlier ++ later := by simpa [Sign.text] using h
      exact ⟨earlier, rfl, hrest⟩

theorem point_notMem {s : Sign} {ds : List Char} (hd : AllDigits ds) : '.' ∉ s.text ++ ds := by
  intro hmem
  rcases List.mem_append.1 hmem with hsign | hdigit
  · cases s <;> simp [Sign.text] at hsign
  · exact absurd (hd '.' hdigit) (by decide)

theorem breaks_of_span {s : Sign} {whole behind : List Char} {fraction : Option (List Char)}
    {x : Char} (hw : AllDigits whole) (hf : ∀ ds ∈ fraction, AllDigits ds)
    (hd : CharClass.isDigit x = false) (hp : x = '.' → fraction ≠ none)
    (hne : s.text ++ (whole ++ fractionText fraction) ≠ []) :
    Breaks (s.text ++ (whole ++ fractionText fraction) ++ x :: behind)
      (s.text ++ (whole ++ fractionText fraction)) x behind := by
  refine ⟨rfl, hne, ⟨hd, ?_⟩, ?_⟩
  · rintro ⟨hx, hnot⟩
    obtain ⟨ds, rfl⟩ := Option.ne_none_iff_exists'.1 (hp hx)
    simp [fractionText] at hnot
  · rintro earlier y later hbefore hearlier ⟨hy, hpoint⟩
    obtain ⟨digits, rfl, hdigits⟩ := Sign.exists_append hearlier hbefore
    obtain ⟨rfl, hall⟩ := point_of_span hw hf hdigits hy
    exact hpoint ⟨rfl, point_notMem hall⟩

theorem read_integerWord (hc : c.current = some first) (h : Start.ofChar? first = some start)
    {s : Sign} {ds : List Char} (hword : IntegerWord (word c) s ds) :
    read start c =
      if FitsInt64 (s.apply (NumberText.digitsValue ds)) then
        (.success (.integer (.ofInt (s.apply (NumberText.digitsValue ds)))) [], stop c)
      else
        (.failure [(stop c).error
          (.numeral (.malformed (String.ofList (withoutPlus (word c)))))], stop c) := by
  obtain ⟨hw, hd, hne⟩ := hword
  have hread : read start c = finish s.kept ⟨collected ds none, .whole, none, stop c⟩ := by
    have hnone : ∀ es ∈ (none : Option (List Char)), AllDigits es := by simp
    have := read_complete hc h hd hnone (by simpa [fractionText] using hw)
    simpa [phaseBehind, afterDigits, hne] using this
  rw [hread]
  split_ifs with hfits
  · exact finish_of_whole s hd ⟨hne, hfits⟩ (stop c)
  · have hvalue := readInteger?_kept s hd
    rw [if_neg fun hboth => hfits hboth.2] at hvalue
    rw [hw, s.withoutPlus_text hd]
    simp [finish, value, collected, hvalue]

theorem read_decimalWord (hc : c.current = some first) (h : Start.ofChar? first = some start)
    {s : Sign} {whole fraction : List Char} (hword : DecimalWord (word c) s whole fraction) :
    read start c =
      (.success (.double (NumberText.decimal s.negative whole fraction)) [], stop c) := by
  obtain ⟨hw, hwhole, hfraction⟩ := hword
  have hsome : ∀ ds ∈ some fraction, AllDigits ds := by simpa using hfraction
  have hread := read_complete hc h hwhole hsome hw
  rw [hread, phaseBehind, if_neg (by simp)]
  exact finish_of_fraction s hwhole hfraction (stop c)

theorem read_signWord (hc : c.current = some first) (h : Start.ofChar? first = some start)
    (hword : word c = ['+'] ∨ word c = ['-']) :
    read start c = (.failure [(stop c).error (.numeral .endOfText)], stop c) := by
  obtain ⟨s, hs⟩ : ∃ s : Sign, word c = s.text := by
    rcases hword with hword | hword
    · exact ⟨.plus, hword⟩
    · exact ⟨.minus, hword⟩
  have hnone : ∀ ds ∈ (none : Option (List Char)), AllDigits ds := by simp
  have hnil : AllDigits [] := by simp [AllDigits]
  have hread := read_complete hc h hnil hnone (by simpa [fractionText] using hs)
  rw [hread]
  simp [finish, value, phaseBehind, afterDigits]

theorem continues_of_mem_span {s : Sign} {whole : List Char} {fraction : Option (List Char)}
    (hw : AllDigits whole) (hf : ∀ ds ∈ fraction, AllDigits ds) :
    ∀ x ∈ s.text ++ (whole ++ fractionText fraction), continues x = true := by
  have hdigit {ds : List Char} (hd : AllDigits ds) : ∀ x ∈ ds, continues x = true :=
    fun x hx => by simp [continues_eq_not_isStop, isStop_of_isDigit (hd x hx)]
  refine List.forall_mem_append.2 ⟨?_, List.forall_mem_append.2 ⟨hdigit hw, ?_⟩⟩
  · cases s <;> simp [Sign.text, continues]
  · cases fraction with
    | none => simp [fractionText]
    | some ds => exact List.forall_mem_cons.2 ⟨by decide, hdigit (hf ds rfl)⟩

theorem word_of_append {before rest : List Char} (hrest : c.rest = before ++ rest)
    (hbefore : ∀ x ∈ before, continues x = true) :
    word c = before ++ rest.takeWhile continues ∧ (stop c).rest = rest.dropWhile continues := by
  constructor
  · rw [word, Cursor.run, hrest, List.takeWhile_append_of_pos hbefore]
  · rw [stop, Cursor.skipWhile, hrest, List.dropWhile_append_of_pos hbefore]

theorem exists_kind {w : List Char} {s : Sign} {whole : List Char} {fraction : Option (List Char)}
    (hw : AllDigits whole) (hf : ∀ ds ∈ fraction, AllDigits ds)
    (hword : w = s.text ++ (whole ++ fractionText fraction)) (hne : w ≠ []) :
    (∃ s ds, IntegerWord w s ds) ∨ (∃ s whole fraction, DecimalWord w s whole fraction) ∨
      w = ['+'] ∨ w = ['-'] := by
  cases fraction with
  | some ds => exact .inr (.inl ⟨s, whole, ds, hword, hw, hf ds rfl⟩)
  | none =>
    rw [fractionText, List.append_nil] at hword
    by_cases hnil : whole = []
    · subst hnil
      rw [List.append_nil] at hword
      cases s with
      | absent => exact absurd hword hne
      | plus => exact .inr (.inr (.inl hword))
      | minus => exact .inr (.inr (.inr hword))
    · exact .inl ⟨s, whole, hword, hw, hnil⟩

/-- A word of no other kind has a first character out of place, which is reported. -/
theorem read_brokenWord (hc : c.current = some first) (h : Start.ofChar? first = some start)
    (hinteger : ∀ s ds, ¬IntegerWord (word c) s ds)
    (hdecimal : ∀ s whole fraction, ¬DecimalWord (word c) s whole fraction)
    (hsign : word c ≠ ['+'] ∧ word c ≠ ['-']) :
    ∃ before x behind, Breaks (word c) before x behind ∧
      let fault : Cursor := ⟨x :: (behind ++ (stop c).rest), c.position.advance before⟩
      read start c = (.failure [fault.error (.numeral (.unexpected x))], fault) := by
  have hfirst : c.rest = first :: c.advance.rest := Cursor.rest_eq_cons hc
  obtain ⟨whole, fraction, rest, hw, hf, hspan, hne, hrest⟩ :=
    Start.exists_span h c.advance.rest
  have htext : c.rest = start.sign.text ++ (whole ++ fractionText fraction) ++ rest := by
    rw [hfirst, hspan, ← List.append_assoc]
  obtain ⟨hword, hstop⟩ := word_of_append htext (continues_of_mem_span hw hf)
  cases hbehind : rest.takeWhile continues with
  | nil =>
    -- The word would end where it still has the form of a numeral.
    rw [hbehind, List.append_nil] at hword
    rcases exists_kind hw hf hword (hword ▸ hne) with ⟨s, ds, hk⟩ | ⟨s, ds, es, hk⟩ | hk | hk
    · exact absurd hk (hinteger s ds)
    · exact absurd hk (hdecimal s ds es)
    · exact absurd hk hsign.1
    · exact absurd hk hsign.2
  | cons x behind =>
    have hafter : rest = x :: (behind ++ (stop c).rest) := by
      rw [hstop, ← List.cons_append, ← hbehind, List.takeWhile_append_dropWhile]
    have hx : isStop x = false := by
      have hmem : x ∈ word c := by simp [hword, hbehind]
      simpa [continues_eq_not_isStop] using Cursor.of_mem_run hmem
    obtain ⟨hdigit, hpoint⟩ := hrest x (by simp [hafter])
    refine ⟨start.sign.text ++ (whole ++ fractionText fraction), x, behind, ?_, ?_⟩
    · rw [hword, hbehind]
      exact breaks_of_span hw hf hdigit hpoint hne
    · obtain ⟨hfault, hcursor⟩ := scan_fault hw hf hx hdigit hpoint
        (c.position.advance start.sign.text) (behind ++ (stop c).rest)
      rw [hafter] at hspan
      have hread := read_eq_finish h hspan c.position
      rw [← hfirst, finish_of_fault hfault, hcursor, ← Position.advance_append] at hread
      exact hread

/-- The word decides what a numeral is read as, and where reading stops. -/
theorem read_word (hc : c.current = some first) (h : Start.ofChar? first = some start) :
    (∀ s ds, IntegerWord (word c) s ds →
      if -2 ^ 63 ≤ s.apply (positional ds) ∧ s.apply (positional ds) ≤ 2 ^ 63 - 1 then
        ∃ n : Int64, n.toInt = s.apply (positional ds) ∧
          read start c = (.success (.integer n) [], stop c)
      else
        read start c = (.failure [(stop c).error
          (.numeral (.malformed (String.ofList (withoutPlus (word c)))))], stop c)) ∧
    (∀ s whole fraction, DecimalWord (word c) s whole fraction →
      ∃ d, (∀ e, Double.Rounds s.negative (decimalValue whole fraction) e ↔ e = d) ∧
        read start c = (.success (.double d) [], stop c)) ∧
    (word c = ['+'] ∨ word c = ['-'] →
      read start c = (.failure [(stop c).error (.numeral .endOfText)], stop c)) ∧
    ((∀ s ds, ¬IntegerWord (word c) s ds) →
      (∀ s whole fraction, ¬DecimalWord (word c) s whole fraction) →
      word c ≠ ['+'] ∧ word c ≠ ['-'] →
      ∃ before x behind, Breaks (word c) before x behind ∧
        let fault : Cursor := ⟨x :: (behind ++ (stop c).rest), c.position.advance before⟩
        read start c = (.failure [fault.error (.numeral (.unexpected x))], fault)) := by
  refine ⟨?_, ?_, read_signWord hc h, read_brokenWord hc h⟩
  · intro s ds hword
    have hread := read_integerWord hc h hword
    rw [digitsValue_eq_positional] at hread
    by_cases hfits : FitsInt64 (s.apply (positional ds))
    · rw [if_pos ((fitsInt64_iff _).1 hfits)]
      rw [if_pos hfits] at hread
      exact ⟨_, Int64.toInt_ofInt_of_le hfits.1 (Int.lt_add_one_of_le hfits.2), hread⟩
    · rw [if_neg fun hboth => hfits ((fitsInt64_iff _).2 hboth)]
      rwa [if_neg hfits] at hread
  · intro s whole fraction hword
    exact ⟨_, rounds_decimalValue_iff s.negative whole fraction, read_decimalWord hc h hword⟩

/-- One numeral of each kind, the integer on either side of its bound. -/
theorem read_word_each :
    read .minus (.ofText "-09223372036854775808/") =
        (.success (.integer Int64.minValue) [], ⟨['/'], ⟨21, 1, 22⟩⟩) ∧
      read .plus (.ofText "+9223372036854775808") =
        (.failure [⟨.numeral (.malformed "9223372036854775808"), 1, 21, .error⟩],
          ⟨[], ⟨20, 1, 21⟩⟩) ∧
      (∃ d, Double.Rounds true (1 / 2) d ∧
        read .minus (.ofText "-.5 x") = (.success (.double d) [], ⟨[' ', 'x'], ⟨3, 1, 4⟩⟩)) ∧
      read .plus (.ofText "+") =
        (.failure [⟨.numeral .endOfText, 1, 2, .error⟩], ⟨[], ⟨1, 1, 2⟩⟩) ∧
      ∃ before x behind, Breaks ['1', '.', '2', '.', 'e'] before x behind ∧
        let fault : Cursor := ⟨x :: behind, Position.origin.advance before⟩
        read (.digit '1') (.ofText "1.2.e") =
          (.failure [fault.error (.numeral (.unexpected x))], fault) := by
  refine ⟨?_, ?_, ?_, ?_, ?_⟩
  · have hc : (Cursor.ofText "-09223372036854775808/").current = some '-' := by decide +kernel
    have hword := (read_word hc rfl).1 .minus "09223372036854775808".toList
      ⟨by decide +kernel, by decide +kernel, by decide +kernel⟩
    rw [if_pos (by decide +kernel)] at hword
    obtain ⟨n, hn, hread⟩ := hword
    obtain rfl : n = Int64.minValue := Int64.toInt_inj.1 (hn.trans (by decide +kernel))
    rw [hread]
    decide +kernel
  · have hc : (Cursor.ofText "+9223372036854775808").current = some '+' := by decide +kernel
    have hword := (read_word hc rfl).1 .plus "9223372036854775808".toList
      ⟨by decide +kernel, by decide +kernel, by decide +kernel⟩
    rw [if_neg (by decide +kernel)] at hword
    rw [hword]
    decide +kernel
  · have hc : (Cursor.ofText "-.5 x").current = some '-' := by decide +kernel
    obtain ⟨d, hd, hread⟩ := (read_word hc rfl).2.1 .minus [] ['5']
      ⟨by decide +kernel, by decide +kernel, by decide +kernel⟩
    have hvalue : decimalValue [] ['5'] = 1 / 2 := by decide +kernel
    exact ⟨d, hvalue ▸ (hd d).2 rfl, hread⟩
  · have hc : (Cursor.ofText "+").current = some '+' := by decide +kernel
    rw [(read_word hc rfl).2.2.1 (by decide +kernel)]
    decide +kernel
  · have hc : (Cursor.ofText "1.2.e").current = some '1' := by decide +kernel
    have hword : word (.ofText "1.2.e") = ['1', '.', '2', '.', 'e'] := by decide +kernel
    have hstop : (stop (.ofText "1.2.e")).rest = [] := by decide +kernel
    have hsign (s : Sign) : 'e' ∉ s.text := by cases s <;> decide
    have hdigits {ds : List Char} (hd : AllDigits ds) : 'e' ∉ ds :=
      fun hmem => absurd (hd 'e' hmem) (by decide)
    have hbroken := (read_word hc rfl).2.2.2
    rw [hword, hstop] at hbroken
    simp only [List.append_nil] at hbroken
    refine hbroken ?_ ?_ (by decide)
    · rintro s ds ⟨hw, hd, -⟩
      have hmem : 'e' ∈ s.text ++ ds := hw ▸ by decide
      simp [hsign, hdigits hd] at hmem
    · rintro s whole fraction ⟨hw, hd, hf⟩
      have hmem : 'e' ∈ s.text ++ (whole ++ '.' :: fraction) := hw ▸ by decide
      simp [hsign, hdigits hd, hdigits hf] at hmem

/-- The words of the rule `["+" | "-"] (digit+ ["." digit*] | "." digit+)`. -/
inductive Derived : List Char → Prop where
  | integer (s : Sign) {ds : List Char} (hd : AllDigits ds) (hne : ds ≠ []) : Derived (s.text ++ ds)
  | decimal (s : Sign) {whole fraction : List Char} (hw : AllDigits whole) (hne : whole ≠ [])
      (hf : AllDigits fraction) : Derived (s.text ++ (whole ++ '.' :: fraction))
  | fraction (s : Sign) {ds : List Char} (hd : AllDigits ds) (hne : ds ≠ []) :
      Derived (s.text ++ '.' :: ds)

theorem AllDigits.exists_digit {ds : List Char} (hd : AllDigits ds) (hne : ds ≠ []) :
    ∃ x ∈ ds, CharClass.isDigit x = true :=
  ⟨ds.head hne, ds.head_mem hne, hd _ (ds.head_mem hne)⟩

theorem Derived.exists_digit {w : List Char} (h : Derived w) :
    ∃ x ∈ w, CharClass.isDigit x = true := by
  cases h with
  | integer s hd hne =>
    obtain ⟨x, hx, hdigit⟩ := hd.exists_digit hne
    exact ⟨x, by simp [hx], hdigit⟩
  | decimal s hw hne hf =>
    obtain ⟨x, hx, hdigit⟩ := hw.exists_digit hne
    exact ⟨x, by simp [hx], hdigit⟩
  | fraction s hd hne =>
    obtain ⟨x, hx, hdigit⟩ := hd.exists_digit hne
    exact ⟨x, by simp [hx], hdigit⟩

theorem isDigit_of_mem_point {s : Sign} {x : Char} (h : x ∈ s.text ++ ['.']) :
    CharClass.isDigit x = false := by
  rcases List.mem_append.1 h with hsign | hpoint
  · cases s <;> simp [Sign.text] at hsign <;> subst hsign <;> decide
  · obtain rfl := List.mem_singleton.1 hpoint
    decide

theorem IntegerWord.derived {w : List Char} {s : Sign} {ds : List Char} (h : IntegerWord w s ds) :
    Derived w := by
  obtain ⟨rfl, hd, hne⟩ := h
  exact .integer s hd hne

theorem DecimalWord.derived {w : List Char} {s : Sign} {whole fraction : List Char}
    (h : DecimalWord w s whole fraction) (hne : whole ≠ [] ∨ fraction ≠ []) : Derived w := by
  obtain ⟨rfl, hw, hf⟩ := h
  by_cases hwhole : whole = []
  · subst hwhole
    exact .fraction s hf (hne.resolve_left fun hnot => hnot rfl)
  · exact .decimal s hw hwhole hf

theorem decimal_nil (negative : Bool) :
    NumberText.decimal negative [] [] = .ofRank negative 0 := by
  cases negative <;> decide +kernel

/-- Only words with digits or a point are read, and they are read to their end. -/
theorem exists_kind_of_read (hc : c.current = some first) (h : Start.ofChar? first = some start)
    {n : Number} {ds : List Diagnostic} {c' : Cursor} (hread : read start c = (.success n ds, c')) :
    c' = stop c ∧ ((∃ s ds, IntegerWord (word c) s ds) ∨
      ∃ s whole fraction, DecimalWord (word c) s whole fraction ∧
        n = .double (NumberText.decimal s.negative whole fraction)) := by
  by_cases hinteger : ∃ s ds, IntegerWord (word c) s ds
  · obtain ⟨s, es, hword⟩ := hinteger
    rw [read_integerWord hc h hword] at hread
    split_ifs at hread with hfits
    · obtain ⟨-, rfl⟩ := Prod.mk.inj hread
      exact ⟨rfl, .inl ⟨s, es, hword⟩⟩
    · cases hread
  by_cases hdecimal : ∃ s whole fraction, DecimalWord (word c) s whole fraction
  · obtain ⟨s, whole, fraction, hword⟩ := hdecimal
    rw [read_decimalWord hc h hword] at hread
    cases hread
    exact ⟨rfl, .inr ⟨s, whole, fraction, hword, rfl⟩⟩
  by_cases hsign : word c = ['+'] ∨ word c = ['-']
  · rw [read_signWord hc h hsign] at hread
    cases hread
  · obtain ⟨before, x, behind, -, hbroken⟩ := read_brokenWord hc h (by simpa using hinteger)
      (by simpa using hdecimal) (by simpa using hsign)
    rw [hbroken] at hread
    cases hread

/-- A numeral that is read is derived by the grammar as soon as it has a digit. If it has none, it
is a point with at most a sign, and read as zero. -/
theorem derived_of_read (hc : c.current = some first) (h : Start.ofChar? first = some start)
    {n : Number} {ds : List Diagnostic} {c' : Cursor} (hread : read start c = (.success n ds, c')) :
    ∃ w, c.rest = w ++ c'.rest ∧ c'.position = c.position.advance w ∧
      (Derived w ↔ ∃ x ∈ w, CharClass.isDigit x = true) ∧
      (¬Derived w → ∃ s : Sign, w = s.text ++ ['.'] ∧ n = .double (.ofRank s.negative 0)) := by
  obtain ⟨rfl, hkind⟩ := exists_kind_of_read hc h hread
  refine ⟨word c, rest_eq_word_append c, rfl, ?_⟩
  have hcases : Derived (word c) ∨
      ∃ s : Sign, word c = s.text ++ ['.'] ∧ n = .double (.ofRank s.negative 0) := by
    rcases hkind with ⟨s, es, hword⟩ | ⟨s, whole, fraction, hword, hn⟩
    · exact .inl hword.derived
    · by_cases hnil : whole = [] ∧ fraction = []
      · obtain ⟨rfl, rfl⟩ := hnil
        exact .inr ⟨s, hword.word, by rw [hn, decimal_nil]⟩
      · exact .inl (hword.derived (by tauto))
  refine ⟨⟨Derived.exists_digit, ?_⟩, hcases.resolve_left⟩
  rintro ⟨x, hx, hdigit⟩
  refine hcases.resolve_right ?_
  rintro ⟨s, hword, -⟩
  simp [isDigit_of_mem_point (hword ▸ hx)] at hdigit

theorem derived_of_read_fraction :
    read .minus (.ofText "-.5/") =
        (.success (.double (NumberText.decimal true [] ['5'])) [], ⟨['/'], ⟨3, 1, 4⟩⟩) ∧
      Derived ['-', '.', '5'] := by
  have hc : (Cursor.ofText "-.5/").current = some '-' := by decide +kernel
  have hread : read .minus (.ofText "-.5/") =
      (.success (.double (NumberText.decimal true [] ['5'])) [], ⟨['/'], ⟨3, 1, 4⟩⟩) := by
    decide +kernel
  obtain ⟨w, hw, -, hderived, -⟩ := derived_of_read hc rfl hread
  have htext : ['-', '.', '5'] ++ ['/'] = w ++ ['/'] := hw
  obtain rfl := List.append_cancel_right htext
  exact ⟨hread, hderived.2 ⟨'5', by decide⟩⟩

/-- A point alone is read as zero, which the grammar does not derive. -/
theorem read_point_alone :
    read .point (.ofText ".") = (.success (.double (.ofRank false 0)) [], ⟨[], ⟨1, 1, 2⟩⟩) ∧
      ¬Derived ['.'] := by
  refine ⟨by decide +kernel, fun hderived => ?_⟩
  obtain ⟨x, hx, hdigit⟩ := hderived.exists_digit
  simp [isDigit_of_mem_point (s := .absent) hx] at hdigit

end Reading
end Numeral
end ConfigBlock
