import ConfigBlock.Proofs.Reading
import ConfigBlock.Value.Numeral
import Mathlib.Tactic.ByContra
import Mathlib.Tactic.SplitIfs

/-!
# The form of a numeral

A numeral is an optional sign and digits, perhaps with a point among them, in front of them
or behind them. Without a point the digits must be there and their number must fit 64 bits.
Reading succeeds exactly on such a numeral with nothing but a stop behind it.
-/

namespace ConfigBlock
namespace Numeral

open ConfigBlock.Parser

inductive Sign where
  | absent
  | plus
  | minus
  deriving DecidableEq

namespace Sign

def text : Sign → List Char
  | .absent => []
  | .plus => ['+']
  | .minus => ['-']

def negative (s : Sign) : Bool := s = .minus

def apply (s : Sign) (n : Nat) : Int := if s.negative then -n else n

end Sign

/-- The numbers that fit 64 bits. -/
def FitsInt64 (n : Int) : Prop := Int64.minValue.toInt ≤ n ∧ n ≤ Int64.maxValue.toInt

instance (n : Int) : Decidable (FitsInt64 n) := inferInstanceAs (Decidable (_ ∧ _))

def AllDigits (ds : List Char) : Prop := ∀ c ∈ ds, CharClass.isDigit c = true

instance (ds : List Char) : Decidable (AllDigits ds) :=
  decidable_of_iff (ds.all CharClass.isDigit = true) List.all_eq_true

structure Form where
  sign : Sign
  whole : List Char
  /-- The digits behind the point, if there is a point. -/
  fraction : Option (List Char)
  whole_digits : AllDigits whole
  fraction_digits : ∀ ds ∈ fraction, AllDigits ds
  integral : fraction = none →
    whole ≠ [] ∧ FitsInt64 (sign.apply (NumberText.digitsValue whole))

def fractionText : Option (List Char) → List Char
  | none => []
  | some ds => '.' :: ds

namespace Form

def text (f : Form) : List Char := f.sign.text ++ f.whole ++ fractionText f.fraction

def value (f : Form) : Number :=
  match f.fraction with
  | none => .integer (.ofInt (f.sign.apply (NumberText.digitsValue f.whole)))
  | some ds => .double (NumberText.decimal f.sign.negative f.whole ds)

end Form

/-- The text is over, or a character that ends a numeral comes next. -/
def Stops (rest : List Char) : Prop := ∀ c ∈ rest.head?, isStop c = true

theorem isStop_iff (c : Char) : isStop c = true ↔ c = ' ' ∨ c = '/' ∨ c = '\n' := by
  simp [isStop, or_assoc, or_comm, or_left_comm]

theorem isStop_of_isDigit {c : Char} (h : CharClass.isDigit c = true) : isStop c = false := by
  rcases hs : isStop c with _ | _
  · rfl
  · rcases (isStop_iff c).1 hs with rfl | rfl | rfl <;> exact absurd h (by decide)

/-- The phase a scan is in after some digits. -/
def afterDigits (phase : Phase) (ds : List Char) : Phase :=
  if phase = .sign ∧ ds ≠ [] then .whole else phase

theorem scan_stop {rest : List Char} (h : Stops rest) (phase : Phase) (p : Position) :
    scan phase p rest = ⟨[], phase, none, ⟨rest, p⟩⟩ := by
  cases rest with
  | nil => rfl
  | cons c cs => simp [scan, h c (by simp)]

theorem scan_digits {ds : List Char} (hd : AllDigits ds) (phase : Phase) (p : Position)
    (cs : List Char) :
    scan phase p (ds ++ cs) = (scan (afterDigits phase ds) (p.advance ds) cs).push ds := by
  induction ds generalizing phase p with
  | nil => simp [afterDigits, Scan.push]
  | cons d ds ih =>
    have hdigit := hd d (by simp)
    have hrest := ih (fun c hc => hd c (by simp [hc])) (if phase = .sign then .whole else phase)
      (p.step d)
    have hphase : afterDigits (if phase = .sign then .whole else phase) ds =
        afterDigits phase (d :: ds) := by
      cases phase <;> simp [afterDigits]
    simp [scan, isStop_of_isDigit hdigit, hdigit, hrest, hphase, Scan.push]

theorem scan_point {phase : Phase} (h : phase ≠ .fraction) (p : Position) (cs : List Char) :
    scan phase p ('.' :: cs) = (scan .fraction (p.step '.') cs).push
      (if phase = .sign then ['0', '.'] else ['.']) := by
  have hs : isStop '.' = false := by decide
  have hd : CharClass.isDigit '.' = false := by decide
  cases phase <;> simp_all [scan]

/-- The text a scan collects for the digits of a numeral. -/
def collected (whole : List Char) : Option (List Char) → List Char
  | none => whole
  | some ds => (if whole = [] then ['0'] else whole) ++ '.' :: ds

/-- The phase a scan is in behind the digits and the point of a numeral. -/
def phaseBehind (whole : List Char) (fraction : Option (List Char)) : Phase :=
  if fraction = none then afterDigits .sign whole else .fraction

/-- Whatever follows them, a scan goes over the digits and the point of a numeral. -/
theorem scan_span {whole : List Char} {fraction : Option (List Char)} (hw : AllDigits whole)
    (hf : ∀ ds ∈ fraction, AllDigits ds) (p : Position) (rest : List Char) :
    scan .sign p (whole ++ fractionText fraction ++ rest) =
      (scan (phaseBehind whole fraction) (p.advance (whole ++ fractionText fraction)) rest).push
        (collected whole fraction) := by
  rw [List.append_assoc, scan_digits hw]
  cases fraction with
  | none => simp [fractionText, collected, phaseBehind]
  | some ds =>
    have hp : afterDigits .sign whole ≠ .fraction := by
      unfold afterDigits
      split_ifs <;> decide
    have hd : AllDigits ds := hf ds rfl
    simp only [fractionText, List.cons_append]
    rw [scan_point hp, scan_digits hd]
    by_cases hn : whole = []
    · simp [hn, afterDigits, Scan.push, collected, phaseBehind]
    · simp [hn, afterDigits, Scan.push, collected, phaseBehind]

theorem scan_unsigned {whole : List Char} {fraction : Option (List Char)} (hw : AllDigits whole)
    (hf : ∀ ds ∈ fraction, AllDigits ds) {rest : List Char} (hr : Stops rest) (p : Position) :
    scan .sign p (whole ++ fractionText fraction ++ rest) =
      ⟨collected whole fraction, if fraction = none then afterDigits .sign whole else .fraction,
        none, ⟨rest, p.advance (whole ++ fractionText fraction)⟩⟩ := by
  rw [scan_span hw hf, scan_stop hr]
  simp [Scan.push, phaseBehind]

theorem exists_digits_of_scan {phase : Phase} {p : Position} {cs : List Char}
    (h : (scan phase p cs).fault = none) :
    ∃ whole fraction, AllDigits whole ∧ (∀ ds ∈ fraction, AllDigits ds) ∧
      (phase = .fraction → fraction = none) ∧ Stops (scan phase p cs).cursor.rest ∧
        cs = whole ++ fractionText fraction ++ (scan phase p cs).cursor.rest := by
  induction cs generalizing phase p with
  | nil => exact ⟨[], none, by simp [AllDigits, scan, Stops, fractionText]⟩
  | cons c cs ih =>
    by_cases hs : isStop c = true
    · exact ⟨[], none, by simp [AllDigits, scan, Stops, fractionText, hs]⟩
    · by_cases hd : CharClass.isDigit c = true
      · have he : scan phase p (c :: cs) =
            (scan (if phase = .sign then .whole else phase) (p.step c) cs).push [c] := by
          simp [scan, hs, hd]
        rw [he] at h ⊢
        obtain ⟨whole, fraction, hw, hf, hp, hr, hcs⟩ := ih h
        refine ⟨c :: whole, fraction, ?_, hf, ?_, hr, ?_⟩
        · simpa [AllDigits, hd] using hw
        · exact fun hphase => hp (by simp [hphase])
        · simpa using hcs
      · by_cases hc : c = '.' ∧ phase ≠ .fraction
        · obtain ⟨rfl, hphase⟩ := hc
          rw [scan_point hphase] at h ⊢
          obtain ⟨ds, fraction, hw, hf, hp, hr, hcs⟩ := ih h
          obtain rfl := hp rfl
          refine ⟨[], some ds, by simp [AllDigits], ?_, by simp [hphase], hr, ?_⟩
          · intro es hes
            obtain rfl : ds = es := by simpa using hes
            exact hw
          · simpa [fractionText] using hcs
        · have hfault : (scan phase p (c :: cs)).fault = some c := by
            cases phase <;> simp_all [scan]
          simp [hfault] at h

def Sign.kept (s : Sign) : List Char := if s.negative then ['-'] else []

theorem splitSign_kept (s : Sign) {text : List Char} (h : ∀ c ∈ text.head?, c ≠ '-' ∧ c ≠ '+') :
    NumberText.splitSign (s.kept ++ text) = (s.negative, text) := by
  cases s with
  | minus => rfl
  | absent | plus =>
    cases text with
    | nil => rfl
    | cons c cs =>
      obtain ⟨hm, hp⟩ := h c (by simp)
      simp_all [Sign.kept, Sign.negative, NumberText.splitSign]

theorem head?_ne_sign {ds : List Char} (hd : AllDigits ds) : ∀ c ∈ ds.head?, c ≠ '-' ∧ c ≠ '+' := by
  intro c hc
  have hdigit := hd c (List.mem_of_mem_head? hc)
  constructor <;> rintro rfl <;> exact absurd hdigit (by decide)

theorem readInteger?_kept (s : Sign) {ds : List Char} (hd : AllDigits ds) :
    NumberText.readInteger? (s.kept ++ ds) =
      if ds ≠ [] ∧ FitsInt64 (s.apply (NumberText.digitsValue ds)) then
        some (.ofInt (s.apply (NumberText.digitsValue ds)))
      else none := by
  have hall : ds.all CharClass.isDigit = true := List.all_eq_true.2 hd
  simp [NumberText.readInteger?, splitSign_kept s (head?_ne_sign hd), hall, Sign.apply,
    FitsInt64]

theorem digitsValue_zero_cons (ds : List Char) :
    NumberText.digitsValue ('0' :: ds) = NumberText.digitsValue ds := by
  simp [NumberText.digitsValue, Nat.ofDigitChars_cons]

theorem readDouble?_kept (s : Sign) {whole ds : List Char} (hw : AllDigits whole)
    (hd : AllDigits ds) :
    NumberText.readDouble? (s.kept ++ collected whole (some ds)) =
      some (NumberText.decimal s.negative whole ds) := by
  have hpoint : CharClass.isDigit '.' = false := by decide
  have hall : ds.all CharClass.isDigit = true := List.all_eq_true.2 hd
  by_cases hn : whole = []
  · subst hn
    have hz : CharClass.isDigit '0' = true := by decide
    rw [NumberText.readDouble?, splitSign_kept s (by simp [collected])]
    simp [collected, hz, hpoint, hall, NumberText.decimal, digitsValue_zero_cons]
  · have hhead : ∀ c ∈ (whole ++ '.' :: ds).head?, c ≠ '-' ∧ c ≠ '+' := by
      obtain ⟨c, cs, rfl⟩ := List.exists_cons_of_ne_nil hn
      simpa using head?_ne_sign hw
    have hsplit := splitSign_kept s hhead
    simp [NumberText.readDouble?, collected, hn, hsplit, List.takeWhile_append_of_pos hw,
      List.dropWhile_append_of_pos hw, hpoint, hall]

def Start.sign : Start → Sign
  | .minus => .minus
  | .plus => .plus
  | .point => .absent
  | .digit _ => .absent

theorem Start.exists_unsigned {first : Char} {start : Start}
    (h : Start.ofChar? first = some start) (cs : List Char) :
    ∃ unsigned, first :: cs = start.sign.text ++ unsigned ∧
      (start.sign.text = [] → CharClass.isDigit first = true ∨ first = '.') := by
  unfold Start.ofChar? at h
  split_ifs at h with hm hp hd hdigit
  · cases h
    exact ⟨cs, by simp [Start.sign, Sign.text, hm], by simp [Start.sign, Sign.text]⟩
  · cases h
    exact ⟨cs, by simp [Start.sign, Sign.text, hp], by simp [Start.sign, Sign.text]⟩
  · cases h
    exact ⟨first :: cs, rfl, fun _ => .inr hd⟩
  · cases h
    exact ⟨first :: cs, rfl, fun _ => .inl hdigit⟩

/-- What a numeral is read as, given the sign kept and the scan behind it. -/
def finish (kept : List Char) (s : Scan) : Outcome Number × Cursor :=
  let fail (problem : NumeralProblem) : Outcome Number × Cursor :=
    (.failure [s.cursor.error (.numeral problem)], s.cursor)
  match s.fault with
  | some x => fail (.unexpected x)
  | none =>
    match value (kept ++ s.written) s.phase with
    | .ok n => (.success n [], s.cursor)
    | .error problem => fail problem

theorem finish_push (kept cs : List Char) (s : Scan) :
    finish kept (s.push cs) = finish (kept ++ cs) s := by
  simp [finish, Scan.push]

/-- Whatever character a numeral starts with, it is read as if its digits were scanned from
behind the sign on. -/
theorem read_eq_finish {first : Char} {start : Start} (h : Start.ofChar? first = some start)
    {cs unsigned : List Char} (hu : first :: cs = start.sign.text ++ unsigned) (p : Position) :
    read start ⟨first :: cs, p⟩ =
      finish start.sign.kept (scan .sign (p.advance start.sign.text) unsigned) := by
  have hread : read start ⟨first :: cs, p⟩ =
      finish start.written (scan start.phase (p.step first) cs) := rfl
  rw [hread]
  unfold Start.ofChar? at h
  split_ifs at h with hm hp hd hdigit
  · obtain rfl : Start.minus = start := by simpa using h
    obtain ⟨rfl, rfl⟩ : first = '-' ∧ cs = unsigned := by simpa [Start.sign, Sign.text] using hu
    rfl
  · obtain rfl : Start.plus = start := by simpa using h
    obtain ⟨rfl, rfl⟩ : first = '+' ∧ cs = unsigned := by simpa [Start.sign, Sign.text] using hu
    rfl
  · obtain rfl : Start.point = start := by simpa using h
    obtain rfl : first :: cs = unsigned := by simpa [Start.sign, Sign.text] using hu
    subst hd
    have hscan := scan_point (by decide : Phase.sign ≠ .fraction) p cs
    simp [Start.sign, Sign.text, Sign.kept, Sign.negative, hscan, finish_push, Start.written,
      Start.phase]
  · obtain rfl : Start.digit first = start := by simpa using h
    obtain rfl : first :: cs = unsigned := by simpa [Start.sign, Sign.text] using hu
    simp [Start.sign, Sign.text, Sign.kept, Sign.negative, scan, isStop_of_isDigit hdigit,
      hdigit, finish_push, Start.written, Start.phase]

theorem finish_of_fraction (s : Sign) {whole ds : List Char} (hw : AllDigits whole)
    (hd : AllDigits ds) (c : Cursor) :
    finish s.kept ⟨collected whole (some ds), .fraction, none, c⟩ =
      (.success (.double (NumberText.decimal s.negative whole ds)) [], c) := by
  simp [finish, value, readDouble?_kept s hw hd]

theorem finish_of_whole (s : Sign) {whole : List Char} (hw : AllDigits whole)
    (hf : whole ≠ [] ∧ FitsInt64 (s.apply (NumberText.digitsValue whole))) (c : Cursor) :
    finish s.kept ⟨collected whole none, .whole, none, c⟩ =
      (.success (.integer (.ofInt (s.apply (NumberText.digitsValue whole)))) [], c) := by
  have hread := readInteger?_kept s hw
  rw [if_pos hf] at hread
  simp [finish, value, collected, hread]

theorem Form.finish_eq (f : Form) {rest : List Char} (h : Stops rest) (p : Position) :
    finish f.sign.kept (scan .sign p (f.whole ++ fractionText f.fraction ++ rest)) =
      (.success f.value [], ⟨rest, p.advance (f.whole ++ fractionText f.fraction)⟩) := by
  rw [scan_unsigned f.whole_digits f.fraction_digits h]
  cases hf : f.fraction with
  | none =>
    have hi := f.integral hf
    simp only [if_pos, afterDigits, hi.1, ne_eq, not_false_eq_true, and_self]
    rw [finish_of_whole f.sign f.whole_digits hi]
    simp [Form.value, hf]
  | some ds =>
    simp only [reduceCtorEq, if_false]
    rw [finish_of_fraction f.sign f.whole_digits (f.fraction_digits ds hf)]
    simp [Form.value, hf]

/-- The first character of a numeral tells its sign, and a leading point is a point. -/
theorem Form.exists_start (f : Form) :
    ∃ first cs start, f.text = first :: cs ∧ Start.ofChar? first = some start ∧
      start.sign = f.sign ∧ (start = .point → f.fraction ≠ none) := by
  cases hs : f.sign with
  | minus =>
    exact ⟨'-', f.whole ++ fractionText f.fraction, .minus, by simp [Form.text, hs, Sign.text],
      rfl, rfl, nofun⟩
  | plus =>
    exact ⟨'+', f.whole ++ fractionText f.fraction, .plus, by simp [Form.text, hs, Sign.text],
      rfl, rfl, nofun⟩
  | absent =>
    cases hw : f.whole with
    | nil =>
      cases hf : f.fraction with
      | none => exact absurd hw (f.integral hf).1
      | some ds =>
        exact ⟨'.', ds, .point, by simp [Form.text, hs, hw, hf, Sign.text, fractionText], rfl, rfl,
          by simp⟩
    | cons d ds =>
      have hd : CharClass.isDigit d = true := f.whole_digits d (by simp [hw])
      have hne : d ≠ '-' ∧ d ≠ '+' ∧ d ≠ '.' := by
        refine ⟨?_, ?_, ?_⟩ <;> rintro rfl <;> exact absurd hd (by decide)
      exact ⟨d, ds ++ fractionText f.fraction, .digit d, by simp [Form.text, hs, hw, Sign.text],
        by simp [Start.ofChar?, hne, hd], rfl, nofun⟩

theorem Form.reads (f : Form) {first : Char} {cs : List Char} {start : Start}
    (htext : f.text = first :: cs) (hstart : Start.ofChar? first = some start)
    (hsign : start.sign = f.sign) {rest : List Char} (h : Stops rest) :
    (read start).Reads f.text rest f.value silent := by
  intro pos
  have hu : first :: (cs ++ rest) =
      start.sign.text ++ (f.whole ++ fractionText f.fraction ++ rest) := by
    rw [← List.cons_append, ← htext, hsign, Form.text]
    simp
  rw [htext, List.cons_append, read_eq_finish hstart hu, hsign, f.finish_eq h, ← htext, Form.text]
  simp [silent]

theorem finish_eq_success {kept : List Char} {s : Scan} {n : Number} {ds : List Diagnostic}
    {c : Cursor} (h : finish kept s = (.success n ds, c)) :
    s.fault = none ∧ c = s.cursor ∧ value (kept ++ s.written) s.phase = .ok n := by
  rcases hf : s.fault with _ | x
  · rcases hv : value (kept ++ s.written) s.phase with problem | m
    · simp [finish, hf, hv] at h
    · simp_all [finish]
  · simp [finish, hf] at h

/-- Digits without a point that were read as a number are there and fit. -/
theorem integral_of_value (s : Sign) {whole : List Char} (hw : AllDigits whole) {n : Number}
    (h : value (s.kept ++ whole) (afterDigits .sign whole) = .ok n) :
    whole ≠ [] ∧ FitsInt64 (s.apply (NumberText.digitsValue whole)) := by
  by_cases hn : whole = []
  · simp [hn, afterDigits, value] at h
  · by_contra hfit
    have hread := readInteger?_kept s hw
    rw [if_neg hfit] at hread
    simp [afterDigits, hn, value, hread] at h

theorem exists_form_of_read {first : Char} {start : Start} {cs : List Char} {p : Position}
    (h : Start.ofChar? first = some start) {n : Number} {ds : List Diagnostic} {c' : Cursor}
    (hread : read start ⟨first :: cs, p⟩ = (.success n ds, c')) :
    ∃ f : Form, first :: cs = f.text ++ c'.rest ∧ Stops c'.rest := by
  obtain ⟨unsigned, hu, -⟩ := Start.exists_unsigned h cs
  rw [read_eq_finish h hu] at hread
  obtain ⟨hfault, rfl, hvalue⟩ := finish_eq_success hread
  obtain ⟨whole, fraction, hw, hf, -, hstops, htext⟩ := exists_digits_of_scan hfault
  have hscan := scan_unsigned hw hf hstops (p.advance start.sign.text)
  rw [← htext] at hscan
  have hi : fraction = none →
      whole ≠ [] ∧ FitsInt64 (start.sign.apply (NumberText.digitsValue whole)) := by
    rintro rfl
    rw [hscan] at hvalue
    exact integral_of_value start.sign hw hvalue
  refine ⟨⟨start.sign, whole, fraction, hw, hf, hi⟩, ?_, hstops⟩
  rw [hu, Form.text, List.append_assoc, List.append_assoc, ← List.append_assoc whole, ← htext]

end Numeral
end ConfigBlock
