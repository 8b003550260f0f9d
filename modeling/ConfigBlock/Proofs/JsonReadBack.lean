import ConfigBlock.Json.Reader
import ConfigBlock.Json.Writer
import ConfigBlock.Proofs.ReadBack

/-!
# Reading JSON back

A document that was written, in either layout, is read as the same document. Each part is read
from the front of a text, whatever stands behind it, as long as that does not go on with a
numeral. The reader's bound counts nested calls; twice the length of the text is enough of it.
-/

namespace ConfigBlock
namespace Json

theorem hexValue?_hexDigit (n : Nat) : hexValue? (hexDigit n) = some (n % 16) := by
  have hall : ∀ k < 16, hexValue? (Nat.digitChar k) = some k := by decide
  exact hall (n % 16) (Nat.mod_lt n (by decide))

theorem decode?_char (c : Char) (ps : List Piece) :
    decode? (.char c :: ps) = (decode? ps).map (c :: ·) := by
  simp [decode?, Option.map_eq_bind]

/-- A unit that is no half of a pair stands for itself, whatever follows. -/
theorem decode?_unit {n : Nat} (h : n < 0xD800) (ps : List Piece) :
    decode? (.unit n :: ps) = (decode? ps).map (Char.ofNat n :: ·) := by
  have hhigh : isHighSurrogate n = false := by
    simp only [isHighSurrogate, Bool.and_eq_false_iff, decide_eq_false_iff_not]
    omega
  have hlow : isLowSurrogate n = false := by
    simp only [isLowSurrogate, Bool.and_eq_false_iff, decide_eq_false_iff_not]
    omega
  rcases ps with _ | ⟨c | m, ps⟩ <;> simp [decode?, hhigh, hlow, Option.map_eq_bind]

theorem pieces?_escape {c e : Char} (h : unescape? c = some e) (rest : List Char) :
    pieces? ('\\' :: c :: rest) = (pieces? rest).map fun r => (.char e :: r.1, r.2) := by
  have hu : c ≠ 'u' := by
    rintro rfl
    simp [unescape?] at h
  rw [pieces?.eq_4]
  · simp [h, Option.map_eq_bind]
  · exact fun _ _ _ _ _ hc => absurd hc hu

theorem pieces?_unit {a b c d : Char} {n₁ n₂ n₃ n₄ : Nat} (ha : hexValue? a = some n₁)
    (hb : hexValue? b = some n₂) (hc : hexValue? c = some n₃) (hd : hexValue? d = some n₄)
    (rest : List Char) :
    pieces? ('\\' :: 'u' :: a :: b :: c :: d :: rest) = (pieces? rest).map fun r =>
      (.unit (n₁ * 4096 + n₂ * 256 + n₃ * 16 + n₄) :: r.1, r.2) := by
  simp [pieces?, ha, hb, hc, hd, Option.map_eq_bind]

theorem pieces?_plain {c : Char} (hcontrol : 32 ≤ c.toNat) (hquote : c ≠ '"') (hback : c ≠ '\\')
    (rest : List Char) :
    pieces? (c :: rest) = (pieces? rest).map fun r => (.char c :: r.1, r.2) := by
  rw [pieces?.eq_5]
  · simp [hback, Nat.not_lt.2 hcontrol, Option.map_eq_bind]
  · exact hquote
  · simp [hback]
  · simp [hback]

/-- Every character of a string is written as a part that stands for it. -/
theorem exists_piece (c : Char) : ∃ p : Piece,
    (∀ rest, pieces? (escapeChar c ++ rest) = (pieces? rest).map fun r => (p :: r.1, r.2)) ∧
      ∀ ps, decode? (p :: ps) = (decode? ps).map (c :: ·) := by
  have hescape {d : Char} (h : unescape? d = some c) : ∃ p : Piece,
      (∀ rest, pieces? (['\\', d] ++ rest) = (pieces? rest).map fun r => (p :: r.1, r.2)) ∧
        ∀ ps, decode? (p :: ps) = (decode? ps).map (c :: ·) :=
    ⟨.char c, pieces?_escape h, decode?_char c⟩
  unfold escapeChar
  split_ifs with hquote hback hb ht hn hf hr hcontrol
  · exact hescape (by rw [hquote]; rfl)
  · exact hescape (by rw [hback]; rfl)
  · exact hescape (by rw [hb]; rfl)
  · exact hescape (by rw [ht]; rfl)
  · exact hescape (by rw [hn]; rfl)
  · exact hescape (by rw [hf]; rfl)
  · exact hescape (by rw [hr]; rfl)
  · have hzero : hexValue? '0' = some 0 := rfl
    have hvalue : 0 * 4096 + 0 * 256 + c.toNat / 16 % 16 * 16 + c.toNat % 16 = c.toNat := by omega
    refine ⟨.unit c.toNat, fun rest => ?_, fun ps => ?_⟩
    · have hunit := pieces?_unit hzero hzero (hexValue?_hexDigit (c.toNat / 16))
        (hexValue?_hexDigit c.toNat) rest
      rw [hvalue] at hunit
      exact hunit
    · rw [decode?_unit (by omega), Char.ofNat_toNat]
  · exact ⟨.char c, pieces?_plain (by omega) hquote hback, decode?_char c⟩

theorem exists_pieces (cs rest : List Char) :
    ∃ ps, pieces? (cs.flatMap escapeChar ++ '"' :: rest) = some (ps, rest) ∧
      decode? ps = some cs := by
  induction cs with
  | nil => exact ⟨[], by simp [pieces?], rfl⟩
  | cons c cs ih =>
    obtain ⟨ps, hpieces, hdecode⟩ := ih
    obtain ⟨p, hp, hc⟩ := exists_piece c
    refine ⟨p :: ps, ?_, ?_⟩
    · rw [List.flatMap_cons, List.append_assoc, hp, hpieces]
      rfl
    · rw [hc, hdecode]
      rfl

theorem exists_writeString (s : Option String) (rest : List Char) :
    ∃ cs, writeString s ++ rest = '"' :: cs ∧ string? cs = some (s, rest) := by
  cases s with
  | none =>
    have hd : hexValue? 'd' = some 13 := rfl
    have height : hexValue? '8' = some 8 := rfl
    have hzero : hexValue? '0' = some 0 := rfl
    have hpieces := pieces?_unit hd height hzero hzero ('"' :: rest)
    have hend : pieces? ('"' :: rest) = some ([], rest) := by rw [pieces?]
    refine ⟨'\\' :: 'u' :: 'd' :: '8' :: '0' :: '0' :: '"' :: rest, rfl, ?_⟩
    rw [string?, hpieces, hend]
    rfl
  | some s =>
    obtain ⟨ps, hpieces, hdecode⟩ := exists_pieces s.toList rest
    have hwrite : writeString (some s) = '"' :: s.toList.flatMap escapeChar ++ ['"'] := rfl
    refine ⟨s.toList.flatMap escapeChar ++ '"' :: rest, ?_, ?_⟩
    · rw [hwrite, List.append_assoc, List.cons_append, List.singleton_append]
    · rw [string?, hpieces]
      simp [hdecode]

/-- The character behind a numeral does not go on with it. -/
def EndsNumeral (rest : List Char) : Prop :=
  ∀ c ∈ rest.head?, CharClass.isDigit c = false ∧ c ≠ '.' ∧ c ≠ 'e' ∧ c ≠ 'E'

theorem digits?_append {run rest : List Char} (hne : run ≠ []) (hrun : Numeral.AllDigits run)
    (hrest : ∀ c ∈ rest.head?, CharClass.isDigit c = false) :
    digits? (run ++ rest) = some (run, rest) := by
  have htake : (run ++ rest).takeWhile CharClass.isDigit = run :=
    Cursor.run_append hrun rest hrest .origin
  have hdrop : (run ++ rest).dropWhile CharClass.isDigit = rest :=
    congrArg Cursor.rest (Cursor.skipWhile_append hrun rest hrest .origin)
  simp [digits?, htake, hdrop, hne]

theorem head?_toDigits_ne_zero {n : Nat} (h : n ≠ 0) : (Nat.toDigits 10 n).head? ≠ some '0' := by
  induction n using Nat.strongRecOn with
  | ind n ih =>
    by_cases hlt : n < 10
    · have hall : ∀ k < 10, k ≠ 0 → Nat.digitChar k ≠ '0' := by decide
      rw [Nat.toDigits_of_lt_base hlt]
      simpa using hall n hlt h
    · have hdiv := ih (n / 10) (by omega) (by omega)
      obtain ⟨d, ds, hds⟩ := List.exists_cons_of_ne_nil (Nat.toDigits_ne_nil (n := n / 10) (b := 10))
      rw [hds] at hdiv
      rw [Nat.toDigits_of_base_le (by decide) (by omega), hds]
      exact hdiv

theorem whole?_append (n : Nat) {rest : List Char}
    (hrest : ∀ c ∈ rest.head?, CharClass.isDigit c = false) :
    whole? (Nat.toDigits 10 n ++ rest) = some (n, rest) := by
  have hdigits := digits?_append Nat.toDigits_ne_nil (Numeral.allDigits_toDigits n) hrest
  have hzero : ¬((Nat.toDigits 10 n).head? = some '0' ∧ (Nat.toDigits 10 n).length ≠ 1) := by
    rintro ⟨hhead, hlength⟩
    by_cases hn : n = 0
    · simp [hn] at hlength
    · exact head?_toDigits_ne_zero hn hhead
  simp [whole?, hdigits, hzero]

theorem fraction?_append {fraction : List Char} (hdigits : Numeral.AllDigits fraction)
    {rest : List Char} (hrest : ∀ c ∈ rest.head?, CharClass.isDigit c = false ∧ c ≠ '.') :
    fraction? ((if fraction = [] then [] else '.' :: fraction) ++ rest) =
      some (fraction, rest) := by
  split_ifs with hnil
  · subst hnil
    rcases rest with _ | ⟨c, cs⟩
    · rfl
    · rw [List.nil_append, fraction?.eq_2]
      rintro cs' ⟨⟩
      exact (hrest '.' rfl).2 rfl
  · exact digits?_append hnil hdigits fun c hc => (hrest c hc).1

theorem exponentDigits?_sign (sign : Char) (negative : Bool) {cs run rest : List Char}
    (hsign : NumberText.splitSign (sign :: cs) = (negative, cs))
    (hdigits : digits? cs = some (run, rest)) :
    exponentDigits? (sign :: cs) = some (some (if negative then -(NumberText.digitsValue run : Int)
      else NumberText.digitsValue run), rest) := by
  simp [exponentDigits?, hsign, hdigits]

theorem exponent?_append (exponent : Option Int) {rest : List Char} (hrest : EndsNumeral rest) :
    exponent? (JsonNumeral.writeExponent exponent ++ rest) = some (exponent, rest) := by
  cases exponent with
  | none =>
    rcases rest with _ | ⟨c, cs⟩
    · rfl
    · obtain ⟨-, -, he, hE⟩ := hrest c rfl
      change exponent? (c :: cs) = _
      rw [exponent?.eq_3]
      · rintro cs' ⟨⟩
        exact he rfl
      · rintro cs' ⟨⟩
        exact hE rfl
  | some e =>
    have hdigits := digits?_append Nat.toDigits_ne_nil (Numeral.allDigits_toDigits e.natAbs)
      fun c hc => (hrest c hc).1
    rw [JsonNumeral.writeExponent]
    split_ifs with hneg
    · have hvalue : -(e.natAbs : Int) = e := by omega
      refine (exponentDigits?_sign '-' true rfl hdigits).trans ?_
      rw [NumberText.digitsValue_toDigits, if_pos rfl, hvalue]
    · have hvalue : (e.natAbs : Int) = e := by omega
      refine (exponentDigits?_sign '+' false rfl hdigits).trans ?_
      rw [NumberText.digitsValue_toDigits, if_neg (by decide), hvalue]

theorem unsigned?_append {n : JsonNumeral} (hdigits : Numeral.AllDigits n.fraction)
    {rest : List Char} (hrest : EndsNumeral rest) :
    unsigned? n.negative (Nat.toDigits 10 n.whole ++
      ((if n.fraction = [] then [] else '.' :: n.fraction) ++
        (JsonNumeral.writeExponent n.exponent ++ rest))) = some (.number n, rest) := by
  have hexponent : ∀ c ∈ (JsonNumeral.writeExponent n.exponent ++ rest).head?,
      CharClass.isDigit c = false ∧ c ≠ '.' := by
    cases n.exponent with
    | none => exact fun c hc => ⟨(hrest c hc).1, (hrest c hc).2.1⟩
    | some e =>
      rintro c ⟨⟩
      decide
  have hfraction : ∀ c ∈ ((if n.fraction = [] then [] else '.' :: n.fraction) ++
      (JsonNumeral.writeExponent n.exponent ++ rest)).head?, CharClass.isDigit c = false := by
    split_ifs
    · exact fun c hc => (hexponent c hc).1
    · rintro c ⟨⟩
      decide
  simp [unsigned?, whole?_append _ hfraction, fraction?_append hdigits hexponent,
    exponent?_append _ hrest]

theorem value?_digit (bound : Nat) {c : Char} (hc : CharClass.isDigit c = true) (cs : List Char) :
    value? (bound + 1) (c :: cs) = unsigned? false (c :: cs) := by
  rw [value?.eq_def]
  dsimp only
  split
  all_goals first
    | rfl
    | simp_all [CharClass.isDigit]

theorem value?_number {n : JsonNumeral} (hdigits : Numeral.AllDigits n.fraction)
    {rest : List Char} (hrest : EndsNumeral rest) (bound : Nat) :
    value? (bound + 1) (n.write ++ rest) = some (.number n, rest) := by
  have hunsigned := unsigned?_append hdigits hrest
  have hwrite : n.write ++ rest = (if n.negative then ['-'] else []) ++
      (Nat.toDigits 10 n.whole ++ ((if n.fraction = [] then [] else '.' :: n.fraction) ++
        (JsonNumeral.writeExponent n.exponent ++ rest))) := by
    simp [JsonNumeral.write]
  rw [hwrite]
  cases hneg : n.negative with
  | true =>
    rw [hneg] at hunsigned
    exact hunsigned
  | false =>
    obtain ⟨d, ds, hds⟩ := List.exists_cons_of_ne_nil (Nat.toDigits_ne_nil (n := n.whole) (b := 10))
    have hd : CharClass.isDigit d = true :=
      Numeral.allDigits_toDigits n.whole d (by simp [hds])
    rw [hneg, hds] at hunsigned
    rw [hds]
    exact (value?_digit bound hd _).trans hunsigned

theorem skipBlanks_append {blanks : List Char} (hb : ∀ c ∈ blanks, isBlank c = true) {c : Char}
    (hc : isBlank c = false) (cs : List Char) : skipBlanks (blanks ++ c :: cs) = c :: cs := by
  rw [skipBlanks, List.dropWhile_append_of_pos hb, List.dropWhile_cons_of_neg (by simp [hc])]

theorem skipBlanks_cons {c : Char} (hc : isBlank c = false) (cs : List Char) :
    skipBlanks (c :: cs) = c :: cs :=
  List.dropWhile_cons_of_neg (by simp [hc])

theorem isBlank_of_mem_lineBreak (layout : JsonLayout) (depth : Nat) :
    ∀ c ∈ layout.lineBreak depth, isBlank c = true := by
  cases layout with
  | compact => simp [JsonLayout.lineBreak]
  | indented =>
    intro c hc
    rcases List.mem_cons.1 hc with rfl | hc
    · decide
    · rw [List.eq_of_mem_replicate hc]
      decide

theorem value?_quote {cs rest : List Char} {s : Option String} (h : string? cs = some (s, rest))
    (bound : Nat) : value? (bound + 1) ('"' :: cs) = some (.string s, rest) := by
  simp [value?, h]

theorem value?_bracket {cs cs' : List Char} {c : Char} (h : skipBlanks cs = c :: cs')
    (hc : c ≠ ']') (bound : Nat) :
    value? (bound + 1) ('[' :: cs) =
      (items? bound (c :: cs')).map fun r => (.array r.1, r.2) := by
  simp [value?, h, hc, Option.map_eq_bind]

theorem value?_brace {cs cs' : List Char} {c : Char} (h : skipBlanks cs = c :: cs')
    (hc : c ≠ '}') (bound : Nat) :
    value? (bound + 1) ('{' :: cs) =
      (members? bound (c :: cs')).map fun r => (.object r.1, r.2) := by
  simp [value?, h, hc, Option.map_eq_bind]

theorem items?_last {bound : Nat} {cs rest rest' : List Char} {item : Json}
    (hvalue : value? bound cs = some (item, rest)) (hrest : skipBlanks rest = ']' :: rest') :
    items? (bound + 1) cs = some ([item], rest') := by
  simp [items?, hvalue, hrest]

theorem items?_comma {bound : Nat} {cs rest rest' : List Char} {item : Json}
    (hvalue : value? bound cs = some (item, rest)) (hrest : skipBlanks rest = ',' :: rest') :
    items? (bound + 1) cs =
      (items? bound (skipBlanks rest')).map fun r => (item :: r.1, r.2) := by
  simp [items?, hvalue, hrest, Option.map_eq_bind]

section Members

variable {bound : Nat} {cs rest rest' : List Char} {key : Option String} {value : Json}

theorem members?_last {last last' : List Char} (hkey : string? cs = some (key, rest))
    (hcolon : skipBlanks rest = ':' :: rest')
    (hvalue : value? bound (skipBlanks rest') = some (value, last))
    (hlast : skipBlanks last = '}' :: last') :
    members? (bound + 1) ('"' :: cs) = some ([(key, value)], last') := by
  simp [members?, hkey, hcolon, hvalue, hlast]

theorem members?_comma {last last' : List Char} (hkey : string? cs = some (key, rest))
    (hcolon : skipBlanks rest = ':' :: rest')
    (hvalue : value? bound (skipBlanks rest') = some (value, last))
    (hlast : skipBlanks last = ',' :: last') :
    members? (bound + 1) ('"' :: cs) =
      (members? bound (skipBlanks last')).map fun r => ((key, value) :: r.1, r.2) := by
  simp [members?, hkey, hcolon, hvalue, hlast, Option.map_eq_bind]

end Members

mutual

/-- The numbers of a document have digits behind their points. -/
def Proper : Json → Prop
  | .number n => Numeral.AllDigits n.fraction
  | .array items => ProperItems items
  | .object members => ProperMembers members
  | _ => True

def ProperItems : List Json → Prop
  | [] => True
  | item :: items => item.Proper ∧ ProperItems items

def ProperMembers : List (Option String × Json) → Prop
  | [] => True
  | (_, value) :: members => value.Proper ∧ ProperMembers members

end

/-- What may stand behind a value: the end of the text, a comma, a newline, or the end of a
container. -/
def Delimits (rest : List Char) : Prop :=
  ∀ c ∈ rest.head?, c = ',' ∨ c = ']' ∨ c = '}' ∨ c = '\n'

theorem Delimits.endsNumeral {rest : List Char} (h : Delimits rest) : EndsNumeral rest := by
  intro c hc
  rcases h c hc with rfl | rfl | rfl | rfl <;> decide

theorem delimits_writeItems (layout : JsonLayout) (depth : Nat) (items : List Json)
    (rest : List Char) : Delimits (writeItems layout depth items ++ rest) := by
  cases items with
  | nil => cases layout <;> rintro c ⟨⟩ <;> simp
  | cons item items => rintro c ⟨⟩; simp

theorem delimits_writeMembers (layout : JsonLayout) (depth : Nat)
    (members : List (Option String × Json)) (rest : List Char) :
    Delimits (writeMembers layout depth members ++ rest) := by
  cases members with
  | nil => cases layout <;> rintro c ⟨⟩ <;> simp
  | cons member members => rintro c ⟨⟩; simp

theorem exists_write_number (n : JsonNumeral) :
    ∃ c cs, n.write = c :: cs ∧ isBlank c = false ∧ c ≠ ']' := by
  cases hneg : n.negative with
  | true => exact ⟨'-', _, by simp [JsonNumeral.write, hneg]; rfl, by decide, by decide⟩
  | false =>
    obtain ⟨d, ds, hds⟩ := List.exists_cons_of_ne_nil (Nat.toDigits_ne_nil (n := n.whole) (b := 10))
    have hd : CharClass.isDigit d = true :=
      Numeral.allDigits_toDigits n.whole d (by simp [hds])
    refine ⟨d, _, by simp [JsonNumeral.write, hneg, hds]; rfl, ?_, ?_⟩
    · cases hblank : isBlank d with
      | false => rfl
      | true =>
        simp only [isBlank, Bool.or_eq_true, beq_iff_eq] at hblank
        rcases hblank with ((rfl | rfl) | rfl) | rfl <;> exact absurd hd (by decide)
    · rintro rfl
      exact absurd hd (by decide)

/-- A value starts with a character that is no blank and closes nothing. -/
theorem exists_write (layout : JsonLayout) (depth : Nat) (j : Json) :
    ∃ c cs, write layout depth j = c :: cs ∧ isBlank c = false ∧ c ≠ ']' := by
  cases j with
  | null => exact ⟨'n', _, rfl, by decide, by decide⟩
  | bool b =>
    cases b with
    | true => exact ⟨'t', _, rfl, by decide, by decide⟩
    | false => exact ⟨'f', _, rfl, by decide, by decide⟩
  | number n => exact exists_write_number n
  | string s =>
    obtain ⟨cs, hcs, -⟩ := exists_writeString s []
    rw [List.append_nil] at hcs
    exact ⟨'"', cs, by rw [write, hcs], by decide, by decide⟩
  | array items => cases items <;> exact ⟨'[', _, rfl, by decide, by decide⟩
  | object members => cases members <;> exact ⟨'{', _, rfl, by decide, by decide⟩

theorem skipBlanks_lineBreak (layout : JsonLayout) (n depth : Nat) (j : Json)
    (text : List Char) :
    skipBlanks (layout.lineBreak n ++ (write layout depth j ++ text)) =
      write layout depth j ++ text := by
  obtain ⟨c, cs, hwrite, hc, -⟩ := exists_write layout depth j
  rw [hwrite]
  exact skipBlanks_append (isBlank_of_mem_lineBreak layout n) hc (cs ++ text)

theorem skipBlanks_lineBreak_key (layout : JsonLayout) (n : Nat) (key : Option String)
    (text : List Char) :
    skipBlanks (layout.lineBreak n ++ (writeString key ++ text)) = writeString key ++ text := by
  obtain ⟨cs, hcs, -⟩ := exists_writeString key text
  rw [hcs]
  exact skipBlanks_append (isBlank_of_mem_lineBreak layout n) (by decide) cs

theorem exists_member (layout : JsonLayout) (depth : Nat) (key : Option String) (value : Json)
    (text : List Char) :
    ∃ cs rest rest',
      writeString key ++ (layout.colon ++ (write layout depth value ++ text)) = '"' :: cs ∧
        string? cs = some (key, rest) ∧ skipBlanks rest = ':' :: rest' ∧
          skipBlanks rest' = write layout depth value ++ text := by
  obtain ⟨c, more, hwrite, hc, -⟩ := exists_write layout depth value
  obtain ⟨cs, hcs, hstring⟩ :=
    exists_writeString key (layout.colon ++ (write layout depth value ++ text))
  rw [hwrite] at hcs hstring ⊢
  cases layout with
  | compact =>
    exact ⟨cs, _, c :: (more ++ text), hcs, hstring, skipBlanks_cons (by decide) _,
      skipBlanks_cons hc _⟩
  | indented =>
    exact ⟨cs, _, ' ' :: c :: (more ++ text), hcs, hstring, skipBlanks_cons (by decide) _,
      skipBlanks_append (List.forall_mem_singleton.2 rfl) hc _⟩

/-- The value is read back from the front of any text, with a bound that its length gives. -/
def ReadsBack (layout : JsonLayout) (depth : Nat) (j : Json) : Prop :=
  ∀ (rest : List Char) (bound : Nat), Delimits rest →
    2 * (write layout depth j).length ≤ bound →
      value? bound (write layout depth j ++ rest) = some (j, rest)

theorem keyword?_append (word rest : List Char) : keyword? word (word ++ rest) = some rest := by
  simp [keyword?]

theorem exists_bound {layout : JsonLayout} {depth bound : Nat} {j : Json}
    (h : 2 * (write layout depth j).length ≤ bound) : ∃ b, bound = b + 1 := by
  obtain ⟨c, cs, hwrite, -⟩ := exists_write layout depth j
  rw [hwrite, List.length_cons] at h
  exact ⟨bound - 1, by omega⟩

theorem readsBack_null (layout : JsonLayout) (depth : Nat) : ReadsBack layout depth .null := by
  intro rest bound hrest hbound
  obtain ⟨b, rfl⟩ := exists_bound hbound
  have hword := keyword?_append "ull".toList rest
  change value? (b + 1) ('n' :: ("ull".toList ++ rest)) = _
  simp only [value?, hword]
  rfl

theorem readsBack_bool (layout : JsonLayout) (depth : Nat) (truth : Bool) :
    ReadsBack layout depth (.bool truth) := by
  intro rest bound hrest hbound
  obtain ⟨b, rfl⟩ := exists_bound hbound
  cases truth with
  | true =>
    have hword := keyword?_append "rue".toList rest
    change value? (b + 1) ('t' :: ("rue".toList ++ rest)) = _
    simp only [value?, hword]
    rfl
  | false =>
    have hword := keyword?_append "alse".toList rest
    change value? (b + 1) ('f' :: ("alse".toList ++ rest)) = _
    simp only [value?, hword]
    rfl

theorem readsBack_string (layout : JsonLayout) (depth : Nat) (s : Option String) :
    ReadsBack layout depth (.string s) := by
  intro rest bound hrest hbound
  obtain ⟨b, rfl⟩ := exists_bound hbound
  obtain ⟨cs, hcs, hstring⟩ := exists_writeString s rest
  rw [write, hcs]
  exact value?_quote hstring b

theorem readsBack_number (layout : JsonLayout) (depth : Nat) {n : JsonNumeral}
    (h : Numeral.AllDigits n.fraction) : ReadsBack layout depth (.number n) := by
  intro rest bound hrest hbound
  obtain ⟨b, rfl⟩ := exists_bound hbound
  exact value?_number h hrest.endsNumeral b

section Containers

variable {layout : JsonLayout} {depth bound : Nat}

theorem items?_write_nil {item : Json} (hitem : ReadsBack layout (depth + 1) item)
    (hbound : 2 * (write layout (depth + 1) item).length ≤ bound) (rest : List Char) :
    items? (bound + 1) (write layout (depth + 1) item ++ (writeItems layout depth [] ++ rest)) =
      some ([item], rest) := by
  refine items?_last (hitem _ bound (delimits_writeItems layout depth [] rest) hbound) ?_
  rw [writeItems, List.append_assoc]
  exact skipBlanks_append (isBlank_of_mem_lineBreak layout depth) (by decide) rest

theorem items?_write_cons {item item' : Json} {items : List Json}
    (hitem : ReadsBack layout (depth + 1) item)
    (hbound : 2 * (write layout (depth + 1) item).length ≤ bound) (rest : List Char) :
    items? (bound + 1)
        (write layout (depth + 1) item ++ (writeItems layout depth (item' :: items) ++ rest)) =
      (items? bound (write layout (depth + 1) item' ++ (writeItems layout depth items ++ rest))).map
        fun r => (item :: r.1, r.2) := by
  have hvalue := hitem _ bound (delimits_writeItems layout depth (item' :: items) rest) hbound
  have hcomma : skipBlanks (writeItems layout depth (item' :: items) ++ rest) =
      ',' :: (layout.lineBreak (depth + 1) ++
        (write layout (depth + 1) item' ++ (writeItems layout depth items ++ rest))) := by
    simp [writeItems, skipBlanks_cons (show isBlank ',' = false by decide)]
  rw [items?_comma hvalue hcomma, skipBlanks_lineBreak]

theorem members?_write_nil {key : Option String} {value : Json}
    (hvalue : ReadsBack layout (depth + 1) value)
    (hbound : 2 * (write layout (depth + 1) value).length ≤ bound) (rest : List Char) :
    members? (bound + 1) (writeString key ++ (layout.colon ++
        (write layout (depth + 1) value ++ (writeMembers layout depth [] ++ rest)))) =
      some ([(key, value)], rest) := by
  obtain ⟨cs, rest₁, rest₂, htext, hkey, hcolon, hrest⟩ :=
    exists_member layout (depth + 1) key value (writeMembers layout depth [] ++ rest)
  have hread := hvalue _ bound (delimits_writeMembers layout depth [] rest) hbound
  rw [← hrest] at hread
  rw [htext]
  refine members?_last hkey hcolon hread ?_
  rw [writeMembers, List.append_assoc]
  exact skipBlanks_append (isBlank_of_mem_lineBreak layout depth) (by decide) rest

theorem members?_write_cons {key key' : Option String} {value value' : Json}
    {members : List (Option String × Json)} (hvalue : ReadsBack layout (depth + 1) value)
    (hbound : 2 * (write layout (depth + 1) value).length ≤ bound) (rest : List Char) :
    members? (bound + 1) (writeString key ++ (layout.colon ++ (write layout (depth + 1) value ++
        (writeMembers layout depth ((key', value') :: members) ++ rest)))) =
      (members? bound (writeString key' ++ (layout.colon ++ (write layout (depth + 1) value' ++
        (writeMembers layout depth members ++ rest))))).map
          fun r => ((key, value) :: r.1, r.2) := by
  obtain ⟨cs, rest₁, rest₂, htext, hkey, hcolon, hrest⟩ := exists_member layout (depth + 1) key
    value (writeMembers layout depth ((key', value') :: members) ++ rest)
  have hread := hvalue _ bound
    (delimits_writeMembers layout depth ((key', value') :: members) rest) hbound
  rw [← hrest] at hread
  have hcomma : skipBlanks (writeMembers layout depth ((key', value') :: members) ++ rest) =
      ',' :: (layout.lineBreak (depth + 1) ++ (writeString key' ++ (layout.colon ++
        (write layout (depth + 1) value' ++ (writeMembers layout depth members ++ rest))))) := by
    simp [writeMembers, skipBlanks_cons (show isBlank ',' = false by decide)]
  rw [htext, members?_comma hkey hcolon hread hcomma, skipBlanks_lineBreak_key]

end Containers

/-- The items of an array are read back up to its closing bracket, once the reader stands on the
first of them. -/
def ItemsReadBack (layout : JsonLayout) (depth : Nat) (item : Json) (items : List Json) : Prop :=
  ∀ (rest : List Char) (bound : Nat),
    2 * (write layout (depth + 1) item ++ writeItems layout depth items).length + 1 ≤ bound →
      items? bound (write layout (depth + 1) item ++ (writeItems layout depth items ++ rest)) =
        some (item :: items, rest)

/-- The members of an object are read back up to its closing brace, once the reader stands on the
key of the first of them. -/
def MembersReadBack (layout : JsonLayout) (depth : Nat) (key : Option String) (value : Json)
    (members : List (Option String × Json)) : Prop :=
  ∀ (rest : List Char) (bound : Nat),
    2 * (write layout (depth + 1) value ++ writeMembers layout depth members).length + 1 ≤ bound →
      members? bound (writeString key ++ (layout.colon ++ (write layout (depth + 1) value ++
          (writeMembers layout depth members ++ rest)))) =
        some ((key, value) :: members, rest)

theorem readsBack_array {layout : JsonLayout} {depth : Nat} {item : Json} {items : List Json}
    (h : ItemsReadBack layout depth item items) :
    ReadsBack layout depth (.array (item :: items)) := by
  intro rest bound _ hbound
  obtain ⟨b, rfl⟩ := exists_bound hbound
  have hitems := h rest b (by
    simp only [write, List.length_append, List.length_cons] at hbound ⊢
    omega)
  obtain ⟨c, cs, hwrite, -, hc⟩ := exists_write layout (depth + 1) item
  have hblanks := skipBlanks_lineBreak layout (depth + 1) (depth + 1) item
    (writeItems layout depth items ++ rest)
  have htext : write layout depth (.array (item :: items)) ++ rest =
      '[' :: (layout.lineBreak (depth + 1) ++
        (write layout (depth + 1) item ++ (writeItems layout depth items ++ rest))) := by
    simp [write]
  rw [hwrite] at hblanks hitems
  rw [htext, hwrite, value?_bracket hblanks hc b]
  exact congrArg (Option.map fun r => (Json.array r.1, r.2)) hitems

theorem readsBack_object {layout : JsonLayout} {depth : Nat} {key : Option String} {value : Json}
    {members : List (Option String × Json)} (h : MembersReadBack layout depth key value members) :
    ReadsBack layout depth (.object ((key, value) :: members)) := by
  intro rest bound _ hbound
  obtain ⟨b, rfl⟩ := exists_bound hbound
  have hmembers := h rest b (by
    simp only [write, List.length_append, List.length_cons] at hbound ⊢
    omega)
  obtain ⟨cs, hcs, -⟩ := exists_writeString key (layout.colon ++
    (write layout (depth + 1) value ++ (writeMembers layout depth members ++ rest)))
  have hblanks := skipBlanks_lineBreak_key layout (depth + 1) key (layout.colon ++
    (write layout (depth + 1) value ++ (writeMembers layout depth members ++ rest)))
  have htext : write layout depth (.object ((key, value) :: members)) ++ rest =
      '{' :: (layout.lineBreak (depth + 1) ++ (writeString key ++ (layout.colon ++
        (write layout (depth + 1) value ++ (writeMembers layout depth members ++ rest))))) := by
    simp [write]
  rw [hcs] at hblanks hmembers
  rw [htext, hcs, value?_brace hblanks (by decide) b]
  exact congrArg (Option.map fun r => (Json.object r.1, r.2)) hmembers

mutual

theorem readsBack (layout : JsonLayout) (depth : Nat) :
    ∀ j : Json, j.Proper → ReadsBack layout depth j
  | .null, _ => readsBack_null layout depth
  | .bool truth, _ => readsBack_bool layout depth truth
  | .number _, h => readsBack_number layout depth h
  | .string s, _ => readsBack_string layout depth s
  | .array [], _ => by
    intro rest bound _ hbound
    obtain ⟨b, rfl⟩ := exists_bound hbound
    rfl
  | .object [], _ => by
    intro rest bound _ hbound
    obtain ⟨b, rfl⟩ := exists_bound hbound
    rfl
  | .array (item :: items), h => by
    have hitem := readsBack layout (depth + 1) item h.1
    exact readsBack_array (itemsReadBack layout depth items h.2 item hitem)
  | .object ((key, value) :: members), h => by
    have hvalue := readsBack layout (depth + 1) value h.1
    exact readsBack_object (membersReadBack layout depth members h.2 key value hvalue)

theorem itemsReadBack (layout : JsonLayout) (depth : Nat) :
    ∀ items : List Json, ProperItems items → ∀ item : Json, ReadsBack layout (depth + 1) item →
      ItemsReadBack layout depth item items
  | [], _, item, hitem => by
    intro rest bound hbound
    obtain ⟨b, rfl⟩ : ∃ b, bound = b + 1 := ⟨bound - 1, by omega⟩
    rw [List.length_append] at hbound
    exact items?_write_nil hitem (by omega) rest
  | item' :: items, h, item, hitem => by
    intro rest bound hbound
    obtain ⟨b, rfl⟩ : ∃ b, bound = b + 1 := ⟨bound - 1, by omega⟩
    simp only [writeItems, List.length_append, List.length_cons] at hbound
    have hlater := itemsReadBack layout depth items h.2 item'
      (readsBack layout (depth + 1) item' h.1) rest b (by rw [List.length_append]; omega)
    rw [items?_write_cons hitem (by omega) rest, hlater]
    rfl

theorem membersReadBack (layout : JsonLayout) (depth : Nat) :
    ∀ members : List (Option String × Json), ProperMembers members →
      ∀ (key : Option String) (value : Json), ReadsBack layout (depth + 1) value →
        MembersReadBack layout depth key value members
  | [], _, key, value, hvalue => by
    intro rest bound hbound
    obtain ⟨b, rfl⟩ : ∃ b, bound = b + 1 := ⟨bound - 1, by omega⟩
    rw [List.length_append] at hbound
    exact members?_write_nil hvalue (by omega) rest
  | (key', value') :: members, h, key, value, hvalue => by
    intro rest bound hbound
    obtain ⟨b, rfl⟩ : ∃ b, bound = b + 1 := ⟨bound - 1, by omega⟩
    simp only [writeMembers, List.length_append, List.length_cons] at hbound
    have hlater := membersReadBack layout depth members h.2 key' value'
      (readsBack layout (depth + 1) value' h.1) rest b (by rw [List.length_append]; omega)
    rw [members?_write_cons hvalue (by omega) rest, hlater]
    rfl

end

/-- What is written in either layout is read as it was. -/
theorem read?_write (layout : JsonLayout) {j : Json} (h : j.Proper) :
    read? (String.ofList (write layout 0 j)) = some j := by
  obtain ⟨c, cs, hwrite, hc, -⟩ := exists_write layout 0 j
  have hback := readsBack layout 0 j h [] (2 * (write layout 0 j).length + 2) (by simp [Delimits])
    (by omega)
  have hblanks : skipBlanks (write layout 0 j) = write layout 0 j := by
    rw [hwrite]
    exact skipBlanks_cons hc cs
  have hnil : skipBlanks [] = [] := rfl
  rw [List.append_nil] at hback
  simp [read?, hblanks, hback, hnil]

end Json
end ConfigBlock
