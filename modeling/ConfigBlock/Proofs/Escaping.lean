import ConfigBlock.Proofs.Form.Literal
import ConfigBlock.Value.Printer

/-!
# Which strings survive escaping

Escaping guards quotes only, so a backslash that was in the string may pair up with what
comes behind it. The contents that read back are exactly the ones without control characters
in which backslashes in front of a quote, or at the end, come in pairs: these are the
contents of literals that drop nothing.
-/

namespace ConfigBlock
namespace Literal

/-- Every maximal run of backslashes directly in front of a quote, or at the end, has even
length. -/
def EvenRuns (s : List Char) : Prop :=
  ∀ before n after, s = before ++ (List.replicate n '\\' ++ after) →
    before.getLast? ≠ some '\\' → (after = [] ∨ after.head? = some '"') → n % 2 = 0

/-- The contents that a literal can be printed for. -/
structure Printable (s : List Char) : Prop where
  noControl : ∀ c ∈ s, CharClass.isControl c = false
  evenRuns : EvenRuns s

theorem replicate_append_inj {x : Char} {n k : Nat} {a b : List Char} (ha : a.head? ≠ some x)
    (hb : b.head? ≠ some x) (h : List.replicate n x ++ a = List.replicate k x ++ b) :
    n = k ∧ a = b := by
  induction n generalizing k with
  | zero =>
    cases k with
    | zero => simpa using h
    | succ k =>
      obtain rfl : a = x :: (List.replicate k x ++ b) := by simpa [List.replicate_succ] using h
      simp at ha
  | succ n ih =>
    cases k with
    | zero =>
      obtain rfl : x :: (List.replicate n x ++ a) = b := by simpa [List.replicate_succ] using h
      simp at hb
    | succ k =>
      have hnk := ih (by simpa [List.replicate_succ] using h)
      exact ⟨by omega, hnk.2⟩

/-- A leading run matters only if a quote or nothing follows it; the runs behind the
character that ends it are those of the rest. -/
theorem evenRuns_replicate_append (k : Nat) {s : List Char} (hs : s.head? ≠ some '\\') :
    EvenRuns (List.replicate k '\\' ++ s) ↔
      ((s = [] ∨ s.head? = some '"') → k % 2 = 0) ∧ EvenRuns s.tail := by
  constructor
  · intro h
    refine ⟨h [] k s (by simp) (by simp), ?_⟩
    intro before n after htail hb ha
    cases s with
    | nil =>
      have : n = 0 := by simp_all
      omega
    | cons c cs =>
      refine h (List.replicate k '\\' ++ c :: before) n after (by simp_all) ?_ ha
      cases before with
      | nil => simpa using hs
      | cons b bs => simpa using hb
  · rintro ⟨hk, ht⟩ before n after h hb ha
    have hafter : after.head? ≠ some '\\' := by
      rcases ha with rfl | ha <;> simp_all
    rcases List.append_eq_append_iff.1 h with ⟨mid, rfl, hmid⟩ | ⟨mid, hmid, hrest⟩
    · cases mid with
      | nil =>
        obtain ⟨rfl, -⟩ := replicate_append_inj hafter hs (k := 0) (by simpa using hmid.symm)
        rfl
      | cons c mid =>
        refine ht mid n after (by simp [hmid]) ?_ ha
        cases mid with
        | nil => simp
        | cons b bs => simpa using hb
    · obtain rfl : before = [] := by
        rcases List.eq_nil_or_concat before with hnil | ⟨front, last, rfl⟩
        · exact hnil
        · have hl : last ∈ List.replicate k '\\' := by simp [hmid]
          simp [List.eq_of_mem_replicate hl] at hb
      obtain rfl : List.replicate k '\\' = mid := hmid
      obtain ⟨rfl, rfl⟩ := replicate_append_inj hafter hs hrest
      exact hk ha

theorem exists_leading_run (s : List Char) :
    ∃ k t, s = List.replicate k '\\' ++ t ∧ t.head? ≠ some '\\' := by
  induction s with
  | nil => exact ⟨0, [], by simp⟩
  | cons c cs ih =>
    by_cases hc : c = '\\'
    · obtain ⟨k, t, rfl, ht⟩ := ih
      exact ⟨k + 1, t, by simp [hc, List.replicate_succ], ht⟩
    · exact ⟨0, c :: cs, by simp, by simpa using hc⟩

theorem evenRuns_cons {c : Char} (hc : c ≠ '\\') (s : List Char) :
    EvenRuns (c :: s) ↔ EvenRuns s := by
  simpa using evenRuns_replicate_append 0 (s := c :: s) (by simpa using hc)

theorem evenRuns_pair {c : Char} (hc : c ≠ '"') (s : List Char) :
    EvenRuns ('\\' :: c :: s) ↔ EvenRuns s := by
  by_cases hb : c = '\\'
  · -- Two more backslashes change no run's parity.
    subst hb
    obtain ⟨k, t, rfl, ht⟩ := exists_leading_run s
    have h := evenRuns_replicate_append (k + 2) ht
    rw [Nat.add_mod_right, ← evenRuns_replicate_append k ht] at h
    simpa [List.replicate_succ] using h
  · simpa [hc] using evenRuns_replicate_append 1 (s := c :: s) (by simpa using hb)

theorem not_evenRuns_backslash : ¬EvenRuns ['\\'] := by
  intro h
  have := h [] 1 [] (by simp) (by simp) (.inl rfl)
  omega

theorem not_evenRuns_backslash_quote (s : List Char) : ¬EvenRuns ('\\' :: '"' :: s) := by
  intro h
  have := h [] 1 ('"' :: s) (by simp) (by simp) (by simp)
  omega

theorem printable_nil : Printable [] :=
  ⟨by simp, by
    intro before n after h
    have : n = 0 := by simp_all
    omega⟩

theorem printable_cons {c : Char} (hc : c ≠ '\\') (s : List Char) :
    Printable (c :: s) ↔ CharClass.isControl c = false ∧ Printable s := by
  constructor
  · intro h
    exact ⟨h.noControl c (by simp), fun x hx => h.noControl x (by simp [hx]),
      (evenRuns_cons hc s).1 h.evenRuns⟩
  · rintro ⟨hctl, h⟩
    exact ⟨by simpa [hctl] using h.noControl, (evenRuns_cons hc s).2 h.evenRuns⟩

theorem printable_pair {c : Char} (hc : c ≠ '"') (s : List Char) :
    Printable ('\\' :: c :: s) ↔ CharClass.isControl c = false ∧ Printable s := by
  have hb : CharClass.isControl '\\' = false := by decide
  constructor
  · intro h
    exact ⟨h.noControl c (by simp), fun x hx => h.noControl x (by simp [hx]),
      (evenRuns_pair hc s).1 h.evenRuns⟩
  · rintro ⟨hctl, h⟩
    exact ⟨by simpa [hctl, hb] using h.noControl, (evenRuns_pair hc s).2 h.evenRuns⟩

/-- Going through a string piece by piece decides whether it is printable. -/
def decidePrintable : (s : List Char) → Decidable (Printable s)
  | [] => .isTrue printable_nil
  | c :: s =>
    if hb : c = '\\' then
      match s with
      | [] => .isFalse fun h => not_evenRuns_backslash (hb ▸ h.evenRuns)
      | d :: s =>
        if hq : d = '"' then
          .isFalse fun h => not_evenRuns_backslash_quote s (hb ▸ hq ▸ h.evenRuns)
        else
          have := decidePrintable s
          decidable_of_iff (CharClass.isControl d = false ∧ Printable s)
            (hb ▸ (printable_pair hq s).symm)
    else
      have := decidePrintable s
      decidable_of_iff (CharClass.isControl c = false ∧ Printable s) (printable_cons hb s).symm

instance : DecidablePred Printable := decidePrintable

example : Printable "\\\\\" \\x \\\\".toList ∧ ¬Printable "\\\\\\".toList := by
  decide +kernel

theorem printable_content {ps : List Piece} (h : hasControl ps = false) :
    Printable (content ps) := by
  induction ps with
  | nil => exact printable_nil
  | cons piece ps ih =>
    obtain ⟨hpiece, hps⟩ : piece.isControl = false ∧ hasControl ps = false := by
      simpa using h
    rw [content_cons]
    cases piece with
    | plain c hc =>
      have hctl : CharClass.isControl c = false := hpiece
      simpa [Piece.meaning, hctl] using (printable_cons hc.2.1 _).2 ⟨hctl, ih hps⟩
    | pair c hc =>
      have hctl : CharClass.isControl c = false := hpiece
      by_cases hq : c = '"'
      · simpa [Piece.meaning, hq] using
          (printable_cons (by decide) _).2 ⟨isControl_quote, ih hps⟩
      · simpa [Piece.meaning, hctl, hq] using (printable_pair hq _).2 ⟨hctl, ih hps⟩

theorem ne_newline_of_isControl {c : Char} (h : CharClass.isControl c = false) : c ≠ '\n' := by
  rintro rfl
  exact absurd h (by decide)

/-- A printable content starts with the meaning of a piece, which is how escaping writes it. -/
theorem exists_piece_of_printable {c : Char} {s : List Char} (h : Printable (c :: s)) :
    ∃ (piece : Piece) (t : List Char), piece.isControl = false ∧ c :: s = piece.meaning ++ t ∧
      escape (c :: s) = piece.text ++ escape t ∧ Printable t ∧ t.length ≤ s.length := by
  by_cases hb : c = '\\'
  · subst hb
    rcases s with _ | ⟨c, s⟩
    · exact absurd h.evenRuns not_evenRuns_backslash
    · by_cases hq : c = '"'
      · exact absurd h.evenRuns (hq ▸ not_evenRuns_backslash_quote s)
      · obtain ⟨hctl, hs⟩ := (printable_pair hq s).1 h
        refine ⟨.pair c (ne_newline_of_isControl hctl), s, hctl, ?_, ?_, hs, by simp⟩
        · simp [Piece.meaning, hq, hctl]
        · rw [escape_cons_of_ne (by decide), escape_cons_of_ne hq]
          rfl
  · obtain ⟨hctl, hs⟩ := (printable_cons hb s).1 h
    by_cases hq : c = '"'
    · subst hq
      exact ⟨.pair '"' (by decide), s, isControl_quote, rfl, rfl, hs, Nat.le_refl _⟩
    · refine ⟨.plain c ⟨ne_newline_of_isControl hctl, hb, hq⟩, s, hctl, ?_, ?_, hs, Nat.le_refl _⟩
      · simp [Piece.meaning, hctl]
      · rw [escape_cons_of_ne hq]
        rfl

/-- A printable content has pieces, and escaping it writes them down. -/
theorem exists_pieces_of_printable {s : List Char} (h : Printable s) :
    ∃ ps, hasControl ps = false ∧ content ps = s ∧ ps.flatMap Piece.text = escape s := by
  match s with
  | [] => exact ⟨[], rfl, rfl, rfl⟩
  | c :: s =>
    obtain ⟨piece, t, hctl, hmeaning, hescape, ht, hlen⟩ := exists_piece_of_printable h
    obtain ⟨ps, hps, hcontent, htext⟩ := exists_pieces_of_printable ht
    exact ⟨piece :: ps, by simp [hctl, hps], by simp [hcontent, hmeaning],
      by simp [htext, hescape]⟩
termination_by s.length
decreasing_by simp; omega

theorem exists_pieces_of_printQuoted {s : String} (h : Printable s.toList) :
    ∃ ps, hasControl ps = false ∧ String.ofList (content ps) = s ∧
      Value.printQuoted s = quotedText ps := by
  obtain ⟨ps, hps, hcontent, htext⟩ := exists_pieces_of_printable h
  refine ⟨ps, hps, ?_, ?_⟩
  · rw [hcontent, String.ofList_toList]
  · rw [Value.printQuoted, quotedText, htext]

theorem Piece.count_quote_meaning (piece : Piece) :
    piece.meaning.count '"' = piece.text.count '"' := by
  cases piece with
  | plain c h =>
    obtain ⟨-, -, hq⟩ := h
    by_cases hctl : CharClass.isControl c = true
    · simp [meaning, text, hctl, hq]
    · simp [meaning, text, hctl]
  | pair c h =>
    by_cases hq : c = '"'
    · simp [meaning, text, hq]
    · by_cases hctl : CharClass.isControl c = true
      · simp [meaning, text, hctl, hq]
      · simp [meaning, text, hctl, hq]

/-- Reading neither drops a quote nor makes one up. -/
theorem count_quote_content (ps : List Piece) :
    (content ps).count '"' = (ps.flatMap Piece.text).count '"' := by
  induction ps with
  | nil => rfl
  | cons piece ps ih =>
    rw [content_cons, List.flatMap_cons, List.count_append, List.count_append, ih,
      piece.count_quote_meaning]

theorem count_quote_escape (s : List Char) : (escape s).count '"' = s.count '"' := by
  induction s with
  | nil => rfl
  | cons c s ih =>
    by_cases hq : c = '"'
    · simp [hq, ih]
    · rw [escape_cons_of_ne hq, List.count_cons_of_ne hq, List.count_cons_of_ne hq, ih]

theorem isControl_of_mem_escape {s : List Char} (hs : ∀ c ∈ s, CharClass.isControl c = false) :
    ∀ c ∈ escape s, CharClass.isControl c = false := by
  intro c hc
  obtain ⟨d, hd, hmem⟩ := List.mem_flatMap.1 hc
  by_cases hq : d = '"'
  · rw [if_pos hq, List.mem_cons, List.mem_singleton] at hmem
    rcases hmem with rfl | rfl <;> decide
  · rw [if_neg hq, List.mem_singleton] at hmem
    exact hmem ▸ hs d hd

theorem hasControl_eq_false {ps : List Piece}
    (h : ∀ c ∈ ps.flatMap Piece.text, CharClass.isControl c = false) : hasControl ps = false := by
  rw [hasControl, List.any_eq_false]
  intro piece hpiece
  have hchar (c : Char) (hc : c ∈ piece.text) : CharClass.isControl c = false :=
    h c (List.mem_flatMap.2 ⟨piece, hpiece, hc⟩)
  cases piece with
  | plain c hc => simpa [Piece.isControl] using hchar c (by simp [Piece.text])
  | pair c hc => simpa [Piece.isControl] using hchar c (by simp [Piece.text])

/-- A content that is read from its own escaped text is printable. The pieces cannot go on behind
that text: with its closing quote they would have one quote more than the content. -/
theorem printable_of_pieces {s rest later : List Char} {ps : List Piece} (hs : content ps = s)
    (h : escape s ++ '"' :: later = ps.flatMap Piece.text ++ '"' :: rest) : Printable s := by
  have hcount : (ps.flatMap Piece.text).count '"' = (escape s).count '"' := by
    rw [← count_quote_content, hs, count_quote_escape]
  have hvisible : ∀ c ∈ s, CharClass.isControl c = false := by
    intro c hc
    have := visible_content ps c (hs ▸ hc)
    simpa [CharClass.isControl] using this
  obtain ⟨more, hmore⟩ : ps.flatMap Piece.text <+: escape s := by
    rcases List.append_eq_append_iff.1 h with ⟨more, hps, hlater⟩ | ⟨more, hescape, -⟩
    · cases more with
      | nil => exact ⟨[], by simpa using hps⟩
      | cons c more =>
        obtain rfl : '"' = c := by simpa using congrArg List.head? hlater
        rw [hps, List.count_append, List.count_cons_self] at hcount
        omega
    · exact ⟨more, hescape.symm⟩
  have hclean : hasControl ps = false := by
    apply hasControl_eq_false
    intro c hc
    exact isControl_of_mem_escape hvisible c (hmore ▸ List.mem_append_left more hc)
  exact hs ▸ printable_content hclean

/-- A string is read back from its escaped text between quotes, whatever follows, exactly if it is
printable, and then nothing is reported and what follows is left alone. -/
theorem read_escape_iff (s : String) (rest : List Char) (p : Position) :
    ((read ⟨'"' :: (escape s.toList ++ '"' :: rest), p⟩).1.value? = some s ↔ Printable s.toList) ∧
      (Printable s.toList → read ⟨'"' :: (escape s.toList ++ '"' :: rest), p⟩ =
        (.success s [], ⟨rest, p.advance ('"' :: (escape s.toList ++ ['"']))⟩)) := by
  have hback : Printable s.toList → read ⟨'"' :: (escape s.toList ++ '"' :: rest), p⟩ =
      (.success s [], ⟨rest, p.advance ('"' :: (escape s.toList ++ ['"']))⟩) := by
    intro hs
    obtain ⟨ps, hclean, hcontent, htext⟩ := exists_pieces_of_printable hs
    have hread := reads_pieces ps rest p
    simpa [quotedText, htext, hcontent, reports, hclean] using hread
  refine ⟨⟨?_, fun hs => by rw [hback hs]; rfl⟩, hback⟩
  intro hvalue
  rcases hread : read ⟨'"' :: (escape s.toList ++ '"' :: rest), p⟩ with ⟨⟨t, ds⟩ | ds, c'⟩
  · obtain rfl : t = s := by simpa [hread, Outcome.value?] using hvalue
    obtain ⟨ps, hps⟩ := exists_pieces_of_read rfl hread
    obtain ⟨hcontent, -, -⟩ := (reads_pieces ps c'.rest).eq_of_success hps hread
    have htext : escape t.toList ++ '"' :: rest = ps.flatMap Piece.text ++ '"' :: c'.rest := by
      simpa [quotedText] using hps
    exact printable_of_pieces (by rw [hcontent, String.toList_ofList]) htext
  · simp [hread, Outcome.value?] at hvalue

end Literal
end ConfigBlock
