import ConfigBlock.Proofs.Locality
import ConfigBlock.Block.Header
import Mathlib.Data.List.DropRight
import Mathlib.Logic.Function.Iterate

/-!
# What stands around a block

A block is read the same whatever surrounds it. Behind it, only the character that made a
reading fail is looked at, and nothing at all once the line of the closing brace is over. In
front of it, text moves every position and changes nothing else; this holds of headers too.
-/

namespace ConfigBlock

open ConfigBlock.Parser

namespace Body

/-- What reading a body finds in front of a text. It depends on the text it steps over and on
the first character behind, and on the latter only if the body was not closed by a full line. -/
theorem exists_reading (text : List Char) :
    ∃ (word rest : List Char) (lines : List Line) (rs : List Remark) (closed : Bool),
      text = word ++ rest ∧ (closed = true → word ≠ []) ∧
      ∀ rest', (rest'.head? = rest.head? ∨ closed = true ∧ word.getLast? = some '\n') →
        ∀ pos, read ⟨word ++ rest', pos⟩ =
          ⟨lines, rs.map (Remark.placed pos), closed, ⟨rest', pos.advance word⟩⟩ := by
  cases Line.turns_read text with
  | @fails word rest rs h =>
    refine ⟨word, rest, [], rs, false, rfl, by simp, ?_⟩
    rintro rest' (hrest | ⟨hclosed, -⟩) pos
    · exact read_of_failure (h.gives rest' hrest pos)
    · simp at hclosed
  | @ends word rest line rs _ _ h =>
    by_cases hcloses : line.closes = true
    · refine ⟨word ++ ['\n'], rest, [line], rs, true, by simp, by simp, ?_⟩
      intro rest' _ pos
      rw [read_of_success (h rest' pos), if_pos hcloses]
    · obtain ⟨word', rest', lines, rs', closed, rfl, hne, hread⟩ := exists_reading rest
      refine ⟨word ++ ['\n'] ++ word', rest', line :: lines,
        rs ++ rs'.map (·.behind (word ++ ['\n'])), closed, by simp, by simp, ?_⟩
      intro rest'' hrest pos
      have hrest' : rest''.head? = rest'.head? ∨ closed = true ∧ word'.getLast? = some '\n' := by
        refine hrest.imp_right fun ⟨hclosed, hlast⟩ => ⟨hclosed, ?_⟩
        rwa [List.getLast?_append_of_ne_nil _ (hne hclosed)] at hlast
      rw [List.append_assoc, read_of_success (h _ pos), if_neg hcloses, hread rest'' hrest']
      simp [cons]
  | @breaksOff _ line rs h =>
    have hlt : 0 < text.length := by simpa using Line.length_read_lt (h.at_end .origin)
    by_cases hcloses : line.closes = true
    · refine ⟨text, [], [line], rs, true, by simp, fun _ => List.length_pos_iff.1 hlt, ?_⟩
      rintro rest' (hrest | ⟨-, hlast⟩) pos
      · obtain rfl : rest' = [] := List.head?_eq_none_iff.1 hrest
        rw [List.append_nil, read_of_success (h.at_end pos), if_pos hcloses]
      · exact absurd (List.mem_of_getLast? hlast) h.word_line
    · -- The text is over, and so the next line is one that cannot be read.
      obtain ⟨word', rest', lines, rs', closed, hnil, hne, hread⟩ := exists_reading []
      obtain ⟨rfl, rfl⟩ := List.append_eq_nil_iff.1 hnil.symm
      refine ⟨text, [], line :: lines, rs ++ rs'.map (·.behind text), closed, by simp,
        fun hclosed => absurd rfl (hne hclosed), ?_⟩
      rintro rest' (hrest | ⟨hclosed, -⟩) pos
      · obtain rfl : rest' = [] := List.head?_eq_none_iff.1 hrest
        have hend := hread [] (.inl rfl) (pos.advance text)
        rw [List.append_nil] at hend ⊢
        rw [read_of_success (h.at_end pos), if_neg hcloses, hend]
        simp [cons]
      · exact absurd rfl (hne hclosed)
termination_by text.length

end Body

namespace Block

theorem exists_finding (h : Header) (text : List Char) :
    ∃ (word rest : List Char) (found : Finding Block), text = word ++ rest ∧
      ∀ rest', (rest'.head? = rest.head? ∨ found.isSuccess = true ∧ word.getLast? = some '\n') →
        Gives (read h) word rest' found := by
  obtain ⟨word, rest, lines, rs, closed, htext, -, hread⟩ := Body.exists_reading text
  cases closed with
  | true =>
    refine ⟨word, rest, .success (ofLines h lines) rs, htext, ?_⟩
    intro rest' hrest pos
    rw [read, hread rest' (hrest.imp_right fun hend => ⟨rfl, hend.2⟩)]
    rfl
  | false =>
    refine ⟨word, rest, .failure rs, htext, ?_⟩
    rintro rest' (hrest | ⟨hfound, -⟩) pos
    · rw [read, hread rest' (.inl hrest)]
      rfl
    · simp [Finding.isSuccess] at hfound

/-- A block that was read with the newline of its last line is read the same whatever follows.
A reading that failed before the end of the text fails in the same way whatever follows the
character it stopped at. -/
theorem read_unaffected {h : Header} {text rest : List Char} {o : Outcome Block} {pos : Position}
    (hread : read h (.ofChars text) = (o, ⟨rest, pos⟩)) :
    ∃ word, text = word ++ rest ∧
      (o.isSuccess = true → word.getLast? = some '\n' →
        ∀ rest', read h (.ofChars (word ++ rest')) = (o, ⟨rest', pos⟩)) ∧
      (o.isFailure = true → ∀ x, rest.head? = some x →
        ∀ more, read h (.ofChars (word ++ x :: more)) = (o, ⟨x :: more, pos⟩)) := by
  obtain ⟨word, rest', found, rfl, hgives⟩ := exists_finding h text
  obtain ⟨rfl, hcursor⟩ : o = found.outcome .origin ∧
      Cursor.mk rest pos = ⟨rest', Position.origin.advance word⟩ :=
    Prod.mk.inj (hread.symm.trans (hgives rest' (.inl rfl) .origin))
  obtain ⟨rfl, rfl⟩ := Cursor.mk.inj hcursor
  refine ⟨word, rfl, ?_, ?_⟩
  · intro hsuccess hlast rest'
    exact hgives rest' (.inr ⟨by simpa using hsuccess, hlast⟩) .origin
  · intro _ x hx more
    exact hgives (x :: more) (.inl hx.symm) .origin

/-- A block with a comment and skipped text in it, and a word that stops being one. -/
theorem read_unaffected_skipped_text :
    (∀ rest', read .unnamed (.ofChars ("a = 1 // n\n\x7d x\n".toList ++ rest')) =
      (.success ⟨"", [⟨"a", .integer 1, []⟩], []⟩ [⟨.entry .skippedText, 2, 3, .warning⟩],
        ⟨rest', ⟨15, 3, 1⟩⟩)) ∧
    ∀ more, read .unnamed (.ofChars ("/// n\na = tr".toList ++ '?' :: more)) =
      (.failure [⟨.boolean (.unexpected '?'), 2, 7, .error⟩], ⟨'?' :: more, ⟨12, 2, 7⟩⟩) := by
  constructor
  · have hread : read .unnamed (.ofChars ("a = 1 // n\n\x7d x\n".toList ++ ['b'])) =
        (.success ⟨"", [⟨"a", .integer 1, []⟩], []⟩ [⟨.entry .skippedText, 2, 3, .warning⟩],
          ⟨['b'], ⟨15, 3, 1⟩⟩) := by decide +kernel
    obtain ⟨word, htext, hsame, -⟩ := read_unaffected hread
    obtain rfl := List.append_cancel_right htext
    exact hsame rfl (by decide)
  · have hread : read .unnamed (.ofChars ("/// n\na = tr".toList ++ ['?', '\n'])) =
        (.failure [⟨.boolean (.unexpected '?'), 2, 7, .error⟩],
          ⟨['?', '\n'], ⟨12, 2, 7⟩⟩) := by decide +kernel
    obtain ⟨word, htext, -, hsame⟩ := read_unaffected hread
    obtain rfl := List.append_cancel_right htext
    exact hsame rfl '?' rfl

end Block

/-- The characters behind the last newline. -/
def lastLine (text : List Char) : List Char := text.rtakeWhile (· ≠ '\n')

namespace Position

/-- The column of a place that had column `column` on line `line` before `before` was put in
front of the text: only the first line begins elsewhere. -/
def shiftColumn (before : List Char) (line column : Nat) : Nat :=
  if line = 1 then column + (lastLine before).length else column

/-- The position of the same place once `before` is put in front of the text. -/
def shift (before : List Char) (p : Position) : Position where
  offset := p.offset + (String.ofList before).utf8ByteSize
  line := p.line + before.count '\n'
  column := shiftColumn before p.line p.column

end Position

namespace Diagnostic

def shift (before : List Char) (d : Diagnostic) : Diagnostic :=
  { d with
    line := d.line + before.count '\n'
    column := Position.shiftColumn before d.line d.column }

theorem located_shift (before : List Char) (p : Position) (problem : Problem)
    (severity : Severity) :
    located (p.shift before) problem severity = (located p problem severity).shift before := rfl

end Diagnostic

namespace Cursor

def shift (before : List Char) (c : Cursor) : Cursor := ⟨c.rest, c.position.shift before⟩

end Cursor

namespace Position

theorem step_shift (before : List Char) {p : Position} (hp : 1 ≤ p.line) (c : Char) :
    (p.shift before).step c = (p.step c).shift before := by
  by_cases hc : c = '\n'
  · have hline : p.line ≠ 0 := by omega
    simp [step, shift, shiftColumn, hc, hline]
    omega
  · by_cases hline : p.line = 1
    · simp [step, shift, shiftColumn, hc, hline]
      omega
    · simp [step, shift, shiftColumn, hc, hline]
      omega

theorem one_le_line_step {p : Position} (hp : 1 ≤ p.line) (c : Char) : 1 ≤ (p.step c).line := by
  unfold step
  split_ifs
  · simp
  · exact hp

theorem advance_shift (before : List Char) {p : Position} (hp : 1 ≤ p.line) (cs : List Char) :
    (p.shift before).advance cs = (p.advance cs).shift before := by
  induction cs generalizing p with
  | nil => rfl
  | cons c cs ih =>
    rw [advance_cons, step_shift before hp, ih (one_le_line_step hp c), advance_cons]

theorem column_advance_origin (cs : List Char) :
    (origin.advance cs).column = 1 + (lastLine cs).length := by
  induction cs using List.reverseRecOn with
  | nil => rfl
  | append_singleton cs c ih =>
    rw [advance_append, advance_cons, advance_nil]
    by_cases hc : c = '\n'
    · simp [step, hc, lastLine]
    · simp [step, hc, lastLine, ih]
      omega

/-- Text in front moves the start of a text to where the text in front ends. -/
theorem shift_origin (before : List Char) : origin.shift before = origin.advance before := by
  have hoffset := origin.advance_offset before
  have hline := origin.advance_line before
  have hcolumn := column_advance_origin before
  rcases hend : origin.advance before with ⟨offset, line, column⟩
  rw [hend] at hoffset hline hcolumn
  dsimp only at hoffset hline hcolumn
  rw [hoffset, hline, hcolumn]
  rfl

theorem advance_advance_origin (before cs : List Char) :
    (origin.advance before).advance cs = (origin.advance cs).shift before := by
  rw [← shift_origin, advance_shift before (by decide)]

end Position

namespace Finding

variable {α : Type}

theorem outcome_shift (before : List Char) (found : Finding α) :
    found.outcome (Position.origin.advance before) =
      (found.outcome .origin).mapDiagnostics (Diagnostic.shift before) := by
  have hplaced (r : Remark) :
      r.placed (Position.origin.advance before) = (r.placed .origin).shift before := by
    rw [Remark.placed, Position.advance_advance_origin, Diagnostic.located_shift]
    rfl
  cases found <;> simp [outcome, Outcome.mapDiagnostics, hplaced]

end Finding

namespace Cursor

theorem advance_iterate (before text : List Char) (p : Position) :
    Cursor.advance^[before.length] ⟨before ++ text, p⟩ = ⟨text, p.advance before⟩ := by
  induction before generalizing p with
  | nil => rfl
  | cons c cs ih => simpa using ih (p.step c)

/-- The line that is skipped, with its newline, does not depend on where it stands. -/
theorem exists_skipLine (text : List Char) :
    ∃ line rest, text = line ++ rest ∧ ∀ p, (mk text p).skipLine = ⟨rest, p.advance line⟩ := by
  rcases (ofChars text).exists_line with ⟨word, hword, htext⟩ | ⟨hword, -⟩
  · obtain ⟨rest, rfl⟩ : ∃ rest, text = word ++ '\n' :: rest := ⟨_, htext⟩
    exact ⟨word ++ ['\n'], rest, by simp, skipLine_append hword rest⟩
  · exact ⟨text, [], by simp, skipLine_of_notMem hword⟩

end Cursor

namespace Header

theorem seek?_of_atEnd {c : Cursor} (h : c.atEnd = true) (comments : List String) :
    seek? comments c = none := by
  rw [seek?, dif_pos h]

theorem seek?_of_not_atEnd {c : Cursor} (h : c.atEnd = false) (comments : List String) :
    seek? comments c = match role c.lineText with
      | .skipped doc => seek? (comments ++ doc.toList) c.skipLine
      | .opening name => some (⟨name, comments⟩, c.skipLine)
      | .other => none := by
  rw [seek?]
  exact dif_neg (by simp [h])

/-- What is found of a header in front of a text does not depend on where the text stands. -/
theorem exists_seek? (comments : List String) (text : List Char) :
    (∀ p, seek? comments ⟨text, p⟩ = none) ∨
      ∃ header word rest, text = word ++ rest ∧
        ∀ p, seek? comments ⟨text, p⟩ = some (header, ⟨rest, p.advance word⟩) := by
  cases hend : (Cursor.ofChars text).atEnd with
  | true => exact .inl fun p => seek?_of_atEnd (c := ⟨text, p⟩) hend comments
  | false =>
    have hstep (p : Position) := seek?_of_not_atEnd (c := ⟨text, p⟩) hend comments
    have hlt := Cursor.length_skipLine_lt hend
    obtain ⟨line, rest, rfl, hskip⟩ := Cursor.exists_skipLine text
    have hline (p : Position) : (Cursor.mk (line ++ rest) p).lineText =
        (Cursor.ofChars (line ++ rest)).lineText := rfl
    simp only [hline, hskip] at hstep
    cases hrole : role (Cursor.ofChars (line ++ rest)).lineText with
    | skipped doc =>
      simp only [hrole] at hstep
      have hrest : rest.length < (line ++ rest).length := by
        rw [Cursor.ofChars, hskip] at hlt
        exact hlt
      rcases exists_seek? (comments ++ doc.toList) rest with
        hnone | ⟨header, word, rest', rfl, hsome⟩
      · exact .inl fun p => by rw [hstep, hnone]
      · refine .inr ⟨header, line ++ word, rest', by simp, fun p => ?_⟩
        rw [hstep, hsome, Position.advance_append]
    | opening name =>
      simp only [hrole] at hstep
      exact .inr ⟨_, line, rest, rfl, hstep⟩
    | other =>
      simp only [hrole] at hstep
      exact .inl hstep
termination_by text.length

theorem exists_skip (text : List Char) :
    ∃ header? word rest, text = word ++ rest ∧
      ∀ p, skip ⟨text, p⟩ = (header?, ⟨rest, p.advance word⟩) := by
  rcases exists_seek? [] text with hnone | ⟨header, word, rest, htext, hsome⟩
  · exact ⟨none, [], text, rfl, fun p => by simp [skip, hnone p]⟩
  · exact ⟨some header, word, rest, htext, fun p => by simp [skip, hsome p]⟩

end Header

namespace Block

/-- Text in front of a block moves every report and the place where reading stops, and changes
nothing else. The same holds of a header, and of the search for one that fails. -/
theorem read_shift (before text : List Char) (h : Header) :
    let c := Cursor.advance^[before.length] (.ofChars (before ++ text))
    read h c = ((read h (.ofChars text)).1.mapDiagnostics (Diagnostic.shift before),
        (read h (.ofChars text)).2.shift before) ∧
      Header.skip c =
        ((Header.skip (.ofChars text)).1, (Header.skip (.ofChars text)).2.shift before) := by
  intro c
  have hc : c = ⟨text, Position.origin.advance before⟩ :=
    Cursor.advance_iterate before text .origin
  rw [hc]
  constructor
  · obtain ⟨word, rest, found, htext, hgives⟩ := exists_finding h text
    have hread (p : Position) : read h ⟨text, p⟩ =
        (found.outcome p, ⟨rest, p.advance word⟩) := htext ▸ hgives rest (.inl rfl) p
    rw [Cursor.ofChars, hread, hread, found.outcome_shift, Position.advance_advance_origin]
    rfl
  · obtain ⟨header?, word, rest, -, hskip⟩ := Header.exists_skip text
    rw [Cursor.ofChars, hskip, hskip, Position.advance_advance_origin]
    rfl

end Block
end ConfigBlock
