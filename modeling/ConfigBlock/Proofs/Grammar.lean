import ConfigBlock.Proofs.Form.Line
import ConfigBlock.Block.Reader

/-!
# The grammar of a block

The body of a block is a sequence of lines that do not close it and one line that does.
Reading a text succeeds exactly if the text starts with such a sequence, and the lines found
are the ones the forms stand for.
-/

namespace ConfigBlock

open ConfigBlock.Parser

namespace Line.Form

theorem fits_of_open {f : Form} (h : f.closes = false) (rest : List Char) : f.Fits rest := by
  cases f with
  | blank indent => trivial
  | comment indent f => trivial
  | brace indent f => simp [closes] at h
  | entry indent f =>
    change f.ending.Fits rest
    cases he : f.ending with
    | newline => trivial
    | comment g => trivial
    | closing g => simp [closes, he, LineEnd.Form.lineEnd, LineEnd.closes] at h

/-- What reading line after line from a position on reports. -/
def reportsAll : List Form → Position → List Diagnostic
  | [], _ => []
  | f :: fs, pos => f.reports pos ++ reportsAll fs (pos.advance f.text)

theorem reportsAll_append (fs gs : List Form) (pos : Position) :
    reportsAll (fs ++ gs) pos =
      reportsAll fs pos ++ reportsAll gs (pos.advance (fs.flatMap text)) := by
  induction fs generalizing pos with
  | nil => rfl
  | cons f fs ih => simp [reportsAll, ih]

end Line.Form

namespace Body

/-- Lines and reports put in front of a body. -/
def prepend (b : Body) (lines : List Line) (ds : List Diagnostic) : Body :=
  { b with lines := lines ++ b.lines, diagnostics := ds ++ b.diagnostics }

theorem read_open {f : Line.Form} (hf : f.closes = false) (rest : List Char) (pos : Position) :
    read ⟨f.text ++ rest, pos⟩ =
      (read ⟨rest, pos.advance f.text⟩).cons f.line (f.reports pos) := by
  have hline := f.reads (Line.Form.fits_of_open hf rest) pos
  rw [read_of_success hline, f.closes_line, hf]
  rfl

/-- Lines that do not close the block are read one by one in front of the rest. -/
theorem read_lines {fs : List Line.Form} (hfs : ∀ f ∈ fs, f.closes = false) (rest : List Char)
    (pos : Position) :
    read ⟨fs.flatMap Line.Form.text ++ rest, pos⟩ =
      (read ⟨rest, pos.advance (fs.flatMap Line.Form.text)⟩).prepend
        (fs.map Line.Form.line) (Line.Form.reportsAll fs pos) := by
  induction fs generalizing pos with
  | nil => simp [prepend, Line.Form.reportsAll]
  | cons f fs ih =>
    have hrest := ih (fun g hg => hfs g (by simp [hg])) (pos.advance f.text)
    rw [List.flatMap_cons, List.append_assoc, read_open (hfs f (by simp)), hrest]
    simp [prepend, cons, Line.Form.reportsAll]

theorem read_last {z : Line.Form} (hz : z.closes = true) {rest : List Char} (hr : z.Fits rest)
    (pos : Position) :
    read ⟨z.text ++ rest, pos⟩ =
      ⟨[z.line], z.reports pos, true, ⟨rest, pos.advance z.text⟩⟩ := by
  rw [read_of_success (z.reads hr pos), z.closes_line, hz]
  rfl

theorem read_forms {xs : List Line.Form} {z : Line.Form} (hxs : ∀ x ∈ xs, x.closes = false)
    (hz : z.closes = true) {rest : List Char} (hr : z.Fits rest) (pos : Position) :
    read ⟨xs.flatMap Line.Form.text ++ (z.text ++ rest), pos⟩ =
      ⟨(xs ++ [z]).map Line.Form.line, Line.Form.reportsAll (xs ++ [z]) pos, true,
        ⟨rest, pos.advance (xs.flatMap Line.Form.text ++ z.text)⟩⟩ := by
  rw [read_lines hxs, read_last hz hr, Line.Form.reportsAll_append]
  simp [prepend, Line.Form.reportsAll]

theorem closed_of_rest_nil {c : Cursor} (h : c.rest = []) : (read c).closed = false := by
  obtain ⟨cs, pos⟩ := c
  obtain rfl : cs = [] := h
  rw [read_of_failure (Line.read_nil pos)]

/-- A body that was read to its end consists of lines that do not close the block and one
that does. -/
theorem exists_forms_of_closed (c : Cursor) (h : (read c).closed = true) :
    ∃ (xs : List Line.Form) (z : Line.Form),
      c.rest = xs.flatMap Line.Form.text ++ (z.text ++ (read c).cursor.rest) ∧
        (∀ x ∈ xs, x.closes = false) ∧ z.closes = true ∧ z.Fits (read c).cursor.rest := by
  rcases hline : Line.read c with ⟨⟨line, ds⟩ | ds, c'⟩
  · rw [read_of_success hline] at h ⊢
    by_cases hl : line.closes = true
    · rw [if_pos hl]
      rcases Line.exists_form_of_read hline with ⟨z, hz, hfits⟩ | ⟨hopen, -⟩
      · have hval := (z.reads hfits).eq_of_success hz hline
        refine ⟨[], z, by simpa using hz, by simp, ?_, hfits⟩
        rw [← z.closes_line, ← hval.1, hl]
      · simp [hopen] at hl
    · rw [if_neg hl] at h ⊢
      have hlt := Line.length_read_lt hline
      obtain ⟨xs, z, hrest, hxs, hz, hfits⟩ := exists_forms_of_closed c' h
      rcases Line.exists_form_of_read hline with ⟨f, hf, hffits⟩ | ⟨-, hnil⟩
      · have hval := (f.reads hffits).eq_of_success hf hline
        have hopen : f.closes = false := by
          rw [← f.closes_line, ← hval.1]
          simpa using hl
        refine ⟨f :: xs, z, ?_, by simpa [hopen] using hxs, hz, hfits⟩
        rw [hf, hrest]
        simp [cons]
      · -- The text is over, so no line behind this one can close the block.
        have hc : (read c').closed = true := h
        rw [closed_of_rest_nil hnil] at hc
        simp at hc
  · rw [read_of_failure hline] at h
    simp at h
termination_by c.rest.length

end Body

namespace Block

/-- Reading succeeds exactly on the texts that start with lines of the grammar, of which the
last one and no other closes the block. -/
theorem readText_isSuccess_iff (text : String) (h : Header) :
    (readText text h).isSuccess = true ↔
      ∃ (xs : List Line.Form) (z : Line.Form) (rest : List Char),
        text.toList = xs.flatMap Line.Form.text ++ (z.text ++ rest) ∧
          (∀ x ∈ xs, x.closes = false) ∧ z.closes = true ∧ z.Fits rest := by
  have hclosed : (readText text h).isSuccess = (Body.read (.ofText text)).closed := by
    unfold readText read ofBody
    dsimp only
    split_ifs with hb <;> simp [Outcome.isSuccess, hb]
  rw [hclosed]
  constructor
  · intro hb
    obtain ⟨xs, z, hrest, hxs, hz, hfits⟩ := Body.exists_forms_of_closed _ hb
    exact ⟨xs, z, _, hrest, hxs, hz, hfits⟩
  · rintro ⟨xs, z, rest, htext, hxs, hz, hfits⟩
    have hc : Cursor.ofText text =
        ⟨xs.flatMap Line.Form.text ++ (z.text ++ rest), .origin⟩ := by
      rw [Cursor.ofText, Cursor.ofChars, htext]
    rw [hc, Body.read_forms hxs hz hfits]

end Block
end ConfigBlock
