import ConfigBlock.Proofs.Documentation
import ConfigBlock.Proofs.Legible

/-!
# What reading can produce

Whatever the text and however many warnings it gave rise to, a block that was read is well formed:
its keys are words, its strings show no control character, its numbers are numbers, and its
comments stand on one line with no white space around them. Each part is so because the form it
was read from is; moving comments to their entries adds none.
-/

namespace ConfigBlock

open ConfigBlock.Parser

namespace WhiteSpace

/-- Text that trimming leaves as it is starts and ends with something visible. -/
theorem visible_ends_of_trim_eq {text : List Char} (h : trim text = text) :
    (∀ c ∈ text.head?, isWhite c = false) ∧ ∀ c ∈ text.getLast?, isWhite c = false := by
  have hfront : text.dropWhile isWhite = text := by
    apply (List.dropWhile_sublist isWhite).eq_of_length_le
    calc text.length = (trim text).length := by rw [h]
      _ ≤ (text.dropWhile isWhite).length := (List.rdropWhile_prefix isWhite _).length_le
  have hback : text.rdropWhile isWhite = text := by
    rw [trim_eq_rdropWhile, hfront] at h
    exact h
  constructor
  · intro c hc
    have hfirst := List.head?_dropWhile_not isWhite text
    rw [hfront, Option.mem_def.1 hc] at hfirst
    exact hfirst
  · intro c hc
    have hlast := List.head?_dropWhile_not isWhite text.reverse
    have hreverse : text.reverse.dropWhile isWhite = text.reverse := by
      rw [← List.reverse_eq_iff]
      exact hback
    rw [hreverse, List.head?_reverse, Option.mem_def.1 hc] at hlast
    exact hlast

end WhiteSpace

/-- A text of one line that neither starts nor ends with white space. -/
structure Comment.Trimmed (text : String) : Prop where
  oneLine : '\n' ∉ text.toList
  first : ∀ c ∈ text.toList.head?, WhiteSpace.isWhite c = false
  last : ∀ c ∈ text.toList.getLast?, WhiteSpace.isWhite c = false

/-- A value with a literal form: no bare text, no control character, no undefined number. -/
def Value.WellFormed : Value → Prop
  | .text _ => False
  | .quoted s => ∀ c ∈ s.toList, 32 ≤ c.toNat
  | .env name => ∀ c ∈ name.toList, 32 ≤ c.toNat
  | .number d => d ≠ .nan
  | .integer _ => True
  | .boolean _ => True

structure Entry.WellFormed (e : Entry) : Prop where
  key_ne_nil : e.key.toList ≠ []
  key_word : ∀ c ∈ e.key.toList, CharClass.isWord c = true
  value : e.value.WellFormed
  comments : ∀ text ∈ e.comments, Comment.Trimmed text

theorem Comment.Legible.trimmed {text : String} (h : Legible text) : Trimmed text := by
  obtain ⟨hline, htrim⟩ := h
  obtain ⟨hfirst, hlast⟩ := WhiteSpace.visible_ends_of_trim_eq htrim
  exact ⟨hline, hfirst, hlast⟩

theorem Double.ofRank_ne_nan (negative : Bool) (rank : Nat) : ofRank negative rank ≠ .nan := by
  unfold ofRank
  split_ifs <;> simp

theorem Value.wellFormed_ofNumber (f : Numeral.Form) : (ofNumber f.value).WellFormed := by
  cases hf : f.fraction with
  | none => simp [Numeral.Form.value, hf, ofNumber, WellFormed]
  | some ds =>
    have hdefined := Double.ofRank_ne_nan f.sign.negative
    simp [Numeral.Form.value, hf, ofNumber, WellFormed, NumberText.decimal, Double.ofRatio,
      hdefined]

theorem Value.Form.wellFormed_value (f : Form) : f.value.WellFormed := by
  cases f with
  | literal ps => simpa [value, WellFormed] using Literal.visible_content ps
  | env before ps after => simpa [value, WellFormed] using Literal.visible_content ps
  | boolean truth letters h => simp [value, WellFormed]
  | numeral n => exact wellFormed_ofNumber n

theorem Entry.Form.word_key (f : Form) :
    f.key.toList ≠ [] ∧ ∀ c ∈ f.key.toList, CharClass.isWord c = true := by
  rw [key, String.toList_ofList]
  exact ⟨by simp, List.forall_mem_cons.2 ⟨f.first_word, f.more_word⟩⟩

theorem Line.Form.trimmed_docs (f : Form) : ∀ text ∈ f.docs, Comment.Trimmed text := by
  intro text htext
  rcases List.mem_append.1 htext with hown | htrailing
  · cases f with
    | comment indent g => exact (g.legible_doc text (by simpa [ownDocs] using hown)).trimmed
    | _ => simp [ownDocs] at hown
  · cases f with
    | entry indent g => exact (g.ending.legible_docs text htrailing).trimmed
    | _ => simp [trailingDocs] at htrailing

namespace Block

theorem exists_form_of_mem_attach {pending : List String} {fs : List Line.Form} {e : Entry}
    (h : e ∈ (attach pending (fs.map Line.Form.line)).1) :
    ∃ f : Entry.Form, e.key = f.key ∧ e.value = f.value.value := by
  induction fs generalizing pending with
  | nil => simp [attach] at h
  | cons f fs ih =>
    rw [List.map_cons] at h
    by_cases hf : f.isEntry = true
    · obtain ⟨indent, g, rfl⟩ := Line.Form.exists_entry hf
      rw [attach_entry] at h
      rcases List.mem_cons.1 h with rfl | hlater
      · exact ⟨g, rfl, rfl⟩
      · exact ih hlater
    · rw [attach_of_not_entry (by simpa using hf)] at h
      exact ih h

/-- A block that was read, with warnings or without, has the name and the comments of its header,
and everything it has besides is well formed. -/
theorem read_wellFormed {h : Header} {c : Cursor} {b : Block} {ds : List Diagnostic}
    (hread : (read h c).1 = .success b ds) :
    b.name = h.name ∧ (∀ e ∈ b.entries, e.WellFormed) ∧
      ∃ own, b.comments = h.comments ++ own ∧ ∀ text ∈ own, Comment.Trimmed text := by
  obtain ⟨fs, rfl, -⟩ := exists_forms_of_read hread
  have hdocs : ∀ text ∈ (attach [] (fs.map Line.Form.line)).1.flatMap Entry.comments ++
      (attach [] (fs.map Line.Form.line)).2, Comment.Trimmed text := by
    intro text htext
    rw [attach_conserves, List.nil_append] at htext
    obtain ⟨f, -, hf⟩ := List.mem_flatMap.1 htext
    exact f.trimmed_docs text hf
  obtain ⟨hentries, hown⟩ := List.forall_mem_append.1 hdocs
  refine ⟨rfl, ?_, _, rfl, hown⟩
  intro e he
  obtain ⟨f, hkey, hvalue⟩ := exists_form_of_mem_attach he
  obtain ⟨hne, hword⟩ := f.word_key
  refine ⟨hkey ▸ hne, hkey ▸ hword, hvalue ▸ f.value.wellFormed_value, ?_⟩
  intro text htext
  exact hentries text (List.mem_flatMap.2 ⟨e, he, htext⟩)

/-- Control characters inside a literal, one of them behind a backslash, and a comment between wide
blanks, read from the middle of a text under a header whose own comment is not trimmed. -/
theorem read_wellFormed_dropped :
    ∃ b : Block, (read ⟨"", [" \n "]⟩ ⟨"a=\"\x01\\\x02\" ///\u2003x\u00a0\r\n/// \n\x7d".toList,
        ⟨7, 2, 3⟩⟩).1 = .success b [⟨.literal .controlCharacter, 2, 5, .warning⟩] ∧
      b.entries = [⟨"a", .quoted "\\", ["x"]⟩] ∧ b.comments = [" \n ", ""] ∧
      ∀ e ∈ b.entries, e.WellFormed := by
  have hread : (read ⟨"", [" \n "]⟩ ⟨"a=\"\x01\\\x02\" ///\u2003x\u00a0\r\n/// \n\x7d".toList,
      ⟨7, 2, 3⟩⟩).1 = .success ⟨"", [⟨"a", .quoted "\\", ["x"]⟩], [" \n ", ""]⟩
        [⟨.literal .controlCharacter, 2, 5, .warning⟩] := by
    decide +kernel
  obtain ⟨-, hentries, -⟩ := read_wellFormed hread
  exact ⟨_, hread, rfl, rfl, hentries⟩

end Block
end ConfigBlock
