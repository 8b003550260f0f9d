import ConfigBlock.Proofs.RoundTrip
import ConfigBlock.Proofs.Surroundings

/-!
# Several blocks in one text

A header is recognised on a whole line without the white space around it, a body is read
character by character. Printed blocks put one behind the other hand the cursor over between
the two at the right places: reading header and body in turn gives every block back, in normal
form and with nothing to report, up to the end of the text.
-/

namespace ConfigBlock

namespace WhiteSpace

theorem isWhite_space : isWhite ' ' = true := by decide

theorem isWhite_brace : isWhite '{' = false := by decide

theorem dropWhile_of_head {text : List Char} (h : ∀ c ∈ text.head?, isWhite c = false) :
    text.dropWhile isWhite = text := by
  cases text with
  | nil => rfl
  | cons c cs => simp [h c rfl]

theorem trim_eq_self {text : List Char} (hfirst : ∀ c ∈ text.head?, isWhite c = false)
    (hlast : ∀ c ∈ text.getLast?, isWhite c = false) : trim text = text := by
  have hback : text.reverse.dropWhile isWhite = text.reverse := by
    apply dropWhile_of_head
    simpa using hlast
  rw [trim, dropWhile_of_head hfirst, hback, List.reverse_reverse]

theorem lastWord_append_space {word : List Char} (h : ∀ c ∈ word, isWhite c = false) :
    lastWord (word ++ [' ']) = word := by
  have hfirst : ∀ c ∈ word.reverse.head?, isWhite c = false := fun c hc =>
    h c (List.mem_reverse.1 (List.mem_of_mem_head? hc))
  have hall : ∀ c ∈ word.reverse, (!isWhite c) = true := by
    intro c hc
    simp [h c (List.mem_reverse.1 hc)]
  rw [lastWord, List.reverse_append, List.reverse_singleton, List.singleton_append,
    List.dropWhile_cons_of_pos isWhite_space, dropWhile_of_head hfirst,
    List.takeWhile_eq_self_iff.2 hall, List.reverse_reverse]

end WhiteSpace

namespace Header

/-- A name that a header can give to a block: it holds no white space and does not start like a
comment. -/
structure Nameable (name : String) : Prop where
  word : ∀ c ∈ name.toList, WhiteSpace.isWhite c = false
  not_comment : ¬['/', '/'] <+: name.toList

instance : DecidablePred Nameable := fun name =>
  decidable_of_iff (name.toList.any WhiteSpace.isWhite = false ∧ ¬['/', '/'] <+: name.toList)
    ⟨fun h => ⟨by simpa using h.1, h.2⟩, fun h => ⟨by simpa using h.word, h.not_comment⟩⟩

/-- The line that opens a block, without its newline. -/
def line (name : String) : List Char := name.toList ++ [' ', '{']

theorem not_comment_line {name : String} (h : Nameable name) : ¬['/', '/'] <+: line name := by
  have hname := h.not_comment
  rw [line]
  revert hname
  rcases name.toList with _ | ⟨c, _ | ⟨d, ds⟩⟩
  · decide
  · simp
  · simp

/-- The line that opens a block is recognised, and the block has its name again. -/
theorem role_line {name : String} (h : Nameable name) : role (line name) = .opening name := by
  rcases hlist : name.toList with _ | ⟨c, cs⟩
  · obtain rfl : name = "" := String.toList_eq_nil_iff.1 hlist
    decide
  · have htrim : WhiteSpace.trim (line name) = line name := by
      apply WhiteSpace.trim_eq_self
      · intro d hd
        exact h.word d (by simp_all [line])
      · simp [line, WhiteSpace.isWhite_brace]
    have hcomment := not_comment_line h
    have hdoc : ¬['/', '/', '/'] <+: line name := fun hp =>
      hcomment (List.IsPrefix.trans (by decide) hp)
    have hlast : (line name).dropLast = name.toList ++ [' '] := by simp [line]
    have hne : line name ≠ [] := by simp [line]
    have hbrace : (line name).getLast? = some '{' := by simp [line]
    simp [role, htrim, hdoc, hcomment, hne, hbrace, hlast,
      WhiteSpace.lastWord_append_space h.word]

theorem newline_notMem_line {name : String} (h : Nameable name) : '\n' ∉ line name := by
  intro hn
  have hname : '\n' ∈ name.toList := by simpa [line] using hn
  exact absurd (h.word _ hname) (by decide)

theorem skip_line {name : String} (h : Nameable name) (rest : List Char) (p : Position) :
    skip ⟨line name ++ '\n' :: rest, p⟩ =
      (some ⟨name, []⟩, ⟨rest, p.advance (line name ++ ['\n'])⟩) := by
  have hline := newline_notMem_line h
  have hseek : seek? [] ⟨line name ++ '\n' :: rest, p⟩ =
      some (⟨name, []⟩, ⟨rest, p.advance (line name ++ ['\n'])⟩) := by
    rw [seek?_of_not_atEnd (by simp [Cursor.atEnd]), Cursor.lineText_append hline, role_line h,
      Cursor.skipLine_append hline]
  simp [skip, hseek]

theorem skip_end (p : Position) : skip ⟨[], p⟩ = (none, ⟨[], p⟩) := by
  simp [skip, seek?_of_atEnd (c := ⟨[], p⟩) rfl]

end Header

namespace Block

/-- Read `n` blocks one after the other, each under the header in front of it. There is no
result if a header is missing. -/
def readSeries : Nat → Cursor → Option (List (Outcome Block) × Cursor)
  | 0, c => some ([], c)
  | n + 1, c =>
    match Header.skip c with
    | (none, _) => none
    | (some header, c') =>
      let result := read header c'
      (readSeries n result.2).map fun later => (result.1 :: later.1, later.2)

theorem print_eq (b : Block) : b.print = Header.line b.name ++ '\n' :: b.printBody := by
  simp [print, Header.line]

theorem readSeries_print {bs : List Block} (hp : ∀ b ∈ bs, b.Printable)
    (hn : ∀ b ∈ bs, Header.Nameable b.name) (p : Position) :
    readSeries bs.length ⟨bs.flatMap print, p⟩ =
      some (bs.map fun b => .success b.normal [], ⟨[], p.advance (bs.flatMap print)⟩) := by
  induction bs generalizing p with
  | nil => rfl
  | cons b bs ih =>
    have hlater := ih (fun b' hb' => hp b' (by simp [hb'])) (fun b' hb' => hn b' (by simp [hb']))
    have hskip := Header.skip_line (hn b (by simp)) (b.printBody ++ bs.flatMap print) p
    have hread := read_of_printable (hp b (by simp)) (bs.flatMap print)
    have htext : (b :: bs).flatMap print =
        Header.line b.name ++ '\n' :: (b.printBody ++ bs.flatMap print) := by
      simp [print_eq]
    simp [readSeries, htext, hskip, hread, hlater]

/-- Printed blocks, put one behind the other, are read back one by one, and nothing is left. -/
theorem readSeries_join_text (bs : List Block) (hp : ∀ b ∈ bs, b.Printable)
    (hn : ∀ b ∈ bs, Header.Nameable b.name) :
    ∃ c, readSeries bs.length (.ofText (String.join (bs.map text))) =
        some (bs.map fun b => .success b.normal [], c) ∧
      c.atEnd = true ∧ Header.skip c = (none, c) := by
  have htext : (String.join (bs.map text)).toList = bs.flatMap print := by
    simp [String.toList_join, List.flatMap_map, text]
  refine ⟨⟨[], Position.origin.advance (bs.flatMap print)⟩, ?_, rfl, Header.skip_end _⟩
  rw [Cursor.ofText, htext]
  exact readSeries_print hp hn .origin

/-- Names that look like parts of a header, bare text, and comments of a block and an entry. -/
theorem readSeries_join_text_odd_names :
    ∃ c, readSeries 4
        (.ofText ("\x7b \x7b\n  /// url\n  a = \"1 \\\"\x7d\"\n\x7d\n" ++
          " \x7b\n  /// last\n\x7d\n" ++ "/ \x7b\n  b = env(\"//\")\n  b = -7\n\x7d\n" ++
          "a\x7b \x7b\n\x7d\n")) =
      some ([.success ⟨"\x7b", [⟨"a", .quoted "1 \"\x7d", ["url"]⟩], []⟩ [],
        .success ⟨"", [], ["last"]⟩ [],
        .success ⟨"/", [⟨"b", .env "//", []⟩, ⟨"b", .integer (-7), []⟩], []⟩ [],
        .success ⟨"a\x7b", [], []⟩ []], c) ∧
      c.atEnd = true ∧ Header.skip c = (none, c) := by
  have hseries := readSeries_join_text
    [⟨"\x7b", [⟨"a", .text "1 \"\x7d", ["url"]⟩], []⟩, ⟨"", [], ["last"]⟩,
      ⟨"/", [⟨"b", .env "//", []⟩, ⟨"b", .integer (-7), []⟩], []⟩, ⟨"a\x7b", [], []⟩]
    (by decide +kernel) (by decide +kernel)
  exact hseries

end Block
end ConfigBlock
