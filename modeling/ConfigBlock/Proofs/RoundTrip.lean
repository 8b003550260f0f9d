import ConfigBlock.Proofs.Legible
import ConfigBlock.Proofs.ReadBack
import ConfigBlock.Block.Printer

/-!
# Printing and reading again

The canonical form of a printable block is a text of the grammar that reads as the lines of
the block, with nothing to report. Conversely, whatever reads back without a report is
printable: its parts were read, so they are legible, and the canonical form of a number that
is not finite cannot be read at all.
-/

namespace ConfigBlock

open ConfigBlock.Parser

namespace Value

theorem Form.reports_literal {ps : List Literal.Piece} (h : Literal.hasControl ps = false)
    (pos : Position) : Literal.reports ps pos = [] := by
  simp [Literal.reports, h]

theorem exists_form_of_printQuoted {s : String} (h : Literal.Printable s.toList) :
    ∃ f : Form, f.text = printQuoted s ∧ f.value = .quoted s ∧ ∀ pos, f.reports pos = [] := by
  obtain ⟨ps, hctl, hcontent, htext⟩ := Literal.exists_pieces_of_printQuoted h
  refine ⟨.literal ps, htext.symm, ?_, Form.reports_literal hctl⟩
  rw [Form.value, hcontent]

theorem exists_form_of_print {v : Value} (hl : v.Legible) (hf : v.Finite) :
    ∃ f : Form, f.text = v.print ∧ f.value = v.normal ∧ ∀ pos, f.reports pos = [] := by
  cases v with
  | text s => exact exists_form_of_printQuoted hl
  | quoted s => exact exists_form_of_printQuoted hl
  | integer n =>
    obtain ⟨f, htext, hvalue⟩ := Numeral.exists_form_of_integer n
    refine ⟨.numeral f, htext, ?_, fun _ => rfl⟩
    simp [Form.value, hvalue, ofNumber, normal]
  | number d =>
    cases d with
    | finite negative rank =>
      obtain ⟨f, htext, hvalue⟩ := Numeral.exists_form_of_finite negative rank
      refine ⟨.numeral f, htext, ?_, fun _ => rfl⟩
      simp [Form.value, hvalue, ofNumber, normal]
    | infinite negative => simp [Finite, Double.isFinite] at hf
    | nan => simp [Finite, Double.isFinite] at hf
  | boolean b =>
    have hlower : (word b).map Char.toLower = word b := by cases b <;> decide
    exact ⟨.boolean b (word b) hlower, rfl, rfl, fun _ => rfl⟩
  | env name =>
    obtain ⟨ps, hctl, hcontent, htext⟩ := Literal.exists_pieces_of_printQuoted hl
    refine ⟨.env 0 ps 0, ?_, ?_, ?_⟩
    · have hprint : print (.env name) = ['e', 'n', 'v', '('] ++ printQuoted name ++ [')'] := rfl
      simp [Form.text, hprint, htext, spaces]
    · rw [Form.value, hcontent]
      rfl
    · intro pos
      simp [Form.reports, Form.reports_literal hctl]

theorem read_of_not_finite {v : Value} (h : ¬v.Finite) (rest : List Char) (pos : Position) :
    ∃ ds c', read ⟨v.print ++ rest, pos⟩ = (.failure ds, c') := by
  cases v with
  | number d =>
    cases d with
    | finite negative rank => simp [Finite, Double.isFinite] at h
    | infinite negative => cases negative <;> exact ⟨_, _, rfl⟩
    | nan => exact ⟨_, _, rfl⟩
  | _ => simp [Finite] at h

theorem head?_print_ne_space {v : Value} (h : ¬v.Finite) (rest : List Char) :
    (v.print ++ rest).head? ≠ some ' ' := by
  cases v with
  | number d =>
    cases d with
    | finite negative rank => simp [Finite, Double.isFinite] at h
    | infinite negative =>
      cases negative <;> exact fun hs => absurd (Option.some.inj hs) (by decide)
    | nan => exact fun hs => absurd (Option.some.inj hs) (by decide)
  | _ => simp [Finite] at h

end Value

namespace Body

/-- Whatever follows the text, it reads as the given lines, with nothing to report. -/
def Yields (text : List Char) (lines : List Line) : Prop :=
  ∀ rest pos, read ⟨text ++ rest, pos⟩ = (read ⟨rest, pos.advance text⟩).prepend lines []

namespace Yields

theorem nil : Yields [] [] := by
  intro rest pos
  simp [prepend]

theorem append {text text' : List Char} {lines lines' : List Line} (h : Yields text lines)
    (h' : Yields text' lines') : Yields (text ++ text') (lines ++ lines') := by
  intro rest pos
  rw [List.append_assoc, h, h']
  simp [prepend]

theorem flatMap {α : Type} {as : List α} {text : α → List Char} {lines : α → List Line}
    (h : ∀ a ∈ as, Yields (text a) (lines a)) :
    Yields (as.flatMap text) (as.flatMap lines) := by
  induction as with
  | nil => exact nil
  | cons a as ih =>
    rw [List.flatMap_cons, List.flatMap_cons]
    apply append (h a (by simp))
    apply ih
    intro b hb
    exact h b (by simp [hb])

theorem of_form {f : Line.Form} (hf : f.closes = false) (hr : ∀ pos, f.reports pos = []) :
    Yields f.text [f.line] := by
  intro rest pos
  rw [read_open hf, hr]
  rfl

/-- Lines in front do not decide whether the block is closed. -/
theorem closed_eq {text : List Char} {lines : List Line} (h : Yields text lines)
    (rest : List Char) (pos : Position) :
    (read ⟨text ++ rest, pos⟩).closed = (read ⟨rest, pos.advance text⟩).closed := by
  rw [h]
  rfl

end Yields
end Body

def commentLine (text : String) : Line := ⟨.comment text, .newline⟩

theorem printComment_eq (text : String) :
    printComment text = spaces 2 ++ '/' :: '/' :: '/' :: (' ' :: text.toList ++ ['\n']) := rfl

theorem yields_printComment {text : String} (h : Comment.Legible text) :
    Body.Yields (printComment text) [commentLine text] := by
  obtain ⟨hline, htrim⟩ := h
  have hbody : '\n' ∉ ' ' :: text.toList := by simpa using hline
  have hdoc : String.ofList (WhiteSpace.trim (' ' :: text.toList)) = text := by
    rw [WhiteSpace.trim_cons_space, htrim, String.ofList_toList]
  have hline : (Line.Form.comment 2 (.doc (' ' :: text.toList) hbody)).line = commentLine text := by
    rw [Line.Form.line, Comment.Form.doc?, hdoc]
    rfl
  rw [printComment_eq, ← hline]
  exact Body.Yields.of_form (f := .comment 2 (.doc (' ' :: text.toList) hbody)) rfl fun _ => rfl

theorem yields_printComments {texts : List String} (h : ∀ text ∈ texts, Comment.Legible text) :
    Body.Yields (texts.flatMap printComment) (texts.map commentLine) := by
  rw [List.map_eq_flatMap]
  apply Body.Yields.flatMap
  intro text htext
  exact yields_printComment (h text htext)

namespace Entry

/-- The line of an entry, without the comments above it. -/
def printLine (e : Entry) : List Char :=
  spaces 2 ++ (e.key.toList ++ (spaces 1 ++ ['='] ++ (spaces 1 ++ (e.value.print ++ ['\n']))))

theorem print_eq (e : Entry) : e.print = e.comments.flatMap printComment ++ e.printLine := by
  have hprint : e.print = e.comments.flatMap printComment ++ spaces 2 ++ e.key.toList ++
      (spaces 1 ++ '=' :: spaces 1) ++ e.value.print ++ ['\n'] := rfl
  simp [hprint, printLine]

/-- The lines of an entry, its value in normal form. -/
def lines (e : Entry) : List Line :=
  e.comments.map commentLine ++ [⟨.entry ⟨e.key, e.value.normal, []⟩, .newline⟩]

theorem exists_word {e : Entry} (h : Key.Legible e.key) :
    ∃ first more, e.key.toList = first :: more ∧ CharClass.isWord first = true ∧
      ∀ c ∈ more, CharClass.isWord c = true := by
  obtain ⟨hne, hword⟩ := h
  obtain ⟨first, more, hkey⟩ := List.exists_cons_of_ne_nil hne
  rw [hkey] at hword
  exact ⟨first, more, hkey, hword first (by simp), fun c hc => hword c (by simp [hc])⟩

theorem yields_printLine {e : Entry} (hl : e.Legible) (hf : e.value.Finite) :
    Body.Yields e.printLine [⟨.entry ⟨e.key, e.value.normal, []⟩, .newline⟩] := by
  obtain ⟨first, more, hkey, hfirst, hmore⟩ := exists_word hl.key
  obtain ⟨value, htext, hvalue, hreports⟩ := Value.exists_form_of_print hl.value hf
  have hofList : String.ofList (first :: more) = e.key := by
    rw [← hkey, String.ofList_toList]
  obtain ⟨form, hform⟩ : ∃ form : Form, form =
      ⟨first, more, 1, 1, value, 0, .newline, hfirst, hmore, .inr (.inr rfl)⟩ := ⟨_, rfl⟩
  have hprint : (Line.Form.entry 2 form).text = e.printLine := by
    rw [Line.Form.text, Form.text, Form.keyText, hform, printLine, hkey, ← htext]
    simp only [List.cons_append, List.append_assoc]
    rfl
  have hline : (Line.Form.entry 2 form).line = ⟨.entry ⟨e.key, e.value.normal, []⟩, .newline⟩ := by
    rw [Line.Form.line, Form.entry, Form.key, hform, hofList, hvalue]
    rfl
  rw [← hprint, ← hline]
  apply Body.Yields.of_form
  · rw [Line.Form.closes, hform]
    rfl
  · intro pos
    rw [Line.Form.reports, Form.reports, hform, hreports]
    rfl

theorem yields_print {e : Entry} (hl : e.Legible) (hf : e.value.Finite) :
    Body.Yields e.print e.lines := by
  rw [print_eq, lines]
  exact (yields_printComments hl.comments).append (yields_printLine hl hf)

theorem closed_printLine {e : Entry} (hl : e.Legible) (hf : ¬e.value.Finite) (rest : List Char)
    (pos : Position) : (Body.read ⟨e.printLine ++ rest, pos⟩).closed = false := by
  obtain ⟨first, more, hkey, hfirst, hmore⟩ := exists_word hl.key
  obtain ⟨hs, hc, hn, hb⟩ := Line.isWord_ne hfirst
  have htext : e.printLine ++ rest = spaces 2 ++ (first :: (more ++ (spaces 1 ++ ['=']) ++
      (spaces 1 ++ (e.value.print ++ ('\n' :: rest))))) := by
    simp [printLine, hkey]
  have hkeys := read_key first hmore 1 1 (e.value.head?_print_ne_space hf ('\n' :: rest))
    (pos.advance (spaces 2))
  obtain ⟨ds, c', hvalue⟩ := e.value.read_of_not_finite hf ('\n' :: rest)
    ((pos.advance (spaces 2)).advance (first :: (more ++ (spaces 1 ++ ['='])) ++ spaces 1))
  rw [bind_of_failure hvalue] at hkeys
  have hline : Line.read ⟨e.printLine ++ rest, pos⟩ = (.failure ds, c') := by
    rw [htext, Line.read_indent 2 hs]
    simp only [Line.readFrom, hc, hn, hb, hfirst, if_true, if_false]
    exact bind_of_failure hkeys
  rw [Body.read_of_failure hline]

theorem closed_print {es : List Entry} (hl : ∀ e ∈ es, e.Legible)
    (hf : ∃ e ∈ es, ¬e.value.Finite) (rest : List Char) (pos : Position) :
    (Body.read ⟨es.flatMap print ++ rest, pos⟩).closed = false := by
  induction es generalizing pos with
  | nil => simp at hf
  | cons e es ih =>
    have he : e.Legible := hl e (by simp)
    rw [List.flatMap_cons, List.append_assoc]
    by_cases hfinite : e.value.Finite
    · rw [(yields_print he hfinite).closed_eq]
      apply ih
      · intro f hmem
        exact hl f (by simp [hmem])
      · simpa [hfinite] using hf
    · rw [print_eq, List.append_assoc, (yields_printComments he.comments).closed_eq]
      exact closed_printLine he hfinite _ _

end Entry

namespace Block

theorem attach_comments (texts pending : List String) (ls : List Line) :
    attach pending (texts.map commentLine ++ ls) = attach (pending ++ texts) ls := by
  induction texts generalizing pending with
  | nil => simp
  | cons text texts ih =>
    have hstep : attach pending (commentLine text :: (texts.map commentLine ++ ls)) =
        attach (pending ++ [text]) (texts.map commentLine ++ ls) := rfl
    rw [List.map_cons, List.cons_append, hstep, ih]
    simp

/-- The lines of entries make up the entries in normal form, each with its own comments. -/
theorem attach_entries (es : List Entry) (ls : List Line) :
    attach [] (es.flatMap Entry.lines ++ ls) =
      (es.map Entry.normal ++ (attach [] ls).1, (attach [] ls).2) := by
  induction es with
  | nil => rfl
  | cons e es ih =>
    rw [List.flatMap_cons, Entry.lines, List.append_assoc, List.append_assoc, attach_comments]
    simp [attach, ih, Entry.normal]

theorem read_printBody {b : Block} (h : b.Printable) (rest : List Char) (pos : Position) :
    Body.read ⟨b.printBody ++ rest, pos⟩ =
      ⟨b.entries.flatMap Entry.lines ++ (b.comments.map commentLine ++ [⟨.blank, .closing⟩]), [],
        true, ⟨rest, pos.advance b.printBody⟩⟩ := by
  have hentries : Body.Yields (b.entries.flatMap Entry.print) (b.entries.flatMap Entry.lines) := by
    apply Body.Yields.flatMap
    intro e he
    exact Entry.yields_print (h.entries e he) (h.finite e he)
  have hlines := hentries.append (yields_printComments h.comments)
  have hfits : Line.Form.Fits (.brace 0 (.plain 0 .newline)) rest := trivial
  have hlast := Body.read_last rfl hfits
    (pos.advance (b.entries.flatMap Entry.print ++ b.comments.flatMap printComment))
  have htext : (Line.Form.brace 0 (.plain 0 .newline)).text = ['}', '\n'] := rfl
  rw [htext] at hlast
  rw [printBody, List.append_assoc, hlines, hlast]
  simp [Body.prepend, Line.Form.line, Line.Form.reports, Closing.Form.reports]

/-- In front of any text, the canonical form of a body is read as the block in normal form. -/
theorem read_of_printable {b : Block} (h : b.Printable) (rest : List Char) (pos : Position) :
    read ⟨b.name, []⟩ ⟨b.printBody ++ rest, pos⟩ =
      (.success b.normal [], ⟨rest, pos.advance b.printBody⟩) := by
  rw [read, read_printBody h]
  simp [ofBody, ofLines, attach_entries, attach_comments, attach, normal]

theorem roundTrip_eq (b : Block) :
    b.roundTrip = ofBody ⟨b.name, []⟩ (Body.read ⟨b.printBody, .origin⟩) := by
  simp [roundTrip, readText, read, bodyText, Cursor.ofText, Cursor.ofChars]

theorem roundTrip_of_printable {b : Block} (h : b.Printable) :
    b.roundTrip = .success b.normal [] := by
  have hread := read_of_printable h [] .origin
  rw [List.append_nil] at hread
  rw [roundTrip_eq]
  exact congrArg Prod.fst hread

theorem finite_of_roundTrip {b b' : Block} {ds : List Diagnostic} (hl : b.Legible)
    (h : b.roundTrip = .success b' ds) : ∀ e ∈ b.entries, e.value.Finite := by
  by_contra hf
  have hsome : ∃ e ∈ b.entries, ¬e.value.Finite := by simpa using hf
  have hclosed := Entry.closed_print hl.entries hsome
    (b.comments.flatMap printComment ++ ['}', '\n']) .origin
  rw [← List.append_assoc] at hclosed
  rw [roundTrip_eq, printBody, ofBody, hclosed] at h
  simp at h

end Block

theorem Value.legible_normal_iff (v : Value) : v.normal.Legible ↔ v.Legible := by
  cases v <;> rfl

theorem Value.legible_of_equals {v w : Value} (h : v.equals w = true) (hv : v.Legible) :
    w.Legible := by
  unfold equals at h
  split at h
  · trivial
  · obtain rfl : v = w := by simpa using h
    exact hv

theorem Entry.legible_normal_iff (e : Entry) : e.normal.Legible ↔ e.Legible := by
  constructor
  · intro h
    exact ⟨h.key, e.value.legible_normal_iff.1 h.value, h.comments⟩
  · intro h
    exact ⟨h.key, e.value.legible_normal_iff.2 h.value, h.comments⟩

theorem Entry.legible_of_equals {e f : Entry} (h : e.equals f = true) (he : e.Legible) :
    f.Legible := by
  obtain ⟨⟨hkey, hvalue⟩, hcomments⟩ :
      (e.key = f.key ∧ e.value.equals f.value = true) ∧ e.comments = f.comments := by
    simpa [equals] using h
  exact ⟨hkey ▸ he.key, Value.legible_of_equals hvalue he.value, hcomments ▸ he.comments⟩

namespace Block

theorem legible_of_entriesEqual {es fs : List Entry} (h : equals.entriesEqual es fs = true)
    (hes : ∀ e ∈ es, e.Legible) : ∀ f ∈ fs, f.Legible := by
  induction es generalizing fs with
  | nil =>
    cases fs with
    | nil => simp
    | cons f fs => simp [equals.entriesEqual] at h
  | cons e es ih =>
    cases fs with
    | nil => simp [equals.entriesEqual] at h
    | cons f fs =>
      obtain ⟨hfirst, hrest⟩ : e.equals f = true ∧ equals.entriesEqual es fs = true := by
        simpa [equals.entriesEqual] using h
      intro g hg
      rcases List.mem_cons.1 hg with rfl | hg
      · exact Entry.legible_of_equals hfirst (hes e (by simp))
      · exact ih hrest (fun x hx => hes x (by simp [hx])) g hg

theorem legible_of_equals {b b' : Block} (h : b.equals b' = true) (hb : b.Legible) :
    b'.Legible := by
  obtain ⟨⟨-, hentries⟩, hcomments⟩ : (b.name = b'.name ∧
      equals.entriesEqual b.entries b'.entries = true) ∧ b.comments = b'.comments := by
    simpa [equals] using h
  exact ⟨legible_of_entriesEqual hentries hb.entries, hcomments ▸ hb.comments⟩

theorem legible_of_normal {b : Block} (h : b.normal.Legible) : b.Legible := by
  refine ⟨?_, h.comments⟩
  intro e he
  exact e.legible_normal_iff.1 (h.entries e.normal (List.mem_map_of_mem he))

theorem entriesEqual_self {es : List Entry} (h : ∀ e ∈ es, e.value ≠ .number .nan) :
    equals.entriesEqual es es = true := by
  induction es with
  | nil => rfl
  | cons e es ih =>
    have hvalue := (Value.equals_self_iff e.value).2 (h e (by simp))
    have hrest := ih fun f hf => h f (by simp [hf])
    simp [equals.entriesEqual, Entry.equals, hvalue, hrest]

theorem equals_self_of_finite {b : Block} (h : ∀ e ∈ b.entries, e.value.Finite) :
    b.equals b = true := by
  have hself : equals.entriesEqual b.entries b.entries = true := by
    apply entriesEqual_self
    intro e he hnan
    have hfinite := h e he
    rw [hnan] at hfinite
    simp [Value.Finite, Double.isFinite] at hfinite
  simp [equals, hself]

theorem finite_normal {b : Block} (h : ∀ e ∈ b.entries, e.value.Finite) :
    ∀ e ∈ b.normal.entries, e.value.Finite := by
  intro f hf
  obtain ⟨e, he, rfl⟩ := List.mem_map.1 hf
  have hfinite := h e he
  change e.value.normal.Finite
  cases hv : e.value with
  | number d =>
    rw [hv] at hfinite
    exact hfinite
  | _ => trivial

theorem printable_of_roundTrip {b b' : Block} (h : b.roundTrip = .success b' [])
    (hl : b'.Legible → b.Legible) : b.Printable := by
  have hlegible : b.Legible := hl (legible_of_readText h (by simp)).1
  exact ⟨hlegible, finite_of_roundTrip hlegible h⟩

/-- Printing a block and reading it again gives its normal form, with nothing to report, exactly
if the block is printable. This holds for equality of blocks, which tells the two zeros apart,
and for numeric equality, which does not. -/
theorem roundTrip_eq_normal_iff (b : Block) :
    (b.roundTrip = .success b.normal [] ↔ b.Printable) ∧
      (b.roundTrip.equalsBy equals (.success b.normal []) = true ↔ b.Printable) := by
  constructor
  · constructor
    · intro h
      exact printable_of_roundTrip h legible_of_normal
    · exact roundTrip_of_printable
  · constructor
    · intro h
      rcases hread : b.roundTrip with ⟨b', ds⟩ | ds
      · obtain ⟨hequals, rfl⟩ : b'.equals b.normal = true ∧ ds = [] := by
          simpa [hread, Outcome.equalsBy] using h
        apply printable_of_roundTrip hread
        intro hlegible
        exact legible_of_normal (legible_of_equals hequals hlegible)
      · simp [hread, Outcome.equalsBy] at h
    · intro h
      have hself := equals_self_of_finite (finite_normal h.finite)
      simp [roundTrip_of_printable h, Outcome.equalsBy, hself]

/-- What was read without leaving out a control character, and has finite numbers, reads back
as it is from its canonical form. -/
theorem roundTrip_of_readText {text name : String} {b : Block} {ds : List Diagnostic}
    (hread : readText text ⟨name, []⟩ = .success b ds) (hds : ∀ d ∈ ds, ¬d.DropsControl)
    (hfinite : ∀ e ∈ b.entries, e.value.Finite) : b.roundTrip = .success b [] := by
  obtain ⟨hlegible, hnormal⟩ := legible_of_readText hread hds
  have hback := roundTrip_of_printable ⟨hlegible, hfinite⟩
  rwa [hnormal] at hback

/-- Backslashes in front of a quote and at the end, a number in another spelling, comments of
both kinds, and text that is skipped behind the brace. -/
theorem roundTrip_of_readText_backslashes :
    ∃ b : Block,
      readText "///Where it is \na=\"C:\\\\\\\"x\\y\\\\\" // note\n b = -.50\n/// last\n\x7d end"
          ⟨"db", []⟩ = .success b [⟨.entry .skippedText, 5, 3, .warning⟩] ∧
        b.entries = [⟨"a", .quoted "C:\\\\\"x\\y\\\\", ["Where it is"]⟩,
          ⟨"b", .number (.finite true ⟨1022 <<< 52, by decide⟩), []⟩] ∧
        b.roundTrip = .success b [] := by
  refine ⟨⟨"db", [⟨"a", .quoted "C:\\\\\"x\\y\\\\", ["Where it is"]⟩,
    ⟨"b", .number (.finite true ⟨1022 <<< 52, by decide⟩), []⟩], ["last"]⟩, ?hread, rfl,
    roundTrip_of_readText ?hread ?_ ?_⟩
  · decide +kernel
  · simp [Diagnostic.DropsControl]
  · simp [Value.Finite, Double.isFinite]

end Block
end ConfigBlock
