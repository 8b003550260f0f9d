import ConfigBlock.Proofs.Locality
import ConfigBlock.Block.Reader

/-!
# Physical lines

A body can be read one physical line at a time, each on a cursor of its own, without looking at
the lines around it. Only the line numbers of the reports have to be put right, since on its own
every line is the first. The main statement is that this gives what reading the text as a whole
gives.
-/

namespace ConfigBlock

open ConfigBlock.Parser

/-- The lines of a text, each with the newline that ends it; the last one may have none. -/
def physicalLines : List Char → List (List Char)
  | [] => []
  | c :: cs =>
    if c = '\n' then [c] :: physicalLines cs
    else
      match physicalLines cs with
      | [] => [[c]]
      | line :: lines => (c :: line) :: lines

example : physicalLines "a\n\nb".toList = ["a\n".toList, "\n".toList, "b".toList] := by decide

theorem physicalLines_newline (rest : List Char) :
    physicalLines ('\n' :: rest) = ['\n'] :: physicalLines rest := rfl

/-- The first line starts with what stands before the first newline. -/
theorem physicalLines_append {word rest line : List Char} {lines : List (List Char)}
    (hword : '\n' ∉ word) (hrest : physicalLines rest = line :: lines) :
    physicalLines (word ++ rest) = (word ++ line) :: lines := by
  induction word with
  | nil => exact hrest
  | cons c cs ih =>
    obtain ⟨hc, hcs⟩ : c ≠ '\n' ∧ '\n' ∉ cs := by simpa [eq_comm] using hword
    simp [physicalLines, hc, ih hcs]

theorem physicalLines_of_notMem {word : List Char} (hne : word ≠ []) (hword : '\n' ∉ word) :
    physicalLines word = [word] := by
  induction word with
  | nil => exact absurd rfl hne
  | cons c cs ih =>
    obtain ⟨hc, hcs⟩ : c ≠ '\n' ∧ '\n' ∉ cs := by simpa [eq_comm] using hword
    by_cases hnil : cs = []
    · simp [physicalLines, hc, hnil]
    · simp [physicalLines, hc, ih hnil hcs]

theorem exists_physicalLine {text : List Char} (hne : text ≠ []) :
    ∃ line lines, physicalLines text = line :: lines ∧ line.head? = text.head? := by
  cases text with
  | nil => exact absurd rfl hne
  | cons c cs =>
    by_cases hc : c = '\n'
    · exact ⟨[c], physicalLines cs, by simp [physicalLines, hc], rfl⟩
    · cases hcs : physicalLines cs with
      | nil => exact ⟨[c], [], by simp [physicalLines, hc, hcs], rfl⟩
      | cons line lines => exact ⟨c :: line, lines, by simp [physicalLines, hc, hcs], rfl⟩

/-- The first line of a text goes on behind `word` as the text does. -/
theorem exists_physicalLine_append {word rest : List Char} (hword : '\n' ∉ word)
    (hne : word ++ rest ≠ []) :
    ∃ line lines, physicalLines (word ++ rest) = (word ++ line) :: lines ∧
      line.head? = rest.head? := by
  by_cases hrest : rest = []
  · subst hrest
    rw [List.append_nil] at hne ⊢
    exact ⟨[], [], by simp [physicalLines_of_notMem hne hword], rfl⟩
  · obtain ⟨line, lines, hlines, hhead⟩ := exists_physicalLine hrest
    exact ⟨line, lines, physicalLines_append hword hlines, hhead⟩

theorem physicalLines_append_newline {word : List Char} (hword : '\n' ∉ word) (rest : List Char) :
    physicalLines (word ++ '\n' :: rest) = (word ++ ['\n']) :: physicalLines rest :=
  physicalLines_append hword (physicalLines_newline rest)

theorem flatten_physicalLines (text : List Char) : (physicalLines text).flatten = text := by
  induction text with
  | nil => rfl
  | cons c cs ih =>
    by_cases hc : c = '\n'
    · rw [hc, physicalLines_newline, List.flatten_cons, ih, List.singleton_append]
    · cases hcs : physicalLines cs with
      | nil => simpa [physicalLines, hc, hcs] using ih
      | cons line lines => simpa [physicalLines, hc, hcs] using ih

/-- Where the text goes on, skipping a line steps over its first physical line. -/
theorem Cursor.physicalLines_rest {c : Cursor} (h : c.atEnd = false) :
    ∃ line, physicalLines c.rest = line :: physicalLines c.skipLine.rest ∧
      c.Passes line c.skipLine ∧ (line = c.lineText ∨ line = c.lineText ++ ['\n']) := by
  obtain ⟨text, p⟩ := c
  rcases (mk text p).exists_line with ⟨word, hword, hrest⟩ | ⟨hword, -⟩
  · replace hrest : text = word ++ '\n' :: (mk text p).skipLine.rest := hrest
    generalize (mk text p).skipLine.rest = rest at hrest
    subst hrest
    rw [skipLine_append hword, lineText_append hword]
    refine ⟨word ++ ['\n'], physicalLines_append_newline hword rest, ⟨?_, rfl⟩, .inr rfl⟩
    exact List.append_cons word '\n' rest
  · replace hword : '\n' ∉ text := hword
    have hne : text ≠ [] := by
      rintro rfl
      simp [atEnd] at h
    rw [skipLine_of_notMem hword, lineText_of_notMem hword]
    refine ⟨text, physicalLines_of_notMem hne hword, ⟨?_, rfl⟩, .inl rfl⟩
    exact (List.append_nil text).symm

/-- The report of a line that was read on its own, once the line has its number. -/
def Diagnostic.onLine (number : Nat) (d : Diagnostic) : Diagnostic := { d with line := number }

namespace Position

theorem line_advance_word (p : Position) {word : List Char} (hword : '\n' ∉ word) :
    (p.advance word).line = p.line := by
  rw [advance_line, List.count_eq_zero.2 hword, Nat.add_zero]

theorem column_advance_word (p : Position) {word : List Char} (hword : '\n' ∉ word) :
    (p.advance word).column = p.column + word.length := by
  induction word generalizing p with
  | nil => rfl
  | cons c cs ih =>
    obtain ⟨hc, hcs⟩ : c ≠ '\n' ∧ '\n' ∉ cs := by simpa [eq_comm] using hword
    have hstep : (p.step c).column = p.column + 1 := by simp [step, hc]
    rw [advance_cons, ih (p.step c) hcs, hstep, List.length_cons]
    omega

theorem line_advance_newline (p : Position) {word : List Char} (hword : '\n' ∉ word) :
    (p.advance (word ++ ['\n'])).line = p.line + 1 := by
  simp [step, p.line_advance_word hword]

theorem column_advance_newline (p : Position) (word : List Char) :
    (p.advance (word ++ ['\n'])).column = 1 := by
  simp [step]

end Position

namespace Remark

/-- A remark on a line has the same column wherever the line starts. -/
theorem placed_onLine {r : Remark} (hr : '\n' ∉ r.before) {p : Position} (hp : p.column = 1) :
    r.placed p = (r.placed .origin).onLine p.line := by
  have hcolumn : (p.advance r.before).column = (Position.origin.advance r.before).column := by
    rw [p.column_advance_word hr, Position.origin.column_advance_word hr, hp]
    rfl
  simp [placed, Diagnostic.located, Diagnostic.onLine, p.line_advance_word hr, hcolumn]

theorem OnLine.placed {rs : List Remark} (hrs : OnLine rs) {p : Position} (hp : p.column = 1) :
    rs.map (·.placed p) = (rs.map (·.placed .origin)).map (Diagnostic.onLine p.line) := by
  rw [List.map_map]
  exact List.map_congr_left fun r hr => placed_onLine (hrs r hr) hp

end Remark

namespace Finding

variable {α : Type}

theorem diagnostics_outcome (found : Finding α) (p : Position) :
    (found.outcome p).diagnostics = found.remarks.map (·.placed p) := by
  cases found <;> rfl

/-- A finding on a line, at the start of that line and at the start of a text of its own. -/
theorem outcome_onLine (found : Finding α) (h : Remark.OnLine found.remarks) {p : Position}
    (hp : p.column = 1) :
    found.outcome p = (found.outcome .origin).mapDiagnostics (Diagnostic.onLine p.line) := by
  cases found with
  | success a rs => exact congrArg (Outcome.success a) (h.placed hp)
  | failure rs => exact congrArg Outcome.failure (h.placed hp)

end Finding

/-- However the line turns out, it is found from the start of the line on, and on it. -/
theorem Parser.Turns.exists_finding {α : Type} {p : Parser α} {text : List Char}
    (h : Turns p text) :
    ∃ found : Finding α, Remark.OnLine found.remarks ∧
      ∀ pos, (p ⟨text, pos⟩).1 = found.outcome pos := by
  cases h with
  | @fails word rest rs h =>
    exact ⟨.failure rs, h.remarks_line, fun pos => congrArg Prod.fst (h.gives rest rfl pos)⟩
  | @ends word rest a rs hword hrs h =>
    refine ⟨.success a rs, hrs, fun pos => ?_⟩
    have hgives := h rest pos
    rw [List.append_assoc] at hgives
    exact congrArg Prod.fst hgives
  | @breaksOff _ a rs h =>
    exact ⟨.success a rs, h.remarks_line, fun pos => congrArg Prod.fst (h.at_end pos)⟩

namespace Line

/-- Read physical lines one after the other, each on its own, up to the one that closes the
block. The first has number `number`, and `last` is where the text ends. -/
def readEach (last : Position) (number : Nat) : List (List Char) → Outcome (List Line)
  | [] => .failure [.located last (.block .endOfText) .error]
  | text :: texts =>
    match (read (.ofChars text)).1.mapDiagnostics (Diagnostic.onLine number) with
    | .failure ds => .failure ds
    | .success line ds =>
      if line.closes then .success [line] ds
      else ((readEach last (number + 1) texts).map (line :: ·)).withLeading ds

theorem skipLine_of_read {c c' : Cursor} {l : Line} {ds : List Diagnostic}
    (h : read c = (.success l ds, c')) : c.skipLine = c' := by
  obtain ⟨text, p⟩ := c
  cases turns_read text with
  | @fails word rest rs hfinds =>
    rw [hfinds.gives rest rfl p] at h
    simp [Finding.outcome] at h
  | @ends word rest l' rs hword hremarks hgives =>
    have hread := hgives rest p
    rw [List.append_assoc, List.singleton_append, h] at hread
    rw [Cursor.skipLine_append hword]
    exact (Prod.mk.inj hread).2.symm
  | @breaksOff _ l' rs hfinds =>
    have hread := hfinds.at_end p
    rw [h] at hread
    rw [Cursor.skipLine_of_notMem hfinds.word_line]
    exact (Prod.mk.inj hread).2.symm

theorem atEnd_of_read {c c' : Cursor} {l : Line} {ds : List Diagnostic}
    (h : read c = (.success l ds, c')) : c.atEnd = false := by
  have hlt := length_read_lt h
  obtain ⟨_ | ⟨x, xs⟩, p⟩ := c
  · simp at hlt
  · rfl

theorem line_eq_one_of_mem (text : List Char) :
    ∀ d ∈ (read (.ofChars text)).1.diagnostics, d.line = 1 := by
  obtain ⟨found, honLine, hfound⟩ := (turns_read text).exists_finding
  intro d hd
  rw [Cursor.ofChars, hfound, found.diagnostics_outcome] at hd
  obtain ⟨r, hr, rfl⟩ := List.mem_map.1 hd
  exact Position.origin.line_advance_word (honLine r hr)

end Line

namespace Body

/-- The lines of a body that was closed. -/
def outcome (b : Body) : Outcome (List Line) :=
  if b.closed then .success b.lines b.diagnostics else .failure b.diagnostics

theorem outcome_cons (line : Line) (ds : List Diagnostic) (b : Body) :
    (b.cons line ds).outcome = (b.outcome.map (line :: ·)).withLeading ds := by
  unfold outcome cons
  dsimp only
  split_ifs <;> rfl

/-- At the start of a line, reading a text as a whole is reading its lines one by one. -/
theorem outcome_read (text : List Char) {p : Position} (hp : p.column = 1) :
    (read ⟨text, p⟩).outcome = Line.readEach (p.advance text) p.line (physicalLines text) := by
  by_cases hne : text = []
  · rw [hne, read_of_failure (Line.read_nil p)]
    rfl
  cases Line.turns_read text with
  | @fails word rest rs h =>
    obtain ⟨line, lines, hlines, hhead⟩ := exists_physicalLine_append h.word_line hne
    have hplace := (Finding.failure rs : Finding Line).outcome_onLine h.remarks_line hp
    rw [hlines, Line.readEach, Cursor.ofChars, h.gives line hhead, ← hplace,
      read_of_failure (h.gives rest rfl p)]
    rfl
  | @ends word rest line rs hword hrs h =>
    have hplace := (Finding.success line rs).outcome_onLine hrs hp
    have halone := h [] .origin
    have hline := h rest p
    rw [List.append_nil] at halone
    rw [List.append_assoc, List.singleton_append] at hline
    rw [physicalLines_append_newline hword, Line.readEach, Cursor.ofChars, halone, ← hplace,
      read_of_success hline]
    dsimp only [Finding.outcome]
    split_ifs with hcloses
    · rfl
    · have hrest := outcome_read rest (p.column_advance_newline word)
      rw [p.line_advance_newline hword, ← Position.advance_append] at hrest
      rw [outcome_cons, hrest, List.append_assoc, List.singleton_append]
  | @breaksOff _ line rs h =>
    have hplace := (Finding.success line rs).outcome_onLine h.remarks_line hp
    rw [physicalLines_of_notMem hne h.word_line, Line.readEach, Cursor.ofChars, h.at_end, ← hplace,
      read_of_success (h.at_end p)]
    dsimp only [Finding.outcome]
    split_ifs with hcloses
    · rfl
    · rw [outcome_cons, read_of_failure (Line.read_nil _)]
      rfl
termination_by text.length

end Body

namespace Block

/-- Read a text that holds nothing but a body, line by line. -/
def readLineByLine (text : String) (h : Header) : Outcome Block :=
  let last := Position.origin.advance text.toList
  (Line.readEach last 1 (physicalLines text.toList)).map (ofLines h)

theorem ofBody_eq_map (h : Header) (b : Body) : ofBody h b = b.outcome.map (ofLines h) := by
  unfold ofBody Body.outcome
  split_ifs <;> rfl

/-- Reading a text gives what reading its physical lines one by one gives, each of them alone and
with its reports, which all are on line one then, moved to the number of the line. -/
theorem readText_eq_readLineByLine (text : String) (h : Header) :
    readText text h = readLineByLine text h ∧
      ∀ line ∈ physicalLines text.toList,
        ∀ d ∈ (Line.read (.ofChars line)).1.diagnostics, d.line = 1 := by
  constructor
  · have hbody := Body.outcome_read text.toList (p := .origin) rfl
    rw [readText, read, ofBody_eq_map]
    exact congrArg (Outcome.map (ofLines h)) hbody
  · intro line _
    exact Line.line_eq_one_of_mem line

end Block
end ConfigBlock
