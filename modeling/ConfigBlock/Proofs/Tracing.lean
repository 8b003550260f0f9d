import ConfigBlock.Block.Trace
import ConfigBlock.Proofs.Documentation
import ConfigBlock.Proofs.Failure
import ConfigBlock.Proofs.Progress

/-!
# What a trace tells about the result

A traced reading keeps a draft of the block and reports from it, while the reader of blocks takes
the lines of the whole body and distributes their comments at the end. Both come to the same
result, and so the events can be compared with it: the last one counts its entries and its
diagnostics, the ones before it are its lines, and behind a failure their number gives the line of
the error.
-/

namespace ConfigBlock

open ConfigBlock.Parser

namespace Draft

/-- The draft that has come about from these lines. -/
def ofLines (lines : List Line) (ds : List Diagnostic) : Draft :=
  ⟨(Block.attach [] lines).1, (Block.attach [] lines).2, ds⟩

theorem add_ofLines (lines : List Line) (line : Line) (ds es : List Diagnostic) :
    (ofLines lines ds).add line.content es = ofLines (lines ++ [line]) (ds ++ es) := by
  unfold ofLines
  rw [Block.attach_append]
  obtain ⟨text | _ | e, ending⟩ := line
  · simp [add, Block.attach]
  · simp [add, Block.attach]
  · simp [add, Block.attach]

end Draft

/-- The step that reports a result. -/
def Step.ofOutcome : Outcome Block → Step
  | .success b ds => .finished b.entries.length ds.length
  | .failure ds => .failed ds.length

namespace Event

variable (name : String)

@[simp] theorem level_started (line : Nat) : level ⟨name, .started line⟩ = "DEBUG" := rfl

@[simp] theorem level_step (l : Line) : level ⟨name, l.step⟩ = "TRACE" := rfl

@[simp] theorem level_ofOutcome (o : Outcome Block) : level ⟨name, .ofOutcome o⟩ = "DEBUG" := by
  cases o <;> rfl

@[simp] theorem message_started (line : Nat) :
    message ⟨name, .started line⟩ = "Parsing block" := rfl

@[simp] theorem message_step (l : Line) : message ⟨name, l.step⟩ = "Parsed line" := rfl

@[simp] theorem message_ofOutcome (o : Outcome Block) :
    message ⟨name, .ofOutcome o⟩ =
      if o.isSuccess then "Parsed block" else "Block parse failed" := by
  cases o <;> rfl

end Event

namespace Block

/-- Reading on behind some lines reports the lines that follow them and the result of all. -/
theorem readOn_ofLines (h : Header) (lines : List Line) (ds : List Diagnostic) (c : Cursor) :
    readOn h (.ofLines lines ds) c =
      ((Body.read c).lines.map Line.step ++
          [.ofOutcome (ofBody h ((Body.read c).prepend lines ds))],
        ofBody h ((Body.read c).prepend lines ds), (Body.read c).cursor) := by
  -- The draft grows at its end with every line, and what `prepend` has in front with it.
  fun_induction Body.read c generalizing lines ds with
  | case1 c es c' hline =>
    rw [readOn_of_failure hline]
    rfl
  | case2 c line es c' hline hcloses =>
    rw [readOn_of_success hline, Draft.add_ofLines]
    simp only [if_pos hcloses]
    rfl
  | case3 c line es c' hline hopen ih =>
    have hbody : (Body.read c').prepend (lines ++ [line]) (ds ++ es) =
        ((Body.read c').cons line es).prepend lines ds := by
      simp [Body.prepend, Body.cons]
    have hlater := ih (lines ++ [line]) (ds ++ es)
    rw [hbody] at hlater
    rw [readOn_of_success hline, Draft.add_ofLines]
    simp only [if_neg hopen, hlater]
    rfl

theorem readOn_empty (h : Header) (c : Cursor) :
    readOn h .empty c =
      ((Body.read c).lines.map Line.step ++ [.ofOutcome (read h c).1], read h c) :=
  readOn_ofLines h [] [] c

theorem readTraced_value (h : Header) (c : Cursor) : (readTraced h c).2 = read h c := by
  simp only [readTraced, readOn_empty]

/-- There is an event for the start of a reading, one for each of its lines and one for its
result. -/
theorem trace_eq (h : Header) (c : Cursor) :
    trace h c =
      (Step.started c.position.line ::
        ((Body.read c).lines.map Line.step ++ [.ofOutcome (read h c).1])).map (⟨h.name, ·⟩) := by
  simp only [trace, readTraced, readOn_empty]

end Block

theorem Line.line_of_read {c c' : Cursor} {l : Line} {ds : List Diagnostic}
    (h : read c = (.success l ds, c')) :
    c'.position.line = c.position.line + 1 ∨ c'.rest = [] := by
  rw [← skipLine_of_read h]
  rcases c.exists_line with ⟨word, hword, hrest⟩ | ⟨-, hrest⟩
  · left
    obtain ⟨text, p⟩ := c
    replace hrest : text = word ++ '\n' :: (Cursor.mk text p).skipLine.rest := hrest
    rw [hrest, Cursor.skipLine_append hword]
    exact p.line_advance_newline hword
  · exact .inr hrest

namespace Body

theorem closes_of_not_closed {c : Cursor} (h : (read c).closed = false) :
    ∀ l ∈ (read c).lines, l.closes = false := by
  fun_induction read c with
  | case1 c ds c' hline => simp
  | case2 c line ds c' hline hcloses => simp at h
  | case3 c line ds c' hline hopen ih =>
    exact List.forall_mem_cons.2 ⟨by simpa using hopen, ih h⟩

/-- Unless a body ends because the text does, it stops on the line behind those it has read. -/
theorem line_of_not_closed {c : Cursor} (h : (read c).closed = false) :
    (∃ ds, (read c).diagnostics = ds ++ [(read c).cursor.error (.block .endOfText)]) ∨
      (read c).cursor.position.line = c.position.line + (read c).lines.length := by
  fun_induction read c with
  | case1 c ds c' hline =>
    obtain ⟨word, hpasses, hword⟩ := Line.passes_of_read_failure hline
    right
    rw [hpasses.position]
    exact c.position.line_advance_word hword
  | case2 c line ds c' hline hcloses => simp at h
  | case3 c line ds c' hline hopen ih =>
    rcases Line.line_of_read hline with hnext | hend
    · rcases ih h with ⟨es, hes⟩ | hlater
      · left
        exact ⟨ds ++ es, by simp [cons, hes]⟩
      · right
        simp only [cons, List.length_cons]
        omega
    · -- The line had no newline, so the next round finds nothing to read.
      left
      obtain ⟨cs, p⟩ := c'
      obtain rfl : cs = [] := hend
      rw [read_of_failure (Line.read_nil p)]
      exact ⟨ds, rfl⟩

end Body

theorem Line.Form.isEntry_eq (f : Form) :
    f.isEntry = decide (f.line.content.label = "KeyValue") := by
  cases f with
  | comment indent f =>
    cases f <;> simp [isEntry, line, Comment.Form.doc?, ofComment, LineContent.label]
  | _ => simp [isEntry, line, LineContent.label]

namespace Block

theorem isSuccess_read (h : Header) (c : Cursor) :
    (read h c).1.isSuccess = (Body.read c).closed := by
  unfold read ofBody
  cases (Body.read c).closed <;> rfl

/-- The lines of a block that was read: the last one and no other closes it, and those with an
entry are as many as its entries. -/
theorem exists_lines_of_success {h : Header} {c : Cursor} {b : Block} {ds : List Diagnostic}
    (hread : (read h c).1 = .success b ds) :
    b.entries.length = (Body.read c).lines.countP (·.content.label = "KeyValue") ∧
      ∃ front last, (Body.read c).lines = front ++ [last] ∧ last.closes = true ∧
        ∀ l ∈ front, l.closes = false := by
  have hclosed : (Body.read c).closed = true := by
    rw [← isSuccess_read h, hread]
    rfl
  obtain ⟨xs, z, hrest, hxs, hz, hfits⟩ := Body.exists_forms_of_closed c hclosed
  have hlayout : Body.Layout c.rest xs z (Body.read c).cursor.rest := ⟨hrest, hxs, hz, hfits⟩
  rw [attach_read hread hlayout, Body.lines_read_of_layout hlayout]
  constructor
  · rw [length_attach, List.countP_map]
    apply List.countP_congr
    intro f _
    simp [f.isEntry_eq]
  · refine ⟨xs.map Line.Form.line, z.line, by simp, by rw [z.closes_line, hz], ?_⟩
    intro l hl
    obtain ⟨x, hx, rfl⟩ := List.mem_map.1 hl
    rw [x.closes_line, hxs x hx]

/-- The lines in front of a failure: none of them closes the block, and unless the text is over
the error is on the next one. -/
theorem exists_error_of_failure {h : Header} {c : Cursor} {ds : List Diagnostic}
    (hread : (read h c).1 = .failure ds) :
    (∀ l ∈ (Body.read c).lines, l.closes = false) ∧
      ∃ ws d, ds = ws ++ [d] ∧ (∀ w ∈ ws, w.isWarning = true) ∧ d.isError = true ∧
        (d.problem ≠ .block .endOfText →
          d.line = c.position.line + (Body.read c).lines.length) := by
  have hopen : (Body.read c).closed = false := by
    rw [← isSuccess_read h, hread]
    rfl
  obtain rfl : (Body.read c).diagnostics = ds := by simpa [read, ofBody, hopen] using hread
  have hlocates := locates_read h c
  rw [hread] at hlocates
  obtain ⟨ws, problem, hds, hws, -⟩ := hlocates
  refine ⟨Body.closes_of_not_closed hopen, ws, _, hds, hws, rfl, ?_⟩
  intro hproblem
  rcases Body.line_of_not_closed hopen with ⟨es, hes⟩ | hline
  · have hlast := (List.append_inj' (hds.symm.trans hes) rfl).2
    exact absurd (congrArg Diagnostic.problem (List.singleton_inj.1 hlast)) hproblem
  · exact hline

/-- The events of a reading do not change it, and they agree with its result. All bear the name of
the block; they are the start on line one, then the lines that were read, then the result with the
number of its diagnostics. After a success this event also gives the number of entries, for each
of which there is the event of a line, and the last line and no other closes the block. After a
failure no line does; the last of the diagnostics is the only error, and unless the text was over it
is on the line behind those with events. -/
theorem trace_agrees (text : String) (h : Header) :
    (readTraced h (.ofText text)).2 = read h (.ofText text) ∧
      ∃ (lines : List Line) (last : Step),
        trace h (.ofText text) =
          (Step.started 1 :: (lines.map Line.step ++ [last])).map (⟨h.name, ·⟩) ∧
        (trace h (.ofText text)).map Event.level =
          "DEBUG" :: (List.replicate lines.length "TRACE" ++ ["DEBUG"]) ∧
        (trace h (.ofText text)).map Event.message =
          "Parsing block" :: (List.replicate lines.length "Parsed line" ++
            [if (readText text h).isSuccess then "Parsed block" else "Block parse failed"]) ∧
        match readText text h with
        | .success b ds =>
          last = .finished b.entries.length ds.length ∧
            b.entries.length = lines.countP (·.content.label = "KeyValue") ∧
            ∃ front z, lines = front ++ [z] ∧ z.closes = true ∧ ∀ l ∈ front, l.closes = false
        | .failure ds =>
          last = .failed ds.length ∧ (∀ l ∈ lines, l.closes = false) ∧
            ∃ ws d, ds = ws ++ [d] ∧ (∀ w ∈ ws, w.isWarning = true) ∧ d.isError = true ∧
              (d.problem ≠ .block .endOfText → d.line = 1 + lines.length) := by
  refine ⟨readTraced_value h _, (Body.read (.ofText text)).lines, .ofOutcome (readText text h),
    trace_eq h _, ?_, ?_, ?_⟩
  · simp [trace_eq, Function.comp_def, List.map_const']
  · rw [readText]
    simp [trace_eq, Function.comp_def, List.map_const']
  · cases hread : readText text h with
    | success b ds => exact ⟨rfl, exists_lines_of_success hread⟩
    | failure ds => exact ⟨rfl, exists_error_of_failure hread⟩

-- The comment ends with the text, so the error is on its line and not on the one behind it.
example : trace ⟨"db", []⟩ (.ofText "a = 1\n/// end") =
      [⟨"db", .started 1⟩, ⟨"db", .line (.entry ⟨"a", .integer 1, []⟩) false⟩,
        ⟨"db", .line (.comment "end") false⟩, ⟨"db", .failed 1⟩] ∧
    readText "a = 1\n/// end" ⟨"db", []⟩ = .failure [⟨.block .endOfText, 2, 8, .error⟩] := by
  decide +kernel

end Block
end ConfigBlock
