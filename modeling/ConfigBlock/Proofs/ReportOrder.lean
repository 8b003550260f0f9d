import ConfigBlock.Proofs.Surroundings
import ConfigBlock.Proofs.Trail

/-!
# The order of the reports

The reports on a block follow the order of the text, line by line and column by column, and a
problem tells whether it was a warning. They are read off the trail that reading a body leaves;
how many warnings a line can have is counted by reading the physical lines one by one.
-/

namespace ConfigBlock

/-- The character of a text on a line and in a column, both counted from one. -/
def charAt? (text : List Char) (line column : Nat) : Option Char :=
  (physicalLines text)[line - 1]?.bind (·[column - 1]?)

theorem charAt?_newline_cons (text : List Char) {line : Nat} (hline : 1 ≤ line) (column : Nat) :
    charAt? ('\n' :: text) (line + 1) column = charAt? text line column := by
  obtain ⟨line, rfl⟩ := Nat.exists_eq_add_of_le' hline
  rfl

theorem charAt?_cons {c : Char} (hc : c ≠ '\n') {text : List Char} (hne : text ≠ []) {line : Nat}
    (hline : 1 ≤ line) {column : Nat} (hcolumn : 1 ≤ column) :
    charAt? (c :: text) line (if line = 1 then column + 1 else column) =
      charAt? text line column := by
  obtain ⟨first, more, hlines, -⟩ := exists_physicalLine hne
  have hcons : physicalLines (c :: text) = (c :: first) :: more := by
    simp [physicalLines, hc, hlines]
  obtain ⟨column, rfl⟩ := Nat.exists_eq_add_of_le' hcolumn
  rw [charAt?, charAt?, hcons, hlines]
  rcases line with _ | _ | line
  · omega
  · simp
  · simp

theorem charAt?_append (before : List Char) (x : Char) (after : List Char) :
    charAt? (before ++ x :: after) (Position.origin.advance before).line
      (Position.origin.advance before).column = some x := by
  induction before with
  | nil =>
    obtain ⟨line, lines, hlines, hhead⟩ := exists_physicalLine (List.cons_ne_nil x after)
    simpa [charAt?, hlines, Position.origin, ← List.head?_eq_getElem?] using hhead
  | cons c cs ih =>
    have hline : 1 ≤ (Position.origin.advance cs).line := by
      rw [Position.advance_line]
      exact Nat.le_add_right 1 _
    have hcolumn : 1 ≤ (Position.origin.advance cs).column := by
      rw [Position.column_advance_origin]
      exact Nat.le_add_right 1 _
    have hshift : Position.origin.advance (c :: cs) = (Position.origin.advance cs).shift [c] :=
      Position.advance_advance_origin [c] cs
    rw [List.cons_append, hshift, ← ih]
    by_cases hc : c = '\n'
    · have hlast : lastLine [c] = [] := by rw [hc]; rfl
      subst hc
      simpa [Position.shift, Position.shiftColumn, hlast] using charAt?_newline_cons _ hline _
    · have hlast : lastLine [c] = [c] := by
        rw [lastLine, List.rtakeWhile_eq_self_iff]
        simpa using hc
      have hne : cs ++ x :: after ≠ [] := by simp
      simpa [Position.shift, Position.shiftColumn, hlast, hc] using
        charAt?_cons hc hne hline hcolumn

theorem Cursor.charAt?_of_reaches {text : List Char} {c : Cursor} {x : Char}
    (h : (ofChars text).Reaches c) (hc : c.current = some x) :
    charAt? text c.position.line c.position.column = some x := by
  obtain ⟨before, htext, hp⟩ := h
  rw [rest_eq_cons hc] at htext
  rw [hp, show text = before ++ x :: c.advance.rest from htext]
  exact charAt?_append before x _

namespace Outcome

variable {α β : Type}

theorem warnings_map (f : α → β) (o : Outcome α) : (o.map f).warnings = o.warnings := by
  cases o <;> rfl

theorem isSuccess_map (f : α → β) (o : Outcome α) : (o.map f).isSuccess = o.isSuccess := by
  cases o <;> rfl

theorem warnings_withLeading (ds : List Diagnostic) (o : Outcome α) :
    (o.withLeading ds).warnings = ds.filter (·.isWarning) ++ o.warnings := by
  simp [warnings]

theorem warnings_onLine (number : Nat) (o : Outcome α) :
    (o.mapDiagnostics (Diagnostic.onLine number)).warnings =
      o.warnings.map (Diagnostic.onLine number) := by
  rw [warnings, warnings, diagnostics_mapDiagnostics, List.filter_map]
  rfl

theorem Notes.exists_trail {o : Outcome α} {c c' : Cursor}
    {post : Option α → List Diagnostic → Prop} (h : o.Notes c c' post) :
    ∃ ws, post o.value? ws ∧ o.warnings.length ≤ ws.length := by
  obtain ⟨ws, -, hpost, hds⟩ := h
  refine ⟨ws, hpost, ?_⟩
  cases o with
  | success a ds =>
    obtain rfl : ds = ws := hds
    exact List.length_filter_le _ _
  | failure ds =>
    obtain ⟨problem, rfl⟩ := hds
    have herror : (c'.error problem).isWarning = false := rfl
    simpa [warnings, diagnostics, herror] using List.length_filter_le _ ws

end Outcome

namespace Line

theorem length_warnings_read (c : Cursor) :
    (read c).1.warnings.length ≤ if (read c).1.value?.any closes = true then 2 else 1 := by
  obtain ⟨_, ⟨dropped, skipped, rfl, hdrops, hlength, -, hcloses⟩, hle⟩ :=
    (notes_read c).exists_trail
  rw [List.length_append] at hle
  have hdropped := hdrops.1
  split_ifs with hany
  · omega
  · obtain rfl : skipped = [] := by
      by_contra hne
      exact hany (hcloses hne)
    simpa using hle.trans (by simpa using hdropped)

/-- Whether a line, read on its own, closes the block. -/
def closesAlone (text : List Char) : Bool := (read (.ofChars text)).1.value?.any closes

/-- Whether a line can be read and leaves the block open. -/
def staysOpen (text : List Char) : Bool := (read (.ofChars text)).1.value?.any (!closes ·)

theorem not_staysOpen_of_closesAlone {text : List Char} (h : closesAlone text = true) :
    staysOpen text = false := by
  unfold closesAlone at h
  unfold staysOpen
  cases hv : (read (.ofChars text)).1.value? <;> simp_all

/-- One step of reading line by line: the warnings of the line and those of the lines behind it,
if the line leaves the block open. -/
theorem warnings_readEach (last : Position) (number : Nat) (text : List Char)
    (texts : List (List Char)) :
    (readEach last number (text :: texts)).warnings =
      (read (.ofChars text)).1.warnings.map (Diagnostic.onLine number) ++
        if staysOpen text = true then (readEach last (number + 1) texts).warnings else [] := by
  rw [readEach, ← Outcome.warnings_onLine]
  unfold staysOpen
  rcases (read (.ofChars text)).1 with ⟨line, ds⟩ | ds
  · by_cases hc : line.closes = true
    · simp [Outcome.mapDiagnostics, Outcome.value?, hc, Outcome.warnings, Outcome.diagnostics]
    · simp [Outcome.mapDiagnostics, Outcome.value?, hc, Outcome.warnings_withLeading,
        Outcome.warnings_map]
      rfl
  · simp [Outcome.mapDiagnostics, Outcome.value?, Outcome.warnings, Outcome.diagnostics]

theorem isSuccess_readEach (last : Position) (number : Nat) (text : List Char)
    (texts : List (List Char)) :
    (readEach last number (text :: texts)).isSuccess =
      if staysOpen text = true then (readEach last (number + 1) texts).isSuccess
      else closesAlone text := by
  rw [readEach]
  unfold staysOpen closesAlone
  rcases (read (.ofChars text)).1 with ⟨line, ds⟩ | ds
  · by_cases hc : line.closes = true
    · simp [Outcome.mapDiagnostics, Outcome.value?, hc, Outcome.isSuccess]
    · simp [Outcome.mapDiagnostics, Outcome.value?, hc]
      rcases readEach last (number + 1) texts with _ | _ <;> rfl
  · simp [Outcome.mapDiagnostics, Outcome.value?, Outcome.isSuccess]

theorem le_line_of_mem_readEach (last : Position) (number : Nat) (texts : List (List Char)) :
    ∀ d ∈ (readEach last number texts).warnings, number ≤ d.line := by
  induction texts generalizing number with
  | nil => simp [readEach, Outcome.warnings, Outcome.diagnostics, Diagnostic.isWarning,
      Diagnostic.located]
  | cons text texts ih =>
    rw [warnings_readEach]
    refine List.forall_mem_append.2 ⟨?_, ?_⟩
    · intro d hd
      obtain ⟨e, -, rfl⟩ := List.mem_map.1 hd
      exact le_rfl
    · split_ifs
      · exact fun d hd => (Nat.le_succ number).trans (ih (number + 1) d hd)
      · simp

theorem countP_onLine (number n : Nat) (ds : List Diagnostic) :
    (ds.map (Diagnostic.onLine number)).countP (·.line = n) =
      if n = number then ds.length else 0 := by
  rw [List.countP_map]
  split_ifs with hn
  · simp [Function.comp_def, Diagnostic.onLine, hn]
  · simp [Function.comp_def, Diagnostic.onLine, Ne.symm hn]

theorem countP_warnings_eq_zero (last : Position) (texts : List (List Char)) {number n : Nat}
    (h : n < number) : (readEach last number texts).warnings.countP (·.line = n) = 0 := by
  rw [List.countP_eq_zero]
  intro d hd
  have hle := le_line_of_mem_readEach last number texts d hd
  simp only [decide_eq_true_eq]
  omega

/-- Reading line by line, no line has more than one warning, apart from the first that closes the
block. -/
theorem countP_warnings_readEach (last : Position) (number n : Nat) (texts : List (List Char)) :
    (readEach last number texts).warnings.countP (·.line = n) ≤
      if (readEach last number texts).isSuccess = true ∧
        n = number + texts.findIdx closesAlone then 2 else 1 := by
  induction texts generalizing number with
  | nil => simp [readEach, Outcome.warnings, Outcome.diagnostics, Diagnostic.isWarning,
      Diagnostic.located]
  | cons text texts ih =>
    have hline : (read (.ofChars text)).1.warnings.length ≤
        if closesAlone text = true then 2 else 1 := length_warnings_read _
    rw [warnings_readEach, isSuccess_readEach, List.countP_append, countP_onLine,
      List.findIdx_cons]
    by_cases hcloses : closesAlone text = true
    · rw [hcloses, if_pos rfl] at hline
      simp only [hcloses, not_staysOpen_of_closesAlone hcloses, Bool.false_eq_true, if_false,
        List.countP_nil, cond_true, true_and, Nat.add_zero]
      split_ifs
      · exact hline
      · exact Nat.zero_le _
    · rw [if_neg hcloses] at hline
      simp only [hcloses, cond_false]
      by_cases hn : n = number
      · -- The lines behind this one have other numbers.
        have hlater : (if staysOpen text = true then (readEach last (number + 1) texts).warnings
            else []).countP (·.line = n) = 0 := by
          split_ifs
          · exact countP_warnings_eq_zero last texts (by omega)
          · exact List.countP_nil
        rw [if_pos hn, hlater, Nat.add_zero]
        exact hline.trans (by split_ifs <;> omega)
      · rw [if_neg hn, Nat.zero_add]
        by_cases hopen : staysOpen text = true
        · have hlater := ih (number + 1)
          rw [Nat.add_assoc, Nat.add_comm 1] at hlater
          simpa only [if_pos hopen] using hlater
        · simp [hopen]

end Line

namespace Block

/-- The number of the first line that closes the block. -/
def closingLine (text : List Char) : Nat := 1 + (physicalLines text).findIdx Line.closesAlone

/-- The reports of a text are a trail of warnings and, if reading fails, an error behind it. -/
theorem exists_trail (text : String) (h : Header) :
    ∃ (ws : List Diagnostic) (stop : Cursor) (dropped skipped : List Diagnostic),
      (Cursor.ofText text).Trail ws stop ∧ ws = dropped ++ skipped ∧
      (∀ d ∈ dropped, d.DropsControl) ∧ skipped.length ≤ 1 ∧
      ((readText text h).isSuccess = true ∧ (readText text h).diagnostics = ws ∨
        (readText text h).isSuccess = false ∧ skipped = [] ∧
          ∃ problem, (readText text h).diagnostics = ws ++ [stop.error problem] ∧
            problem.Fits stop.current) := by
  obtain ⟨ws, htrail, ⟨dropped, skipped, hws, hdrops, hlength, -, hcloses⟩, hds⟩ :=
    Body.notes_read (.ofText text)
  have hlocates := locates_read h (.ofText text)
  have houtcome : readText text h = (Body.read (.ofText text)).outcome.map (ofLines h) :=
    ofBody_eq_map h _
  refine ⟨ws, (Body.read (.ofText text)).cursor, dropped, skipped, htrail, hws, hdrops, hlength, ?_⟩
  change Outcome.Locates (readText text h) (Body.read (.ofText text)).cursor at hlocates
  rw [houtcome] at hlocates ⊢
  rcases ho : (Body.read (.ofText text)).outcome with ⟨lines, ds⟩ | ds <;>
    rw [ho] at hlocates hds hcloses
  · exact .inl ⟨rfl, hds⟩
  · obtain ⟨problem, hds⟩ := hds
    obtain ⟨ws', problem', hds', -, hfits⟩ := hlocates
    have hsame : ws ++ [(Body.read (.ofText text)).cursor.error problem] =
        ws' ++ [(Body.read (.ofText text)).cursor.error problem'] := hds.symm.trans hds'
    have hproblem : problem = problem' := by
      simpa [Cursor.error, Diagnostic.located] using (List.append_inj' hsame rfl).2
    have hskipped : skipped = [] := by
      by_contra hne
      exact absurd (hcloses hne) (by simp [Outcome.value?])
    exact .inr ⟨rfl, hskipped, problem, hds, hproblem ▸ hfits⟩

/-- Every report is a warning on a character that allows it, or an error that may be reported. -/
theorem mem_diagnostics {text : String} {h : Header} {d : Diagnostic}
    (hd : d ∈ (readText text h).diagnostics) :
    (∃ x, d.isWarning = true ∧ d.Marks x ∧
        charAt? text.toList d.line d.column = some x) ∨
      d.isWarning = false ∧ ∃ x, d.problem.Fits x := by
  obtain ⟨ws, stop, _, _, htrail, -, -, -, hds⟩ := exists_trail text h
  have hwarning (hd : d ∈ ws) : ∃ x, d.isWarning = true ∧ d.Marks x ∧
      charAt? text.toList d.line d.column = some x := by
    obtain ⟨m, x, hreach, hm, hdm, hmarks⟩ := htrail.exists_mark d hd
    refine ⟨x, by rw [hdm]; rfl, hmarks, ?_⟩
    rw [hdm]
    exact Cursor.charAt?_of_reaches hreach hm
  rcases hds with ⟨-, hds⟩ | ⟨-, -, problem, hds, hfits⟩ <;> rw [hds] at hd
  · exact .inl (hwarning hd)
  · rcases List.mem_append.1 hd with hd | hd
    · exact .inl (hwarning hd)
    · obtain rfl := List.mem_singleton.1 hd
      exact .inr ⟨rfl, _, hfits⟩

theorem pairwise_diagnostics (text : String) (h : Header) :
    (readText text h).diagnostics.Pairwise fun d e => d.place < e.place := by
  obtain ⟨ws, stop, _, _, htrail, -, -, -, hds⟩ := exists_trail text h
  rcases hds with ⟨-, hds⟩ | ⟨-, -, problem, hds, -⟩ <;> rw [hds]
  · exact htrail.pairwise
  · refine List.pairwise_append.2 ⟨htrail.pairwise, by simp, ?_⟩
    intro d hd e he
    obtain rfl := List.mem_singleton.1 he
    exact (htrail.place_mem d hd).2

theorem ne_skippedText (text : String) (h : Header) :
    (∀ d ∈ (readText text h).diagnostics.dropLast, d.problem ≠ .entry .skippedText) ∧
      ((readText text h).isSuccess = false →
        ∀ d ∈ (readText text h).diagnostics, d.problem ≠ .entry .skippedText) := by
  obtain ⟨ws, stop, dropped, skipped, -, hws, hdrops, hlength, hds⟩ := exists_trail text h
  have hne : ∀ d ∈ dropped, d.problem ≠ .entry .skippedText := by
    intro d hd
    rcases hdrops d hd with h | h <;> simp [h]
  rcases hds with ⟨hsuccess, hds⟩ | ⟨hsuccess, rfl, problem, hds, hfits⟩ <;>
    rw [hds, hsuccess, hws]
  · refine ⟨?_, by simp⟩
    intro d hd
    apply hne
    rcases skipped with _ | ⟨last, _ | _⟩
    · exact List.dropLast_subset _ (by simpa using hd)
    · simpa using hd
    · simp at hlength
  · rw [List.append_nil, List.dropLast_concat]
    refine ⟨hne, fun _ => List.forall_mem_append.2 ⟨hne, List.forall_mem_singleton.2 ?_⟩⟩
    intro hskipped
    have hproblem : problem = .entry .skippedText := hskipped
    rw [hproblem] at hfits
    exact hfits

theorem countP_skippedText_le (text : String) (h : Header) :
    (readText text h).diagnostics.countP (·.problem = .entry .skippedText) ≤ 1 := by
  have hlast := (ne_skippedText text h).1
  rcases List.eq_nil_or_concat' (readText text h).diagnostics with hnil | ⟨ds, d, hds⟩
  · simp [hnil]
  · rw [hds, List.dropLast_concat] at hlast
    rw [hds, List.countP_append, List.countP_eq_zero.2 (by simpa using hlast), Nat.zero_add]
    exact List.countP_le_length

theorem isWarning_iff {text : String} {h : Header} {d : Diagnostic}
    (hd : d ∈ (readText text h).diagnostics) :
    d.isWarning = true ↔ d.DropsControl ∨ d.problem = .entry .skippedText := by
  rcases mem_diagnostics hd with ⟨x, hwarning, ⟨hdrops, -⟩ | ⟨hskips, -⟩, -⟩ | ⟨herror, x, hfits⟩
  · exact iff_of_true hwarning (.inl hdrops)
  · exact iff_of_true hwarning (.inr hskips)
  · refine iff_of_false (by simp [herror]) ?_
    rintro ((h | h) | h) <;> rw [h] at hfits <;> exact hfits

theorem ne_integerForDouble {text : String} {h : Header} {d : Diagnostic}
    (hd : d ∈ (readText text h).diagnostics) : d.problem ≠ .numeral .integerForDouble := by
  intro hproblem
  rcases mem_diagnostics hd with ⟨x, -, ⟨h | h, -⟩ | ⟨h, -⟩, -⟩ | ⟨-, x, hfits⟩
  · simp [hproblem] at h
  · simp [hproblem] at h
  · simp [hproblem] at h
  · rw [hproblem] at hfits
    exact hfits

theorem countP_warnings_le (text : String) (h : Header) (n : Nat) :
    (readText text h).warnings.countP (·.line = n) ≤
      if (readText text h).isSuccess = true ∧ n = closingLine text.toList then 2 else 1 := by
  have hbody : (Body.read (.ofText text)).outcome = Line.readEach _ 1 (physicalLines text.toList) :=
    Body.outcome_read text.toList (p := .origin) rfl
  have houtcome : readText text h = (Body.read (.ofText text)).outcome.map (ofLines h) :=
    ofBody_eq_map h _
  have hcount := Line.countP_warnings_readEach (Position.origin.advance text.toList) 1 n
    (physicalLines text.toList)
  rw [houtcome, Outcome.warnings_map, Outcome.isSuccess_map, hbody]
  exact hcount

/-- The reports on a text are strictly ordered by line and column. Warnings are those about
dropped control characters and about skipped text, and an integer is never reported in place of a
double. A line has at most one warning, the line that closes the block at most two. Skipped text
is reported at most once, in a success and last. Control characters are reported on a quote, and
skipped text on a character that is neither a blank nor a newline. -/
theorem readText_report_order (text : String) (h : Header) :
    let ds := (readText text h).diagnostics
    (ds.Pairwise fun d e => d.place < e.place) ∧
      (∀ d ∈ ds, (d.isWarning = true ↔ d.problem = .literal .controlCharacter ∨
          d.problem = .env (.literal .controlCharacter) ∨ d.problem = .entry .skippedText) ∧
        d.problem ≠ .numeral .integerForDouble) ∧
      (∀ n, (readText text h).warnings.countP (·.line = n) ≤
        if (readText text h).isSuccess = true ∧ n = closingLine text.toList then 2 else 1) ∧
      (ds.countP (·.problem = .entry .skippedText) ≤ 1 ∧
        (∀ d ∈ ds.dropLast, d.problem ≠ .entry .skippedText) ∧
        ((readText text h).isSuccess = false → ∀ d ∈ ds, d.problem ≠ .entry .skippedText)) ∧
      (∀ d ∈ ds, d.DropsControl → charAt? text.toList d.line d.column = some '"') ∧
      ∀ d ∈ ds, d.problem = .entry .skippedText →
        ∃ x, charAt? text.toList d.line d.column = some x ∧ x ≠ ' ' ∧ x ≠ '\n' := by
  intro ds
  refine ⟨pairwise_diagnostics text h, fun d hd => ⟨?_, ne_integerForDouble hd⟩,
    countP_warnings_le text h, ⟨countP_skippedText_le text h, ne_skippedText text h⟩, ?_, ?_⟩
  · rw [← or_assoc]
    exact isWarning_iff hd
  · intro d hd hdrops
    have hwarning := (isWarning_iff hd).2 (.inl hdrops)
    rcases mem_diagnostics hd with ⟨x, -, ⟨-, rfl⟩ | ⟨hskips, -⟩, hchar⟩ | ⟨herror, -⟩
    · exact hchar
    · rcases hdrops with h | h <;> simp [h] at hskips
    · simp [herror] at hwarning
  · intro d hd hskips
    have hwarning := (isWarning_iff hd).2 (.inr hskips)
    rcases mem_diagnostics hd with ⟨x, -, ⟨h | h, -⟩ | ⟨-, hx⟩, hchar⟩ | ⟨herror, -⟩
    · simp [hskips] at h
    · simp [hskips] at h
    · exact ⟨x, hchar, hx⟩
    · simp [herror] at hwarning

end Block
end ConfigBlock
