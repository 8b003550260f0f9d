import ConfigBlock.Proofs.Form.Numeral
import ConfigBlock.Block.Reader

/-!
# Where reading fails

A failed reading reports any number of warnings and then one error, which is placed where the
cursor stopped and names what the cursor stands on. `LocatesOn x` says this of a parser on all
cursors that stand on `x`: an error that follows a step is justified by the character the step
came to. The property passes from the single steps to values, lines and whole blocks.
-/

namespace ConfigBlock

open ConfigBlock.Parser

/-- What may stand behind a numeral: nothing, or a character that ends it. -/
def Numeral.EndsAt (x : Option Char) : Prop :=
  x = none ∨ x = some ' ' ∨ x = some '/' ∨ x = some '\n'

/-- The errors that may be reported on a character, or at the end of the text. The problems
that are only ever warnings fit nothing. -/
def Problem.Fits : Problem → Option Char → Prop
  | .block .endOfText, x => x = none
  | .block (.unexpected c), x => x = some c
  | .entry .endOfText, x => x = none
  | .entry (.unexpected c), x => x = some c
  | .entry .skippedText, _ => False
  | .key (.missingEquals c), x => x = some c
  | .key (.unexpected c), x => x = some c
  | .key .endOfText, x => x = none
  | .key .endOfLine, x => x = some '\n'
  | .value .endOfText, x => x = none
  | .value (.unexpected c), x => x = some c
  | .literal .controlCharacter, _ => False
  | .literal .newline, x => x = some '\n'
  | .literal .endOfText, x => x = none
  | .numeral .integerForDouble, _ => False
  | .numeral (.unexpected c), x => x = some c
  | .numeral (.malformed _), x => Numeral.EndsAt x
  | .numeral .endOfText, x => Numeral.EndsAt x
  | .boolean (.unexpected c), x => x = some c
  | .boolean .endOfText, x => x = none
  | .env (.unexpected c), x => x = some c
  | .env (.literal .controlCharacter), _ => False
  | .env (.literal .newline), x => x = some '\n'
  | .env (.literal .endOfText), x => x = none
  | .env .endOfText, x => x = none
  | .comment (.unexpected c), x => x = some c

theorem Problem.fits_insideEnv {problem : Problem} {x : Option Char} (h : problem.Fits x) :
    problem.insideEnv.Fits x := by
  cases problem with
  | literal p => cases p <;> exact h
  | _ => exact h

/-- What may be reported by a reading that stopped at `c`. -/
def Outcome.Locates {α : Type} (o : Outcome α) (c : Cursor) : Prop :=
  match o with
  | .success _ ds => ∀ d ∈ ds, d.isWarning = true
  | .failure ds => ∃ ws problem, ds = ws ++ [c.error problem] ∧
      (∀ d ∈ ws, d.isWarning = true) ∧ problem.Fits c.current

namespace Outcome

variable {α β : Type}

theorem Locates.withLeading {o : Outcome α} {c : Cursor} (h : o.Locates c)
    {ds : List Diagnostic} (hds : ∀ d ∈ ds, d.isWarning = true) : (o.withLeading ds).Locates c := by
  cases o with
  | success a es => exact List.forall_mem_append.2 ⟨hds, h⟩
  | failure es =>
    obtain ⟨ws, problem, rfl, hws, hfits⟩ := h
    refine ⟨ds ++ ws, problem, by simp, ?_, hfits⟩
    exact List.forall_mem_append.2 ⟨hds, hws⟩

theorem Locates.map {o : Outcome α} {c : Cursor} (h : o.Locates c) (f : α → β) :
    (o.map f).Locates c := by
  cases o <;> exact h

theorem Locates.insideEnv {o : Outcome α} {c : Cursor} (h : o.Locates c) :
    (o.mapDiagnostics fun d => { d with problem := d.problem.insideEnv }).Locates c := by
  cases o with
  | success a ds =>
    intro d hd
    obtain ⟨e, he, rfl⟩ := List.mem_map.1 hd
    exact h e he
  | failure ds =>
    obtain ⟨ws, problem, rfl, hws, hfits⟩ := h
    refine ⟨ws.map fun d => { d with problem := d.problem.insideEnv }, problem.insideEnv,
      by simp [Cursor.error, Diagnostic.located], ?_, problem.fits_insideEnv hfits⟩
    intro d hd
    obtain ⟨e, he, rfl⟩ := List.mem_map.1 hd
    exact hws e he

end Outcome

namespace Parser

variable {α β : Type} {x : Option Char}

/-- On every cursor that stands on `x`, the parser reports what may be reported where it
stopped. -/
def LocatesOn (x : Option Char) (p : Parser α) : Prop :=
  ∀ c : Cursor, c.current = x → (p c).1.Locates (p c).2

/-- The parser is right about its failures wherever it starts. -/
def Locates (p : Parser α) : Prop := ∀ c : Cursor, (p c).1.Locates (p c).2

namespace LocatesOn

theorem error {problem : Problem} (h : problem.Fits x) :
    LocatesOn x (error problem : Parser α) := by
  rintro c rfl
  exact ⟨[], problem, rfl, by simp, h⟩

/-- The character a parser starts on does not matter once it has stepped on. -/
theorem bind {p : Parser α} {f : α → Parser β} (hp : LocatesOn x p) (hf : ∀ a, Locates (f a)) :
    LocatesOn x (p >>= f) := by
  intro c hx
  have h := hp c hx
  rcases hc : p c with ⟨⟨a, ds⟩ | ds, c'⟩
  · rw [hc] at h
    rw [bind_of_success hc]
    exact (hf a c').withLeading h
  · rw [hc] at h
    rw [bind_of_failure hc]
    exact h

end LocatesOn

namespace Locates

theorem on {p : Parser α} (h : Locates p) (x : Option Char) : LocatesOn x p := fun c _ => h c

theorem pure (a : α) : Locates (Pure.pure a : Parser α) := by
  intro c d hd
  simp at hd

theorem bind {p : Parser α} {f : α → Parser β} (hp : Locates p) (hf : ∀ a, Locates (f a)) :
    Locates (p >>= f) := fun c => (hp.on c.current).bind hf c rfl

theorem current {f : Option Char → Parser α} (h : ∀ x, LocatesOn x (f x)) :
    Locates (current >>= f) := by
  intro c
  rw [current_bind]
  exact h c.current c rfl

theorem advance {f : Option Char → Parser α} (h : ∀ x, LocatesOn x (f x)) :
    Locates (advance >>= f) := by
  intro c
  rw [advance_bind]
  exact h c.advance.current c.advance rfl

theorem skipSpaces {f : Option Char → Parser α} (h : ∀ x, LocatesOn x (f x)) :
    Locates (skipSpaces >>= f) := by
  intro c
  rw [skipSpaces_bind]
  exact h c.skipSpaces.current c.skipSpaces rfl

theorem takeWhile (test : Char → Bool) {f : List Char → Parser α} (h : ∀ word, Locates (f word)) :
    Locates (takeWhile test >>= f) := by
  intro c
  rw [takeWhile_bind]
  exact h _ _

theorem skipLine {f : List Char → Parser α} (h : ∀ text, Locates (f text)) :
    Locates (skipLine >>= f) := by
  intro c
  rw [skipLine_bind]
  exact h _ _

theorem warning (problem : Problem) {f : Unit → Parser α} (h : Locates (f ())) :
    Locates (warning problem >>= f) := by
  intro c
  rw [warning_bind]
  apply (h c).withLeading
  intro d hd
  obtain rfl : d = c.warning problem := by simpa using hd
  rfl

end Locates

theorem Locates.spell {accepts : Char → Char → Bool} {atEnd : Problem}
    {unexpected : Char → Problem} (hend : atEnd.Fits none)
    (hchar : ∀ c, (unexpected c).Fits (some c)) (expected : List Char) :
    Locates (spell accepts atEnd unexpected expected) := by
  induction expected with
  | nil => exact pure ()
  | cons e es ih =>
    apply advance
    intro x
    cases x with
    | none => exact .error hend
    | some c =>
      dsimp only
      split_ifs with hc
      · exact ih.on _
      · exact .error (hchar c)

end Parser

namespace Literal

/-- What the cursor stands on when a scan is over. -/
theorem current_scan (escaped : Bool) (p : Position) (cs : List Char) :
    ((scan escaped p cs).stop = .newline → (scan escaped p cs).cursor.current = some '\n') ∧
      ((scan escaped p cs).stop = .endOfText → (scan escaped p cs).cursor.current = none) := by
  induction cs generalizing escaped p with
  | nil => simp [scan]
  | cons c cs ih =>
    unfold scan
    split_ifs with hn
    · simp [hn]
    · exact ih false (p.step c)
    · exact ih false (p.step c)
    · exact ih false (p.step c)
    · exact ih true (p.step c)
    · simp
    · exact ih false (p.step c)
    · exact ih false (p.step c)

theorem isWarning_of_mem_warnings {opening : Position} {s : Scan} :
    ∀ d ∈ warnings opening s, d.isWarning = true := by
  intro d hd
  unfold warnings at hd
  split_ifs at hd
  · obtain rfl := List.mem_singleton.1 hd
    rfl
  · simp at hd

theorem locates_read : read.Locates := by
  intro c
  obtain ⟨hnewline, hend⟩ := current_scan false c.advance.position c.advance.rest
  unfold read
  dsimp only
  split
  · exact isWarning_of_mem_warnings
  · next hs => exact ⟨_, _, rfl, isWarning_of_mem_warnings, hnewline hs⟩
  · next hs => exact ⟨_, _, rfl, isWarning_of_mem_warnings, hend hs⟩

end Literal

namespace Numeral

theorem current_scan_of_fault {phase : Phase} {p : Position} {cs : List Char} {x : Char}
    (h : (scan phase p cs).fault = some x) : (scan phase p cs).cursor.current = some x := by
  induction cs generalizing phase p with
  | nil => simp [scan] at h
  | cons c cs ih =>
    unfold scan at h ⊢
    split_ifs at h ⊢
    · exact ih h
    · exact ih h
    · exact ih h
    · exact ih h
    · simpa using h

theorem fits_of_value {text : List Char} {phase : Phase} {problem : NumeralProblem}
    {x : Option Char} (h : value text phase = .error problem) (hx : EndsAt x) :
    (Problem.numeral problem).Fits x := by
  cases phase with
  | sign =>
    obtain rfl : NumeralProblem.endOfText = problem := by simpa [value] using h
    exact hx
  | whole | fraction =>
    rw [value] at h
    split at h
    · simp at h
    · obtain rfl : NumeralProblem.malformed (String.ofList text) = problem := by simpa using h
      exact hx

theorem endsAt_current {c : Cursor} (h : Stops c.rest) : EndsAt c.current := by
  rcases hc : c.current with _ | x
  · exact .inl rfl
  · have hstop := (isStop_iff x).1 (h x hc)
    simpa [EndsAt] using hstop

theorem locates_read (start : Start) : (read start).Locates := by
  intro c
  unfold read
  dsimp only
  rcases hf : (scan start.phase c.advance.position c.advance.rest).fault with _ | x
  · obtain ⟨whole, fraction, -, -, -, hstops, -⟩ := exists_digits_of_scan hf
    dsimp only
    split
    · simp [Outcome.Locates]
    · next problem hvalue =>
      exact ⟨[], _, rfl, by simp, fits_of_value hvalue (endsAt_current hstops)⟩
  · exact ⟨[], _, rfl, by simp, current_scan_of_fault hf⟩

end Numeral

namespace Value

theorem locates_readBoolean (truth : Bool) : (readBoolean truth).Locates := by
  refine Locates.bind (.spell ?_ ?_ _) ?_
  · rfl
  · exact fun _ => rfl
  intro _
  apply Locates.advance
  intro x
  cases x with
  | none => exact (Locates.pure truth).on _
  | some c =>
    dsimp only
    split_ifs
    · exact (Locates.pure truth).on _
    · exact .error rfl

theorem locatesOn_envError {α : Type} (x : Option Char) : (envError x : Parser α).LocatesOn x := by
  cases x <;> exact .error rfl

theorem locates_readEnv : readEnv.Locates := by
  refine Locates.bind (.spell ?_ ?_ _) ?_
  · rfl
  · exact fun _ => rfl
  intro _
  apply Locates.advance
  intro _
  apply Locates.on
  apply Locates.skipSpaces
  intro opening
  split_ifs
  · apply Locates.on
    apply Locates.bind fun c => (Literal.locates_read c).insideEnv
    intro name
    apply Locates.skipSpaces
    intro closing
    split_ifs
    · apply Locates.on
      apply Locates.advance
      intro x
      cases x with
      | none => exact (Locates.pure name).on _
      | some c =>
        dsimp only
        split_ifs
        · exact (Locates.pure name).on _
        · exact locatesOn_envError _
    · exact locatesOn_envError _
  · exact locatesOn_envError _

theorem isWarning_of_mem_numeralWarnings {start : Numeral.Start} {p : Position}
    {o : Outcome Number} : ∀ d ∈ numeralWarnings start p o, d.isWarning = true := by
  intro d hd
  unfold numeralWarnings at hd
  split at hd
  · split_ifs at hd
    · obtain rfl := List.mem_singleton.1 hd
      rfl
    · simp at hd
  · simp at hd

theorem locates_readNumeral (start : Numeral.Start) : (readNumeral start).Locates := by
  intro c
  exact ((Numeral.locates_read start c).map ofNumber).withLeading isWarning_of_mem_numeralWarnings

theorem locates_read : read.Locates := by
  apply Locates.current
  intro x
  cases x with
  | none => exact .error rfl
  | some c =>
    dsimp only
    split
    · exact (locates_readNumeral _).on _
    · split_ifs
      · exact (Literal.locates_read.bind fun _ => .pure _).on _
      · exact ((locates_readBoolean true).bind fun _ => .pure _).on _
      · exact ((locates_readBoolean false).bind fun _ => .pure _).on _
      · exact (locates_readEnv.bind fun _ => .pure _).on _
      · exact .error rfl

end Value

theorem Comment.locates_read : read.Locates := by
  apply Locates.advance
  intro x
  cases x with
  | none => exact (Locates.pure none).on _
  | some c =>
    dsimp only
    split_ifs
    · apply Locates.on
      apply Locates.advance
      intro y
      apply Locates.on
      cases y with
      | none => exact .pure none
      | some d =>
        dsimp only
        split_ifs
        · exact .advance fun _ => (Locates.skipLine fun _ => .pure _).on _
        · exact .skipLine fun _ => .pure none
    · exact .error rfl

theorem Closing.locates_read : read.Locates := by
  apply Locates.advance
  intro x
  cases x with
  | none => exact (Locates.pure ()).on _
  | some c =>
    dsimp only
    split_ifs
    · exact (Locates.advance fun _ => (Locates.pure ()).on _).on _
    · apply Locates.on
      apply Locates.skipSpaces
      intro y
      apply Locates.on
      cases y with
      | none => exact .pure ()
      | some d =>
        dsimp only
        split_ifs
        · exact .advance fun _ => (Locates.pure ()).on _
        · exact .warning _ (.skipLine fun _ => .pure ())
    · exact .error rfl

theorem Key.locates_finish (key : String) : (finish key).Locates :=
  .advance fun _ => (Locates.pure key).on _

theorem Key.locates_read (first : Char) : (read first).Locates := by
  apply Locates.advance
  intro _
  apply Locates.on
  apply Locates.takeWhile
  intro word
  apply Locates.current
  intro x
  cases x with
  | none => exact .error rfl
  | some c =>
    dsimp only
    split_ifs with he hs hn
    · exact (locates_finish _).on _
    · apply Locates.on
      apply Locates.skipSpaces
      intro y
      cases y with
      | none => exact .error rfl
      | some d =>
        dsimp only
        split_ifs
        · exact (locates_finish _).on _
        · exact .error rfl
    · exact .error (congrArg some hn)
    · exact .error rfl

theorem Entry.locates_readEnd (key : String) (value : Value) : (readEnd key value).Locates := by
  apply Locates.skipSpaces
  intro x
  cases x with
  | none => exact .error rfl
  | some c =>
    dsimp only
    split_ifs
    · exact (Locates.advance fun _ => (Locates.pure _).on _).on _
    · exact (Closing.locates_read.bind fun _ => .pure _).on _
    · exact (Comment.locates_read.bind fun _ => .pure _).on _
    · exact .error rfl

theorem Entry.locates_read (first : Char) : (read first).Locates := by
  apply (Key.locates_read first).bind
  intro key
  apply Locates.skipSpaces
  intro _
  exact (Value.locates_read.bind fun value => locates_readEnd key value).on _

theorem Line.locatesOn_readFrom (first : Char) : (readFrom first).LocatesOn (some first) := by
  unfold readFrom
  split_ifs
  · exact (Comment.locates_read.bind fun _ => .pure _).on _
  · exact (Locates.advance fun _ => (Locates.pure _).on _).on _
  · exact (Closing.locates_read.bind fun _ => .pure _).on _
  · exact ((Entry.locates_read first).bind fun _ => .pure _).on _
  · exact .error rfl

theorem Line.locates_read : read.Locates := by
  apply Locates.skipSpaces
  intro x
  cases x with
  | none => exact .error rfl
  | some c => exact locatesOn_readFrom c

namespace Block

theorem locates_ofBody_cons (h : Header) {b : Body} (hb : (ofBody h b).Locates b.cursor)
    (line : Line) {ds : List Diagnostic} (hds : ∀ d ∈ ds, d.isWarning = true) :
    (ofBody h (b.cons line ds)).Locates b.cursor := by
  have hlead := hb.withLeading hds
  unfold ofBody at hlead ⊢
  by_cases hc : b.closed = true
  · simpa [Body.cons, hc, Outcome.Locates] using hlead
  · simpa [Body.cons, hc, Outcome.Locates] using hlead

theorem locates_read (h : Header) : (read h).Locates := by
  intro c
  change (ofBody h (Body.read c)).Locates (Body.read c).cursor
  have hline := Line.locates_read c
  rcases hl : Line.read c with ⟨⟨line, ds⟩ | ds, c'⟩
  · rw [hl] at hline
    rw [Body.read_of_success hl]
    split_ifs with hc
    · exact hline
    · have hlt := Line.length_read_lt hl
      exact locates_ofBody_cons h (locates_read h c') line hline
  · rw [hl] at hline
    rw [Body.read_of_failure hl]
    exact hline
termination_by c => c.rest.length

/-- Reading a block succeeds with nothing but warnings, or it fails with warnings and then one
error: the error is placed where the cursor stopped, and it fits what the cursor stands on. -/
theorem read_warnings_or_error (h : Header) (c : Cursor) :
    match read h c with
    | (.success _ ds, _) => ∀ d ∈ ds, d.isWarning = true
    | (.failure ds, c') => ∃ ws d, ds = ws ++ [d] ∧ (∀ w ∈ ws, w.isWarning = true) ∧
        d.isError = true ∧ d.line = c'.position.line ∧ d.column = c'.position.column ∧
          d.problem.Fits c'.current := by
  have hread := locates_read h c
  rcases hc : read h c with ⟨⟨b, ds⟩ | ds, c'⟩
  · rw [hc] at hread
    exact hread
  · rw [hc] at hread
    obtain ⟨ws, problem, hds, hws, hfits⟩ := hread
    exact ⟨ws, c'.error problem, hds, hws, rfl, rfl, rfl, hfits⟩

end Block
end ConfigBlock
