import ConfigBlock.Proofs.Failure
import ConfigBlock.Proofs.Legible
import ConfigBlock.Proofs.PhysicalLines
import Mathlib.Data.Prod.Lex

/-!
# Trails of warnings

A warning is noted on a character that the reading steps over, sometimes long after: a literal
that leaves a control character out is reported at its opening quote. `Trail` lists the warnings
between two cursors in the order of their characters. `Notes` says of a parser that it leaves such
a trail behind it, with one error at its end if it fails, and what the trail can hold. The
property passes from the single steps to values, lines and whole bodies.
-/

namespace ConfigBlock

open ConfigBlock.Parser

/-- Line and column of a position, lines first. -/
def Position.place (p : Position) : ℕ ×ₗ ℕ := toLex (p.line, p.column)

def Diagnostic.place (d : Diagnostic) : ℕ ×ₗ ℕ := toLex (d.line, d.column)

namespace Position

theorem place_lt_step (p : Position) (c : Char) : p.place < (p.step c).place := by
  rw [place, place, Prod.Lex.toLex_lt_toLex]
  by_cases hc : c = '\n' <;> simp [step, hc]

theorem place_le_advance (p : Position) (cs : List Char) : p.place ≤ (p.advance cs).place := by
  induction cs generalizing p with
  | nil => exact le_rfl
  | cons c cs ih => exact (p.place_lt_step c).le.trans (ih (p.step c))

end Position

theorem Cursor.Reaches.place_le {c c' : Cursor} (h : c.Reaches c') :
    c.position.place ≤ c'.position.place := by
  obtain ⟨word, -, hp⟩ := h
  rw [hp]
  exact c.position.place_le_advance word

theorem Cursor.place_lt_advance {c : Cursor} {x : Char} (h : c.current = some x) :
    c.position.place < c.advance.position.place := by
  obtain ⟨_ | ⟨y, ys⟩, p⟩ := c
  · simp at h
  · exact p.place_lt_step y

namespace Diagnostic

/-- The warnings that can be noted on a character. -/
def Marks (d : Diagnostic) (x : Char) : Prop :=
  d.DropsControl ∧ x = '"' ∨ d.problem = .entry .skippedText ∧ x ≠ ' ' ∧ x ≠ '\n'

theorem DropsControl.insideEnv {d : Diagnostic} (h : d.DropsControl) :
    DropsControl { d with problem := d.problem.insideEnv } := by
  rcases h with h | h
  · exact .inr (by rw [h]; rfl)
  · exact .inr (by rw [h]; rfl)

theorem Marks.insideEnv {d : Diagnostic} {x : Char} (h : d.Marks x) :
    Marks { d with problem := d.problem.insideEnv } x := by
  rcases h with ⟨hdrops, hx⟩ | ⟨hskips, hx⟩
  · exact .inl ⟨hdrops.insideEnv, hx⟩
  · exact .inr ⟨by rw [hskips]; rfl, hx⟩

end Diagnostic

namespace Cursor

/-- The warnings noted between two cursors, each on a character that is stepped over before the
next one is noted. -/
inductive Trail : Cursor → List Diagnostic → Cursor → Prop
  | clear {c c' : Cursor} (h : c.Reaches c') : Trail c [] c'
  | mark {c m c' : Cursor} {x : Char} {problem : Problem} {ds : List Diagnostic}
      (reach : c.Reaches m) (on : m.current = some x) (marks : (m.warning problem).Marks x)
      (rest : Trail m.advance ds c') : Trail c (m.warning problem :: ds) c'

namespace Trail

variable {c c' c'' : Cursor} {ds es : List Diagnostic}

theorem reaches (h : Trail c ds c') : c.Reaches c' := by
  induction h with
  | clear h => exact h
  | @mark c m c' x problem ds reach on marks rest ih =>
    exact reach.trans (m.reaches_advance.trans ih)

theorem after (hr : c.Reaches c') (h : Trail c' ds c'') : Trail c ds c'' := by
  cases h with
  | clear h => exact .clear (hr.trans h)
  | mark reach on marks rest => exact .mark (hr.trans reach) on marks rest

theorem append (h : Trail c ds c') (h' : Trail c' es c'') : Trail c (ds ++ es) c'' := by
  induction h with
  | clear h => exact h'.after h
  | mark reach on marks rest ih => exact .mark reach on marks (ih h')

theorem place_mem (h : Trail c ds c') :
    ∀ d ∈ ds, c.position.place ≤ d.place ∧ d.place < c'.position.place := by
  induction h with
  | clear h => simp
  | @mark c m c' x problem ds reach on marks rest ih =>
    have hstep := place_lt_advance on
    intro d hd
    rcases List.mem_cons.1 hd with rfl | hd
    · exact ⟨reach.place_le, hstep.trans_le rest.reaches.place_le⟩
    · obtain ⟨hle, hlt⟩ := ih d hd
      exact ⟨reach.place_le.trans (hstep.le.trans hle), hlt⟩

theorem pairwise (h : Trail c ds c') : ds.Pairwise fun d e => d.place < e.place := by
  induction h with
  | clear h => exact .nil
  | mark reach on marks rest ih =>
    refine .cons (fun e he => ?_) ih
    exact (place_lt_advance on).trans_le (rest.place_mem e he).1

theorem exists_mark (h : Trail c ds c') :
    ∀ d ∈ ds, ∃ m x, c.Reaches m ∧ m.current = some x ∧ d = m.warning d.problem ∧
      d.Marks x := by
  induction h with
  | clear h => simp
  | @mark c m c' x problem ds reach on marks rest ih =>
    intro d hd
    rcases List.mem_cons.1 hd with rfl | hd
    · exact ⟨m, x, reach, on, rfl, marks⟩
    · obtain ⟨m', x', hreach, hm'⟩ := ih d hd
      exact ⟨m', x', reach.trans (m.reaches_advance.trans hreach), hm'⟩

theorem insideEnv (h : Trail c ds c') :
    Trail c (ds.map fun d => { d with problem := d.problem.insideEnv }) c' := by
  induction h with
  | clear h => exact .clear h
  | mark reach on marks rest ih => exact .mark reach on marks.insideEnv ih

end Trail
end Cursor

/-- The reading from `c` to `c'` leaves a trail of warnings, with an error behind it if it fails.
`post` says what is known of the value and of the trail. -/
def Outcome.Notes {α : Type} (o : Outcome α) (c c' : Cursor)
    (post : Option α → List Diagnostic → Prop) : Prop :=
  ∃ ws, c.Trail ws c' ∧ post o.value? ws ∧
    match o with
    | .success _ ds => ds = ws
    | .failure ds => ∃ problem, ds = ws ++ [c'.error problem]

theorem Outcome.Notes.after {α : Type} {o : Outcome α} {c c' c'' : Cursor}
    {post : Option α → List Diagnostic → Prop} (h : o.Notes c' c'' post) (hc : c.Reaches c') :
    o.Notes c c'' post := by
  obtain ⟨ws, htrail, hpost, hds⟩ := h
  exact ⟨ws, htrail.after hc, hpost, hds⟩

namespace Parser

variable {α β : Type} {x : Option Char}

/-- From every cursor that stands on `x`, the parser leaves a trail as `post` says. -/
def NotesOn (x : Option Char) (p : Parser α) (post : Option α → List Diagnostic → Prop) : Prop :=
  ∀ c : Cursor, c.current = x → (p c).1.Notes c (p c).2 post

/-- The parser leaves a trail as `post` says wherever it starts. -/
def Notes (p : Parser α) (post : Option α → List Diagnostic → Prop) : Prop :=
  ∀ c : Cursor, (p c).1.Notes c (p c).2 post

def quiet : Option α → List Diagnostic → Prop := fun _ ws => ws = []

/-- At most one warning, about control characters. -/
def dropsOnce : Option α → List Diagnostic → Prop := fun _ ws =>
  ws.length ≤ 1 ∧ ∀ d ∈ ws, d.DropsControl

/-- At most one warning, about skipped text, and only with a value that closes the block. -/
def skipsOnce (closes : α → Bool) : Option α → List Diagnostic → Prop := fun r ws =>
  ws.length ≤ 1 ∧ (∀ d ∈ ws, d.problem = .entry .skippedText) ∧
    (ws ≠ [] → r.any closes = true)

/-- At most one warning of either kind, those about skipped text last. -/
def notesLine (closes : α → Bool) : Option α → List Diagnostic → Prop := fun r ws =>
  ∃ dropped skipped, ws = dropped ++ skipped ∧ dropsOnce r dropped ∧ skipsOnce closes r skipped

theorem dropsOnce_nil (r : Option α) : dropsOnce r [] := by simp [dropsOnce]

theorem skipsOnce_nil (closes : α → Bool) (r : Option α) : skipsOnce closes r [] := by
  simp [skipsOnce]

theorem notesLine_of_skipsOnce {closes : α → Bool} {r : Option α} {ws : List Diagnostic}
    (h : skipsOnce closes r ws) : notesLine closes r ws :=
  ⟨[], ws, rfl, dropsOnce_nil r, h⟩

theorem notesLine_nil (closes : α → Bool) (r : Option α) : notesLine closes r [] :=
  notesLine_of_skipsOnce (skipsOnce_nil closes r)

namespace NotesOn

variable {P : Option α → List Diagnostic → Prop} {R : Option β → List Diagnostic → Prop}

theorem error {problem : Problem} (h : P none []) : NotesOn x (error problem : Parser α) P :=
  fun c _ => ⟨[], .clear (.refl c), h, problem, rfl⟩

/-- The second parser goes on with the trail of the first. -/
theorem bind {p : Parser α} {f : α → Parser β} (hp : NotesOn x p P)
    (hfail : ∀ ws, P none ws → R none ws)
    (hf : ∀ a ws, P (some a) ws → Notes (f a) fun r ws' => R r (ws ++ ws')) :
    NotesOn x (p >>= f) R := by
  intro c hx
  obtain ⟨ws, htrail, hpost, hds⟩ := hp c hx
  rcases hc : p c with ⟨⟨a, ds⟩ | ds, c'⟩ <;> rw [hc] at htrail hpost hds
  · obtain ⟨ws', htrail', hpost', hds'⟩ := hf a _ hpost c'
    obtain rfl : ds = ws := hds
    rw [bind_of_success hc]
    refine ⟨ds ++ ws', htrail.append htrail', by simpa using hpost', ?_⟩
    rcases hc' : f a c' with ⟨⟨b, es⟩ | es, c''⟩ <;> rw [hc'] at hds'
    · exact congrArg (ds ++ ·) hds'
    · obtain ⟨problem, hes⟩ := hds'
      exact ⟨problem, (congrArg (ds ++ ·) hes).trans (List.append_assoc ..).symm⟩
  · rw [bind_of_failure hc]
    exact ⟨ws, htrail, hfail _ hpost, hds⟩

theorem quiet_bind {p : Parser α} {f : α → Parser β} (hp : NotesOn x p quiet) (hR : R none [])
    (hf : ∀ a, Notes (f a) R) : NotesOn x (p >>= f) R := by
  refine hp.bind ?_ ?_
  · rintro ws rfl
    exact hR
  · rintro a ws rfl
    exact hf a

theorem bind_quiet {p : Parser α} {f : α → Parser β} (hp : NotesOn x p P)
    (hR : ∀ r r' ws, P r ws → R r' ws) (hf : ∀ a, Notes (f a) quiet) :
    NotesOn x (p >>= f) R := by
  refine hp.bind (hR none none) ?_
  intro a ws ha c
  obtain ⟨_, htrail, rfl, hds⟩ := hf a c
  exact ⟨[], htrail, by simpa using hR _ _ _ ha, hds⟩

theorem insideEnv {p : Parser α} (hp : NotesOn x p dropsOnce) :
    NotesOn x (mapDiagnostics (fun d => { d with problem := d.problem.insideEnv }) p)
      dropsOnce := by
  intro c hx
  obtain ⟨ws, htrail, hdrops, hds⟩ := hp c hx
  refine ⟨_, htrail.insideEnv, ⟨by simpa using hdrops.1, ?_⟩, ?_⟩
  · intro d hmem
    obtain ⟨e, he, rfl⟩ := List.mem_map.1 hmem
    exact (hdrops.2 e he).insideEnv
  · rcases hc : p c with ⟨⟨a, ds⟩ | ds, c'⟩ <;> rw [hc] at hds <;>
      simp only [mapDiagnostics, hc, Outcome.mapDiagnostics]
    · rw [show ds = ws from hds]
    · obtain ⟨problem, hes⟩ := hds
      exact ⟨problem.insideEnv, by rw [hes, List.map_append]; rfl⟩

theorem map {p : Parser α} (hp : NotesOn x p P) (g : α → β)
    (h : ∀ r ws, P r ws → R (r.map g) ws) : NotesOn x (p >>= fun a => Pure.pure (g a)) R := by
  refine hp.bind (fun ws => h none ws) ?_
  intro a ws ha c
  have hpost : R (some (g a)) (ws ++ []) := by simpa using h _ _ ha
  exact ⟨[], .clear (.refl c), hpost, rfl⟩

end NotesOn

namespace Notes

variable {P : Option α → List Diagnostic → Prop} {R : Option β → List Diagnostic → Prop}

theorem on {p : Parser α} (h : Notes p P) (x : Option Char) : NotesOn x p P := fun c _ => h c

theorem pure {a : α} (h : P (some a) []) : Notes (Pure.pure a) P :=
  fun c => ⟨[], .clear (.refl c), h, rfl⟩

theorem current {f : Option Char → Parser α} (h : ∀ x, NotesOn x (f x) P) :
    Notes (current >>= f) P := by
  intro c
  rw [current_bind]
  exact h c.current c rfl

theorem advance {f : Option Char → Parser α} (h : ∀ x, NotesOn x (f x) P) :
    Notes (advance >>= f) P := by
  intro c
  rw [advance_bind]
  exact (h c.advance.current c.advance rfl).after c.reaches_advance

theorem skipSpaces {f : Option Char → Parser α} (h : ∀ x, x ≠ some ' ' → NotesOn x (f x) P) :
    Notes (skipSpaces >>= f) P := by
  intro c
  obtain ⟨-, -, hblank⟩ := c.exists_spaces
  rw [skipSpaces_bind]
  exact (h _ hblank c.skipSpaces rfl).after c.reaches_skipSpaces

theorem takeWhile (test : Char → Bool) {f : List Char → Parser α} (h : ∀ word, Notes (f word) P) :
    Notes (takeWhile test >>= f) P := by
  intro c
  rw [takeWhile_bind]
  exact (h _ _).after (c.reaches_skipWhile test)

theorem skipLine {f : List Char → Parser α} (h : ∀ text, Notes (f text) P) :
    Notes (skipLine >>= f) P := by
  intro c
  rw [skipLine_bind]
  exact (h _ _).after c.reaches_skipLine

theorem spell (accepts : Char → Char → Bool) (atEnd : Problem) (unexpected : Char → Problem)
    (expected : List Char) : Notes (spell accepts atEnd unexpected expected) quiet := by
  induction expected with
  | nil => exact pure rfl
  | cons e es ih =>
    apply advance
    intro x
    cases x with
    | none => exact .error rfl
    | some c =>
      dsimp only
      split_ifs
      · exact ih.on _
      · exact .error rfl

end Notes
end Parser

theorem Literal.notesOn_read : read.NotesOn (some '"') dropsOnce := by
  intro c hc
  have hreach := reaches_scan false c.advance.position c.advance.rest
  have htrail {c' : Cursor} (h : c.advance.Reaches c') :
      c.Trail (warnings c.position (scan false c.advance.position c.advance.rest)) c' := by
    unfold warnings
    split_ifs
    · exact .mark (.refl c) hc (.inl ⟨.inl rfl, rfl⟩) (.clear h)
    · exact .clear (c.reaches_advance.trans h)
  have hdrops {r : Option String} : dropsOnce r
      (warnings c.position (scan false c.advance.position c.advance.rest)) := by
    unfold warnings
    split_ifs
    · exact ⟨le_rfl, List.forall_mem_singleton.2 (.inl rfl)⟩
    · exact dropsOnce_nil r
  unfold read
  dsimp only
  split
  · exact ⟨_, htrail (hreach.trans (Cursor.reaches_advance _)), hdrops, rfl⟩
  · exact ⟨_, htrail hreach, hdrops, _, rfl⟩
  · exact ⟨_, htrail hreach, hdrops, _, rfl⟩

namespace Numeral

theorem notes_read (start : Start) : (read start).Notes quiet := by
  intro c
  have hreach := c.reaches_advance.trans
    (reaches_scan start.phase c.advance.position c.advance.rest)
  unfold read
  dsimp only
  repeat' split
  · exact ⟨[], .clear hreach, rfl, _, rfl⟩
  · exact ⟨[], .clear hreach, rfl, rfl⟩
  · exact ⟨[], .clear hreach, rfl, _, rfl⟩

/-- Once the point is passed there is no way back to integers. -/
theorem phase_scan_fraction (p : Position) (cs : List Char) :
    (scan .fraction p cs).phase = .fraction := by
  induction cs generalizing p with
  | nil => rfl
  | cons c cs ih =>
    by_cases hs : isStop c = true
    · simp [scan, hs]
    · by_cases hd : CharClass.isDigit c = true
      · simpa [scan, hs, hd, Scan.push] using ih (p.step c)
      · simp [scan, hs, hd]

theorem value_fraction_ne_integer (text : List Char) (n : Int64) :
    value text .fraction ≠ .ok (.integer n) := by
  rw [value]
  split <;> simp

theorem read_point_ne_integer (c : Cursor) (n : Int64) (ds : List Diagnostic) :
    (read .point c).1 ≠ .success (.integer n) ds := by
  have hphase := phase_scan_fraction c.advance.position c.advance.rest
  unfold read
  dsimp only [Start.phase]
  rw [hphase]
  repeat' split
  · simp
  · next number hvalue =>
    intro h
    obtain ⟨rfl, -⟩ : number = .integer n ∧ _ := by simpa using h
    exact value_fraction_ne_integer _ n hvalue
  · simp

end Numeral

namespace Value

theorem numeralWarnings_eq_nil (start : Numeral.Start) (c : Cursor) :
    numeralWarnings start c.position (Numeral.read start c).1 = [] := by
  unfold numeralWarnings
  split
  · next n ds hread =>
    rw [if_neg]
    rintro rfl
    exact Numeral.read_point_ne_integer c n ds hread
  · rfl

theorem notes_readNumeral (start : Numeral.Start) : (readNumeral start).Notes quiet := by
  intro c
  obtain ⟨ws, htrail, hpost, hds⟩ := Numeral.notes_read start c
  unfold readNumeral
  dsimp only
  rw [numeralWarnings_eq_nil, Outcome.withLeading_nil]
  refine ⟨ws, htrail, hpost, ?_⟩
  rcases hread : Numeral.read start c with ⟨⟨n, ds⟩ | ds, c'⟩ <;> rw [hread] at hds <;> exact hds

theorem notes_readBoolean (truth : Bool) : (readBoolean truth).Notes quiet := by
  intro c
  refine ((Notes.spell _ _ _ _).on _).quiet_bind rfl ?_ c rfl
  intro _
  apply Notes.advance
  intro x
  cases x with
  | none => exact (Notes.pure rfl).on _
  | some c =>
    dsimp only
    split_ifs
    · exact (Notes.pure rfl).on _
    · exact .error rfl

theorem notesOn_envError {α : Type} {P : Option α → List Diagnostic → Prop} (hP : P none [])
    (x y : Option Char) : (envError x : Parser α).NotesOn y P := by
  cases x <;> exact .error hP

theorem notes_readEnv : readEnv.Notes dropsOnce := by
  intro c
  refine ((Notes.spell _ _ _ _).on _).quiet_bind (dropsOnce_nil _) ?_ c rfl
  intro _
  apply Notes.advance
  intro _
  apply Notes.on
  apply Notes.skipSpaces
  intro opening _
  split_ifs with hopen
  · rw [hopen]
    refine Literal.notesOn_read.insideEnv.bind_quiet (fun _ _ _ h => h) ?_
    intro name
    apply Notes.skipSpaces
    intro closing _
    split_ifs
    · apply Notes.on
      apply Notes.advance
      intro x
      cases x with
      | none => exact (Notes.pure rfl).on _
      | some c =>
        dsimp only
        split_ifs
        · exact (Notes.pure rfl).on _
        · exact notesOn_envError rfl _ _
    · exact notesOn_envError rfl _ _
  · exact notesOn_envError (dropsOnce_nil _) _ _

theorem notes_read : read.Notes dropsOnce := by
  have hquiet {α : Type} {r : Option α} {ws : List Diagnostic} (h : quiet r ws)
      (r' : Option Value) : dropsOnce r' ws := h ▸ dropsOnce_nil r'
  apply Notes.current
  intro x
  cases x with
  | none => exact .error (dropsOnce_nil _)
  | some c =>
    dsimp only
    split
    · intro c' hc
      obtain ⟨ws, htrail, hpost, hds⟩ := notes_readNumeral _ c'
      exact ⟨ws, htrail, hquiet hpost _, hds⟩
    · split_ifs with hq
      · rw [hq]
        exact Literal.notesOn_read.map _ fun _ _ h => h
      · exact ((notes_readBoolean true).on _).map _ fun _ _ h => hquiet h _
      · exact ((notes_readBoolean false).on _).map _ fun _ _ h => hquiet h _
      · exact (notes_readEnv.on _).map _ fun _ _ h => h
      · exact .error (dropsOnce_nil _)

end Value

theorem Comment.notes_read : read.Notes quiet := by
  apply Notes.advance
  intro x
  cases x with
  | none => exact (Notes.pure rfl).on _
  | some c =>
    dsimp only
    split_ifs
    · apply Notes.on
      apply Notes.advance
      intro y
      apply Notes.on
      cases y with
      | none => exact .pure rfl
      | some d =>
        dsimp only
        split_ifs
        · exact .advance fun _ => (Notes.skipLine fun _ => .pure rfl).on _
        · exact .skipLine fun _ => .pure rfl
    · exact .error rfl

theorem Cursor.reaches_skipLine_of_ne {c : Cursor} {x : Char} (hc : c.current = some x)
    (hx : x ≠ '\n') : c.advance.Reaches c.skipLine := by
  obtain ⟨_ | ⟨y, ys⟩, p⟩ := c
  · simp at hc
  · obtain rfl : y = x := by simpa using hc
    have hskip : (mk (y :: ys) p).skipLine = (mk ys (p.step y)).skipLine := by
      simp [skipLine, skipWhile, run, CharClass.isNewline, hx]
    rw [hskip]
    exact reaches_skipLine _

/-- Skipped text is noted on its first character. -/
theorem Closing.notesOn_skipped {d : Char} (hblank : d ≠ ' ') (hline : d ≠ '\n') :
    NotesOn (some d) (warning (.entry .skippedText) >>= fun _ => skipLine >>= fun _ => Pure.pure ())
      (skipsOnce fun _ => true) := by
  intro c hc
  have hreach := Cursor.reaches_skipLine_of_ne hc hline
  rw [warning_bind, skipLine_bind]
  refine ⟨[c.warning (.entry .skippedText)], ?_, ?_, rfl⟩
  · exact .mark (.refl c) hc (.inr ⟨rfl, hblank, hline⟩) (.clear hreach)
  · exact ⟨le_rfl, List.forall_mem_singleton.2 rfl, fun _ => rfl⟩

theorem Closing.notes_read : read.Notes (skipsOnce fun _ => true) := by
  apply Notes.advance
  intro x
  cases x with
  | none => exact (Notes.pure (skipsOnce_nil _ _)).on _
  | some c =>
    dsimp only
    split_ifs
    · exact (Notes.advance fun _ => (Notes.pure (skipsOnce_nil _ _)).on _).on _
    · apply Notes.on
      apply Notes.skipSpaces
      intro y hblank
      cases y with
      | none => exact (Notes.pure (skipsOnce_nil _ _)).on _
      | some d =>
        dsimp only
        split_ifs with hline
        · exact (Notes.advance fun _ => (Notes.pure (skipsOnce_nil _ _)).on _).on _
        · exact notesOn_skipped (fun h => hblank (congrArg some h)) hline
    · exact .error (skipsOnce_nil _ _)

theorem Key.notes_finish (key : String) : (finish key).Notes quiet :=
  .advance fun _ => (Notes.pure rfl).on _

theorem Key.notes_read (first : Char) : (read first).Notes quiet := by
  apply Notes.advance
  intro _
  apply Notes.on
  apply Notes.takeWhile
  intro word
  apply Notes.current
  intro x
  cases x with
  | none => exact .error rfl
  | some c =>
    dsimp only
    split_ifs
    · exact (notes_finish _).on _
    · apply Notes.on
      apply Notes.skipSpaces
      intro y _
      cases y with
      | none => exact .error rfl
      | some d =>
        dsimp only
        split_ifs
        · exact (notes_finish _).on _
        · exact .error rfl
    · exact .error rfl
    · exact .error rfl

theorem Entry.notes_readEnd (key : String) (value : Value) :
    (readEnd key value).Notes (skipsOnce fun r => r.2.closes) := by
  apply Notes.skipSpaces
  intro x _
  cases x with
  | none => exact .error (skipsOnce_nil _ _)
  | some c =>
    dsimp only
    split_ifs
    · exact (Notes.advance fun _ => (Notes.pure (skipsOnce_nil _ _)).on _).on _
    · refine (Closing.notes_read.on _).map _ ?_
      rintro (_ | _) ws ⟨hlength, hskips, hcloses⟩
      · exact ⟨hlength, hskips, hcloses⟩
      · exact ⟨hlength, hskips, fun _ => rfl⟩
    · refine (Comment.notes_read.on _).map _ ?_
      rintro r ws rfl
      exact skipsOnce_nil _ _
    · exact .error (skipsOnce_nil _ _)

theorem Entry.notes_read (first : Char) :
    (read first).Notes (notesLine fun r => r.2.closes) := by
  intro c
  refine ((Key.notes_read first).on _).quiet_bind (notesLine_nil _ _) ?_ c rfl
  intro key
  apply Notes.skipSpaces
  intro _ _
  refine (Value.notes_read.on _).bind ?_ ?_
  · intro ws hdrops
    exact ⟨ws, [], by simp, hdrops, skipsOnce_nil _ _⟩
  · intro value ws hdrops c
    obtain ⟨ws', htrail, hskips, hds⟩ := notes_readEnd key value c
    exact ⟨ws', htrail, ⟨ws, _, rfl, hdrops, hskips⟩, hds⟩

theorem Line.notesOn_readFrom (first : Char) :
    (readFrom first).NotesOn (some first) (notesLine closes) := by
  unfold readFrom
  split_ifs
  · refine (Comment.notes_read.on _).map _ ?_
    rintro r ws rfl
    exact notesLine_nil _ _
  · exact (Notes.advance fun _ => (Notes.pure (notesLine_nil _ _)).on _).on _
  · refine (Closing.notes_read.on _).map _ ?_
    rintro (_ | _) ws ⟨hlength, hskips, hcloses⟩
    · exact notesLine_of_skipsOnce ⟨hlength, hskips, hcloses⟩
    · exact notesLine_of_skipsOnce ⟨hlength, hskips, fun _ => rfl⟩
  · refine ((Entry.notes_read first).on _).map _ ?_
    rintro (_ | _) ws ⟨dropped, skipped, rfl, hdrops, hskips⟩
    · exact ⟨dropped, skipped, rfl, hdrops, hskips⟩
    · exact ⟨dropped, skipped, rfl, hdrops, hskips⟩
  · exact .error (notesLine_nil _ _)

theorem Line.notes_read : read.Notes (notesLine closes) := by
  apply Notes.skipSpaces
  intro x _
  cases x with
  | none => exact .error (notesLine_nil _ _)
  | some c => exact notesOn_readFrom c

/-- Any number of warnings about control characters, and behind them at most one about skipped
text, which comes with a closed body only. -/
def Body.notes : Option (List Line) → List Diagnostic → Prop := fun r ws =>
  ∃ dropped skipped, ws = dropped ++ skipped ∧ (∀ d ∈ dropped, d.DropsControl) ∧
    skipsOnce (fun _ => true) r skipped

theorem Body.notes_cons {c c' : Cursor} {line : Line} {ds : List Diagnostic}
    (hline : (Outcome.success line ds).Notes c c' (notesLine Line.closes))
    (hopen : line.closes = false) {b : Body} (hb : b.outcome.Notes c' b.cursor notes) :
    (b.cons line ds).outcome.Notes c b.cursor notes := by
  obtain ⟨_, htrail, ⟨dropped, skipped, hws, hdrops, -, -, hskips⟩, rfl⟩ := hline
  obtain rfl : skipped = [] := by
    by_contra hne
    have hcloses : line.closes = true := hskips hne
    simp [hopen] at hcloses
  obtain ⟨ws, htrail', ⟨dropped', skipped', hws', hdrops', hskips'⟩, hds⟩ := hb
  have hnotes (r : Option (List Line)) (hr : skipsOnce (fun _ => true) r skipped') :
      notes r (ds ++ ws) := by
    refine ⟨dropped ++ dropped', skipped', ?_, ?_, hr⟩
    · rw [hws, hws', List.append_nil, List.append_assoc]
    · exact List.forall_mem_append.2 ⟨hdrops.2, hdrops'⟩
  rw [outcome_cons]
  rcases ho : b.outcome with ⟨lines, es⟩ | es <;> rw [ho] at hskips' hds
  · exact ⟨ds ++ ws, htrail.append htrail', hnotes _ hskips', congrArg (ds ++ ·) hds⟩
  · obtain ⟨problem, hes⟩ := hds
    refine ⟨ds ++ ws, htrail.append htrail', hnotes _ hskips', problem, ?_⟩
    exact (congrArg (ds ++ ·) hes).trans (List.append_assoc ..).symm

theorem Body.notes_read (c : Cursor) : (read c).outcome.Notes c (read c).cursor notes := by
  have hline := Line.notes_read c
  rcases hl : Line.read c with ⟨⟨line, ds⟩ | ds, c'⟩
  · rw [hl] at hline
    rw [read_of_success hl]
    split_ifs with hc
    · obtain ⟨ws, htrail, ⟨dropped, skipped, hws, hdrops, hlength, hskips, -⟩, hds⟩ := hline
      exact ⟨ws, htrail, ⟨dropped, skipped, hws, hdrops.2, hlength, hskips, fun _ => rfl⟩, hds⟩
    · have hlt := Line.length_read_lt hl
      exact notes_cons hline (by simpa using hc) (notes_read c')
  · rw [hl] at hline
    rw [read_of_failure hl]
    obtain ⟨ws, htrail, ⟨dropped, skipped, hws, hdrops, hskips⟩, hds⟩ := hline
    exact ⟨ws, htrail, ⟨dropped, skipped, hws, hdrops.2, hskips⟩, hds⟩
termination_by c.rest.length

end ConfigBlock
