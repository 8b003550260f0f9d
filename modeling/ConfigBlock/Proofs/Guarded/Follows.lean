import ConfigBlock.Proofs.Guarded.Machine
import ConfigBlock.Proofs.Session

/-!
# Guarded readers that follow a parser

A place is a cursor of a text that fits the memory. On the machine of a place no check fails: the
offset of the position is between two characters, and no count comes near the end of the words. A
guarded reader follows a parser if from every place it comes to an end, at the place and with the
outcome of the parser. This is closed under sequencing, and a loop follows whatever its rounds add
up to (`Repeats`). Assertions ask for a parser that starts on a given character, which is what
`FollowsOn` is for.
-/

namespace ConfigBlock

theorem Cursor.position_advance (c : Cursor) :
    c.advance.position = c.current.elim c.position c.position.step := by
  obtain ⟨_ | ⟨x, xs⟩, p⟩ := c <;> rfl

theorem addWord?_of_lt {a b : Nat} (h : a + b < UInt64.size) : addWord? a b = some (a + b) :=
  if_pos h

/-- A cursor in a text of less than `2 ^ 63` bytes, which no text in memory exceeds. -/
structure Place (text : String) where
  cursor : Cursor
  fits : text.utf8ByteSize < 2 ^ 63
  reached : (Cursor.ofText text).Reaches cursor

namespace Place

variable {text : String}

/-- The machine that stands on the place. -/
def machine (s : Place text) : Machine := ⟨text, s.cursor.position⟩

def moved (s : Place text) {c : Cursor} (h : s.cursor.Reaches c) : Place text :=
  ⟨c, s.fits, s.reached.trans h⟩

theorem cut?_offset (s s' : Place text) :
    s.machine.cut? s'.cursor.position.offset = some s'.cursor.rest := by
  have hback := Cursor.restore?_of_reaches s'.reached
  obtain ⟨rest, hrest, hcursor⟩ := Option.map_eq_some_iff.1 hback
  rw [← hcursor]
  exact hrest

theorem current?_machine (s : Place text) : s.machine.current? = some s.cursor.current := by
  have hcut : s.machine.cut? s.machine.position.offset = some s.cursor.rest := s.cut?_offset s
  rw [Machine.current?, hcut]
  rfl

theorem utf8ByteSize_eq (s : Place text) :
    text.utf8ByteSize = s.cursor.position.offset + (String.ofList s.cursor.rest).utf8ByteSize := by
  obtain ⟨before, after, rfl, hrest, hoffset, -⟩ := Cursor.counts_of_reaches s.reached
  rw [hrest, hoffset, String.ofList_toList, String.utf8ByteSize_append]

/-- No count comes near the end of the words. -/
theorem step?_position (s : Place text) (c : Char) :
    s.cursor.position.step? c = some (s.cursor.position.step c) := by
  have hlimit : UInt64.size = 2 ^ 64 := rfl
  have hfits := s.fits
  obtain ⟨hoffset, hsum⟩ := (Cursor.counts_of_reaches s.reached).line_add_column_le
  have hchar : c.utf8Size ≤ 4 := c.utf8Size_le_four
  have hbytes := addWord?_of_lt (a := s.cursor.position.offset) (b := c.utf8Size) (by omega)
  have hline := addWord?_of_lt (a := s.cursor.position.line) (b := 1) (by omega)
  have hcolumn := addWord?_of_lt (a := s.cursor.position.column) (b := 1) (by omega)
  rw [Position.step?, Position.step, hbytes, hline, hcolumn]
  by_cases hc : c = '\n'
  · simp [hc]
  · simp [hc]

theorem advance?_machine (s : Place text) :
    s.machine.advance? = some (s.moved s.cursor.reaches_advance).machine := by
  have hposition := s.cursor.position_advance
  rw [Machine.advance?, current?_machine]
  cases hc : s.cursor.current with
  | none =>
    rw [hc] at hposition
    simp [machine, moved, hposition]
  | some c =>
    rw [hc] at hposition
    simp [machine, moved, s.step?_position c, hposition]

theorem atEnd_machine (s : Place text) : s.machine.atEnd = s.cursor.atEnd := by
  have hsize := s.utf8ByteSize_eq
  have hlength := length_le_utf8ByteSize s.cursor.rest
  change decide (text.utf8ByteSize ≤ s.cursor.position.offset) = s.cursor.rest.isEmpty
  cases hrest : s.cursor.rest with
  | nil => simp [hsize, hrest]
  | cons c cs =>
    rw [hrest, List.length_cons] at hlength
    have hlt : s.cursor.position.offset < text.utf8ByteSize := by
      rw [hsize, hrest]
      omega
    simpa using hlt

theorem remaining_machine (s : Place text) :
    s.machine.remaining = (String.ofList s.cursor.rest).utf8ByteSize := by
  have hsize := s.utf8ByteSize_eq
  change text.utf8ByteSize - s.cursor.position.offset = _
  omega

/-- Of two places in one text the one with fewer characters left has fewer bytes left. -/
theorem remaining_lt {s s' : Place text}
    (h : s'.cursor.rest.length < s.cursor.rest.length) :
    s'.machine.remaining < s.machine.remaining := by
  obtain ⟨before, htext, -⟩ := s.reached
  obtain ⟨before', htext', -⟩ := s'.reached
  have hsuffix : s'.cursor.rest <:+ s.cursor.rest :=
    List.suffix_of_suffix_length_le ⟨before', htext'.symm⟩ ⟨before, htext.symm⟩ (by omega)
  obtain ⟨between, hbetween⟩ := hsuffix
  have hlength := length_le_utf8ByteSize between
  rw [← hbetween, List.length_append] at h
  rw [remaining_machine, remaining_machine, ← hbetween, String.ofList_append,
    String.utf8ByteSize_append]
  omega

theorem slice?_machine {s s' : Place text} {word : List Char}
    (hrest : s.cursor.rest = word ++ s'.cursor.rest) :
    s'.machine.slice? s.cursor.position.offset s'.machine.position.offset = some word := by
  have hstart : s'.machine.cut? s.cursor.position.offset = some s.cursor.rest := s'.cut?_offset s
  have hstop : s'.machine.cut? s'.machine.position.offset = some s'.cursor.rest :=
    s'.cut?_offset s'
  have hsize := s.utf8ByteSize_eq
  have hsize' := s'.utf8ByteSize_eq
  have horder : s.cursor.position.offset ≤ s'.machine.position.offset := by
    rw [hrest, String.ofList_append, String.utf8ByteSize_append] at hsize
    change s.cursor.position.offset ≤ s'.cursor.position.offset
    omega
  rw [Machine.slice?, hstart, hstop]
  simp [horder, hrest]

theorem restore_machine (s s' : Place text) :
    s.machine.restore s'.cursor.position = s'.machine := by
  rw [Machine.restore, s.cut?_offset s']
  rfl

end Place

namespace Parser

variable {α σ : Type}

/-- What repeated steps of a parser add up to. -/
inductive Repeats (p : σ → Parser (σ ⊕ α)) : σ → Cursor → Outcome α → Cursor → Prop
  | done {s : σ} {c c' : Cursor} {a : α} {ds : List Diagnostic}
      (h : p s c = (.success (.inr a) ds, c')) : Repeats p s c (.success a ds) c'
  | failed {s : σ} {c c' : Cursor} {ds : List Diagnostic}
      (h : p s c = (.failure ds, c')) : Repeats p s c (.failure ds) c'
  | again {s s' : σ} {c c' c'' : Cursor} {o : Outcome α} {ds : List Diagnostic}
      (h : p s c = (.success (.inl s') ds, c')) (hrest : Repeats p s' c' o c'') :
      Repeats p s c (o.withLeading ds) c''

def report (ds : List Diagnostic) : Parser Unit := fun c => (.success () ds, c)

def atEnd : Parser Bool := fun c => (.success c.atEnd [], c)

/-- The parser gives the character it stops on, and reports nothing. -/
def Looks (p : Parser (Option Char)) : Prop :=
  ∀ c : Cursor, p c = (.success (p c).2.current [], (p c).2)

end Parser

namespace Guarded

variable {α β σ : Type} {text : String} {x : Option Char}

theorem bind_of_success {g : Guarded α} {f : α → Guarded β} {m m' : Machine} {a : α}
    {ds : List Diagnostic} (h : g m = some (.success a ds, m')) :
    (g >>= f) m = (f a m').map fun r => (r.1.withLeading ds, r.2) := by
  change Guarded.bind g f m = _
  rw [Guarded.bind, h]

theorem bind_of_failure {g : Guarded α} {f : α → Guarded β} {m m' : Machine}
    {ds : List Diagnostic} (h : g m = some (.failure ds, m')) :
    (g >>= f) m = some (.failure ds, m') := by
  change Guarded.bind g f m = _
  rw [Guarded.bind, h]

/-- From the place the guarded reader comes to an end, and does what the parser does. -/
def FollowsAt (s : Place text) (g : Guarded α) (p : Parser α) : Prop :=
  ∃ (o : Outcome α) (s' : Place text),
    g s.machine = some (o, s'.machine) ∧ p s.cursor = (o, s'.cursor)

/-- The guarded reader follows the parser from every place on `x`. -/
def FollowsOn (x : Option Char) (g : Guarded α) (p : Parser α) : Prop :=
  ∀ ⦃text : String⦄ (s : Place text), s.cursor.current = x → FollowsAt s g p

/-- The guarded reader follows the parser from every place. -/
def Follows (g : Guarded α) (p : Parser α) : Prop :=
  ∀ ⦃text : String⦄ (s : Place text), FollowsAt s g p

theorem FollowsAt.bind {s : Place text} {g : Guarded α} {p : Parser α} {f : α → Guarded β}
    {q : α → Parser β} (hg : FollowsAt s g p)
    (hf : ∀ (a : α) (ds : List Diagnostic) (s' : Place text),
      p s.cursor = (.success a ds, s'.cursor) → FollowsAt s' (f a) (q a)) :
    FollowsAt s (g >>= f) (p >>= q) := by
  obtain ⟨o, s', hrun, hparse⟩ := hg
  cases o with
  | failure ds =>
    exact ⟨.failure ds, s', bind_of_failure hrun, Parser.bind_of_failure hparse⟩
  | success a ds =>
    obtain ⟨o, s'', hrun', hparse'⟩ := hf a ds s' hparse
    refine ⟨o.withLeading ds, s'', ?_, ?_⟩
    · rw [bind_of_success hrun, hrun']
      rfl
    · rw [Parser.bind_of_success hparse, hparse']

theorem FollowsOn.bind {g : Guarded α} {p : Parser α} {f : α → Guarded β} {q : α → Parser β}
    (hg : FollowsOn x g p) (hf : ∀ a, Follows (f a) (q a)) :
    FollowsOn x (g >>= f) (p >>= q) := fun _ s hx =>
  (hg s hx).bind fun a _ s' _ => hf a s'

namespace Follows

theorem on {g : Guarded α} {p : Parser α} (h : Follows g p) (x : Option Char) :
    FollowsOn x g p := fun _ s _ => h s

theorem bind {g : Guarded α} {p : Parser α} {f : α → Guarded β} {q : α → Parser β}
    (hg : Follows g p) (hf : ∀ a, Follows (f a) (q a)) : Follows (g >>= f) (p >>= q) := fun _ s =>
  (hg s).bind fun a _ s' _ => hf a s'

/-- After a look the reader stands on the character that was seen. -/
theorem look {g : Guarded (Option Char)} {p : Parser (Option Char)} {f : Option Char → Guarded β}
    {q : Option Char → Parser β} (hg : Follows g p) (hlooks : p.Looks)
    (hf : ∀ x, FollowsOn x (f x) (q x)) : Follows (g >>= f) (p >>= q) := by
  intro text s
  apply (hg s).bind
  intro x ds s' hparse
  have hlook := hlooks s.cursor
  rw [hparse] at hlook
  obtain ⟨hx, -⟩ : x = s'.cursor.current ∧ ds = [] := by simpa using hlook
  exact hf x s' hx.symm

theorem pure (a : α) : Follows (Pure.pure a) (Pure.pure a) := fun _ s =>
  ⟨.success a [], s, rfl, rfl⟩

theorem current : Follows current Parser.current := by
  intro text s
  refine ⟨.success s.cursor.current [], s, ?_, rfl⟩
  rw [Guarded.current, s.current?_machine]
  rfl

theorem advance : Follows advance Parser.advance := by
  intro text s
  let s' := s.moved s.cursor.reaches_advance
  refine ⟨.success s'.cursor.current [], s', ?_, rfl⟩
  rw [Guarded.advance, s.advance?_machine, Option.bind_some, s'.current?_machine]
  rfl

theorem position : Follows position Parser.position := fun _ s =>
  ⟨.success s.cursor.position [], s, rfl, rfl⟩

theorem atEnd : Follows atEnd Parser.atEnd := by
  intro text s
  refine ⟨.success s.cursor.atEnd [], s, ?_, rfl⟩
  rw [Guarded.atEnd, s.atEnd_machine]

theorem report (ds : List Diagnostic) : Follows (report ds) (Parser.report ds) := fun _ s =>
  ⟨.success () ds, s, rfl, rfl⟩

theorem error (problem : Problem) :
    Follows (error problem : Guarded α) (Parser.error problem) := fun _ s =>
  ⟨.failure [s.cursor.error problem], s, rfl, rfl⟩

theorem warning (problem : Problem) : Follows (warning problem) (Parser.warning problem) :=
  fun _ s => ⟨.success () [s.cursor.warning problem], s, rfl, rfl⟩

end Follows

theorem FollowsOn.mapDiagnostics (f : Diagnostic → Diagnostic) {g : Guarded α} {p : Parser α}
    (h : FollowsOn x g p) : FollowsOn x (mapDiagnostics f g) (Parser.mapDiagnostics f p) := by
  intro text s hx
  obtain ⟨o, s', hrun, hparse⟩ := h s hx
  refine ⟨o.mapDiagnostics f, s', ?_, ?_⟩
  · rw [Guarded.mapDiagnostics, hrun]
    rfl
  · rw [Parser.mapDiagnostics, hparse]

theorem FollowsOn.insist {c : Char} {g : Guarded α} {p : Parser α}
    (h : FollowsOn (some c) g p) : FollowsOn (some c) (insist c >>= fun _ => g) p := by
  intro text s hx
  obtain ⟨o, s', hrun, hparse⟩ := h s hx
  have hinsist : Guarded.insist c s.machine = some (.success () [], s.machine) := by
    rw [Guarded.insist, s.current?_machine, hx, Option.bind_some, if_pos rfl]
  refine ⟨o, s', ?_, hparse⟩
  rw [bind_of_success hinsist, hrun]
  simp

section Loop

variable {step : σ → Guarded (σ ⊕ α)} {p : σ → Parser (σ ⊕ α)}

/-- A loop whose steps follow a parser that moves on comes to an end. -/
theorem exists_repeats (hstep : ∀ s, Follows (step s) (p s))
    (hshrinks : ∀ {s s' c c' ds}, p s c = (.success (.inl s') ds, c') →
      c'.rest.length < c.rest.length) (s : σ) (place : Place text) :
    ∃ (o : Outcome α) (place' : Place text),
      loop step s place.machine = some (o, place'.machine) ∧
        Parser.Repeats p s place.cursor o place'.cursor := by
  obtain ⟨o, next, hrun, hparse⟩ := hstep s place
  -- A step that goes on has fewer bytes left, so the loop does not give up on it.
  rw [loop, hrun]
  rcases o with ⟨s' | a, ds⟩ | ds
  · have hlt := Place.remaining_lt (hshrinks hparse)
    obtain ⟨o, last, hloop, hrepeats⟩ := exists_repeats hstep hshrinks s' next
    refine ⟨o.withLeading ds, last, ?_, .again hparse hrepeats⟩
    simp [hlt, hloop]
  · exact ⟨.success a ds, next, rfl, .done hparse⟩
  · exact ⟨.failure ds, next, rfl, .failed hparse⟩
termination_by place.machine.remaining

theorem Follows.loop {f : σ → Parser α} (hstep : ∀ s, Follows (step s) (p s))
    (hshrinks : ∀ {s s' c c' ds}, p s c = (.success (.inl s') ds, c') →
      c'.rest.length < c.rest.length)
    (hf : ∀ {s c o c'}, Parser.Repeats p s c o c' → f s c = (o, c')) (s : σ) :
    Follows (loop step s) (f s) := by
  intro text place
  obtain ⟨o, place', hloop, hrepeats⟩ := exists_repeats hstep hshrinks s place
  exact ⟨o, place', hloop, hf hrepeats⟩

end Loop

end Guarded

/-- The last of the states that the characters from a position on lead to, and the cursor on the
character that leads to none. -/
def Cursor.fold {σ : Type} (next? : σ → Char → Option σ) (s : σ) (p : Position) :
    List Char → σ × Cursor
  | [] => (s, ⟨[], p⟩)
  | c :: cs =>
    match next? s c with
    | none => (s, ⟨c :: cs, p⟩)
    | some s' => fold next? s' (p.step c) cs

theorem Cursor.fold_takeWhile (test : Char → Bool) (word : List Char) (p : Position)
    (cs : List Char) :
    fold (fun word c => if test c then some (word ++ [c]) else none) word p cs =
      (word ++ cs.takeWhile test, ⟨cs.dropWhile test, p.advance (cs.takeWhile test)⟩) := by
  induction cs generalizing word p with
  | nil => simp [fold]
  | cons c cs ih =>
    by_cases hc : test c = true
    · simp [fold, hc, ih]
    · simp [fold, hc]

namespace Parser

variable {σ : Type} {next? : σ → Char → Option σ}

def foldStep (next? : σ → Char → Option σ) (s : σ) : Parser (σ ⊕ σ) := do
  match (← current).bind (next? s) with
  | none => pure (.inr s)
  | some s' =>
    let _ ← advance
    pure (.inl s')

def fold (next? : σ → Char → Option σ) (s : σ) : Parser σ := fun c =>
  (.success (Cursor.fold next? s c.position c.rest).1 [],
    (Cursor.fold next? s c.position c.rest).2)

@[simp] theorem position_bind {α : Type} (f : Position → Parser α) (c : Cursor) :
    (position >>= f) c = f c.position c := by
  simp [bind_apply, position]

@[simp] theorem report_bind {α : Type} (ds : List Diagnostic) (f : Unit → Parser α) (c : Cursor) :
    (report ds >>= f) c = ((f () c).1.withLeading ds, (f () c).2) := rfl

@[simp] theorem fold_bind {α : Type} (s : σ) (f : σ → Parser α) (c : Cursor) :
    (fold next? s >>= f) c = f (Cursor.fold next? s c.position c.rest).1
      (Cursor.fold next? s c.position c.rest).2 := by
  simp [bind_apply, fold]

theorem foldStep_of_none {s : σ} {c : Cursor} (h : c.current.bind (next? s) = none) :
    foldStep next? s c = (.success (.inr s) [], c) := by
  rw [foldStep, current_bind, h]
  rfl

theorem foldStep_of_some {s s' : σ} {c : Cursor} (h : c.current.bind (next? s) = some s') :
    foldStep next? s c = (.success (.inl s') [], c.advance) := by
  rw [foldStep, current_bind, h]
  rfl

theorem fold_of_none {s : σ} {c : Cursor} (h : c.current.bind (next? s) = none) :
    fold next? s c = (.success s [], c) := by
  obtain ⟨_ | ⟨x, xs⟩, p⟩ := c
  · rfl
  · replace h : next? s x = none := h
    simp [fold, Cursor.fold, h]

theorem fold_of_some {s s' : σ} {c : Cursor} (h : c.current.bind (next? s) = some s') :
    fold next? s c = fold next? s' c.advance := by
  obtain ⟨_ | ⟨x, xs⟩, p⟩ := c
  · simp at h
  · replace h : next? s x = some s' := h
    simp [fold, Cursor.fold, h]

theorem fold_of_repeats {s : σ} {c c' : Cursor} {o : Outcome σ}
    (h : Repeats (foldStep next?) s c o c') : fold next? s c = (o, c') := by
  induction h with
  | @done s c c' a ds h =>
    cases hnext : c.current.bind (next? s) with
    | none =>
      rw [foldStep_of_none hnext] at h
      rw [fold_of_none hnext]
      simpa using h
    | some s' => simp [foldStep_of_some hnext] at h
  | @failed s c c' ds h =>
    cases hnext : c.current.bind (next? s) with
    | none => simp [foldStep_of_none hnext] at h
    | some s' => simp [foldStep_of_some hnext] at h
  | @again s s' c c' c'' o ds h hrest ih =>
    cases hnext : c.current.bind (next? s) with
    | none => simp [foldStep_of_none hnext] at h
    | some s'' =>
      obtain ⟨⟨rfl, rfl⟩, rfl⟩ : (s'' = s' ∧ [] = ds) ∧ c.advance = c' := by
        simpa [foldStep_of_some hnext] using h
      rw [fold_of_some hnext, ih, Outcome.withLeading_nil]

theorem length_foldStep_lt {s s' : σ} {c c' : Cursor} {ds : List Diagnostic}
    (h : foldStep next? s c = (.success (.inl s') ds, c')) : c'.rest.length < c.rest.length := by
  cases hnext : c.current.bind (next? s) with
  | none => simp [foldStep_of_none hnext] at h
  | some s'' =>
    obtain ⟨-, rfl⟩ : _ ∧ c.advance = c' := by simpa [foldStep_of_some hnext] using h
    obtain ⟨x, hx, -⟩ := Option.bind_eq_some_iff.1 hnext
    exact Cursor.length_advance_lt (by simp [hx])

end Parser

namespace Guarded.Follows

variable {σ : Type}

theorem fold (next? : σ → Char → Option σ) (s : σ) :
    Follows (fold next? s) (Parser.fold next? s) := by
  apply loop _ Parser.length_foldStep_lt Parser.fold_of_repeats
  intro s
  apply current.bind
  intro x
  cases x.bind (next? s) with
  | none => exact pure _
  | some s' => exact advance.bind fun _ => pure _

theorem takeWhile (test : Char → Bool) :
    Follows (takeWhile test) (Parser.takeWhile test) := by
  have htake : Parser.takeWhile test =
      Parser.fold (fun word c => if test c then some (word ++ [c]) else none) [] := by
    funext c
    rw [Parser.fold, Cursor.fold_takeWhile]
    rfl
  rw [htake]
  exact fold _ _

theorem skipSpaces : Follows skipSpaces Parser.skipSpaces := by
  have hskip : Parser.skipSpaces = (do
      let _ ← Parser.takeWhile CharClass.isSpace
      Parser.current) := by
    funext c
    rw [Parser.takeWhile_bind]
    rfl
  rw [hskip]
  exact (takeWhile _).bind fun _ => current

/-- The line that was stepped over lies between two characters at both ends, so it can be cut. -/
theorem skipLine : Follows skipLine Parser.skipLine := by
  have hskip : Parser.skipLine = (do
      let _ ← Parser.position
      let line ← Parser.takeWhile (!CharClass.isNewline ·)
      let line ← Pure.pure line
      let _ ← Parser.advance
      Pure.pure line) := rfl
  rw [hskip]
  intro text s
  apply (position s).bind
  intro start ds s₁ hstart
  apply (takeWhile _ s₁).bind
  intro line ds' s₂ hline
  obtain ⟨⟨rfl, -⟩, hs₁⟩ : (s.cursor.position = start ∧ _) ∧ s.cursor = s₁.cursor := by
    simpa [Parser.position] using hstart
  obtain ⟨⟨rfl, -⟩, hs₂⟩ : (s₁.cursor.run (!CharClass.isNewline ·) = line ∧ _) ∧
      s₁.cursor.skipWhile (!CharClass.isNewline ·) = s₂.cursor := by
    simpa [Parser.takeWhile] using hline
  have hrest : s.cursor.rest = s₁.cursor.run (!CharClass.isNewline ·) ++ s₂.cursor.rest := by
    rw [hs₁, ← hs₂]
    exact s₁.cursor.rest_eq_run_append _
  have hcut : FollowsAt s₂ (textFrom s.cursor.position.offset)
      (Pure.pure (s₁.cursor.run (!CharClass.isNewline ·))) := by
    refine ⟨.success _ [], s₂, ?_, rfl⟩
    rw [textFrom, Place.slice?_machine hrest]
    rfl
  exact hcut.bind fun _ _ s₃ _ => (advance.bind fun _ => pure _) s₃

theorem spell (accepts : Char → Char → Bool) (atEnd : Problem) (unexpected : Char → Problem)
    (cs : List Char) :
    Follows (spell accepts atEnd unexpected cs) (Parser.spell accepts atEnd unexpected cs) := by
  induction cs with
  | nil => exact pure ()
  | cons expected rest ih =>
    apply advance.bind
    intro x
    cases x with
    | none => exact error _
    | some c =>
      dsimp only
      split_ifs
      · exact ih
      · exact error _

end Guarded.Follows
end ConfigBlock
