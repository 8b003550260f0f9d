import ConfigBlock.Line.Reader
import ConfigBlock.Proofs.Failure
import ConfigBlock.Proofs.Guarded.Follows

/-!
# Guarded readers of values and lines

The readers of a line as they run on a machine, with the assertions that three of them start with:
a literal stands on its quote, a reference to a variable on its first letter and a comment on its
slash. Each of them follows the reader of the same name, the three from the character they insist
on. Literals and numerals are read by folding over their characters, which is shown to be what
their scans do.
-/

namespace ConfigBlock

open ConfigBlock.Guarded (Follows FollowsOn)

namespace Literal

/-- How far a literal has come: whether a backslash waits for its partner, the content so far, and
whether a control character was left out. -/
structure Progress where
  escaped : Bool
  content : List Char
  hasControl : Bool
  deriving DecidableEq, Repr

namespace Progress

def initial : Progress := ⟨false, [], false⟩

def next? (s : Progress) (c : Char) : Option Progress :=
  if c = '\n' then none
  else if s.escaped then
    if c = '"' then some ⟨false, s.content ++ ['"'], s.hasControl⟩
    else if CharClass.isControl c then some ⟨false, s.content ++ ['\\'], true⟩
    else some ⟨false, s.content ++ ['\\', c], s.hasControl⟩
  else if c = '\\' then some ⟨true, s.content, s.hasControl⟩
  else if c = '"' then none
  else if CharClass.isControl c then some ⟨false, s.content, true⟩
  else some ⟨false, s.content ++ [c], s.hasControl⟩

def warnings (s : Progress) (opening : Position) : List Diagnostic :=
  if s.hasControl then [.located opening (.literal .controlCharacter) .warning] else []

theorem fold_next? (s : Progress) (p : Position) (cs : List Char) :
    (Cursor.fold next? s p cs).1.content = s.content ++ (scan s.escaped p cs).content ∧
      (Cursor.fold next? s p cs).1.hasControl =
        (s.hasControl || (scan s.escaped p cs).hasControl) ∧
      (Cursor.fold next? s p cs).2 = (scan s.escaped p cs).cursor := by
  induction cs generalizing s p with
  | nil => simp [Cursor.fold, scan]
  | cons c cs ih =>
    obtain ⟨escaped, content, hasControl⟩ := s
    simp only [Cursor.fold, scan, next?]
    split_ifs <;> simp [ih, Scan.push, Scan.markControl]

end Progress

theorem current_scan_of_quote {escaped : Bool} {p : Position} {cs : List Char}
    (h : (scan escaped p cs).stop = .quote) :
    (scan escaped p cs).cursor.current = some '"' := by
  induction cs generalizing escaped p with
  | nil => simp [scan] at h
  | cons c cs ih =>
    unfold scan at h ⊢
    split_ifs at h ⊢ with hn he hq hc hb hq
    · exact ih h
    · exact ih h
    · exact ih h
    · exact ih h
    · simpa using hq
    · exact ih h
    · exact ih h

open ConfigBlock.Parser in
/-- A literal is read by folding over its characters and looking at what stopped the fold. -/
theorem read_eq_fold : read = (do
    let opening ← position
    let _ ← advance
    let s ← fold Progress.next? Progress.initial
    report (s.warnings opening)
    match ← current with
    | none => error (.literal .endOfText)
    | some c =>
      if c = '\n' then error (.literal .newline)
      else do
        let _ ← advance
        pure (String.ofList s.content)) := by
  funext c
  obtain ⟨hcontent, hcontrol, hcursor⟩ :=
    Progress.fold_next? .initial c.advance.position c.advance.rest
  obtain ⟨hnewline, hend⟩ := current_scan false c.advance.position c.advance.rest
  replace hcontent : _ = (scan false c.advance.position c.advance.rest).content := hcontent
  replace hcontrol : _ = (scan false c.advance.position c.advance.rest).hasControl := hcontrol
  replace hcursor : _ = (scan false c.advance.position c.advance.rest).cursor := hcursor
  simp only [position_bind, advance_bind, fold_bind, report_bind, current_bind, hcontent, hcursor,
    Progress.warnings, hcontrol]
  unfold read warnings
  dsimp only
  cases hstop : (scan false c.advance.position c.advance.rest).stop with
  | quote => simp [current_scan_of_quote hstop]
  | newline => simp [hnewline hstop]
  | endOfText => simp [hend hstop]

end Literal

namespace Guarded

def literal : Guarded String := do
  insist '"'
  let opening ← position
  let _ ← advance
  let s ← fold Literal.Progress.next? Literal.Progress.initial
  report (s.warnings opening)
  match ← current with
  | none => error (.literal .endOfText)
  | some c =>
    if c = '\n' then error (.literal .newline)
    else
      let _ ← advance
      pure (String.ofList s.content)

theorem follows_literal : FollowsOn (some '"') literal Literal.read := by
  rw [Literal.read_eq_fold]
  apply FollowsOn.insist
  apply Follows.on
  apply Follows.position.bind
  intro opening
  apply Follows.advance.bind
  intro _
  apply (Follows.fold _ _).bind
  intro s
  apply (Follows.report _).bind
  intro _
  apply Follows.current.bind
  intro x
  cases x with
  | none => exact .error _
  | some c =>
    dsimp only
    split_ifs
    · exact .error _
    · exact Follows.advance.bind fun _ => .pure _

end Guarded

namespace Numeral

/-- The text collected so far and the phase it has come to. -/
structure Progress where
  written : List Char
  phase : Phase
  deriving DecidableEq, Repr

def Progress.next? (s : Progress) (c : Char) : Option Progress :=
  if isStop c then none
  else if CharClass.isDigit c then
    some ⟨s.written ++ [c], if s.phase = .sign then .whole else s.phase⟩
  else if c = '.' ∧ s.phase = .sign then some ⟨s.written ++ ['0', '.'], .fraction⟩
  else if c = '.' ∧ s.phase = .whole then some ⟨s.written ++ ['.'], .fraction⟩
  else none

theorem Progress.fold_next? (s : Progress) (p : Position) (cs : List Char) :
    Cursor.fold next? s p cs =
      (⟨s.written ++ (scan s.phase p cs).written, (scan s.phase p cs).phase⟩,
        (scan s.phase p cs).cursor) := by
  induction cs generalizing s p with
  | nil => simp [Cursor.fold, scan]
  | cons c cs ih =>
    obtain ⟨written, phase⟩ := s
    simp only [Cursor.fold, scan, next?]
    split_ifs <;> simp [ih, Scan.push]

/-- The fault of a scan is the character it stands on, unless that may end a numeral. -/
theorem fault_scan (phase : Phase) (p : Position) (cs : List Char) :
    (scan phase p cs).fault = (scan phase p cs).cursor.current.filter (!isStop ·) := by
  induction cs generalizing phase p with
  | nil => simp [scan]
  | cons c cs ih =>
    unfold scan
    split_ifs with hs
    · simp [Option.filter, hs]
    · exact ih _ _
    · exact ih _ _
    · exact ih _ _
    · exact ih _ _
    · simp [Option.filter, hs]

open ConfigBlock.Parser in
theorem read_eq_fold (start : Start) : read start = (do
    let _ ← advance
    let s ← fold Progress.next? ⟨start.written, start.phase⟩
    match (← current).filter (!isStop ·) with
    | some c => error (.numeral (.unexpected c))
    | none =>
      match value s.written s.phase with
      | .ok n => pure n
      | .error problem => error (.numeral problem)) := by
  funext c
  simp only [advance_bind, fold_bind, current_bind, Progress.fold_next?, ← fault_scan]
  unfold read
  dsimp only
  cases (scan start.phase c.advance.position c.advance.rest).fault with
  | some x => rfl
  | none =>
    dsimp only
    cases value (start.written ++ (scan start.phase c.advance.position c.advance.rest).written)
      (scan start.phase c.advance.position c.advance.rest).phase with
    | ok n => rfl
    | error problem => rfl

end Numeral

namespace Guarded

def numeral (start : Numeral.Start) : Guarded Number := do
  let _ ← advance
  let s ← fold Numeral.Progress.next? ⟨start.written, start.phase⟩
  match (← current).filter (!Numeral.isStop ·) with
  | some c => error (.numeral (.unexpected c))
  | none =>
    match Numeral.value s.written s.phase with
    | .ok n => pure n
    | .error problem => error (.numeral problem)

theorem follows_numeral (start : Numeral.Start) : Follows (numeral start) (Numeral.read start) := by
  rw [Numeral.read_eq_fold]
  apply Follows.advance.bind
  intro _
  apply (Follows.fold _ _).bind
  intro s
  apply Follows.current.bind
  intro x
  split
  · exact .error _
  · split
    · exact .pure _
    · exact .error _

def boolean (truth : Bool) : Guarded Bool := do
  spell (fun expected c => c = expected || c = expected.toUpper) (.boolean .endOfText)
    (fun c => .boolean (.unexpected c)) (if truth then "rue".toList else "alse".toList)
  match ← advance with
  | none => pure truth
  | some c =>
    if c = ' ' ∨ c = '/' ∨ c = '\n' then pure truth else error (.boolean (.unexpected c))

theorem follows_boolean (truth : Bool) : Follows (boolean truth) (Value.readBoolean truth) := by
  apply (Follows.spell _ _ _ _).bind
  intro _
  apply Follows.advance.bind
  intro x
  cases x with
  | none => exact .pure _
  | some c =>
    dsimp only
    split_ifs
    · exact .pure _
    · exact .error _

def envError {α : Type} : Option Char → Guarded α
  | none => error (.env .endOfText)
  | some c => error (.env (.unexpected c))

theorem follows_envError {α : Type} (x : Option Char) :
    Follows (envError x : Guarded α) (Value.envError x) := by
  cases x <;> exact .error _

def env : Guarded String := do
  insist 'e'
  spell (fun expected c => c = expected) (.env .endOfText) (fun c => .env (.unexpected c))
    "nv(".toList
  let _ ← advance
  let opening ← skipSpaces
  if opening = some '"' then
    let name ← mapDiagnostics (fun d => { d with problem := d.problem.insideEnv }) literal
    let closing ← skipSpaces
    if closing = some ')' then
      match ← advance with
      | none => pure name
      | some c =>
        if c = ' ' ∨ c = '/' ∨ c = '\n' ∨ c = '}' then pure name else envError (some c)
    else envError closing
  else envError opening

theorem follows_env : FollowsOn (some 'e') env Value.readEnv := by
  apply FollowsOn.insist
  apply Follows.on
  apply (Follows.spell _ _ _ _).bind
  intro _
  apply Follows.advance.bind
  intro _
  apply Follows.skipSpaces.look fun _ => rfl
  intro opening
  split_ifs with hquote
  · -- The literal is started on the quote it insists on.
    subst hquote
    apply (follows_literal.mapDiagnostics _).bind
    intro name
    apply Follows.skipSpaces.bind
    intro closing
    split_ifs
    · apply Follows.advance.bind
      intro x
      cases x with
      | none => exact .pure _
      | some c =>
        dsimp only
        split_ifs
        · exact .pure _
        · exact follows_envError _
    · exact follows_envError _
  · exact (follows_envError _).on _

/-- A number as a value, with the warning about its form in front. -/
def number (start : Numeral.Start) : Guarded Value := fun m =>
  (numeral start m).map fun r =>
    ((r.1.map Value.ofNumber).withLeading (Value.numeralWarnings start m.position r.1), r.2)

theorem follows_number (start : Numeral.Start) :
    Follows (number start) (Value.readNumeral start) := by
  intro text s
  obtain ⟨o, s', hrun, hparse⟩ := follows_numeral start s
  refine ⟨(o.map Value.ofNumber).withLeading
    (Value.numeralWarnings start s.cursor.position o), s', ?_, ?_⟩
  · rw [number, hrun]
    rfl
  · rw [Value.readNumeral, hparse]

def value : Guarded Value := do
  match ← current with
  | none => error (.value .endOfText)
  | some c =>
    match Numeral.Start.ofChar? c with
    | some start => number start
    | none =>
      if c = '"' then return .quoted (← literal)
      else if c = 't' ∨ c = 'T' then return .boolean (← boolean true)
      else if c = 'f' ∨ c = 'F' then return .boolean (← boolean false)
      else if c = 'e' then return .env (← env)
      else error (.value (.unexpected c))

theorem follows_value : Follows value Value.read := by
  apply Follows.current.look fun _ => rfl
  intro x
  cases x with
  | none => exact (Follows.error _).on _
  | some c =>
    dsimp only
    cases Numeral.Start.ofChar? c with
    | some start => exact (follows_number start).on _
    | none =>
      dsimp only
      split_ifs with hquote ht hf he
      · subst hquote
        exact follows_literal.bind fun _ => .pure _
      · exact ((follows_boolean true).bind fun _ => .pure _).on _
      · exact ((follows_boolean false).bind fun _ => .pure _).on _
      · subst he
        exact follows_env.bind fun _ => .pure _
      · exact (Follows.error _).on _

def comment : Guarded (Option String) := do
  insist '/'
  match ← advance with
  | none => pure none
  | some c =>
    if c = '/' then
      match ← advance with
      | none => pure none
      | some d =>
        if d = '/' then
          let _ ← advance
          let text ← skipLine
          pure (some (String.ofList (WhiteSpace.trim text)))
        else
          let _ ← skipLine
          pure none
    else error (.comment (.unexpected c))

theorem follows_comment : FollowsOn (some '/') comment Comment.read := by
  apply FollowsOn.insist
  apply Follows.on
  apply Follows.advance.bind
  intro x
  cases x with
  | none => exact .pure _
  | some c =>
    dsimp only
    split_ifs
    · apply Follows.advance.bind
      intro y
      cases y with
      | none => exact .pure _
      | some d =>
        dsimp only
        split_ifs
        · exact Follows.advance.bind fun _ => Follows.skipLine.bind fun _ => .pure _
        · exact Follows.skipLine.bind fun _ => .pure _
    · exact .error _

def closing : Guarded Unit := do
  match ← advance with
  | none => pure ()
  | some c =>
    if c = '\n' then
      let _ ← advance
      pure ()
    else if c = ' ' then
      match ← skipSpaces with
      | none => pure ()
      | some d =>
        if d = '\n' then
          let _ ← advance
          pure ()
        else
          warning (.entry .skippedText)
          let _ ← skipLine
          pure ()
    else error (.entry (.unexpected c))

theorem follows_closing : Follows closing Closing.read := by
  apply Follows.advance.bind
  intro x
  cases x with
  | none => exact .pure _
  | some c =>
    dsimp only
    split_ifs
    · exact Follows.advance.bind fun _ => .pure _
    · apply Follows.skipSpaces.bind
      intro y
      cases y with
      | none => exact .pure _
      | some d =>
        dsimp only
        split_ifs
        · exact Follows.advance.bind fun _ => .pure _
        · exact (Follows.warning _).bind fun _ => Follows.skipLine.bind fun _ => .pure _
    · exact .error _

def finishKey (key : String) : Guarded String := do
  let _ ← advance
  pure key

theorem follows_finishKey (key : String) : Follows (finishKey key) (Key.finish key) :=
  Follows.advance.bind fun _ => .pure key

def key (first : Char) : Guarded String := do
  let _ ← advance
  let word ← takeWhile CharClass.isWord
  let key := String.ofList (first :: word)
  match ← current with
  | none => error (.key .endOfText)
  | some c =>
    if c = '=' then finishKey key
    else if c = ' ' then
      match ← skipSpaces with
      | none => error (.key .endOfText)
      | some d => if d = '=' then finishKey key else error (.key (.missingEquals d))
    else if c = '\n' then error (.key .endOfLine)
    else error (.key (.unexpected c))

theorem follows_key (first : Char) : Follows (key first) (Key.read first) := by
  apply Follows.advance.bind
  intro _
  apply (Follows.takeWhile _).bind
  intro word
  apply Follows.current.bind
  intro x
  cases x with
  | none => exact .error _
  | some c =>
    dsimp only
    split_ifs
    · exact follows_finishKey _
    · apply Follows.skipSpaces.bind
      intro y
      cases y with
      | none => exact .error _
      | some d =>
        dsimp only
        split_ifs
        · exact follows_finishKey _
        · exact .error _
    · exact .error _
    · exact .error _

def entryEnd (key : String) (value : Value) : Guarded (Entry × LineEnd) := do
  match ← skipSpaces with
  | none => error (.entry .endOfText)
  | some c =>
    if c = '\n' then
      let _ ← advance
      pure (⟨key, value, []⟩, .newline)
    else if c = '}' then
      closing
      pure (⟨key, value, []⟩, .closing)
    else if c = '/' then
      let doc ← comment
      pure (⟨key, value, doc.toList⟩, .newline)
    else error (.entry (.unexpected c))

theorem follows_entryEnd (key : String) (value : Value) :
    Follows (entryEnd key value) (Entry.readEnd key value) := by
  apply Follows.skipSpaces.look fun _ => rfl
  intro x
  cases x with
  | none => exact (Follows.error _).on _
  | some c =>
    dsimp only
    split_ifs with hn hb hs
    · exact (Follows.advance.bind fun _ => .pure _).on _
    · exact (follows_closing.bind fun _ => .pure _).on _
    · subst hs
      exact follows_comment.bind fun _ => .pure _
    · exact (Follows.error _).on _

def entry (first : Char) : Guarded (Entry × LineEnd) := do
  let key ← key first
  let _ ← skipSpaces
  let value ← value
  entryEnd key value

theorem follows_entry (first : Char) : Follows (entry first) (Entry.read first) := by
  apply (follows_key first).bind
  intro key
  apply Follows.skipSpaces.bind
  intro _
  apply follows_value.bind
  intro value
  exact follows_entryEnd key value

def lineFrom (first : Char) : Guarded Line :=
  if first = '/' then do
    let doc ← comment
    pure (Line.ofComment doc)
  else if first = '\n' then do
    let _ ← advance
    pure ⟨.blank, .newline⟩
  else if first = '}' then do
    closing
    pure ⟨.blank, .closing⟩
  else if CharClass.isWord first then do
    let found ← entry first
    pure ⟨.entry found.1, found.2⟩
  else error (.block (.unexpected first))

theorem follows_lineFrom (first : Char) :
    FollowsOn (some first) (lineFrom first) (Line.readFrom first) := by
  unfold lineFrom Line.readFrom
  split_ifs with hs
  · subst hs
    exact follows_comment.bind fun _ => .pure _
  · exact (Follows.advance.bind fun _ => .pure _).on _
  · exact (follows_closing.bind fun _ => .pure _).on _
  · exact ((follows_entry first).bind fun _ => .pure _).on _
  · exact (Follows.error _).on _

def line : Guarded Line := do
  match ← skipSpaces with
  | none => error (.block .endOfText)
  | some c => lineFrom c

theorem follows_line : Follows line Line.read := by
  apply Follows.skipSpaces.look fun _ => rfl
  intro x
  cases x with
  | none => exact (Follows.error _).on _
  | some c => exact follows_lineFrom c

end Guarded
end ConfigBlock
