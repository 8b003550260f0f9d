import ConfigBlock.Parser

/-!
# Quoted literals

Between two quotes a backslash before a quote stands for the quote alone; before
anything else it stands for itself, and the character after it is kept as well. Control
characters are left out, with one warning for the whole literal. A literal never goes on
past the end of its line.
-/

namespace ConfigBlock
namespace Literal

/-- What ended the scan of a literal. -/
inductive Stop where
  | quote
  | newline
  | endOfText
  deriving DecidableEq, Repr

/-- The content read so far, whether a control character was left out, and the cursor on
whatever stopped the scan. -/
structure Scan where
  content : List Char
  hasControl : Bool
  stop : Stop
  cursor : Cursor
  deriving DecidableEq, Repr

namespace Scan

def push (s : Scan) (cs : List Char) : Scan := { s with content := cs ++ s.content }

def markControl (s : Scan) : Scan := { s with hasControl := true }

@[simp] theorem cursor_push (s : Scan) (cs : List Char) : (s.push cs).cursor = s.cursor := rfl

@[simp] theorem cursor_markControl (s : Scan) : s.markControl.cursor = s.cursor := rfl

end Scan

/-- Scan the characters after the opening quote. `escaped` holds right after a backslash
that opened a pair. -/
def scan (escaped : Bool) (p : Position) : List Char → Scan
  | [] => ⟨[], false, .endOfText, ⟨[], p⟩⟩
  | c :: cs =>
    if c = '\n' then ⟨[], false, .newline, ⟨c :: cs, p⟩⟩
    else if escaped then
      if c = '"' then (scan false (p.step c) cs).push ['"']
      else if CharClass.isControl c then ((scan false (p.step c) cs).push ['\\']).markControl
      else (scan false (p.step c) cs).push ['\\', c]
    else if c = '\\' then scan true (p.step c) cs
    else if c = '"' then ⟨[], false, .quote, ⟨c :: cs, p⟩⟩
    else if CharClass.isControl c then (scan false (p.step c) cs).markControl
    else (scan false (p.step c) cs).push [c]

/-- The warning of a literal, placed at its opening quote. -/
def warnings (opening : Position) (s : Scan) : List Diagnostic :=
  if s.hasControl then [.located opening (.literal .controlCharacter) .warning] else []

/-- Read a literal, from its opening quote to just behind the closing one. -/
def read : Parser String := fun c =>
  let s := scan false c.advance.position c.advance.rest
  let leading := warnings c.position s
  match s.stop with
  | .quote => (.success (String.ofList s.content) leading, s.cursor.advance)
  | .newline => (.failure (leading ++ [s.cursor.error (.literal .newline)]), s.cursor)
  | .endOfText => (.failure (leading ++ [s.cursor.error (.literal .endOfText)]), s.cursor)

theorem reaches_scan (escaped : Bool) (p : Position) (cs : List Char) :
    Cursor.Reaches ⟨cs, p⟩ (scan escaped p cs).cursor := by
  induction cs generalizing escaped p with
  | nil => exact .refl _
  | cons c cs ih =>
    have step (e : Bool) : Cursor.Reaches ⟨c :: cs, p⟩ (scan e (p.step c) cs).cursor :=
      (Cursor.reaches_advance ⟨c :: cs, p⟩).trans (ih e (p.step c))
    unfold scan
    repeat' split
    all_goals first
      | exact .refl _
      | simpa using step _

theorem moves_read : read.Moves := by
  intro c
  have h := (c.reaches_advance).trans (reaches_scan false c.advance.position c.advance.rest)
  unfold read
  dsimp only
  split
  · exact h.trans (Cursor.reaches_advance _)
  · exact h
  · exact h

end Literal
end ConfigBlock
