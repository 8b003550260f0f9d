import ConfigBlock.Parser
import ConfigBlock.Number.Text

/-!
# Numerals

A numeral runs from its first character to the next blank, slash, newline or the end of
the text. Its characters are collected in a normal form that drops a plus sign and puts a
zero in front of a leading point, and the collected text is read as an integer or, once a
point was seen, as a double.
-/

namespace ConfigBlock

/-- A number as it was written, without or with a point. -/
inductive Number where
  | integer (n : Int64)
  | double (d : Double)
  deriving DecidableEq, Repr

namespace Numeral

/-- The first character of a numeral. -/
inductive Start where
  | minus
  | plus
  | point
  | digit (c : Char)
  deriving DecidableEq, Repr

/-- How far a numeral has come: nothing but a sign, the whole part, or past the point. -/
inductive Phase where
  | sign
  | whole
  | fraction
  deriving DecidableEq, Repr

namespace Start

def ofChar? (c : Char) : Option Start :=
  if c = '-' then some .minus
  else if c = '+' then some .plus
  else if c = '.' then some .point
  else if CharClass.isDigit c then some (.digit c)
  else none

/-- What the first character contributes to the collected text. -/
def written : Start → List Char
  | .minus => ['-']
  | .plus => []
  | .point => ['0', '.']
  | .digit c => [c]

def phase : Start → Phase
  | .minus => .sign
  | .plus => .sign
  | .point => .fraction
  | .digit _ => .whole

end Start

/-- The collected text, the phase reached, the character that does not belong to a
numeral if one was met, and the cursor on whatever stopped the scan. -/
structure Scan where
  written : List Char
  phase : Phase
  fault : Option Char
  cursor : Cursor
  deriving DecidableEq, Repr

namespace Scan

def push (s : Scan) (cs : List Char) : Scan := { s with written := cs ++ s.written }

@[simp] theorem cursor_push (s : Scan) (cs : List Char) : (s.push cs).cursor = s.cursor := rfl

end Scan

/-- The characters that end a numeral without being part of it. -/
def isStop (c : Char) : Bool := c == '\n' || c == ' ' || c == '/'

/-- Scan the characters after the first one. -/
def scan (phase : Phase) (p : Position) : List Char → Scan
  | [] => ⟨[], phase, none, ⟨[], p⟩⟩
  | c :: cs =>
    if isStop c then ⟨[], phase, none, ⟨c :: cs, p⟩⟩
    else if CharClass.isDigit c then
      (scan (if phase = .sign then .whole else phase) (p.step c) cs).push [c]
    else if c = '.' ∧ phase = .sign then (scan .fraction (p.step c) cs).push ['0', '.']
    else if c = '.' ∧ phase = .whole then (scan .fraction (p.step c) cs).push ['.']
    else ⟨[], phase, some c, ⟨c :: cs, p⟩⟩

/-- The number a complete scan stands for. -/
def value (text : List Char) : Phase → Except NumeralProblem Number
  | .sign => .error .endOfText
  | .whole =>
    match NumberText.readInteger? text with
    | some n => .ok (.integer n)
    | none => .error (.malformed (String.ofList text))
  | .fraction =>
    match NumberText.readDouble? text with
    | some d => .ok (.double d)
    | none => .error (.malformed (String.ofList text))

/-- Read a numeral whose first character is under the cursor. The character after it is
left alone, and every problem is reported where the scan stopped. -/
def read (start : Start) : Parser Number := fun c =>
  let s := scan start.phase c.advance.position c.advance.rest
  let fail (problem : NumeralProblem) : Outcome Number × Cursor :=
    (.failure [s.cursor.error (.numeral problem)], s.cursor)
  match s.fault with
  | some x => fail (.unexpected x)
  | none =>
    match value (start.written ++ s.written) s.phase with
    | .ok n => (.success n [], s.cursor)
    | .error problem => fail problem

theorem reaches_scan (phase : Phase) (p : Position) (cs : List Char) :
    Cursor.Reaches ⟨cs, p⟩ (scan phase p cs).cursor := by
  induction cs generalizing phase p with
  | nil => exact .refl _
  | cons c cs ih =>
    have step (f : Phase) : Cursor.Reaches ⟨c :: cs, p⟩ (scan f (p.step c) cs).cursor :=
      (Cursor.reaches_advance ⟨c :: cs, p⟩).trans (ih f (p.step c))
    unfold scan
    split
    · exact .refl _
    · split
      · exact step _
      · repeat' split
        all_goals first
          | exact .refl _
          | exact step _

theorem moves_read (start : Start) : (read start).Moves := by
  intro c
  have h := (c.reaches_advance).trans (reaches_scan start.phase c.advance.position c.advance.rest)
  unfold read
  dsimp only
  repeat' split
  all_goals exact h

end Numeral
end ConfigBlock
