import ConfigBlock.Value.Basic
import ConfigBlock.Value.Literal
import ConfigBlock.Value.Numeral

/-!
# Reading values

The first character of a value decides its kind: a quote opens a literal, a digit, sign or
point a numeral, `t` or `f` in either case a truth value, and `e` a reference to an
environment variable.
-/

namespace ConfigBlock
namespace Value

open ConfigBlock.Parser

/-- Read the truth value whose first letter is under the cursor. Letters match in either
case, and a blank, slash, newline or the end of the text must follow. -/
def readBoolean (truth : Bool) : Parser Bool := do
  spell (fun expected c => c = expected || c = expected.toUpper) (.boolean .endOfText)
    (fun c => .boolean (.unexpected c)) (if truth then "rue".toList else "alse".toList)
  match ← advance with
  | none => pure truth
  | some c =>
    if c = ' ' ∨ c = '/' ∨ c = '\n' then pure truth else error (.boolean (.unexpected c))

/-- Fail at a character that a reference to a variable does not allow here. -/
def envError {α : Type} : Option Char → Parser α
  | none => error (.env .endOfText)
  | some c => error (.env (.unexpected c))

/-- Read `env("NAME")` from its first letter on. Blanks may surround the literal. What is
wrong inside the literal is reported as a problem of the reference. -/
def readEnv : Parser String := do
  spell (fun expected c => c = expected) (.env .endOfText) (fun c => .env (.unexpected c))
    "nv(".toList
  let _ ← advance
  let opening ← skipSpaces
  if opening = some '"' then
    let name ← mapDiagnostics (fun d => { d with problem := d.problem.insideEnv }) Literal.read
    let closing ← skipSpaces
    if closing = some ')' then
      match ← advance with
      | none => pure name
      | some c =>
        if c = ' ' ∨ c = '/' ∨ c = '\n' ∨ c = '}' then pure name else envError (some c)
    else envError closing
  else envError opening

/-- A numeral that opens with a point but was read as an integer is reported at its start. -/
def numeralWarnings (start : Numeral.Start) (p : Position) : Outcome Number → List Diagnostic
  | .success (.integer _) _ =>
    if start = .point then [.located p (.numeral .integerForDouble) .warning] else []
  | _ => []

def ofNumber : Number → Value
  | .integer n => .integer n
  | .double d => .number d

def readNumeral (start : Numeral.Start) : Parser Value := fun c =>
  let result := Numeral.read start c
  ((result.1.map ofNumber).withLeading (numeralWarnings start c.position result.1), result.2)

/-- Read the value under the cursor, which stops right behind it. -/
def read : Parser Value := do
  match ← current with
  | none => error (.value .endOfText)
  | some c =>
    match Numeral.Start.ofChar? c with
    | some start => readNumeral start
    | none =>
      if c = '"' then return .quoted (← Literal.read)
      else if c = 't' ∨ c = 'T' then return .boolean (← readBoolean true)
      else if c = 'f' ∨ c = 'F' then return .boolean (← readBoolean false)
      else if c = 'e' then return .env (← readEnv)
      else error (.value (.unexpected c))

theorem moves_readBoolean (truth : Bool) : (readBoolean truth).Moves := by
  refine .bind (.spell _ _ _ _) fun _ => .bind .advance fun x => ?_
  repeat' split
  all_goals first
    | exact .pure _
    | exact .error _

theorem moves_envError {α : Type} (x : Option Char) : (envError x : Parser α).Moves := by
  cases x <;> exact .error _

theorem moves_readEnv : readEnv.Moves := by
  refine .bind (.spell _ _ _ _) fun _ => .bind .advance fun _ => .bind .skipSpaces fun _ => ?_
  split
  · refine .bind (.mapDiagnostics _ Literal.moves_read) fun _ => .bind .skipSpaces fun _ => ?_
    split
    · refine .bind .advance fun x => ?_
      repeat' split
      all_goals first
        | exact .pure _
        | exact moves_envError _
    · exact moves_envError _
  · exact moves_envError _

theorem moves_read : read.Moves := by
  refine .bind .current fun x => ?_
  split
  · exact .error _
  · split
    · exact Numeral.moves_read _
    · repeat' split
      · exact .bind Literal.moves_read fun _ => .pure _
      · exact .bind (moves_readBoolean _) fun _ => .pure _
      · exact .bind (moves_readBoolean _) fun _ => .pure _
      · exact .bind moves_readEnv fun _ => .pure _
      · exact .error _

end Value
end ConfigBlock
