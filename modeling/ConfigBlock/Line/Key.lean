import ConfigBlock.Parser

/-!
# Keys

A key is a run of word characters, and an equals sign, perhaps after blanks, ends it.
-/

namespace ConfigBlock
namespace Key

open ConfigBlock.Parser

/-- Step over the equals sign behind a key. -/
def finish (key : String) : Parser String := do
  let _ ← advance
  pure key

/-- Read the key whose first character is `first`, already under the cursor, and step over
the equals sign behind it. -/
def read (first : Char) : Parser String := do
  let _ ← advance
  let word ← takeWhile CharClass.isWord
  let key := String.ofList (first :: word)
  match ← current with
  | none => error (.key .endOfText)
  | some c =>
    if c = '=' then finish key
    else if c = ' ' then
      match ← skipSpaces with
      | none => error (.key .endOfText)
      | some d => if d = '=' then finish key else error (.key (.missingEquals d))
    else if c = '\n' then error (.key .endOfLine)
    else error (.key (.unexpected c))

theorem moves_finish (key : String) : (finish key).Moves := .bind .advance fun _ => .pure _

theorem shrinks_read (first : Char) : (read first).Shrinks := by
  refine .bind .advance fun _ => .bind (.takeWhile _) fun word => .bind .current fun x => ?_
  repeat' split
  · exact .error _
  · exact moves_finish _
  · refine .bind .skipSpaces fun y => ?_
    repeat' split
    · exact .error _
    · exact moves_finish _
    · exact .error _
  · exact .error _
  · exact .error _

end Key
end ConfigBlock
