import ConfigBlock.Parser

/-!
# The closing brace

A block ends with the line of its closing brace. Text on that line is skipped with a
warning if a blank keeps it apart from the brace, and is an error otherwise.
-/

namespace ConfigBlock
namespace Closing

open ConfigBlock.Parser

/-- Step over the brace under the cursor and the rest of its line. -/
def read : Parser Unit := do
  match ← advance with
  | none => pure ()
  | some c =>
    if c = '\n' then
      let _ ← advance
      pure ()
    else if c = ' ' then
      match ← skipSpaces with
      | none => pure ()
      | some d =>
        if d = '\n' then
          let _ ← advance
          pure ()
        else
          warning (.entry .skippedText)
          let _ ← skipLine
          pure ()
    else error (.entry (.unexpected c))

theorem shrinks_read : read.Shrinks := by
  refine .bind .advance fun x => ?_
  repeat' split
  · exact .pure _
  · exact .bind .advance fun _ => .pure _
  · refine .bind .skipSpaces fun y => ?_
    repeat' split
    · exact .pure _
    · exact .bind .advance fun _ => .pure _
    · exact .bind (.warning _) fun _ => .bind .skipLine fun _ => .pure _
  · exact .error _

end Closing
end ConfigBlock
