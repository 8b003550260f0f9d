import ConfigBlock.Parser
import ConfigBlock.Source.WhiteSpace

/-!
# Comments

Two slashes open a remark that is thrown away, three a documentation comment whose text
is kept without the white space around it. Either goes to the end of its line.
-/

namespace ConfigBlock
namespace Comment

open ConfigBlock.Parser

/-- Read the comment whose first slash is under the cursor, with the newline behind it.
The result is the text of a documentation comment. -/
def read : Parser (Option String) := do
  match ← advance with
  | none => pure none
  | some c =>
    if c = '/' then
      match ← advance with
      | none => pure none
      | some d =>
        if d = '/' then
          let _ ← advance
          let text ← skipLine
          pure (some (String.ofList (WhiteSpace.trim text)))
        else
          let _ ← skipLine
          pure none
    else error (.comment (.unexpected c))

theorem shrinks_read : read.Shrinks := by
  refine .bind .advance fun x => ?_
  split
  · exact .pure _
  · split
    · refine .bind .advance fun y => ?_
      split
      · exact .pure _
      · split
        · exact .bind .advance fun _ => .bind .skipLine fun _ => .pure _
        · exact .bind .skipLine fun _ => .pure _
    · exact .error _

end Comment
end ConfigBlock
