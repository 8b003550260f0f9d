import ConfigBlock.Line.Closing
import ConfigBlock.Line.Comment
import ConfigBlock.Line.Key
import ConfigBlock.Value.Reader

/-!
# Entries

An entry gives a key its value. The line of an entry may end in a comment, and it may
close the block.
-/

namespace ConfigBlock

/-- A key, its value and the documentation comments that belong to them. -/
structure Entry where
  key : String
  value : Value
  comments : List String
  deriving DecidableEq, Repr

/-- What ends a line: its newline or a comment, or the brace that closes the block. -/
inductive LineEnd where
  | newline
  | closing
  deriving DecidableEq, Repr

namespace LineEnd

def closes (e : LineEnd) : Bool := e = .closing

end LineEnd

namespace Entry

open ConfigBlock.Parser

/-- Equality of entries, with numbers compared numerically. -/
def equals (e f : Entry) : Bool :=
  e.key = f.key && e.value.equals f.value && e.comments = f.comments

/-- Read what follows the value of an entry, up to the end of its line. -/
def readEnd (key : String) (value : Value) : Parser (Entry × LineEnd) := do
  match ← skipSpaces with
  | none => error (.entry .endOfText)
  | some c =>
    if c = '\n' then
      let _ ← advance
      pure (⟨key, value, []⟩, .newline)
    else if c = '}' then
      Closing.read
      pure (⟨key, value, []⟩, .closing)
    else if c = '/' then
      let doc ← Comment.read
      pure (⟨key, value, doc.toList⟩, .newline)
    else error (.entry (.unexpected c))

/-- Read the entry whose key starts with `first`, already under the cursor. -/
def read (first : Char) : Parser (Entry × LineEnd) := do
  let key ← Key.read first
  let _ ← skipSpaces
  let value ← Value.read
  readEnd key value

theorem moves_readEnd (key : String) (value : Value) : (readEnd key value).Moves := by
  refine .bind .skipSpaces fun x => ?_
  repeat' split
  · exact .error _
  · exact .bind .advance fun _ => .pure _
  · exact .bind Closing.shrinks_read.moves fun _ => .pure _
  · exact .bind Comment.shrinks_read.moves fun _ => .pure _
  · exact .error _

theorem shrinks_read (first : Char) : (read first).Shrinks :=
  (Key.shrinks_read first).bind fun key => .bind .skipSpaces fun _ =>
    .bind Value.moves_read fun value => moves_readEnd key value

end Entry
end ConfigBlock
