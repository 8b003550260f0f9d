import ConfigBlock.Block.Reader
import ConfigBlock.Source.WhiteSpace

/-!
# Headers

A header is a line that ends in an opening brace; the last word before the brace names
the block. Blank lines and comments may come first, and documentation comments among them
belong to the header. These lines are looked at as a whole and without the white space
around them, unlike the lines of a body.
-/

namespace ConfigBlock
namespace Header

/-- The part a line can play in front of a block. -/
inductive Role where
  | skipped (doc : Option String)
  | opening (name : String)
  | other
  deriving DecidableEq, Repr

def role (line : List Char) : Role :=
  let text := WhiteSpace.trim line
  if ['/', '/', '/'].isPrefixOf text then
    .skipped (some (String.ofList (WhiteSpace.trim (text.drop 3))))
  else if text = [] ∨ ['/', '/'].isPrefixOf text then .skipped none
  else if text.getLast? = some '{' then
    .opening (String.ofList (WhiteSpace.lastWord text.dropLast))
  else .other

/-- Look for a header from `c` on, with the cursor behind it. `comments` are those already
seen above it. -/
def seek? (comments : List String) (c : Cursor) : Option (Header × Cursor) :=
  if _h : c.atEnd = true then none
  else
    match role c.lineText with
    | .skipped doc => seek? (comments ++ doc.toList) c.skipLine
    | .opening name => some (⟨name, comments⟩, c.skipLine)
    | .other => none
termination_by c.rest.length
decreasing_by exact Cursor.length_skipLine_lt (by simpa using _h)

/-- Step over a header. Without one the cursor stays where it is. -/
def skip (c : Cursor) : Option Header × Cursor :=
  match seek? [] c with
  | some (header, c') => (some header, c')
  | none => (none, c)

theorem reaches_seek? {comments : List String} {c c' : Cursor} {header : Header}
    (h : seek? comments c = some (header, c')) : c.Reaches c' := by
  fun_induction seek? comments c with
  | case1 => simp at h
  | case2 comments c hc doc hrole ih => exact c.reaches_skipLine.trans (ih h)
  | case3 comments c hc name hrole =>
    obtain ⟨-, rfl⟩ : _ ∧ c.skipLine = c' := by simpa using h
    exact c.reaches_skipLine
  | case4 => simp at h

theorem reaches_skip (c : Cursor) : c.Reaches (skip c).2 := by
  unfold skip
  split
  · next h => exact reaches_seek? h
  · exact .refl c

end Header

namespace Block

/-- Read the next block of a text with several: a header, if there is one, and a body. -/
def readNext : Parser Block := fun c =>
  let (header?, c') := Header.skip c
  read (header?.getD .unnamed) c'

end Block
end ConfigBlock
