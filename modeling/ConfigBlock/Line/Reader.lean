import ConfigBlock.Line.Entry

/-!
# Lines

A block is read line by line. A line is blank, holds a documentation comment or holds an
entry; remarks count as blank, and so does a bare closing brace. Reading a line fails at
the end of the text, so a successful reading always steps over something
(`length_read_lt`), which is why reading line after line comes to an end.
-/

namespace ConfigBlock

inductive LineContent where
  | comment (text : String)
  | blank
  | entry (e : Entry)
  deriving DecidableEq, Repr

structure Line where
  content : LineContent
  ending : LineEnd
  deriving DecidableEq, Repr

namespace Line

open ConfigBlock.Parser

/-- Whether the line ends the block. -/
def closes (l : Line) : Bool := l.ending.closes

/-- The line of a comment, given its documentation text. -/
def ofComment : Option String → Line
  | none => ⟨.blank, .newline⟩
  | some text => ⟨.comment text, .newline⟩

/-- Read the line whose first character that is no blank is `first`, under the cursor. -/
def readFrom (first : Char) : Parser Line :=
  if first = '/' then do
    let doc ← Comment.read
    pure (ofComment doc)
  else if first = '\n' then do
    let _ ← advance
    pure ⟨.blank, .newline⟩
  else if first = '}' then do
    Closing.read
    pure ⟨.blank, .closing⟩
  else if CharClass.isWord first then do
    let found ← Entry.read first
    pure ⟨.entry found.1, found.2⟩
  else error (.block (.unexpected first))

def read : Parser Line := do
  match ← skipSpaces with
  | none => error (.block .endOfText)
  | some c => readFrom c

theorem read_nil (p : Position) : read ⟨[], p⟩ =
    (.failure [(Cursor.mk [] p).error (.block .endOfText)], ⟨[], p⟩) := rfl

theorem moves_readFrom (first : Char) : (readFrom first).Moves := by
  unfold readFrom
  repeat' split
  · exact .bind Comment.shrinks_read.moves fun _ => .pure _
  · exact .bind .advance fun _ => .pure _
  · exact .bind Closing.shrinks_read.moves fun _ => .pure _
  · exact .bind (Entry.shrinks_read first).moves fun _ => .pure _
  · exact .error _

theorem moves_read : read.Moves := by
  refine .bind .skipSpaces fun x => ?_
  split
  · exact .error _
  · exact moves_readFrom _

/-- A line that can be read is not empty. -/
theorem length_readFrom_lt {first : Char} {c : Cursor} (hc : c.current ≠ none)
    (h : (readFrom first c).1.isSuccess = true) :
    (readFrom first c).2.rest.length < c.rest.length := by
  revert h
  unfold readFrom
  repeat' split
  · exact fun _ => (Comment.shrinks_read.bind fun _ => .pure _).length_lt c hc
  · exact fun _ => (Shrinks.advance.bind fun _ => .pure _).length_lt c hc
  · exact fun _ => (Closing.shrinks_read.bind fun _ => .pure _).length_lt c hc
  · exact fun _ => ((Entry.shrinks_read first).bind fun _ => .pure _).length_lt c hc
  · simp [error, Outcome.isSuccess]

theorem length_read_lt {c c' : Cursor} {line : Line} {ds : List Diagnostic}
    (h : read c = (.success line ds, c')) : c'.rest.length < c.rest.length := by
  have hs : skipSpaces c = (.success c.skipSpaces.current [], c.skipSpaces) := rfl
  unfold read at h
  rw [bind_of_success hs] at h
  cases hx : c.skipSpaces.current with
  | none => simp [hx, error] at h
  | some x =>
    simp only [hx, Outcome.withLeading_nil, Prod.mk.injEq] at h
    have hc : c.skipSpaces.current ≠ none := by simp [hx]
    have hok : (readFrom x c.skipSpaces).1.isSuccess = true := by simp [h.1, Outcome.isSuccess]
    have hlt := length_readFrom_lt hc hok
    rw [h.2] at hlt
    exact Nat.lt_of_lt_of_le hlt (c.reaches_skipSpaces).length_le

end Line
end ConfigBlock
