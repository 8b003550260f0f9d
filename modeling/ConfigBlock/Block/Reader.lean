import ConfigBlock.Block.Basic
import ConfigBlock.Line.Reader

/-!
# Reading blocks

The body of a block is read line by line up to the line that closes it, or to the first
line that cannot be read. A documentation comment on a line of its own belongs to the
next entry; comments with no entry after them belong to the block.
-/

namespace ConfigBlock

/-- The lines read in order, the diagnostics met, whether the last line closed the block,
and where reading stopped. -/
structure Body where
  lines : List Line
  diagnostics : List Diagnostic
  closed : Bool
  cursor : Cursor
  deriving DecidableEq, Repr

namespace Body

def cons (line : Line) (ds : List Diagnostic) (b : Body) : Body :=
  { b with lines := line :: b.lines, diagnostics := ds ++ b.diagnostics }

/-- Read lines until one closes the block or cannot be read. -/
def read (c : Cursor) : Body :=
  match _h : Line.read c with
  | (.failure ds, c') => ⟨[], ds, false, c'⟩
  | (.success line ds, c') =>
    if line.closes then ⟨[line], ds, true, c'⟩ else (read c').cons line ds
termination_by c.rest.length
decreasing_by exact Line.length_read_lt _h

theorem read_of_failure {c c' : Cursor} {ds : List Diagnostic}
    (h : Line.read c = (.failure ds, c')) : read c = ⟨[], ds, false, c'⟩ := by
  rw [read]
  split
  · simp_all
  · simp_all

theorem read_of_success {c c' : Cursor} {line : Line} {ds : List Diagnostic}
    (h : Line.read c = (.success line ds, c')) :
    read c = if line.closes then ⟨[line], ds, true, c'⟩ else (read c').cons line ds := by
  rw [read]
  split
  · simp_all
  · simp_all

theorem reaches_read (c : Cursor) : c.Reaches (read c).cursor := by
  have hm := Line.moves_read c
  rcases h : Line.read c with ⟨⟨line, ds⟩ | ds, c'⟩ <;> rw [h] at hm
  · rw [read_of_success h]
    split
    · exact hm
    · have := Line.length_read_lt h
      exact hm.trans (reaches_read c')
  · rw [read_of_failure h]
    exact hm
termination_by c.rest.length

end Body

namespace Block

/-- Distribute the documentation comments: the entries with those that belong to them, and
the comments left over. `pending` are the comments waiting for an entry. -/
def attach (pending : List String) : List Line → List Entry × List String
  | [] => ([], pending)
  | ⟨.comment text, _⟩ :: lines => attach (pending ++ [text]) lines
  | ⟨.blank, _⟩ :: lines => attach pending lines
  | ⟨.entry e, _⟩ :: lines =>
    let rest := attach [] lines
    ({ e with comments := pending ++ e.comments } :: rest.1, rest.2)

/-- The block that a header and the lines of a closed body make up. -/
def ofLines (h : Header) (lines : List Line) : Block :=
  let attached := attach [] lines
  ⟨h.name, attached.1, h.comments ++ attached.2⟩

def ofBody (h : Header) (b : Body) : Outcome Block :=
  if b.closed then .success (ofLines h b.lines) b.diagnostics else .failure b.diagnostics

/-- Read a body, with the line of its closing brace, under a given header. -/
def read (h : Header) : Parser Block := fun c => (ofBody h (Body.read c), (Body.read c).cursor)

/-- Read a text that holds nothing but a body. -/
def readText (text : String) (h : Header) : Outcome Block := (read h (.ofText text)).1

theorem moves_read (h : Header) : (read h).Moves := Body.reaches_read

end Block
end ConfigBlock
