import ConfigBlock.Block.Reader

/-!
# The trace of a reading

While a block is read, its reader can report what it does: one event when it starts, one
for every line it has read, and one with the result. A traced reading goes from line to
line with what there is of the block so far, and reports from that.
-/

namespace ConfigBlock

/-- What an event reports about the block it belongs to. -/
inductive Step where
  | started (line : Nat)
  | line (content : LineContent) (closes : Bool)
  | failed (diagnostics : Nat)
  | finished (entries diagnostics : Nat)
  deriving DecidableEq, Repr

structure Event where
  block : String
  step : Step
  deriving DecidableEq, Repr

namespace Event

def level (e : Event) : String :=
  match e.step with
  | .line .. => "TRACE"
  | _ => "DEBUG"

def message (e : Event) : String :=
  match e.step with
  | .started _ => "Parsing block"
  | .line .. => "Parsed line"
  | .failed _ => "Block parse failed"
  | .finished .. => "Parsed block"

end Event

namespace LineContent

def label : LineContent → String
  | .comment _ => "Comment"
  | .blank => "Empty"
  | .entry _ => "KeyValue"

end LineContent

def Line.step (l : Line) : Step := .line l.content l.closes

/-- A block that is being read: its entries so far, the documentation comments waiting for
an entry, and the diagnostics so far. -/
structure Draft where
  entries : List Entry
  waiting : List String
  diagnostics : List Diagnostic
  deriving DecidableEq, Repr

namespace Draft

def empty : Draft := ⟨[], [], []⟩

def add (d : Draft) (content : LineContent) (ds : List Diagnostic) : Draft :=
  match content with
  | .comment text => ⟨d.entries, d.waiting ++ [text], d.diagnostics ++ ds⟩
  | .blank => ⟨d.entries, d.waiting, d.diagnostics ++ ds⟩
  | .entry e =>
    ⟨d.entries ++ [{ e with comments := d.waiting ++ e.comments }], [], d.diagnostics ++ ds⟩

/-- The block if no other line follows. -/
def block (h : Header) (d : Draft) : Block := ⟨h.name, d.entries, h.comments ++ d.waiting⟩

end Draft

namespace Block

/-- Read the lines behind a draft, and give the steps of doing so as well. -/
def readOn (h : Header) (d : Draft) (c : Cursor) : List Step × Outcome Block × Cursor :=
  match _h : Line.read c with
  | (.failure ds, c') =>
    let all := d.diagnostics ++ ds
    ([.failed all.length], .failure all, c')
  | (.success line ds, c') =>
    let d' := d.add line.content ds
    if line.closes then
      ([line.step, .finished d'.entries.length d'.diagnostics.length],
        .success (d'.block h) d'.diagnostics, c')
    else
      let later := readOn h d' c'
      (line.step :: later.1, later.2)
termination_by c.rest.length
decreasing_by exact Line.length_read_lt _h

theorem readOn_of_failure {c c' : Cursor} {ds : List Diagnostic}
    (hline : Line.read c = (.failure ds, c')) (h : Header) (d : Draft) :
    readOn h d c = ([.failed (d.diagnostics ++ ds).length], .failure (d.diagnostics ++ ds), c') := by
  rw [readOn]
  split
  · simp_all
  · simp_all

theorem readOn_of_success {c c' : Cursor} {line : Line} {ds : List Diagnostic}
    (hline : Line.read c = (.success line ds, c')) (h : Header) (d : Draft) :
    readOn h d c =
      let d' := d.add line.content ds
      if line.closes then
        ([line.step, .finished d'.entries.length d'.diagnostics.length],
          .success (d'.block h) d'.diagnostics, c')
      else (line.step :: (readOn h d' c').1, (readOn h d' c').2) := by
  rw [readOn]
  split
  · simp_all
  · simp_all

/-- Read a body under a header as `read` does, and give the events of doing so as well. -/
def readTraced (h : Header) (c : Cursor) : List Event × Outcome Block × Cursor :=
  let reading := readOn h .empty c
  ((Step.started c.position.line :: reading.1).map (⟨h.name, ·⟩), reading.2)

/-- The events of reading a body under a header, in order. -/
def trace (h : Header) (c : Cursor) : List Event := (readTraced h c).1

end Block
end ConfigBlock
