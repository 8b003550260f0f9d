import ConfigBlock.Parser

/-!
# Reading with checks

A machine keeps a text as bytes and a position in it. To see a character it has to cut the text at
the offset of its position, and its counts are words of 64 bits. A cut that is not between two
characters, a sum that is no word and an assertion that does not hold abort the run, and so does
a loop that goes on without having moved. A guarded reader runs on a machine: it gives an outcome
and the machine it leaves behind, or nothing if the run is aborted.
-/

namespace ConfigBlock

/-- The sum of two words, if it is a word. -/
def addWord? (a b : Nat) : Option Nat := if a + b < UInt64.size then some (a + b) else none

/-- The position after one character, with the counts checked. -/
def Position.step? (p : Position) (c : Char) : Option Position := do
  let offset ← addWord? p.offset c.utf8Size
  if CharClass.isNewline c then pure ⟨offset, ← addWord? p.line 1, 1⟩
  else pure ⟨offset, p.line, ← addWord? p.column 1⟩

structure Machine where
  text : String
  position : Position
  deriving DecidableEq, Repr

namespace Machine

def start (text : String) : Machine := ⟨text, .origin⟩

/-- The text from a byte on, if a character starts or the text ends there. -/
def cut? (m : Machine) (offset : Nat) : Option (List Char) :=
  Cursor.restore?.go m.text.toList offset

/-- The text between two bytes. -/
def slice? (m : Machine) (start stop : Nat) : Option (List Char) := do
  let rest ← m.cut? start
  let after ← m.cut? stop
  if start ≤ stop then some (rest.take (rest.length - after.length)) else none

def current? (m : Machine) : Option (Option Char) :=
  (m.cut? m.position.offset).map (·.head?)

/-- Step over the current character; at the end of the text nothing moves. -/
def advance? (m : Machine) : Option Machine := do
  match ← m.current? with
  | none => pure m
  | some c => pure { m with position := ← m.position.step? c }

def atEnd (m : Machine) : Bool := m.text.utf8ByteSize ≤ m.position.offset

/-- Return to a position, unless the text cannot be cut there. -/
def restore (m : Machine) (p : Position) : Machine :=
  if (m.cut? p.offset).isSome then { m with position := p } else m

def remaining (m : Machine) : Nat := m.text.utf8ByteSize - m.position.offset

end Machine

def Guarded (α : Type) : Type := Machine → Option (Outcome α × Machine)

namespace Guarded

variable {α β σ : Type}

protected def pure (a : α) : Guarded α := fun m => some (.success a [], m)

protected def bind (g : Guarded α) (f : α → Guarded β) : Guarded β := fun m =>
  match g m with
  | none => none
  | some (.failure ds, m') => some (.failure ds, m')
  | some (.success a ds, m') => (f a m').map fun r => (r.1.withLeading ds, r.2)

instance : Monad Guarded where
  pure := Guarded.pure
  bind := Guarded.bind

def current : Guarded (Option Char) := fun m => m.current?.map fun x => (.success x [], m)

def advance : Guarded (Option Char) := fun m =>
  m.advance?.bind fun m' => m'.current?.map fun x => (.success x [], m')

def position : Guarded Position := fun m => some (.success m.position [], m)

def atEnd : Guarded Bool := fun m => some (.success m.atEnd [], m)

/-- The text from a byte up to the current position. -/
def textFrom (start : Nat) : Guarded (List Char) := fun m =>
  (m.slice? start m.position.offset).map fun text => (.success text [], m)

def restore (p : Position) : Guarded Unit := fun m => some (.success () [], m.restore p)

def report (ds : List Diagnostic) : Guarded Unit := fun m => some (.success () ds, m)

def error (problem : Problem) : Guarded α := fun m =>
  some (.failure [.located m.position problem .error], m)

def warning (problem : Problem) : Guarded Unit := fun m =>
  some (.success () [.located m.position problem .warning], m)

/-- Assert that the reader stands on `c`. -/
def insist (c : Char) : Guarded Unit := fun m =>
  m.current?.bind fun x => if x = some c then some (.success () [], m) else none

def mapDiagnostics (f : Diagnostic → Diagnostic) (g : Guarded α) : Guarded α := fun m =>
  (g m).map fun r => (r.1.mapDiagnostics f, r.2)

/-- Repeat a step until it gives a result, each time from the state of the last one. -/
def loop (step : σ → Guarded (σ ⊕ α)) (s : σ) (m : Machine) : Option (Outcome α × Machine) :=
  match step s m with
  | none => none
  | some (.failure ds, m') => some (.failure ds, m')
  | some (.success (.inr a) ds, m') => some (.success a ds, m')
  | some (.success (.inl s') ds, m') =>
    -- A step that goes on from where it was could be taken forever.
    if m'.remaining < m.remaining then
      (loop step s' m').map fun r => (r.1.withLeading ds, r.2)
    else none
termination_by m.remaining

def foldStep (next? : σ → Char → Option σ) (s : σ) : Guarded (σ ⊕ σ) := do
  match (← current).bind (next? s) with
  | none => pure (.inr s)
  | some s' =>
    let _ ← advance
    pure (.inl s')

/-- Step over the characters that have a next state. -/
def fold (next? : σ → Char → Option σ) (s : σ) : Guarded σ := loop (foldStep next?) s

def takeWhile (test : Char → Bool) : Guarded (List Char) :=
  fold (fun word c => if test c then some (word ++ [c]) else none) []

def skipSpaces : Guarded (Option Char) := do
  let _ ← takeWhile CharClass.isSpace
  current

/-- Step over the rest of the line and its newline, and cut out the text before the newline. -/
def skipLine : Guarded (List Char) := do
  let start ← position
  let _ ← takeWhile (!CharClass.isNewline ·)
  let text ← textFrom start.offset
  let _ ← advance
  pure text

def spell (accepts : Char → Char → Bool) (atEnd : Problem) (unexpected : Char → Problem) :
    List Char → Guarded Unit
  | [] => pure ()
  | expected :: rest => do
    match ← advance with
    | none => error atEnd
    | some c =>
      if accepts expected c then spell accepts atEnd unexpected rest else error (unexpected c)

end Guarded
end ConfigBlock
