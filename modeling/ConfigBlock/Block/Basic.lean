import ConfigBlock.Line.Entry

/-!
# Blocks

A block is a named list of entries in the order of their lines. Keys may repeat, so that
looking one up has a first answer and a list of all answers.
-/

namespace ConfigBlock

/-- What stands in front of a block: its name and the documentation comments above it. -/
structure Header where
  name : String
  comments : List String
  deriving DecidableEq, Repr

structure Block where
  name : String
  entries : List Entry
  comments : List String
  deriving DecidableEq, Repr

namespace Header

/-- The header of a block that has none. -/
def unnamed : Header := ⟨"", []⟩

end Header

namespace Block

def get? (b : Block) (key : String) : Option Entry := b.entries.find? (·.key = key)

def getAll (b : Block) (key : String) : List Entry := b.entries.filter (·.key = key)

def keys (b : Block) : List String := b.entries.map (·.key)

/-- Equality of blocks, with numbers compared numerically. -/
def equals (b b' : Block) : Bool :=
  b.name = b'.name && entriesEqual b.entries b'.entries && b.comments = b'.comments
where
  entriesEqual : List Entry → List Entry → Bool
    | [], [] => true
    | e :: es, f :: fs => e.equals f && entriesEqual es fs
    | _, _ => false

end Block
end ConfigBlock
