import ConfigBlock.Block.Reader
import ConfigBlock.Value.Printer

/-!
# Printing blocks

The canonical form of a block gives every entry a line of its own, indented by two blanks
and under its documentation comments. Comments of the block itself come last, where a
reader finds no entry for them to belong to.
-/

namespace ConfigBlock

def printComment (text : String) : List Char := "  /// ".toList ++ text.toList ++ ['\n']

namespace Entry

def print (e : Entry) : List Char :=
  e.comments.flatMap printComment ++ "  ".toList ++ e.key.toList ++ " = ".toList ++
    e.value.print ++ ['\n']

end Entry

namespace Block

/-- The canonical form of what follows the opening brace. -/
def printBody (b : Block) : List Char :=
  b.entries.flatMap Entry.print ++ b.comments.flatMap printComment ++ ['}', '\n']

/-- The canonical form of a block with its header. -/
def print (b : Block) : List Char := b.name.toList ++ [' ', '{', '\n'] ++ b.printBody

def bodyText (b : Block) : String := String.ofList b.printBody

def text (b : Block) : String := String.ofList b.print

/-- Print the body of a block and read it again. -/
def roundTrip (b : Block) : Outcome Block := readText b.bodyText ⟨b.name, []⟩

end Block
end ConfigBlock
