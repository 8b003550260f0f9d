import ConfigBlock.Block.Header
import ConfigBlock.Block.Printer
import ConfigBlock.Json.Block
import ConfigBlock.Json.Writer

/-!
# The command line

The command reads one block from a file and shows it twice: as JSON and in its canonical
form. Diagnostics go to the error output, whether the block could be read or not. The
functions here say what is shown for given arguments and a given content; touching files
is left to the program around them.
-/

namespace ConfigBlock

/-- Why the content of a file cannot be had. -/
inductive FileProblem where
  | system (description : String) (code : Nat)
  | notText
  deriving DecidableEq, Repr

namespace FileProblem

def message : FileProblem → String
  | .system description code => description ++ " (os error " ++ code.repr ++ ")"
  | .notText => "stream did not contain valid UTF-8"

def notFound : FileProblem := .system "No such file or directory" 2

end FileProblem

namespace Command

/-- The exit code of a run and what it wrote. -/
structure Result where
  exitCode : Nat
  output : String
  errors : String
  deriving DecidableEq, Repr

def usage : String :=
  "Usage: cargo run --bin trace_block <file> [block-name]\n\nExample:\n" ++
    "  cargo run --bin trace_block schema/datasource.prisma db\n"

def failure (errors : String) : Result := ⟨1, "", errors⟩

/-- Every diagnostic on a line of its own. -/
def report (ds : List Diagnostic) : String := String.join (ds.map fun d => d.text ++ "\n")

/-- The text shown for a block. -/
def display (b : Block) : String :=
  "KVBLOCK:\n" ++ b.toJson.indented ++ "\n\nCANONICAL:\n" ++ b.text

/-- The name a block is shown under: the one asked for, or else that of its header, and
`block` in place of an empty name. -/
def blockName (asked : Option String) (header : Header) : String :=
  let name := asked.getD header.name
  if name = "" then "block" else name

/-- Show the first block of a text. -/
def present (asked : Option String) (content : String) : Result :=
  let (header?, body) := Header.skip (.ofText content)
  let header := header?.getD .unnamed
  match (Block.read { header with name := blockName asked header } body).1 with
  | .success b ds => ⟨0, display b, report ds⟩
  | .failure ds => failure (report ds)

def decode (bytes : ByteArray) : Except FileProblem String :=
  match String.fromUTF8? bytes with
  | some text => .ok text
  | none => .error .notText

/-- Run the command on a file whose content was asked for beforehand. -/
def onFile (path : String) (asked : Option String) :
    Except FileProblem ByteArray → Result
  | .error problem => unreadable problem
  | .ok bytes =>
    match decode bytes with
    | .error problem => unreadable problem
    | .ok content => present asked content
where
  unreadable (problem : FileProblem) : Result :=
    failure ("Failed to read " ++ path ++ ": " ++ problem.message ++ "\n")

/-- Run the command, given what each path holds. Arguments after the second are ignored. -/
def run (args : List String) (file : String → Except FileProblem ByteArray) : Result :=
  match args with
  | [] => failure usage
  | path :: rest => onFile path rest.head? (file path)

end Command
end ConfigBlock
