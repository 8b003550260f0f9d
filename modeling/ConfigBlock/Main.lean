import ConfigBlock.Command

/-!
# The program

Reads the file named by the first argument and writes what `Command.run` gives for it.
-/

namespace ConfigBlock
namespace Program

def fileProblem : IO.Error → FileProblem
  | .noFileOrDirectory .. => .notFound
  | .permissionDenied _ code details => .system details code.toNat
  | .inappropriateType _ code details => .system details code.toNat
  | .otherError code details => .system details code.toNat
  | e => .system e.toString 5

def readFile (path : String) : IO (Except FileProblem ByteArray) := do
  try
    return .ok (← IO.FS.readBinFile path)
  catch e =>
    return .error (fileProblem e)

def run (args : List String) : IO UInt32 := do
  let file ← match args with
    | [] => pure (.error .notFound)
    | path :: _ => readFile path
  let result := Command.run args fun _ => file
  (← IO.getStderr).putStr result.errors
  (← IO.getStdout).putStr result.output
  return result.exitCode.toUInt32

end Program
end ConfigBlock

def main (args : List String) : IO UInt32 := ConfigBlock.Program.run args
