import Gamelan.CommandLine

namespace Gamelan.CommandLine

/-- The text of a file, if it can be read. -/
def readFile? (path : String) : IO (Option String) :=
  try return some (← IO.FS.readFile path)
  catch _ => return none

/-- The texts of the files among the arguments. -/
def readFiles (args : List String) : IO Files := do
  let texts ← args.mapM fun path => return (path, ← readFile? path)
  return fun path => (texts.lookup path).join

def fail (message : String) : IO UInt32 := do
  IO.eprintln message
  return 1

/-- Does on the machine what an outcome asks for. The result is the exit code. -/
def Outcome.perform : Outcome → IO UInt32
  | .failure message => fail message
  | .print text => do
    IO.print text
    return 0
  | .write path bytes => do
    try
      IO.FS.writeBinFile path ⟨bytes.toArray⟩
      IO.eprintln (writeSuccess path)
      return 0
    catch _ => fail (writeFailure path)
  | .crash => do
    IO.eprintln Error.overflow.message
    return crashCode.toUInt32

end Gamelan.CommandLine

def main (args : List String) : IO UInt32 := do
  (Gamelan.CommandLine.run args (← Gamelan.CommandLine.readFiles args)).perform
