import Gamelan.Compile
import Gamelan.Performance.Listing
import Gamelan.Settings.Yaml

namespace Gamelan.CommandLine

def usage : String :=
  "Usage: balimidi [--settings <settings.yaml>] [--trace <position>] <score.yaml> [output.mid]"

structure Options where
  settings? : Option String := none
  trace? : Option String := none
  paths : List String := []
  deriving DecidableEq, Repr

inductive UsageFault where
  /-- An argument is missing, or there are too many. -/
  | arguments
  | unknownOption (name : String)
  deriving DecidableEq, Repr

def UsageFault.message : UsageFault → String
  | arguments => usage
  | unknownOption name => s!"Unknown option '{name}'\n{usage}"

/-- Reads the arguments from the left. An option that is given twice counts as it is given last. -/
def Options.parse (o : Options) : List String → Except UsageFault Options
  | [] => .ok o
  | "--settings" :: rest =>
    match rest with
    | [] => .error .arguments
    | path :: rest => { o with settings? := some path }.parse rest
  | "--trace" :: rest =>
    match rest with
    | [] => .error .arguments
    | position :: rest => { o with trace? := some position }.parse rest
  | arg :: rest =>
    if arg.startsWith "--" then .error (.unknownOption arg)
    else { o with paths := o.paths ++ [arg] }.parse rest

/-- The path of the score and the path of the output, if it is given. -/
def Options.scorePaths? (o : Options) : Option (String × Option String) :=
  match o.paths with
  | [score] => some (score, none)
  | [score, output] => some (score, some output)
  | _ => none

/-- A file name up to its last point, unless the point stands in front. -/
def stem (name : List Char) : List Char :=
  let beforePoint := ((name.reverse.dropWhile (· != '.')).drop 1).reverse
  if beforePoint.isEmpty then name else beforePoint

/-- The path with the extension of its file name replaced, or added. A name that is left with nothing
but two points names the folder above and takes no extension. -/
def withExtension (path extension : String) : String :=
  let chars := path.toList
  let name := (chars.reverse.takeWhile (· != '/')).reverse
  let folder := chars.take (chars.length - name.length)
  let stem := stem name
  String.ofList (folder ++ stem ++ '.' :: if stem == ['.'] then [] else extension.toList)

inductive Outcome where
  | failure (message : String)
  | print (text : String)
  | write (path : String) (bytes : Midi.Bytes)
  /-- The program stops in the middle of its work, because a sum is too large for its number. -/
  | crash

abbrev Files := String → Option String

def readSettings (files : Files) (path : String) : Except SettingsFault Settings :=
  match files path with
  | none => .error (.missing path)
  | some text => Settings.parse text

/-- Lists the beats of a score, for a position or for `all`. -/
def runTrace (text : String) (settings : Settings) (position : String) : Outcome :=
  match trace text settings (if position = "all" then none else some position) with
  | .error .overflow => .crash
  | .error e => .failure s!"Error: {e.message}"
  | .ok played => .print (Played.listing played.toList)

/-- Compiles a score. Without a path for the output, it gets the path of the score with another
extension. -/
def runCompile (text : String) (settings : Settings) (score : String) (output? : Option String) :
    Outcome :=
  match compile text settings with
  | .error .overflow => .crash
  | .error e => .failure s!"Compilation error: {e.message}"
  | .ok bytes => .write (output?.getD (withExtension score "mid")) bytes

/-- Reads the settings, then the score, and does what is asked for. -/
def Options.run (o : Options) (files : Files) : Outcome :=
  match o.scorePaths? with
  | none => .failure UsageFault.arguments.message
  | some (score, output?) =>
    match o.settings?.elim (.ok {}) (readSettings files) with
    | .error fault => .failure s!"Error: {(Error.settings fault).message}"
    | .ok settings =>
      match files score with
      | none => .failure s!"Error reading file '{score}'"
      | some text =>
        match o.trace? with
        | some position => runTrace text settings position
        | none => runCompile text settings score output?

/-- What the arguments ask for. Files are read through a function and not written here. -/
def run (args : List String) (files : Files) : Outcome :=
  match ({} : Options).parse args with
  | .error fault => .failure fault.message
  | .ok o => o.run files

/-- The exit code of a program that crashes. -/
def crashCode : UInt8 := 101

def writeFailure (path : String) : String := s!"Error writing to '{path}'"

def writeSuccess (path : String) : String := s!"Wrote MIDI to {path}"

end Gamelan.CommandLine
