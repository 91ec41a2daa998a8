import Gamelan.CommandLine

namespace Gamelan.CommandLine

/-- The names on the way from the root of a disk to a file or a folder. -/
abbrev Place := List String

/-- The files of a machine. A place is a folder if a file, the current folder or another folder is in it. -/
structure Disk where
  files : SortedMap Place Midi.Bytes := .empty
  /-- Folders that may be empty. -/
  folders : List Place := []
  /-- Where paths start that do not start at the root. -/
  current : Place := []

/-- The parts of a path, which are separated by slashes. -/
def parts (path : String) : List String := (path.toList.splitOn '/').map String.ofList

namespace Disk

def hasFolder (d : Disk) (place : Place) : Bool :=
  (d.current :: d.folders).any (place.isPrefixOf ·) ||
    d.files.keys.any fun file => place.isPrefixOf file && place != file

/-- How many bytes the name of a file may take. -/
def nameLimit : Nat := 255

/-- How many bytes a path may take. -/
def pathLimit : Nat := 4095

/-- Whether a file may have this name. -/
def isName (name : String) : Bool :=
  name != "" && name != "." && name != ".." && name.utf8ByteSize ≤ nameLimit

/-- Follows the parts of a path from a place on. Two points lead back, except at the root, and every part but the
last has to be a folder. A path whose end is no name of a file leads nowhere. -/
def follow? (d : Disk) (place : Place) : List String → Option Place
  | [] => none
  | [name] => if isName name then some (place ++ [name]) else none
  | part :: rest =>
    if part = "" ∨ part = "." then d.follow? place rest
    else if part = ".." then d.follow? place.dropLast rest
    else if d.hasFolder (place ++ [part]) then d.follow? (place ++ [part]) rest
    else none

/-- Where a path starts. -/
def start (d : Disk) (path : String) : Place := if path.toList.head? = some '/' then [] else d.current

/-- The place a path leads to, if it is not too long. -/
def place? (d : Disk) (path : String) : Option Place :=
  if pathLimit < path.utf8ByteSize then none else d.follow? (d.start path) (parts path)

def read? (d : Disk) (path : String) : Option Midi.Bytes := (d.place? path).bind d.files.get?

/-- The text of a file, if it is one in UTF-8. -/
def text? (d : Disk) (path : String) : Option String :=
  (d.read? path).bind fun bytes => String.fromUTF8? ⟨bytes.toArray⟩

def insert (d : Disk) (place : Place) (bytes : Midi.Bytes) : Disk := { d with files := d.files.insert place bytes }

/-- Writes a file into a folder that exists, unless a folder has its name. -/
def write? (d : Disk) (path : String) (bytes : Midi.Bytes) : Option Disk :=
  (d.place? path).bind fun place => if d.hasFolder place then none else some (d.insert place bytes)

end Disk

/-- What a run leaves behind. -/
structure Result where
  exitCode : UInt8
  output : String
  errors : String
  disk : Disk

/-- Runs the command line on the files of a disk. -/
def runIn (disk : Disk) (args : List String) : Result :=
  match run args disk.text? with
  | .failure message => ⟨1, "", message, disk⟩
  | .print text => ⟨0, text, "", disk⟩
  | .write path bytes =>
    match disk.write? path bytes with
    | none => ⟨1, "", writeFailure path, disk⟩
    | some disk => ⟨0, "", writeSuccess path, disk⟩
  | .crash => ⟨crashCode, "", Error.overflow.message, disk⟩

end Gamelan.CommandLine
