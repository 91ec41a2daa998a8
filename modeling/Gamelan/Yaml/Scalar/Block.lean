import Gamelan.Yaml.Cursor

namespace Gamelan.Yaml.Block

/-- What becomes of the line ends after the last line. -/
inductive Chomping where
  /-- All go. -/
  | strip
  /-- The first stays. -/
  | clip
  /-- All stay. -/
  | keep

structure Header where
  chomping : Chomping
  /-- The indentation relative to the enclosing collection, if it is written. -/
  indent? : Option Nat

def chomping? (c : Cursor) : Option Chomping :=
  match c.peek? with
  | some '+' => some .keep
  | some '-' => some .strip
  | _ => none

/-- A digit of the header, zero included. -/
def digit? (c : Cursor) : Option Nat := c.peek?.bind (digitValue? 10)

/-- The sign and the digit at the cursor, in either order, each optional. -/
def Header.marks (c : Cursor) : Header × Cursor :=
  match chomping? c, digit? c with
  | some chomping, _ =>
    match digit? c.skip with
    | some n => (⟨chomping, some n⟩, c.skipMany 2)
    | none => (⟨chomping, none⟩, c.skip)
  | none, some n =>
    match chomping? c.skip with
    | some chomping => (⟨chomping, some n⟩, c.skipMany 2)
    | none => (⟨.clip, some n⟩, c.skip)
  | none, none => (⟨.clip, none⟩, c)

/-- Reads the header after its `|` or `>`, up to the line that follows. An indentation of zero is
refused. -/
def Header.read (c : Cursor) : Option (Header × Cursor) :=
  let (header, c) := Header.marks c
  let c := c.skipLineTail
  if header.indent? == some 0 then none
  else if c.atEnd then some (header, c)
  else if c.atBreak then some (header, c.skipBreak)
  else none

/-- Passes empty lines and the indentation of the first line that is not empty. An indentation that
is not known yet is taken from the deepest of these lines, and is at least `least`. -/
def readMargin (indent? : Option Nat) (least : Nat) :
    Nat → Nat → List Char → Cursor → Option (Nat × List Char × Cursor)
  | 0, deepest, breaks, c => some (indent?.getD (max deepest least), breaks, c)
  | fuel + 1, deepest, breaks, c =>
    let spaces := (c.rest.takeWhile (· == ' ')).length
    let c := c.skipMany (match indent? with | none => spaces | some n => min spaces (n - c.column))
    let deepest := max deepest c.column
    if c.peek? == some '\t' && indent?.all (c.column < ·) then none
    else
      match c.peek? with
      | none => some (indent?.getD (max deepest least), breaks, c)
      | some x =>
        if isBreak x then
          readMargin indent? least fuel deepest (breaks ++ [Gap.breakChar x]) c.skipBreak
        else some (indent?.getD (max deepest least), breaks, c)

/-- Lines read so far, with the end of the last one and the empty lines after it still open. -/
structure State where
  text : String
  lineEnd : List Char
  emptyLines : List Char
  /-- The last line began with a blank. -/
  indented : Bool

/-- Adds the next line. -/
def State.push (s : State) (folded : Bool) (line : List Char) (lineEnd emptyLines : List Char) : State :=
  let indented := line.head?.any isBlank
  let joined := folded && s.lineEnd == ['\n'] && !s.indented && !indented
  let between := if joined then (if s.emptyLines.isEmpty then [' '] else []) else s.lineEnd
  ⟨s.text ++ String.ofList (between ++ s.emptyLines ++ line), lineEnd, emptyLines, indented⟩

def State.finish (s : State) : Chomping → String
  | .strip => s.text
  | .clip => s.text ++ String.ofList s.lineEnd
  | .keep => s.text ++ String.ofList (s.lineEnd ++ s.emptyLines)

def readLines (folded : Bool) (indent : Nat) : Nat → State → Cursor → Option (State × Cursor)
  | 0, s, c => some (s, c)
  | fuel + 1, s, c =>
    if c.column != indent || c.atEnd then some (s, c)
    else do
      let (line, c) := c.takeWhile (!isBreak ·)
      let lineEnd := (c.peek?.map Gap.breakChar).toList
      let (_, emptyLines, c) ← readMargin (some indent) 0 (c.left + 1) 0 [] c.skipBreak
      readLines folded indent fuel (s.push folded line lineEnd emptyLines) c

/-- Reads a block scalar whose `|` or `>` stands at the cursor, in a place where the lines of a nested
construct stand at `margin` or right of it. -/
def read (folded : Bool) (margin : Nat) (c : Cursor) : Option (String × Cursor) := do
  let (header, c) ← Header.read c.skip
  let indent? := header.indent?.map (margin - 1 + ·)
  let fuel := c.left + 1
  let (indent, emptyLines, c) ← readMargin indent? (max margin 1) fuel 0 [] c
  let (s, c) ← readLines folded indent fuel ⟨"", [], emptyLines, false⟩ c
  return (s.finish header.chomping, c)

end Gamelan.Yaml.Block
