import Gamelan.Yaml.Character

namespace Gamelan.Yaml

/-- A place in a text: what is still to be read, and where that stands. Columns and lines count from zero; a carriage
return with a line feed is one line end. -/
structure Cursor where
  rest : List Char
  /-- The length of the rest. -/
  left : Nat
  /-- How many bytes of the text come before, in UTF-8. -/
  index : Nat
  line : Nat
  column : Nat

namespace Cursor

def start (text : String) : Cursor := ⟨text.toList, text.length, 0, 0, 0⟩

def peek? (c : Cursor) : Option Char := c.rest.head?

/-- The character `n` places ahead. -/
def ahead? (c : Cursor) (n : Nat) : Option Char := c.rest[n]?

/-- Passes one character that is not a line end. -/
def skip (c : Cursor) : Cursor :=
  match c.rest with
  | [] => c
  | x :: rest => ⟨rest, c.left - 1, c.index + x.utf8Size, c.line, c.column + 1⟩

def skipMany : Nat → Cursor → Cursor
  | 0, c => c
  | n + 1, c => skipMany n c.skip

/-- Passes one line end. -/
def skipBreak (c : Cursor) : Cursor :=
  match c.rest with
  | [] => c
  | '\r' :: '\n' :: rest => ⟨rest, c.left - 2, c.index + 2, c.line + 1, 0⟩
  | x :: rest => ⟨rest, c.left - 1, c.index + x.utf8Size, c.line + 1, 0⟩

/-- Reads the characters of one class, which holds no line end. -/
def takeWhile (c : Cursor) (p : Char → Bool) : List Char × Cursor :=
  let taken := c.rest.takeWhile p
  let n := taken.length
  let bytes := taken.foldl (fun n x => n + x.utf8Size) 0
  (taken, ⟨c.rest.drop n, c.left - n, c.index + bytes, c.line, c.column + n⟩)

def skipWhile (c : Cursor) (p : Char → Bool) : Cursor := (c.takeWhile p).2

def atGap (c : Cursor) : Bool := isGap c.peek?

def atEnd (c : Cursor) : Bool := c.rest.isEmpty

def atBreak (c : Cursor) : Bool := c.peek?.any isBreak

/-- A document begins or ends here: three dashes or three dots alone at the start of a line. -/
def atDocumentMark (c : Cursor) : Bool :=
  c.column == 0 && isGap (c.ahead? 3) &&
    ((c.rest.take 3) == ['-', '-', '-'] || (c.rest.take 3) == ['.', '.', '.'])

/-- Blanks, then a comment if there is one, up to the end of the line. -/
def skipLineTail (c : Cursor) : Cursor :=
  let c := c.skipWhile isBlank
  if c.peek? == some '#' then c.skipWhile (!isBreak ·) else c

end Cursor

/-- The white space between two parts of a scalar: blanks on the line where it begins, and one
character for each line end, `'\n'` for all but the two Unicode separators. -/
structure Gap where
  blanks : List Char := []
  breaks : List Char := []

namespace Gap

/-- What a folded scalar keeps of a gap. A single line end is a space, further ones stay; a separator
is kept where it stands, and so are blanks on one line. -/
def folded (g : Gap) : List Char :=
  match g.breaks with
  | [] => g.blanks
  | ['\n'] => [' ']
  | '\n' :: more => more
  | breaks => breaks

/-- The character that a line end is kept as. -/
def breakChar (c : Char) : Char := if c == '\u2028' || c == '\u2029' then c else '\n'

/-- Reads a gap. With a margin, a tab in the indentation left of it is refused. `broken` says that a
line end came before, so that blanks are indentation. -/
def read (margin : Nat) : Nat → Bool → Gap → Cursor → Option (Gap × Cursor)
  | 0, _, g, c => some (g, c)
  | fuel + 1, broken, g, c =>
    match c.peek? with
    | none => some (g, c)
    | some x =>
      if isBlank x then
        if broken then
          if x == '\t' && c.column < margin then none else read margin fuel true g c.skip
        else read margin fuel false { g with blanks := g.blanks ++ [x] } c.skip
      else if isBreak x then
        read margin fuel true { g with breaks := g.breaks ++ [breakChar x] } c.skipBreak
      else some (g, c)

end Gap

end Gamelan.Yaml
