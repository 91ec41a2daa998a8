import Gamelan.Yaml.Cursor

namespace Gamelan.Yaml.Plain

/-- The characters up to the next gap or the end of the scalar, and whether the end was reached.
Inside brackets a colon in front of a bracket, a comma or a question mark is refused. -/
def word (inFlow : Bool) : List Char → Option (List Char × Bool)
  | [] => some ([], true)
  | c :: rest =>
    if isGap (some c) then some ([], false)
    else if inFlow && c == ':' && rest.head?.any (fun d => d == '?' || isFlowIndicator d) then none
    else if c == ':' && isGap rest.head? then some ([], true)
    else if inFlow && isFlowIndicator c then some ([], true)
    else do
      let (more, done) ← word inFlow rest
      return (c :: more, done)

structure Result where
  text : String
  next : Cursor
  /-- The scalar was followed by a line end, so that what comes next begins a line. -/
  newLine : Bool

/-- Reads on after a gap whose text, folded, is `pending`. -/
def readFrom (inFlow : Bool) (margin : Nat) :
    Nat → List Char → List Char → Bool → Cursor → Option Result
  | 0, text, _, newLine, c => some ⟨String.ofList text, c, newLine⟩
  | fuel + 1, text, pending, newLine, c =>
    if c.atDocumentMark || c.peek? == some '#' then some ⟨String.ofList text, c, newLine⟩
    else do
      let (part, done) ← word inFlow c.rest
      let (text, newLine) := if part.isEmpty then (text, newLine) else (text ++ pending ++ part, false)
      let c := c.skipMany part.length
      if done then return ⟨String.ofList text, c, newLine⟩
      let (gap, next) ← Gap.read margin (c.left + 1) newLine {} c
      let newLine := newLine || !gap.breaks.isEmpty
      if !inFlow && next.column < margin then return ⟨String.ofList text, next, newLine⟩
      readFrom inFlow margin fuel text gap.folded newLine next

/-- Reads an unquoted scalar whose further lines have to stand at `margin` or right of it. -/
def read (inFlow : Bool) (margin : Nat) (c : Cursor) : Option Result :=
  readFrom inFlow margin (c.left + 1) [] [] false c

end Gamelan.Yaml.Plain
