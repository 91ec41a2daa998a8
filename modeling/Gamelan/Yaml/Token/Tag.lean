import Gamelan.Yaml.Cursor
import Gamelan.Yaml.Token

namespace Gamelan.Yaml.Token

/-- The byte that a percent sign and two hexadecimal digits write. -/
def escapedByte? : List Char → Option UInt8
  | '%' :: a :: b :: _ => (digitsValue? 16 [a, b]).map UInt8.ofNat
  | _ => none

/-- How many bytes a character has that begins with a byte. -/
def byteCount? (first : UInt8) : Option Nat :=
  if first < 0x80 then some 1
  else if first / 0x20 == 0x6 then some 2
  else if first / 0x10 == 0xE then some 3
  else if first / 0x8 == 0x1E then some 4
  else none

/-- The further bytes of a character, each of which has `10` as its two high bits. -/
def furtherBytes? : Nat → List Char → Option (List UInt8)
  | 0, _ => some []
  | n + 1, cs => do
    let byte ← escapedByte? cs
    if byte / 0x40 != 0x2 then none
    else
      let more ← furtherBytes? n (cs.drop 3)
      return byte :: more

/-- The bytes that the escapes of one character write. The high bits have to be those of a character;
the others may be any. -/
def escapedBytes? (cs : List Char) : Option (List UInt8) := do
  let first ← escapedByte? cs
  let n ← byteCount? first
  let more ← furtherBytes? (n - 1) (cs.drop 3)
  return first :: more

def isUriChar (c : Char) : Bool := isWordChar c || ";/?:@&=+$.!~*'()".toList.contains c

/-- The characters of an address between angle brackets or in a directive. -/
def isVerbatimChar (c : Char) : Bool := isUriChar c || c == ',' || c == '[' || c == ']'

/-- The bytes of ASCII characters. -/
def asciiBytes (cs : List Char) : List UInt8 := cs.map fun c => UInt8.ofNat c.toNat

/-- Reads an address, whose characters are ASCII, and decodes its escapes. -/
def readBytes (isMember : Char → Bool) : Nat → Cursor → Option (List UInt8 × Cursor)
  | 0, c => some ([], c)
  | fuel + 1, c =>
    match c.peek? with
    | none => some ([], c)
    | some '%' => do
      let bytes ← escapedBytes? c.rest
      let (more, next) ← readBytes isMember fuel (c.skipMany (3 * bytes.length))
      return (bytes ++ more, next)
    | some x =>
      if isMember x then do
        let (more, next) ← readBytes isMember fuel c.skip
        return (asciiBytes [x] ++ more, next)
      else some ([], c)

/-- A zero byte ends a tag, and what is written after it is lost. -/
def untilZero (bytes : List UInt8) : Tag := ⟨bytes.takeWhile (· != 0)⟩

/-- Reads an address in which something is written. -/
def readUri (isMember : Char → Bool) (c : Cursor) : Option (Tag × Cursor) := do
  let (bytes, next) ← readBytes isMember (c.left + 1) c
  if bytes.isEmpty then none else return (untilZero bytes, next)

/-- Reads the rest of a local name after the characters that are read already. -/
def readName (start : List Char) (c : Cursor) : Option (Tag × Cursor) := do
  let (bytes, next) ← readBytes isUriChar (c.left + 1) c
  return (untilZero (asciiBytes start ++ bytes), next)

/-- Reads `!`, `!word` or `!word!`. The result says whether the handle is closed by a mark of its own. -/
def readHandle (c : Cursor) : Option (String × Bool × Cursor) :=
  if c.peek? != some '!' then none
  else
    let (word, c) := c.skip.takeWhile isWordChar
    let handle := String.ofList ('!' :: word)
    if c.peek? == some '!' then some (handle.push '!', true, c.skip) else some (handle, false, c)

/-- Reads a tag in one of its three forms: an address in angle brackets, a handle with a suffix, or a
local name. A mark alone is kept as a tag of its own, without a handle. -/
def readTagText (c : Cursor) : Option (Token × Cursor) :=
  if c.ahead? 1 == some '<' then do
    let (uri, next) ← readUri isVerbatimChar (c.skipMany 2)
    if next.peek? == some '>' then return (.tag "" uri, next.skip) else none
  else do
    let (handle, closed, next) ← readHandle c
    if closed then
      let (suffix, next) ← readUri isUriChar next
      return (.tag handle suffix, next)
    else
      let (suffix, next) ← readName (handle.toList.drop 1) next
      return (if suffix.bytes.isEmpty then .tag "" .mark else .tag "!" suffix, next)

/-- Reads a tag, which has to end at a gap, or at a comma inside brackets. -/
def readTag (inFlow : Bool) (c : Cursor) : Option (Token × Cursor) := do
  let (token, next) ← readTagText c
  if next.atGap || (inFlow && next.peek? == some ',') then return (token, next) else none

/-- A number of at most nine digits. -/
def readVersionNumber (c : Cursor) : Option (Nat × Cursor) :=
  let (digits, next) := c.takeWhile Char.isDigit
  if digits.length > 9 then none else (digitsValue? 10 digits).map (·, next)

def readVersion (c : Cursor) : Option (Token × Cursor) := do
  let (major, c) ← readVersionNumber (c.skipWhile isBlank)
  if c.peek? != some '.' then none
  else
    let (minor, c) ← readVersionNumber c.skip
    return (.version major minor, c)

def readTagHandle (c : Cursor) : Option (Token × Cursor) := do
  let (handle, closed, c) ← readHandle (c.skipWhile isBlank)
  if !closed && handle != "!" then none
  else if !c.peek?.any isBlank then none
  else
    let (start, c) ← readUri isVerbatimChar (c.skipWhile isBlank)
    if c.atGap then return (.tagHandle handle start, c) else none

/-- Reads a directive, whose percent sign stands at the cursor, to the end of its line. -/
def readDirective (c : Cursor) : Option (Token × Cursor) := do
  let (name, c) := c.skip.takeWhile isWordChar
  if !c.atGap then none
  else
    let (token, c) ←
      if name == "YAML".toList then readVersion c
      else if name == "TAG".toList then readTagHandle c
      else none
    let c := c.skipLineTail
    if c.atEnd then return (token, c)
    else if c.atBreak then return (token, c.skipBreak)
    else none

end Gamelan.Yaml.Token
