import Gamelan.Yaml.Cursor

namespace Gamelan.Yaml.Quoted

/-- The character of an escape of one letter. -/
def letterEscape? : Char → Option Char
  | '0' => some '\x00'
  | 'a' => some '\x07'
  | 'b' => some '\x08'
  | 't' => some '\t'
  | '\t' => some '\t'
  | 'n' => some '\n'
  | 'v' => some '\x0b'
  | 'f' => some '\x0c'
  | 'r' => some '\r'
  | 'e' => some '\x1b'
  | ' ' => some ' '
  | '"' => some '"'
  | '/' => some '/'
  | '\\' => some '\\'
  | 'N' => some '\u0085'
  | '_' => some '\u00a0'
  | 'L' => some '\u2028'
  | 'P' => some '\u2029'
  | _ => none

/-- How many hexadecimal digits an escape by number has. -/
def codeLength? : Char → Option Nat
  | 'x' => some 2
  | 'u' => some 4
  | 'U' => some 8
  | _ => none

/-- The character with a number, unless the number belongs to none. -/
def charOfCode? (n : Nat) : Option Char :=
  if n.isValidChar then some (Char.ofNat n) else none

/-- The character that the text after a backslash stands for, and how many characters write it. -/
def escape? : List Char → Option (Char × Nat)
  | [] => none
  | c :: rest =>
    match codeLength? c with
    | none => (letterEscape? c).map (·, 1)
    | some n =>
      if rest.length < n then none
      else do
        let code ← digitsValue? 16 (rest.take n)
        let char ← charOfCode? code
        return (char, n + 1)

/-- Reads up to the closing quote. A document mark inside the quotes is refused. -/
def readFrom (quote : Char) : Nat → String → Cursor → Option (String × Cursor)
  | 0, _, _ => none
  | fuel + 1, text, c =>
    if c.atDocumentMark then none
    else
      match c.rest with
      | [] => none
      | x :: rest =>
        if x == quote then
          if quote == '\'' && rest.head? == some quote then
            readFrom quote fuel (text.push quote) (c.skipMany 2)
          else some (text, c.skip)
        else if isGap (some x) then do
          let (gap, next) ← Gap.read 0 c.left false {} c
          readFrom quote fuel (text ++ String.ofList gap.folded) next
        else if quote == '"' && x == '\\' then
          if rest.head?.any isBreak then do
            let (gap, next) ← Gap.read 0 c.left true {} c.skip.skipBreak
            readFrom quote fuel (text ++ String.ofList gap.breaks) next
          else do
            let (char, n) ← escape? rest
            readFrom quote fuel (text.push char) (c.skipMany (n + 1))
        else readFrom quote fuel (text.push x) c.skip

/-- Reads a scalar whose opening quote stands at the cursor. -/
def read (quote : Char) (c : Cursor) : Option (String × Cursor) :=
  readFrom quote (c.left + 1) "" c.skip

end Gamelan.Yaml.Quoted
