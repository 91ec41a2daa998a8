import Gamelan.Yaml.Scalar.Block
import Gamelan.Yaml.Scalar.Plain
import Gamelan.Yaml.Scalar.Quoted
import Gamelan.Yaml.Token.Tag

namespace Gamelan.Yaml

/-- A place where a key may have begun. -/
structure KeyStart where
  /-- The line cannot be read in any other way: it begins where the keys of its mapping begin. -/
  required : Bool
  /-- How many tokens stand before it. -/
  token : Nat
  place : Cursor

/-- A key takes one line and at most 1024 bytes. -/
def KeyStart.isPast (k : KeyStart) (c : Cursor) : Bool :=
  k.place.line < c.line || k.place.index + 1024 < c.index

/-- The way from text to tokens. Indentation becomes opening and closing tokens. A key is only known as one when its colon
is found, so each place where a key may have begun is remembered, one for every level of brackets, and the tokens that
the key implies are put in there afterwards. -/
structure Lexer where
  cursor : Cursor
  tokens : Array Token := #[]
  /-- The columns of the open block collections, the innermost first. -/
  columns : List Nat := []
  /-- A key may begin here. -/
  keyAllowed : Bool := true
  keyStart? : Option KeyStart := none
  /-- The key starts outside each open bracket, the innermost first. -/
  outerKeys : List (Option KeyStart) := []

namespace Lexer

def inFlow (l : Lexer) : Bool := !l.outerKeys.isEmpty

def emit (l : Lexer) (t : Token) : Lexer := { l with tokens := l.tokens.push t }

/-- Where the lines of a construct inside the innermost block collection may stand. -/
def margin (l : Lexer) : Nat :=
  match l.columns with
  | [] => 0
  | column :: _ => column + 1

/-- Gives up a place where a key may have begun; a required one cannot be given up. -/
def forget : Option KeyStart → Option (Option KeyStart)
  | some k => if k.required then none else some none
  | none => some none

def forgetKey (l : Lexer) : Option Lexer :=
  (forget l.keyStart?).map fun k => { l with keyStart? := k }

def forgetIfPast (c : Cursor) (k? : Option KeyStart) : Option (Option KeyStart) :=
  if k?.any (·.isPast c) then forget k? else some k?

/-- Gives up every place that is too far back to begin a key that ends here. -/
def forgetPastKeys (l : Lexer) : Option Lexer := do
  let keyStart? ← forgetIfPast l.cursor l.keyStart?
  let outerKeys ← l.outerKeys.mapM (forgetIfPast l.cursor)
  return { l with keyStart?, outerKeys }

/-- Remembers that a key may begin here. -/
def markKey (l : Lexer) : Option Lexer :=
  if !l.keyAllowed then some l
  else do
    let l ← l.forgetKey
    let required := !l.inFlow && l.columns.head? == some l.cursor.column
    return { l with keyStart? := some ⟨required, l.tokens.size, l.cursor⟩ }

/-- Opens a block collection at a column right of the innermost one; its token goes to `place`. -/
def openBlock (l : Lexer) (column : Nat) (place : Nat) (t : Token) : Lexer :=
  if l.inFlow || l.columns.head?.any (column ≤ ·) then l
  else { l with columns := column :: l.columns, tokens := l.tokens.insertIdxIfInBounds place t }

/-- Closes the block collections that satisfy the condition on their column. -/
def closeBlocks (l : Lexer) (ended : Nat → Bool) : Lexer :=
  if l.inFlow then l
  else
    let n := (l.columns.takeWhile ended).length
    { l with columns := l.columns.drop n, tokens := l.tokens ++ Array.replicate n .blockEnd }

/-- Passes blanks, comments and line ends. A tab is no blank where a key may begin, and a line may begin
with a byte order mark. -/
def skipToToken : Nat → Lexer → Lexer
  | 0, l => l
  | fuel + 1, l =>
    let tabs := l.inFlow || !l.keyAllowed
    let c := if l.cursor.column == 0 && l.cursor.peek? == some '\uFEFF' then l.cursor.skip else l.cursor
    let c := c.skipWhile fun x => x == ' ' || (tabs && x == '\t')
    let c := if c.peek? == some '#' then c.skipWhile (!isBreak ·) else c
    if c.atBreak then
      skipToToken fuel { l with cursor := c.skipBreak, keyAllowed := l.keyAllowed || !l.inFlow }
    else { l with cursor := c }

/-- A token that ends what came before it on its level, and is followed by a new beginning or not. -/
def punctuation (l : Lexer) (t : Token) (length : Nat) (keyAllowed : Bool) : Option Lexer := do
  let l ← l.forgetKey
  return { l with cursor := l.cursor.skipMany length, keyAllowed }.emit t

/-- A directive or the mark of a document, which closes all block collections. -/
def documentMark (l : Lexer) (read : Cursor → Option (Token × Cursor)) : Option Lexer := do
  let l ← (l.closeBlocks fun _ => true).forgetKey
  let (t, cursor) ← read l.cursor
  return { l with cursor, keyAllowed := false }.emit t

def openBracket (l : Lexer) (t : Token) : Option Lexer := do
  let l ← l.markKey
  return { l with
    cursor := l.cursor.skip, keyAllowed := true
    keyStart? := none, outerKeys := l.keyStart? :: l.outerKeys }.emit t

def closeBracket (l : Lexer) (t : Token) : Option Lexer := do
  let l ← l.forgetKey
  let l := { l with cursor := l.cursor.skip, keyAllowed := false }
  match l.outerKeys with
  | [] => return l.emit t
  | outer :: outerKeys => return { l with keyStart? := outer, outerKeys }.emit t

/-- The dash of an item or the question mark of a key: outside brackets it may open a collection. -/
def opener (l : Lexer) (collection t : Token) (keyAllowed : Bool) : Option Lexer :=
  if !l.inFlow && !l.keyAllowed then none
  else (l.openBlock l.cursor.column l.tokens.size collection).punctuation t 1 keyAllowed

/-- The colon after a key. It makes a key of what began at the remembered place. -/
def colon (l : Lexer) : Option Lexer :=
  match l.keyStart? with
  | some k =>
    let l := { l with tokens := l.tokens.insertIdxIfInBounds k.token .key, keyStart? := none }
    let l := l.openBlock k.place.column k.token .blockMapping
    some ({ l with cursor := l.cursor.skip, keyAllowed := false }.emit .value)
  | none =>
    if !l.inFlow && !l.keyAllowed then none
    else
      let l := l.openBlock l.cursor.column l.tokens.size .blockMapping
      some ({ l with cursor := l.cursor.skip, keyAllowed := !l.inFlow }.emit .value)

/-- A leaf that may be a key or stand in front of one. -/
def leaf (l : Lexer) (read : Cursor → Option (Token × Cursor)) : Option Lexer := do
  let l ← l.markKey
  let (t, cursor) ← read l.cursor
  return { l with cursor, keyAllowed := false }.emit t

/-- The name after the mark of an anchor or an alias. -/
def readName (make : String → Token) (c : Cursor) : Option (Token × Cursor) :=
  let (name, next) := c.skip.takeWhile isWordChar
  if name.isEmpty || !(next.atGap || next.peek?.any ("?:,]\x7d%@`".toList.contains ·)) then none
  else some (make (String.ofList name), next)

def quoted (l : Lexer) (quote : Char) : Option Lexer :=
  l.leaf fun c => (Quoted.read quote c).map fun (text, next) => (.scalar .quoted text, next)

def plain (l : Lexer) : Option Lexer := do
  let l ← l.markKey
  let r ← Plain.read l.inFlow l.margin l.cursor
  return { l with cursor := r.next, keyAllowed := r.newLine }.emit (.scalar .plain r.text)

def blockScalar (l : Lexer) (style : ScalarStyle) : Option Lexer := do
  let l ← l.forgetKey
  let (text, cursor) ← Block.read (style == .folded) l.margin l.cursor
  return { l with cursor, keyAllowed := true }.emit (.scalar style text)

/-- An unquoted scalar may begin with a dash, a question mark or a colon if no gap follows. -/
def beginsPlain (l : Lexer) (x : Char) : Bool :=
  (!isGap (some x) && !isIndicator x) ||
    (x == '-' && !(l.cursor.ahead? 1).any isBlank) ||
    (!l.inFlow && (x == '?' || x == ':') && !isGap (l.cursor.ahead? 1))

/-- Reads the token that begins with the character at the cursor. -/
def token (l : Lexer) (x : Char) : Option Lexer :=
  let gapNext := isGap (l.cursor.ahead? 1)
  if l.cursor.column == 0 && x == '%' then l.documentMark Token.readDirective
  else if l.cursor.atDocumentMark then
    l.documentMark fun c => some (if x == '-' then .documentStart else .documentEnd, c.skipMany 3)
  else
    match x with
    | '[' => l.openBracket .flowSequence
    | '{' => l.openBracket .flowMapping
    | ']' => l.closeBracket .flowSequenceEnd
    | '}' => l.closeBracket .flowMappingEnd
    | ',' => l.punctuation .comma 1 true
    | '*' => l.leaf (readName .aliasTo)
    | '&' => l.leaf (readName .anchor)
    | '!' => l.leaf (Token.readTag l.inFlow)
    | '\'' => l.quoted '\''
    | '"' => l.quoted '"'
    | _ =>
      if x == '-' && gapNext then l.opener .blockSequence .item true
      else if x == '?' && (l.inFlow || gapNext) then l.opener .blockMapping .key (!l.inFlow)
      else if x == ':' && (l.inFlow || gapNext) then l.colon
      else if x == '|' && !l.inFlow then l.blockScalar .literal
      else if x == '>' && !l.inFlow then l.blockScalar .folded
      else if l.beginsPlain x then l.plain
      else none

/-- Reads token after token to the end of the text, where all block collections close. -/
def run : Nat → Lexer → Option Lexer
  | 0, _ => none
  | fuel + 1, l => do
    let l ← (l.skipToToken (l.cursor.left + 1)).forgetPastKeys
    match l.cursor.peek? with
    | none => (l.closeBlocks fun _ => true).forgetKey
    | some x => run fuel (← (l.closeBlocks (l.cursor.column < ·)).token x)

end Lexer

/-- The tokens of a text, if it can be read. -/
def Token.lex? (text : String) : Option (Array Token) :=
  if !text.toList.all isAllowed then none
  else (Lexer.run (text.length + 1) { cursor := .start text }).map (·.tokens)

end Gamelan.Yaml
