import Gamelan.Yaml.Document
import Gamelan.Yaml.Token.Lexer

namespace Gamelan.Yaml

/-- What is still to be read, and what has been declared. -/
structure Composer where
  tokens : List Token
  /-- What the tags of each handle begin with; the first entry of a handle counts. -/
  handles : List (String × Tag) := []
  /-- The number of each anchor name. -/
  anchors : SortedMap String Nat := .empty
  anchored : List Anchored := []
  /-- How many anchored nodes have begun. -/
  started : Nat := 0
  size : Nat := 0

abbrev Compose := StateT Composer Option

namespace Compose

def peek? : Compose (Option Token) := return (← get).tokens.head?

def drop : Compose Unit := modify fun s => { s with tokens := s.tokens.tail }

/-- Passes the next token if it is the given one, and says whether it was. -/
def accept (t : Token) : Compose Bool := do
  if (← peek?) == some t then
    drop
    return true
  else return false

def expect (t : Token) : Compose Unit := do
  if !(← accept t) then failure

/-- Whether the next token is one of these. -/
def isNext (ts : List Token) : Compose Bool := return (← peek?).any (ts.contains ·)

def count (n : Nat) (node : Node) : Compose Node := do
  modify fun s => { s with size := s.size + n }
  return node

def leaf (node : Node) : Compose Node := count 1 node

def collection (node : Node) : Compose Node := count 2 node

def empty : Compose Node := leaf .empty

/-- An anchor and a tag in either order, each optional. -/
def properties : Compose (Option String × Option (String × Tag)) := do
  match ← peek? with
  | some (.anchor name) =>
    drop
    match ← peek? with
    | some (.tag handle suffix) =>
      drop
      return (some name, some (handle, suffix))
    | _ => return (some name, none)
  | some (.tag handle suffix) =>
    drop
    match ← peek? with
    | some (.anchor name) =>
      drop
      return (some name, some (handle, suffix))
    | _ => return (none, some (handle, suffix))
  | _ => return (none, none)

/-- The whole tag that a handle and a suffix write; a handle has to be declared. -/
def fullTag (handle : String) (suffix : Tag) : Compose Tag := do
  if handle.isEmpty then return suffix
  else
    match (← get).handles.lookup handle with
    | some start => return ⟨start.bytes ++ suffix.bytes⟩
    | none => failure

/-- Refers to an anchor that stands further up. -/
def aliasTo (name : String) : Compose Node := do
  match (← get).anchors.get? name with
  | some target => leaf (.aliasTo target)
  | none => failure

/-- Composes a node under an anchor. The anchor gets the count of the names in use as its number, also
if the name was in use, and it can be referred to from inside the node. -/
def anchored (name? : Option String) (compose : Compose Node) : Compose Node := do
  match name? with
  | none => compose
  | some name =>
    let s ← get
    let target := s.anchors.entries.length
    set { s with anchors := s.anchors.insert name target, started := s.started + 1 }
    let node ← compose
    modify fun t => { t with anchored := ⟨target, s.started, node⟩ :: t.anchored }
    return node

mutual

/-- A node. `inBlock` admits block collections; `dashes` admits a sequence of items that are not
indented more than the key they belong to. -/
def node : Nat → Bool → Bool → Compose Node
  | 0, _, _ => failure
  | fuel + 1, inBlock, dashes => do
    if let some (.aliasTo name) ← peek? then
      drop
      aliasTo name
    else
      let (name?, shortTag?) ← properties
      let tag? ← shortTag?.mapM fun (handle, suffix) => fullTag handle suffix
      anchored name? (content fuel inBlock dashes (name?.isSome || tag?.isSome) tag?)

/-- A node after its anchor and its tag. -/
def content : Nat → Bool → Bool → Bool → Option Tag → Compose Node
  | 0, _, _, _, _ => failure
  | fuel + 1, inBlock, dashes, marked, tag? => do
    match ← peek? with
    | some (.scalar style text) =>
      drop
      leaf (.scalar tag? style text)
    | some .flowSequence =>
      drop
      collection (.seq tag? (← flowItems fuel true))
    | some .flowMapping =>
      drop
      collection (.map tag? (← flowEntries fuel true))
    | t? =>
      if t? == some .item && dashes then collection (.seq tag? (← dashedItems fuel))
      else if t? == some .blockSequence && inBlock then
        drop
        collection (.seq tag? (← blockItems fuel))
      else if t? == some .blockMapping && inBlock then
        drop
        collection (.map tag? (← blockEntries fuel))
      else if marked then leaf (.scalar tag? .plain "")
      else failure

/-- A node, or an empty one in front of a token that ends its place. -/
def optional : Nat → Bool → Bool → List Token → Compose Node
  | 0, _, _, _ => failure
  | fuel + 1, inBlock, dashes, ends => do
    if ← isNext ends then empty else node fuel inBlock dashes

def blockItems : Nat → Compose (List Node)
  | 0 => failure
  | fuel + 1 => do
    if ← accept .item then
      let first ← optional fuel true false [.item, .blockEnd]
      return first :: (← blockItems fuel)
    else
      expect .blockEnd
      return []

/-- The items of a sequence that stands under a key without indentation. -/
def dashedItems : Nat → Compose (List Node)
  | 0 => failure
  | fuel + 1 => do
    if ← accept .item then
      let first ← optional fuel true false [.item, .key, .value, .blockEnd]
      return first :: (← dashedItems fuel)
    else return []

def blockEntries : Nat → Compose (List (Node × Node))
  | 0 => failure
  | fuel + 1 => do
    if ← accept .key then
      let key ← optional fuel true true [.key, .value, .blockEnd]
      let value ← if ← accept .value then optional fuel true true [.key, .value, .blockEnd] else empty
      return (key, value) :: (← blockEntries fuel)
    else
      expect .blockEnd
      return []

/-- The items up to the closing bracket. A key among them is a mapping of one entry. -/
def flowItems : Nat → Bool → Compose (List Node)
  | 0, _ => failure
  | fuel + 1, first => do
    if ← accept .flowSequenceEnd then return []
    else
      if !first then expect .comma
      if ← accept .flowSequenceEnd then return []
      else
        let item ← if ← accept .key then singlePair fuel else node fuel false false
        return item :: (← flowItems fuel false)

/-- A mapping of one entry inside a sequence. In front of an empty key a token is passed over. -/
def singlePair : Nat → Compose Node
  | 0 => failure
  | fuel + 1 => do
    let key ←
      if ← isNext [.value, .comma, .flowSequenceEnd] then
        drop
        empty
      else node fuel false false
    let value ← if ← accept .value then optional fuel false false [.comma, .flowSequenceEnd] else empty
    collection (.map none [(key, value)])

def flowEntries : Nat → Bool → Compose (List (Node × Node))
  | 0, _ => failure
  | fuel + 1, first => do
    if ← accept .flowMappingEnd then return []
    else
      if !first then expect .comma
      if ← accept .flowMappingEnd then return []
      else
        if ← accept .key then
          let key ← optional fuel false false [.value, .comma, .flowMappingEnd]
          let value ← if ← accept .value then optional fuel false false [.comma, .flowMappingEnd] else empty
          return (key, value) :: (← flowEntries fuel false)
        else
          let key ← node fuel false false
          let value ← empty
          return (key, value) :: (← flowEntries fuel false)

end

/-- Directives: at most one for the version, which is 1.1 or 1.2, and at most one for each handle. -/
def directives : Nat → Bool → Compose Unit
  | 0, _ => failure
  | fuel + 1, versionSeen => do
    match ← peek? with
    | some (.version major minor) =>
      if versionSeen || major != 1 || (minor != 1 && minor != 2) then failure
      drop
      directives fuel true
    | some (.tagHandle handle start) =>
      if ((← get).handles.lookup handle).isSome then failure
      drop
      modify fun s => { s with handles := s.handles ++ [(handle, start)] }
      directives fuel versionSeen
    | _ => return ()

def isDirective : Token → Bool
  | .version .. | .tagHandle .. => true
  | _ => false

/-- The handles that need no directive; a directive overrides them. -/
def standardHandles : List (String × Tag) := [("!", .mark), ("!!", .ofString Tag.standardStart)]

/-- The root of the only document. -/
def root (fuel : Nat) : Compose Node := do
  match ← peek? with
  | none => empty
  | some t =>
    let marked := isDirective t || t == .documentStart
    if marked then
      directives fuel false
      expect .documentStart
    modify fun s => { s with handles := s.handles ++ standardHandles }
    let next? ← peek?
    if marked && next?.all (fun t => isDirective t || t == .documentStart || t == .documentEnd) then empty
    else node fuel true false

def closingMarks : Nat → Compose Unit
  | 0 => return ()
  | fuel + 1 => do
    if ← accept .documentEnd then closingMarks fuel

end Compose

/-- Reads a text that holds one document, or none, which counts as an empty one. -/
def Document.parse? (text : String) : Option Document := do
  let tokens ← Token.lex? text
  let fuel := 4 * tokens.size + 8
  let compose : Compose Node := do
    let root ← Compose.root fuel
    Compose.closingMarks fuel
    return root
  let (root, s) ← compose.run { tokens := tokens.toList }
  if s.tokens.isEmpty then return { root, anchored := s.anchored, size := s.size } else none

end Gamelan.Yaml
