import Gamelan.Yaml.Document.Compose
import Gamelan.Yaml.Number

namespace Gamelan.Yaml

/-- A reader in a document that counts the aliases followed so far. -/
abbrev Decode := ReaderT Document (StateT Nat Option)

namespace Decode

/-- The node itself, or the one that an alias refers to. -/
def follow (n : Node) : Decode Node := do
  match n with
  | .aliasTo target =>
    let d ← read
    let jumps := (← get) + 1
    if 100 * d.size < jumps then failure
    else
      set jumps
      match d.target? target with
      | some node => return node
      | none => failure
  | n => return n

/-- Any scalar, as it is written. -/
def text (n : Node) : Decode String := do
  match ← follow n with
  | .scalar _ _ text => return text
  | _ => failure

/-- The text of a scalar that may be a number: an unquoted one, or a literal one with the tag. -/
def numeral (tag : Tag) (n : Node) : Decode String := do
  match ← follow n with
  | .scalar _ .plain text => return text
  | .scalar tag? .literal text => if tag? == some tag then return text else failure
  | _ => failure

/-- A whole number from zero up to `limit`, which takes at most 64 bits. -/
def natural (limit : Nat) (n : Node) : Decode Nat := do
  match natural? (← numeral .int n) with
  | some k => if k ≤ limit then return k else failure
  | none => failure

/-- A whole number of 32 bits with a sign. -/
def int32 (n : Node) : Decode Int32 := do
  match whole? (← numeral .int n) with
  | some k => if Int32.minValue.toInt ≤ k ∧ k ≤ Int32.maxValue.toInt then return Int32.ofInt k else failure
  | none => failure

def float (n : Node) : Decode Float := do
  match number? (← numeral .float n) with
  | some x => return x
  | none => failure

/-- Nothing, written as an empty or null scalar, or a value. -/
def optional {α : Type} (f : Node → Decode α) (n : Node) : Decode (Option α) := do
  let n ← follow n
  match n with
  | .scalar none .plain text =>
    if text.isEmpty || isNullWord text then return none else some <$> f n
  | .scalar (some tag) .plain text =>
    if tag != .null then some <$> f n
    else if isNullWord text then return none
    else failure
  | _ => some <$> f n

/-- Where a collection is expected, nothing at all counts as an empty one. -/
def isAbsent : Node → Bool
  | .scalar _ .plain text => text.isEmpty
  | _ => false

def list {α : Type} (f : Node → Decode α) (n : Node) : Decode (List α) := do
  match ← follow n with
  | .seq _ items => items.mapM f
  | n => if isAbsent n then return [] else failure

def entries (n : Node) : Decode (List (Node × Node)) := do
  match ← follow n with
  | .map _ entries => return entries
  | n => if isAbsent n then return [] else failure

/-- A mapping in which the last value of a key counts. -/
def table {κ α : Type} [Ord κ] [Std.TransOrd κ] [Std.LawfulEqOrd κ] (key : Node → Decode κ)
    (value : Node → Decode α) (n : Node) : Decode (SortedMap κ α) := do
  let entries ← (← entries n).mapM fun (k, v) => return (← key k, ← value v)
  return .ofList entries

/-- The entries of a mapping with fixed field names. A field may stand once; others are ignored. -/
def fields (names : List String) (n : Node) : Decode (List (String × Node)) := do
  let all ← (← entries n).mapM fun (k, v) => return (← text k, v)
  let known := all.filter fun (name, _) => names.contains name
  if (known.map (·.1)).eraseDups.length < known.length then failure
  return known

def field {α : Type} (fields : List (String × Node)) (name : String) (f : Node → Decode α) : Decode α :=
  match fields.lookup name with
  | some n => f n
  | none => failure

def fieldD {α : Type} (fields : List (String × Node)) (name : String) (f : Node → Decode α)
    (default : α) : Decode α :=
  match fields.lookup name with
  | some n => f n
  | none => return default

end Decode

/-- Reads a value from a text that holds one document. -/
def decode? {α : Type} (f : Node → Decode α) (text : String) : Option α := do
  let d ← Document.parse? text
  let (x, _) ← ((f d.root).run d).run 0
  return x

end Gamelan.Yaml
