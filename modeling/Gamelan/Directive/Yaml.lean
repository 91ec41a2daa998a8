import Gamelan.Directive
import Gamelan.Yaml.Value

namespace Gamelan.Directive

open Yaml

/-- What a directive says besides its kind. -/
inductive Content where
  | named (entries : List (Value × Value))
  | listed (values : List Value)

/-- Which of the named fields a key means: the one with this name or this place, or none. A key that is
neither text nor a natural number is refused. -/
def place? (names : List String) : Value → Option (Option Nat)
  | .text s => some (names.idxOf? s)
  | .nat n => some (if n < names.length then some n else none)
  | _ => none

/-- The value of each of the named fields. A field may stand once, and a list may not be longer than
the list of the names. -/
def Content.slots (names : List String) : Content → Option (List (Option Value))
  | .listed values =>
    if names.length < values.length then none
    else some (values.map some ++ List.replicate (names.length - values.length) none)
  | .named entries =>
    entries.foldlM (fun slots (key, value) => do
      match ← place? names key with
      | none => return slots
      | some i => if (slots[i]?).join.isSome then none else return slots.set i (some value))
      (List.replicate names.length none)

def required {α : Type} (f : Value → Option α) (slot : Option Value) : Option α := slot.bind f

def default {α : Type} (value : α) (f : Value → Option α) (slot : Option Value) : Option α :=
  slot.elim (some value) f

def passList : Value → Option (List UInt32) := Value.list Value.uint32

/-- The extent of a change, from the four fields that describe it. -/
def extent (firstBeat beatCount passes iterations : Option Value) : Option Extent := do
  return {
    firstBeat := ← default 1 Value.size firstBeat
    beatCount := ← default 0 Value.int32 beatCount
    passes := ← default [] passList passes
    iterations := ← default [] passList iterations }

def extentNames : List String := ["first_beat", "beat_count", "passes", "iterations"]

/-- The names of the fields of each kind of directive, in order. -/
def fieldNames? : String → Option (List String)
  | "label" => some ["name", "beat"]
  | "goto" => some ["label", "from_beat", "passes", "cycle"]
  | "loop" => some ["count"]
  | "sequence" => some ["labels"]
  | "tempo" => some ("value" :: extentNames)
  | "dynamics" => some ("abbreviation" :: extentNames ++ ["positions"])
  | _ => none

/-- The directive of a kind with the values of its fields. -/
def ofSlots? : String → List (Option Value) → Option Directive
  | "label", [name, beat] =>
    return .label (← required Value.string name) (← default 1 Value.size beat)
  | "goto", [target, fromBeat, passes, cycle] =>
    return .goto (← required Value.string target) (← default none (Value.optional Value.size) fromBeat)
      (← default [] passList passes) (← default none (Value.optional Value.uint32) cycle)
  | "loop", [count] =>
    return .loop (← required Value.uint32 count)
  | "sequence", [labels] =>
    return .sequence (← required (Value.list Value.string) labels)
  | "tempo", [value, first, count, passes, iterations] =>
    return .tempo (← required Value.int32 value) (← extent first count passes iterations)
  | "dynamics", [mark, first, count, passes, iterations, positions] =>
    return .dynamics (← required Value.string mark) (← extent first count passes iterations)
      (← default [] (Value.list Value.string) positions)
  | _, _ => none

def ofContent? (kind : String) (c : Content) : Option Directive := do
  ofSlots? kind (← c.slots (← fieldNames? kind))

/-- Splits the entry of the kind off, which has to stand once, at any place. -/
def splitKind (depth : Nat) (entries : List (Node × Node)) : Decode (String × Content) := do
  let (kinds, rest) ← entries.foldrM (fun (k, v) (kinds, rest) => do
    match ← Value.decode depth k with
    | .text "type" => return ((← Decode.text v) :: kinds, rest)
    | key => return (kinds, (key, ← Value.decode depth v) :: rest)) ([], [])
  match kinds with
  | [kind] => return (kind, .named rest)
  | _ => failure

/-- Reads a directive in which `depth` collections may stand inside one another. -/
def decode (depth : Nat) (n : Node) : Decode Directive := do
  let (tag?, kind, content) ← match ← Decode.follow n with
    | .map tag? entries => pure (tag?, ← splitKind depth entries)
    | .seq tag? (kind :: values) =>
      pure (tag?, ← Decode.text kind, Content.listed (← values.mapM (Value.decode depth)))
    | _ => failure
  if tag?.any (·.isNamed) then failure
  match ofContent? kind content with
  | some d => return d
  | none => failure

end Gamelan.Directive
