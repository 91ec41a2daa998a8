import Gamelan.Yaml.Decode

namespace Gamelan.Yaml

/-- A value whose type is not known beforehand. An unquoted scalar is nothing, a truth value or a number if it looks like
one; every other scalar is text. -/
inductive Value where
  | null
  | bool (b : Bool)
  | nat (n : Nat)
  /-- A whole number written with a minus sign. -/
  | int (n : Int)
  | float (x : Float)
  | text (s : String)
  | seq (items : List Value)
  | map (entries : List (Value × Value))
  deriving Inhabited

namespace Value

/-- The whole number that a text writes: `some none` is one that takes more than 64 bits, and `none`
is a text that writes no whole number of up to 128 bits. -/
def whole? (s : String) : Option (Option Value) :=
  match natural? s, negative? s with
  | some n, _ =>
    if n < UInt64.size then some (some (.nat n))
    else if n < UInt64.size * UInt64.size then some none
    else none
  | none, some n =>
    if n.natAbs ≤ UInt64.size / 2 then some (some (.int n))
    else if n.natAbs ≤ UInt64.size / 2 * UInt64.size then some none
    else none
  | none, none => none

/-- What an unquoted scalar stands for. A whole number that takes more than 64 bits is refused. -/
def ofPlain (s : String) : Option Value :=
  if s.isEmpty || isNullWord s then some .null
  else
    match truthValue? s, whole? s with
    | some b, _ => some (.bool b)
    | none, some value? => value?
    | none, none =>
      if isZeroPadded s.toList then some (.text s)
      else
        match number? s with
        | some x => some (.float x)
        | none => some (.text s)

/-- What a scalar without a tag stands for. -/
def ofUntagged (style : ScalarStyle) (s : String) : Option Value :=
  if style == .plain then ofPlain s else some (.text s)

/-- A standard tag decides what a scalar has to be. A local tag is refused, or passed over if its name
is no text. Any other tag makes a scalar text. -/
def ofScalar (tag? : Option Tag) (style : ScalarStyle) (s : String) : Option Value :=
  match tag? with
  | none => ofUntagged style s
  | some tag =>
    if tag.isNamed then none
    else if tag.isLocal then ofUntagged style s
    else if tag == .bool then (truthValue? s).map .bool
    else if tag == .int then (whole? s).join
    else if tag == .float then (number? s).map .float
    else if tag == .null then if isNullWord s then some .null else none
    else some (.text s)

/-- Reads a value with at most `depth` collections inside one another. -/
def decode : Nat → Node → Decode Value
  | depth, n => do
    match ← Decode.follow n, depth with
    | .scalar tag? style s, _ =>
      match ofScalar tag? style s with
      | some v => return v
      | none => failure
    | .seq tag? items, depth + 1 =>
      if tag?.any (·.isNamed) then failure
      return .seq (← items.mapM (decode depth))
    | .map tag? entries, depth + 1 =>
      if tag?.any (·.isNamed) then failure
      return .map (← entries.mapM fun (k, v) => return (← decode depth k, ← decode depth v))
    | _, _ => failure

/-- A whole number from zero up to `limit`. -/
def natural (limit : Nat) : Value → Option Nat
  | .nat n => if n ≤ limit then some n else none
  | .int n => if 0 ≤ n ∧ n ≤ limit then some n.toNat else none
  | _ => none

def uint32 (v : Value) : Option UInt32 := (v.natural (UInt32.size - 1)).map UInt32.ofNat

/-- A whole number of 64 bits without a sign. -/
def size (v : Value) : Option Nat := v.natural (UInt64.size - 1)

def int32 (v : Value) : Option Int32 :=
  let inRange (n : Int) : Option Int32 :=
    if Int32.minValue.toInt ≤ n ∧ n ≤ Int32.maxValue.toInt then some (Int32.ofInt n) else none
  match v with
  | .nat n => inRange n
  | .int n => inRange n
  | _ => none

def string : Value → Option String
  | .text s => some s
  | _ => none

def optional {α : Type} (f : Value → Option α) : Value → Option (Option α)
  | .null => some none
  | v => (f v).map some

def list {α : Type} (f : Value → Option α) : Value → Option (List α)
  | .seq items => items.mapM f
  | _ => none

end Value

end Gamelan.Yaml
