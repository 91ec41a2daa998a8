import Gamelan.Decimal.Literal
import Gamelan.Yaml.Character

namespace Gamelan.Yaml

def isNullWord (s : String) : Bool := s == "null" || s == "Null" || s == "NULL" || s == "~"

def truthValue? (s : String) : Option Bool :=
  if s == "true" || s == "True" || s == "TRUE" then some true
  else if s == "false" || s == "False" || s == "FALSE" then some false
  else none

/-- Digits with needless zeros in front are text rather than a number. -/
def isZeroPadded (cs : List Char) : Bool :=
  let digits := match cs with
    | '-' :: rest | '+' :: rest => rest
    | _ => cs
  1 < digits.length && digits.head? == some '0' && digits.all Char.isDigit

/-- The magnitude of a whole number without its sign, in base ten or after a base mark. -/
def magnitude? : List Char → Option Nat
  | '0' :: 'x' :: digits => digitsValue? 16 digits
  | '0' :: 'o' :: digits => digitsValue? 8 digits
  | '0' :: 'b' :: digits => digitsValue? 2 digits
  | digits => if isZeroPadded digits then none else digitsValue? 10 digits

/-- A whole number that has no minus sign. -/
def natural? (s : String) : Option Nat :=
  match s.toList with
  | '+' :: rest => magnitude? rest
  | cs => magnitude? cs

/-- A whole number with a minus sign. -/
def negative? (s : String) : Option Int :=
  match s.toList with
  | '-' :: rest => (magnitude? rest).map fun n => -(n : Int)
  | _ => none

def whole? (s : String) : Option Int := ((natural? s).map Int.ofNat).or (negative? s)

/-- A finite decimal number, or one of the words for infinity and for no number. -/
def number? (s : String) : Option Float :=
  let unsigned := if s.startsWith "+" then String.ofList (s.toList.drop 1) else s
  if [".inf", ".Inf", ".INF"].contains unsigned then some (1 / 0)
  else if ["-.inf", "-.Inf", "-.INF"].contains s then some (-1 / 0)
  else if [".nan", ".NaN", ".NAN"].contains s then some (0 / 0)
  else if unsigned != s && (unsigned.startsWith "+" || unsigned.startsWith "-") then none
  else
    match Decimal.Literal.parse? unsigned.toList with
    | some literal => if literal.toFloat.isFinite then some literal.toFloat else none
    | none => none

end Gamelan.Yaml
