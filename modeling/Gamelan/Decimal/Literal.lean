namespace Gamelan.Decimal

/-- A number as it is written: `mantissa · 10 ^ exponent`, negated or not. The sign of zero counts. -/
structure Literal where
  negative : Bool
  mantissa : Nat
  exponent : Int
  deriving DecidableEq, Repr

def digitsValue (digits : List Char) : Nat :=
  digits.foldl (fun n c => 10 * n + (c.toNat - '0'.toNat)) 0

/-- Splits a sign off; a plus sign says nothing. -/
def splitSign : List Char → Bool × List Char
  | '-' :: rest => (true, rest)
  | '+' :: rest => (false, rest)
  | cs => (false, cs)

/-- The exponent after the mantissa: nothing, or an `e` and a whole number. -/
def exponent? : List Char → Option Int
  | [] => some 0
  | c :: rest =>
    let (negative, digits) := splitSign rest
    if (c == 'e' || c == 'E') && !digits.isEmpty && digits.all Char.isDigit then
      let n : Int := digitsValue digits
      some (if negative then -n else n)
    else none

/-- Reads a literal; at least one digit has to stand before or after the point. -/
def Literal.parse? (cs : List Char) : Option Literal := do
  let (negative, cs) := splitSign cs
  let whole := cs.takeWhile Char.isDigit
  let rest := cs.dropWhile Char.isDigit
  let fraction := if rest.head? == some '.' then rest.tail.takeWhile Char.isDigit else []
  let rest := if rest.head? == some '.' then rest.tail.dropWhile Char.isDigit else rest
  if whole.isEmpty && fraction.isEmpty then none
  let exponent ← exponent? rest
  return ⟨negative, digitsValue (whole ++ fraction), exponent - fraction.length⟩

/-- The double nearest to the number, infinite if there is none. A number beyond `10 ^ 400` or below
`10 ^ -400` is far outside the range of doubles, so its digits need not be looked at. -/
def Literal.toFloat (l : Literal) : Float :=
  let size : Int := (Nat.toDigits 10 l.mantissa).length + l.exponent
  let magnitude : Float :=
    if l.mantissa == 0 || size < -400 then 0
    else if 400 < size then 1 / 0
    else Float.ofScientific l.mantissa (l.exponent < 0) l.exponent.natAbs
  if l.negative then -magnitude else magnitude

end Gamelan.Decimal
