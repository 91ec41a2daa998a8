namespace Gamelan.Decimal

/-- A positive finite double as `mantissa · 2 ^ exponent`. `narrow` says that the double below is
only half as far away as the one above. -/
structure Binary where
  mantissa : Nat
  exponent : Int
  narrow : Bool

/-- The magnitude of a finite double that is not zero, from its bits. -/
def Binary.ofBits (bits : UInt64) : Binary :=
  let fraction : Nat := bits.toNat % Nat.pow 2 52
  let biased : Nat := bits.toNat / Nat.pow 2 52 % Nat.pow 2 11
  if biased == 0 then ⟨fraction, -1074, false⟩
  else ⟨Nat.pow 2 52 + fraction, biased - 1075, fraction == 0 && 1 < biased⟩

/-- Digits `d₁ d₂ …` that stand for `0.d₁d₂… · 10 ^ point`. -/
structure Digits where
  digits : List Char
  point : Int

/-- A fraction of natural numbers together with the fractions that round to it, all over the same
denominator. -/
structure Interval where
  low : Nat
  value : Nat
  high : Nat
  denominator : Nat
  /-- The ends of the interval round to the value too. -/
  closed : Bool

def Binary.interval (b : Binary) : Interval :=
  let scale := Nat.pow 2 (b.exponent - 2).toNat
  { low := (4 * b.mantissa - if b.narrow then 1 else 2) * scale
    value := 4 * b.mantissa * scale
    high := (4 * b.mantissa + 2) * scale
    denominator := Nat.pow 2 (2 - b.exponent).toNat
    closed := b.mantissa % 2 == 0 }

/-- The least power of ten above the value, by counting the digits of its multiple by `10 ^ 400`. -/
def Interval.point (i : Interval) : Int :=
  (Nat.toDigits 10 (i.value * Nat.pow 10 400 / i.denominator)).length - 400

/-- The multiple of `10 ^ unit` inside the interval that is nearest to the value, as a multiplier. -/
def Interval.multiple? (i : Interval) (unit : Int) : Option Nat :=
  let up := Nat.pow 10 unit.toNat
  let down := Nat.pow 10 (-unit).toNat
  let step := i.denominator * up
  let value := i.value * down
  let below := value / step
  let within (n : Nat) : Bool :=
    let x := n * step
    if i.closed then i.low * down ≤ x && x ≤ i.high * down else i.low * down < x && x < i.high * down
  match within below, within (below + 1) with
  | true, true => if value - below * step < (below + 1) * step - value then some below else some (below + 1)
  | true, false => some below
  | false, true => some (below + 1)
  | false, false => none

/-- Tries one digit after the other; seventeen always suffice. -/
def Interval.shortestFrom (i : Interval) (point : Int) : Nat → Nat → Digits
  | 0, _ => ⟨['0'], 0⟩
  | fuel + 1, count =>
    match i.multiple? (point - count) with
    | some n =>
      let digits := Nat.toDigits 10 n
      ⟨digits, point - count + digits.length⟩
    | none => i.shortestFrom point fuel (count + 1)

def Binary.shortest (b : Binary) : Digits := b.interval.shortestFrom b.interval.point 17 1

/-- Writes digits without an exponent, with zeros up to or after the point as needed. -/
def Digits.positional (d : Digits) : String :=
  let digits := ((d.digits.reverse.dropWhile (· == '0')).reverse)
  let zeros (n : Int) := List.replicate n.toNat '0'
  if d.point ≤ 0 then String.ofList (['0', '.'] ++ zeros (-d.point) ++ digits)
  else
    let whole := digits.take d.point.toNat
    let fraction := digits.drop d.point.toNat
    String.ofList (whole ++ zeros (d.point - digits.length) ++
      if fraction.isEmpty then [] else '.' :: fraction)

/-- The text of a double: the shortest digits, never an exponent, and no point after a whole number. -/
def text (x : Float) : String :=
  if x.isNaN then "NaN"
  else
    let sign := if x.toBits < 0x8000000000000000 then "" else "-"
    let magnitude :=
      if x == 0 then "0"
      else if x.isInf then "inf"
      else (Binary.ofBits x.toBits).shortest.positional
    sign ++ magnitude

end Gamelan.Decimal
