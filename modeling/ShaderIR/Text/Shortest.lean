/-!
# Shortest decimal text of floating point numbers

A positive floating point number stands for the interval of reals that round
to it.  Its shortest decimal is the one with the fewest digits inside that
interval, and among those the nearest to the number; an exact tie goes to the
even last digit.  All arithmetic is exact, on natural numbers.
-/

namespace ShaderIR.Text

/--
A positive number `mantissa * 2 ^ exponent`.  It is narrow when the next smaller
floating point number is only half as far away as the next larger one.
-/
structure Binary where
  mantissa : Nat
  exponent : Int
  narrow : Bool
  deriving DecidableEq, Repr

/-- The number behind the exponent and fraction fields of a binary format. -/
def Binary.ofFields (fractionBits bias exponentField fraction : Nat) : Binary :=
  if exponentField = 0 then
    ⟨fraction, 1 - (bias : Int) - fractionBits, false⟩
  else
    ⟨Nat.pow 2 fractionBits + fraction, (exponentField : Int) - bias - fractionBits,
      fraction = 0 && 1 < exponentField⟩

/-- Decimal digits, first digit first, and the place of the point before them. -/
structure Decimal where
  digits : List Char
  point : Int
  deriving DecidableEq, Repr

/-- The number of decimal digits of a natural number. -/
def digitCount (number : Nat) : Nat := (Nat.toDigits 10 number).length

/-- The exponent of the leading decimal digit of a positive fraction. -/
def leadingExponent (numerator denominator : Nat) : Int :=
  if denominator ≤ numerator then (digitCount (numerator / denominator) : Int) - 1
  else
    let digits := digitCount (denominator / numerator)
    if denominator ≤ numerator * Nat.pow 10 (digits - 1) then -((digits : Int) - 1)
    else -(digits : Int)

/-- The rounding interval of a number over a common denominator. -/
structure Interval where
  low : Nat
  value : Nat
  high : Nat
  denominator : Nat
  closed : Bool

/-- The reals that round to a number; the ends belong to it when its mantissa is even. -/
def Binary.interval (number : Binary) : Interval :=
  let middle := 4 * number.mantissa
  let scale := Nat.pow 2 (number.exponent - 2).toNat
  { low := (if number.narrow then middle - 1 else middle - 2) * scale
    value := middle * scale
    high := (middle + 2) * scale
    denominator := Nat.pow 2 (2 - number.exponent).toNat
    closed := number.mantissa % 2 = 0 }

/-- Whether a fraction over the denominator of the interval, scaled alike, lies inside. -/
def Interval.holds (interval : Interval) (scale fraction : Nat) : Bool :=
  if interval.closed then
    interval.low * scale ≤ fraction && fraction ≤ interval.high * scale
  else
    interval.low * scale < fraction && fraction < interval.high * scale

/-- The multiple of a power of ten nearest to the value among those in the interval. -/
def Interval.onGrid? (interval : Interval) (power : Int) : Option Nat :=
  let scale := Nat.pow 10 (-power).toNat
  let unit := interval.denominator * Nat.pow 10 power.toNat
  let value := interval.value * scale
  let below := value / unit
  let above := below + 1
  match interval.holds scale (below * unit), interval.holds scale (above * unit) with
  | false, false => none
  | true, false => some below
  | false, true => some above
  | true, true =>
    let distanceBelow := value - below * unit
    let distanceAbove := above * unit - value
    if distanceBelow < distanceAbove then some below
    else if distanceAbove < distanceBelow then some above
    else if below % 2 = 0 then some below else some above

/-- The first grid, from coarse to fine, with a point in the interval. -/
def Interval.search (interval : Interval) : Nat → Int → Nat × Int
  | 0, power => (interval.value / interval.denominator, power)
  | grids + 1, power =>
    match interval.onGrid? power with
    | some point => (point, power)
    | none => interval.search grids (power - 1)

/-- The digits of a positive number, without trailing zeros. -/
def dropTrailingZeros (digits : List Char) : List Char :=
  (digits.reverse.dropWhile (· == '0')).reverse

/-- The shortest decimal of a positive number. -/
def Binary.shortest (number : Binary) : Decimal :=
  let interval := number.interval
  let leading := leadingExponent interval.value interval.denominator
  let (point, power) := interval.search 20 leading
  let digits := Nat.toDigits 10 point
  ⟨dropTrailingZeros digits, digits.length + power⟩

/-- How a decimal is written. -/
structure FloatStyle where
  /-- The least exponent of the leading digit that is written positionally. -/
  least : Int
  /-- The least exponent above that is written with an exponent again. -/
  limit : Int
  /-- The least number of exponent digits. -/
  exponentDigits : Nat
  deriving DecidableEq, Repr

/-- Numbers from 0.0001 up to below a million are written positionally. -/
def FloatStyle.general : FloatStyle := ⟨-4, 6, 2⟩

/-- A number of zeros. -/
def zeros (count : Int) : List Char := List.replicate count.toNat '0'

/-- The text of a decimal in positional form. -/
def Decimal.positional (decimal : Decimal) : List Char :=
  if decimal.point ≤ 0 then
    '0' :: '.' :: (zeros (-decimal.point) ++ decimal.digits)
  else if (decimal.digits.length : Int) ≤ decimal.point then
    decimal.digits ++ zeros (decimal.point - decimal.digits.length)
  else
    decimal.digits.take decimal.point.toNat ++
      '.' :: decimal.digits.drop decimal.point.toNat

/-- The text of a decimal with an exponent. -/
def Decimal.scientific (style : FloatStyle) (decimal : Decimal) : List Char :=
  let exponent := decimal.point - 1
  let digits := Nat.toDigits 10 exponent.natAbs
  let padded := List.replicate (style.exponentDigits - digits.length) '0' ++ digits
  let mantissa :=
    match decimal.digits with
    | first :: second :: rest => first :: '.' :: second :: rest
    | digits => digits
  mantissa ++ 'e' :: (if exponent < 0 then '-' else '+') :: padded

/-- The text of a decimal in a style. -/
def Decimal.render (style : FloatStyle) (decimal : Decimal) : String :=
  let exponent := decimal.point - 1
  String.ofList <|
    if exponent < style.least ∨ style.limit ≤ exponent then decimal.scientific style
    else decimal.positional

/-- The text of a number given by the fields of its binary format. -/
def renderFields
    (style : FloatStyle)
    (fractionBits exponentBits bits : Nat) :
    String :=
  let fraction := bits % Nat.pow 2 fractionBits
  let exponentField := bits / Nat.pow 2 fractionBits % Nat.pow 2 exponentBits
  let negative := bits / Nat.pow 2 (fractionBits + exponentBits) % 2 = 1
  let sign := if negative then "-" else ""
  if exponentField = Nat.pow 2 exponentBits - 1 then
    if fraction ≠ 0 then "NaN" else if negative then "-Inf" else "+Inf"
  else if exponentField = 0 ∧ fraction = 0 then sign ++ "0"
  else
    let bias := Nat.pow 2 (exponentBits - 1) - 1
    sign ++ (Binary.ofFields fractionBits bias exponentField fraction).shortest.render style

/-- The shortest text of a double precision number. -/
def renderDouble (number : Float) : String :=
  renderFields .general 52 11 number.toBits.toNat

/-- The shortest text of a single precision number given by its bits. -/
def renderSingle (bits : Nat) : String :=
  renderFields .general 23 8 bits

end ShaderIR.Text
