import ShaderIR.Text.Shortest

/-!
# Floating point rules

Operations on double precision numbers whose rule is not built in: the exact
remainder, the least and greatest of two numbers, three-way comparison and
conversion to integers.
-/

namespace ShaderIR.Machine

/-- The sign bit of a number. -/
def isNegative (number : Float) : Bool := number.toBits >>> 63 == 1

/-- The magnitude of a finite number as `mantissa * 2 ^ exponent`. -/
def magnitude (number : Float) : Text.Binary :=
  let bits := number.toBits.toNat
  .ofFields 52 1023 (bits / Nat.pow 2 52 % Nat.pow 2 11) (bits % Nat.pow 2 52)

/-- The number `mantissa * 2 ^ exponent`, which has to be representable. -/
def ofMagnitude (mantissa : Nat) (exponent : Int) : Float :=
  let length := mantissa.log2 + 1
  let shift : Int := max (-1074 - exponent) ((length : Int) - 53)
  if mantissa = 0 then 0
  else
    let scaled :=
      if 0 ≤ shift then mantissa / Nat.pow 2 shift.toNat
      else mantissa * Nat.pow 2 (-shift).toNat
    let power := exponent + shift
    if scaled < Nat.pow 2 52 then Float.ofBits (UInt64.ofNat scaled)
    else
      Float.ofBits (UInt64.ofNat ((power + 1075).toNat * Nat.pow 2 52 +
        (scaled - Nat.pow 2 52)))

/--
The remainder of a division with truncated quotient, with the sign of the
dividend.  It is exact; there is none for an infinite dividend or a zero divisor.
-/
def remainder (dividend divisor : Float) : Float :=
  if dividend.isNaN || divisor.isNaN || dividend.isInf || divisor == 0 then 0.0 / 0.0
  else if divisor.isInf || dividend == 0 then dividend
  else
    let left := magnitude dividend
    let right := magnitude divisor
    let exponent := min left.exponent right.exponent
    let leftScaled := left.mantissa * Nat.pow 2 (left.exponent - exponent).toNat
    let rightScaled := right.mantissa * Nat.pow 2 (right.exponent - exponent).toNat
    let result := ofMagnitude (leftScaled % rightScaled) exponent
    if isNegative dividend then -result else result

/-- The smaller number; negative infinity wins over everything, then no number, then -0 over 0. -/
def least (left right : Float) : Float :=
  if (left.isInf && isNegative left) || (right.isInf && isNegative right) then -1.0 / 0.0
  else if left.isNaN || right.isNaN then 0.0 / 0.0
  else if left == 0 && left == right then if isNegative left then left else right
  else if left < right then left else right

/-- The greater number; positive infinity wins over everything, then no number, then 0 over -0. -/
def greatest (left right : Float) : Float :=
  if (left.isInf && !isNegative left) || (right.isInf && !isNegative right) then 1.0 / 0.0
  else if left.isNaN || right.isNaN then 0.0 / 0.0
  else if left == 0 && left == right then if isNegative left then right else left
  else if left > right then left else right

/-- Three-way comparison; numbers that are neither smaller nor greater count as equal. -/
def compareFloats (left right : Float) : Ordering :=
  if left < right then .lt else if left > right then .gt else .eq

/-- Round to single precision. -/
def toSingle (number : Float) : Float := number.toFloat32.toFloat

/-- The integer toward zero as a signed word; the least word for numbers outside its range. -/
def truncate (number : Float) : Int64 :=
  if number >= -9223372036854775808.0 && number < 9223372036854775808.0 then number.toInt64
  else Int64.minValue

/-- The integer toward zero as an unsigned word, negative numbers in two's complement. -/
def truncateUnsigned (number : Float) : UInt64 :=
  if number < 9223372036854775808.0 then (truncate number).toUInt64
  else (truncate (number - 9223372036854775808.0)).toUInt64 ^^^ 9223372036854775808

end ShaderIR.Machine
