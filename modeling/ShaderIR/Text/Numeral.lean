/-!
# Numerals

Integers of 64 bits written in decimal, with an optional sign, or in hexadecimal
after `0x`, byte strings written with two hexadecimal digits a byte, and integers of 64
bits written in any base that their front tells.
-/

namespace ShaderIR.Text

/-- The value of a hexadecimal digit. -/
def digit? (char : Char) : Option Nat :=
  if '0' ≤ char ∧ char ≤ '9' then some (char.toNat - 48)
  else if 'a' ≤ char ∧ char ≤ 'f' then some (char.toNat - 87)
  else if 'A' ≤ char ∧ char ≤ 'F' then some (char.toNat - 55)
  else none

/-- The value of digits of a base, continuing from a number. -/
def digitsFrom? (base : Nat) : Nat → List Char → Option Nat
  | total, [] => some total
  | total, char :: rest => do
    let digit ← digit? char
    if digit < base then digitsFrom? base (total * base + digit) rest else none

/-- The value of at least one digit of a base. -/
def digits? (base : Nat) : List Char → Option Nat
  | [] => none
  | chars => digitsFrom? base 0 chars

/-- Bytes from pairs of hexadecimal digits. -/
def bytes? : List Char → Option (List UInt8)
  | [] => some []
  | high :: low :: rest => do
    let byte := (← digit? high) * 16 + (← digit? low)
    return UInt8.ofNat byte :: (← bytes? rest)
  | _ => none

/-- The number of words of 63 bits, the bound of signed words. -/
def signedBound : Int := 0x8000000000000000

/-- The number of words of 64 bits. -/
def wordBound : Nat := 0x10000000000000000

/-- Whether an integer fits into 64 bits, with a sign or without. -/
def fitsWord (number : Int) : Bool := -signedBound ≤ number && number < wordBound

/--
An integer of 64 bits: hexadecimal after `0x`, else decimal.  With a sign it has to
fit into a signed word, without one also into an unsigned word.
-/
def integer? (chars : List Char) : Option Int :=
  let below (bound : Int) (number : Option Nat) : Option Int :=
    number.bind fun number => if (number : Int) < bound then some number else none
  match chars with
  | '0' :: 'x' :: rest => below wordBound (digits? 16 rest)
  | '-' :: rest => (below (signedBound + 1) (digits? 10 rest)).map (- ·)
  | '+' :: rest => below signedBound (digits? 10 rest)
  | chars => below wordBound (digits? 10 chars)

/-- Why a text is no integer of 64 bits. -/
inductive NumeralError where
  | malformed
  | range
  deriving DecidableEq, Repr

/-- The text of a numeral error. -/
def NumeralError.message : NumeralError → String
  | malformed => "invalid syntax"
  | range => "value out of range"

/-- The value of an ASCII letter or digit as a digit. -/
def alphanumeric? (char : Char) : Option Nat :=
  if char.isDigit then some (char.toNat - 48)
  else if char.isAlpha then some (char.toLower.toNat - 87)
  else none

/-- The value of digits of a base, continuing from a number; underscores are passed over. -/
def wordFrom (base : Nat) : Nat → List Char → Except NumeralError Nat
  | total, [] => .ok total
  | total, '_' :: rest => wordFrom base total rest
  | total, char :: rest =>
    match alphanumeric? char with
    | none => .error .malformed
    | some digit =>
      if base ≤ digit then .error .malformed
      else if wordBound ≤ total * base + digit then .error .range
      else wordFrom base (total * base + digit) rest

/-- Every underscore has to stand between digits, of which a base counts as one. -/
def separatorsFit (isDigit : Char → Bool) : Bool → List Char → Bool
  | _, [] => true
  | follows, '_' :: rest =>
    follows && (rest.head?.any isDigit) && separatorsFit isDigit false rest
  | _, char :: rest => separatorsFit isDigit (isDigit char) rest

/-- A magnitude of at most 64 bits: its base is told by `0b`, `0o`, `0x` or a leading zero. -/
def magnitude : List Char → Except NumeralError Nat
  | [] => .error .malformed
  | '0' :: letter :: digit :: rest =>
    let based (base : Nat) : Except NumeralError Nat := do
      let total ← wordFrom base 0 (digit :: rest)
      let isDigit (char : Char) := char.isDigit || (base == 16 && (digit? char).isSome)
      if separatorsFit isDigit true (digit :: rest) then .ok total else .error .malformed
    match letter.toLower with
    | 'b' => based 2
    | 'o' => based 8
    | 'x' => based 16
    | _ => plain 8 ('0' :: letter :: digit :: rest) (letter :: digit :: rest)
  | '0' :: rest => plain 8 ('0' :: rest) rest
  | chars => plain 10 chars chars
where
  /-- Digits of a base without a mark of their own. -/
  plain (base : Nat) (whole digits : List Char) : Except NumeralError Nat := do
    let total ← wordFrom base 0 digits
    if separatorsFit Char.isDigit false whole then .ok total else .error .malformed

/-- A signed integer of 64 bits in any base. -/
def signedWord (text : String) : Except NumeralError Int := do
  let fit (number : Int) : Except NumeralError Int :=
    if -signedBound ≤ number ∧ number < signedBound then .ok number else .error .range
  match text.toList with
  | '-' :: rest => fit (-(← magnitude rest : Nat))
  | '+' :: rest => fit (← magnitude rest : Nat)
  | chars => fit (← magnitude chars : Nat)

end ShaderIR.Text
