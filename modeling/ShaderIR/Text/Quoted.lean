import ShaderIR.Text.Printable

/-!
# Quoted text

Text between double quotes.  Quotes and backslashes are escaped by a backslash,
the seven named controls by their letter, other controls by two hexadecimal
digits and all other unprintable characters by four or eight.
-/

namespace ShaderIR.Text

/-- A hexadecimal digit. -/
def hexDigit (digit : Nat) : Char :=
  if digit < 10 then Char.ofNat (48 + digit) else Char.ofNat (87 + digit)

/-- The given number of hexadecimal digits of a number. -/
def hexDigits (count number : Nat) : String :=
  String.ofList <| (List.range count).reverse.map fun place =>
    hexDigit (number / Nat.pow 16 place % 16)

/-- A character as it is written inside quotes. -/
def escape (char : Char) : String :=
  if char = '"' ∨ char = '\\' then "\\" ++ char.toString
  else if isPrintable char then char.toString
  else
    match char.toNat with
    | 7 => "\\a"
    | 8 => "\\b"
    | 9 => "\\t"
    | 10 => "\\n"
    | 11 => "\\v"
    | 12 => "\\f"
    | 13 => "\\r"
    | code =>
      if code < 32 ∨ code = 127 then "\\x" ++ hexDigits 2 code
      else if code < 65536 then "\\u" ++ hexDigits 4 code
      else "\\U" ++ hexDigits 8 code

/-- A text in quotes. -/
def quote (text : String) : String :=
  "\"" ++ String.join (text.toList.map escape) ++ "\""

end ShaderIR.Text
