import ShaderIR.Text.Numeral

/-!
# Scalars of a configuration text

Numbers, dates and times, and quoted texts.  A scanner reads one of them from
the front of the text and answers it with the rest; `none` says that the text is
malformed.

Only integers, truth values and texts can be settings here.  Floats, dates and
times are checked and then forgotten.
-/

namespace ShaderIR.Toml

/-- A scalar value. -/
inductive Scalar where
  | text (text : String)
  | truth (truth : Bool)
  | integer (number : Int)
  | other
  deriving DecidableEq, Repr

/-- Whether a character is a decimal digit. -/
def isDigit (char : Char) : Bool := '0' ≤ char && char ≤ '9'

/-- Whether a character is a hexadecimal digit. -/
def isHexDigit (char : Char) : Bool := (Text.digit? char).isSome

/-- Whether a character is a blank inside a line. -/
def isBlank (char : Char) : Bool := char == ' ' || char == '\t'

/-- Whether a text starts with another one; the answer is what follows. -/
def after? (front : String) (chars : List Char) : Option (List Char) :=
  if front.toList.isPrefixOf chars then some (chars.drop front.length) else none

/-! ## Numbers -/

/-- Every underscore has to follow a digit and must not be last. -/
def underscoresFit (isDigit : Char → Bool) : Bool → List Char → Bool
  | _, [] => true
  | follows, '_' :: rest => follows && !rest.isEmpty && underscoresFit isDigit false rest
  | _, char :: rest => underscoresFit isDigit (isDigit char) rest

/-- An integer that fits into 64 bits, unsigned if it has no sign. -/
def inRange? (signed : Bool) (number : Int) : Option Int :=
  let bound : Int := if signed then Text.signedBound else Text.wordBound
  if -Text.signedBound ≤ number ∧ number < bound then some number else none

/--
The value of an integer.  After a leading zero three or more characters need a
base: hexadecimal, octal or binary.
-/
def integerValue? (chars : List Char) : Option Int :=
  let digits := chars.filter (· != '_')
  let decimal := underscoresFit isDigit false chars
  match digits with
  | '0' :: 'x' :: first :: rest =>
    if underscoresFit isHexDigit false chars then
      (Text.digits? 16 (first :: rest)).bind fun number => inRange? false number
    else none
  | '0' :: base :: first :: rest =>
    if !decimal then none
    else if base = 'o' then
      (Text.digits? 8 (first :: rest)).bind fun number => inRange? false number
    else if base = 'b' then
      (Text.digits? 2 (first :: rest)).bind fun number => inRange? false number
    else none
  | '-' :: rest =>
    if decimal then (Text.digits? 10 rest).bind fun number => inRange? true (-(number : Int))
    else none
  | '+' :: rest =>
    if decimal then (Text.digits? 10 rest).bind fun number => inRange? true number else none
  | rest =>
    if decimal then (Text.digits? 10 rest).bind fun number => inRange? false number else none

/-- Whether a decimal fraction with an exponent rounds to a finite float. -/
def isFinite (digits : List Char) (fraction : Nat) (exponent : Int) : Bool :=
  let mantissa := digits.dropWhile (· == '0')
  let magnitude : Int := mantissa.length - fraction + exponent
  if mantissa.isEmpty ∨ magnitude < 309 then true
  else if magnitude > 309 then false
  else
    let scale : Int := exponent - fraction
    let number := (Text.digitsFrom? 10 0 mantissa).getD 0
    let bound : Nat := Nat.pow 2 1024 - Nat.pow 2 970
    if 0 ≤ scale then number * Nat.pow 10 scale.toNat < bound
    else number < bound * Nat.pow 10 (-scale).toNat

/-- The exponent from which on further digits of it do not count. -/
def exponentBound : Nat := 10000

/--
The number of some digits of an exponent, continuing from a number.  Once the
exponent bound is reached the rest of the digits is passed over.
-/
def exponentFrom? : Nat → List Char → Option Nat
  | total, [] => some total
  | total, char :: rest =>
    if !isDigit char then none
    else if exponentBound ≤ total then exponentFrom? total rest
    else exponentFrom? (total * 10 + (char.toNat - 48)) rest

/-- The number of at least one digit of an exponent. -/
def exponentDigits? : List Char → Option Nat
  | [] => none
  | digits => exponentFrom? 0 digits

/-- The value of the exponent of a float; an empty one counts as zero. -/
def exponentValue? : List Char → Option Int
  | [] => some 0
  | 'e' :: rest | 'E' :: rest =>
    match rest with
    | '-' :: digits => (exponentDigits? digits).map fun number => -(number : Int)
    | '+' :: digits => (exponentDigits? digits).map Int.ofNat
    | digits => (exponentDigits? digits).map Int.ofNat
  | _ => none

/-- Whether a float is well formed and finite. -/
def isFloat (chars : List Char) : Bool :=
  let clean := chars.filter (· != '_')
  let body := if clean.head? == some '-' || clean.head? == some '+' then clean.tail else clean
  let whole := body.takeWhile isDigit
  let (fraction, rest) :=
    match body.dropWhile isDigit with
    | '.' :: rest => (rest.takeWhile isDigit, rest.dropWhile isDigit)
    | rest => ([], rest)
  underscoresFit isDigit false chars && !whole.isEmpty &&
    (exponentValue? rest).any (isFinite (whole ++ fraction) fraction.length)

/-- What was seen of a number. -/
structure NumberShape where
  point : Bool := false
  exponent : Bool := false
  digit : Bool := false
  deriving DecidableEq, Repr

/-- Take the characters of a number from the front of a text. -/
def scanDigits (shape : NumberShape) : List Char → Option (NumberShape × List Char × List Char)
  | [] => some (shape, [], [])
  | char :: rest =>
    let taken (shape : NumberShape) := do
      let (shape, chars, rest) ← scanDigits shape rest
      return (shape, char :: chars, rest)
    if char = '.' then
      if shape.point || !shape.digit || !(rest.head?.any isDigit) then none
      else taken { shape with point := true }
    else if char = 'e' ∨ char = 'E' then
      match rest with
      | '+' :: rest => do
        let (shape, chars, rest) ← scanDigits { shape with exponent := true } rest
        return (shape, char :: '+' :: chars, rest)
      | '-' :: rest => do
        let (shape, chars, rest) ← scanDigits { shape with exponent := true } rest
        return (shape, char :: '-' :: chars, rest)
      | _ => taken { shape with exponent := true }
    else if isDigit char then taken { shape with digit := true }
    else if char = '_' then taken shape
    else some (shape, [], char :: rest)

/-- Scan a number without a base. -/
def scanPlainNumber (chars : List Char) : Option (Scalar × List Char) := do
  let (sign, body) :=
    match chars with
    | '+' :: rest => (['+'], rest)
    | '-' :: rest => (['-'], rest)
    | rest => ([], rest)
  match (after? "inf" body).or (after? "nan" body) with
  | some rest => if sign.isEmpty then none else some (.other, rest)
  | none =>
    let (shape, number, rest) ← scanDigits {} body
    if !shape.digit then none
    else if shape.point || shape.exponent then
      if isFloat (sign ++ number) then some (.other, rest) else none
    else return (.integer (← integerValue? (sign ++ number)), rest)

/-- Scan a number. -/
def scanNumber (chars : List Char) : Option (Scalar × List Char) :=
  let based (base : Char) (isDigit : Char → Bool) (rest : List Char) :
      Option (Scalar × List Char) := do
    let digits := rest.takeWhile fun char => isDigit char || char == '_'
    if digits.isEmpty then none
    else return (.integer (← integerValue? ('0' :: base :: digits)), rest.drop digits.length)
  match chars with
  | '0' :: 'x' :: rest => based 'x' isHexDigit rest
  | '0' :: 'o' :: rest => based 'o' (fun char => '0' ≤ char && char ≤ '7') rest
  | '0' :: 'b' :: rest => based 'b' (fun char => char == '0' || char == '1') rest
  | '0' :: letter :: rest =>
    if letter.isAlpha then none else scanPlainNumber ('0' :: letter :: rest)
  | chars => scanPlainNumber chars

/-! ## Dates and times -/

/-- The number of two digits below a bound. -/
def twoDigits? (bound : Nat) : List Char → Option (Nat × List Char)
  | tens :: ones :: rest => do
    let number ← Text.digits? 10 [tens, ones]
    if number < bound then some (number, rest) else none
  | _ => none

/-- The rest after a certain character. -/
def expect? (char : Char) : List Char → Option (List Char)
  | first :: rest => if first = char then some rest else none
  | [] => none

/-- The number of days of a month. -/
def daysIn (year month : Nat) : Nat :=
  if month = 2 then
    if year % 4 = 0 ∧ (year % 100 ≠ 0 ∨ year % 400 = 0) then 29 else 28
  else if month = 4 ∨ month = 6 ∨ month = 9 ∨ month = 11 then 30
  else 31

/-- Scan a time of day. -/
def scanTime (chars : List Char) : Option (List Char) := do
  let (_, rest) ← twoDigits? 24 chars
  let (_, rest) ← twoDigits? 60 (← expect? ':' rest)
  let (_, rest) ← twoDigits? 60 (← expect? ':' rest)
  match rest with
  | '.' :: digit :: rest => if isDigit digit then some (rest.dropWhile isDigit) else none
  | '.' :: [] => none
  | rest => some rest

/-- Scan an offset from universal time, if there is one. -/
def scanOffset (chars : List Char) : Option (List Char) :=
  match chars with
  | 'Z' :: rest => some rest
  | sign :: rest =>
    if sign = '+' ∨ sign = '-' then do
      let (_, rest) ← twoDigits? 25 rest
      let (_, rest) ← twoDigits? 61 (← expect? ':' rest)
      return rest
    else some chars
  | [] => some []

/-- Scan a date. -/
def scanDate (chars : List Char) : Option (List Char) := do
  let year ← Text.digits? 10 (chars.take 4)
  let (month, rest) ← twoDigits? 13 (← expect? '-' (chars.drop 4))
  let (day, rest) ← twoDigits? 32 (← expect? '-' rest)
  if month = 0 ∨ day = 0 ∨ daysIn year month < day then none else some rest

/-! ## Quoted texts -/

/-- The character of a code; codes of no character become the replacement character. -/
def charOf (code : Nat) : Char :=
  if code.isValidChar then Char.ofNat code else '\ufffd'

/-- The text up to a terminator, taken as it is. -/
def scanLiteral (terminator : String) : List Char → Option (List Char × List Char)
  | [] => none
  | char :: rest =>
    match after? terminator (char :: rest) with
    | some rest => some ([], rest)
    | none => (scanLiteral terminator rest).map fun (text, rest) => (char :: text, rest)

/-- The character that a letter after a backslash stands for. -/
def escaped? : Char → Option Char
  | '"' => some '"'
  | 'n' => some '\n'
  | 'b' => some '\x08'
  | 'f' => some '\x0c'
  | '/' => some '/'
  | 't' => some '\t'
  | 'r' => some '\r'
  | '\\' => some '\\'
  | _ => none

/-- Whether a character after a backslash joins lines, and is dropped. -/
def joinsLines (char : Char) : Bool :=
  char == ' ' || char == '\t' || char == '\n' || char == '\r'

/-- Whether a character may stand in a quoted text as it is. -/
def isAllowed (breaks : Bool) (char : Char) : Bool :=
  32 ≤ char.toNat || char == '\t' || (breaks && (char == '\n' || char == '\r'))

/-- The text up to a terminator, with escapes; at most as many steps as the bound says. -/
def scanEscaped (terminator : String) (breaks : Bool) :
    Nat → List Char → Option (List Char × List Char)
  | 0, _ => none
  | _ + 1, [] => none
  | bound + 1, char :: rest =>
    match after? terminator (char :: rest) with
    | some rest => some ([], rest)
    | none =>
      let go (chars : List Char) (rest : List Char) := do
        let (text, rest) ← scanEscaped terminator breaks bound rest
        return (chars ++ text, rest)
      let code (count : Nat) (rest : List Char) := do
        if rest.length < count then none
        else
          let number ← Text.digits? 16 (rest.take count)
          go [charOf number] (rest.drop count)
      if char = '\\' then
        match rest with
        | [] => none
        | 'u' :: rest => code 4 rest
        | 'U' :: rest => code 8 rest
        | next :: rest =>
          if joinsLines next then go [] (rest.dropWhile joinsLines)
          else do go [← escaped? next] rest
      else if isAllowed breaks char then go [char] rest
      else none

/-- Drop one line break at the front of a text. -/
def dropBreak : List Char → List Char
  | '\r' :: '\n' :: rest => rest
  | '\n' :: rest => rest
  | rest => rest

/-- Scan a text after its opening double quote. -/
def scanBasicText (chars : List Char) : Option (Scalar × List Char) := do
  let (text, rest) ←
    match after? "\"\"" chars with
    | some rest => scanEscaped "\"\"\"" true (rest.length + 1) (dropBreak rest)
    | none => scanEscaped "\"" false (chars.length + 1) chars
  return (.text (String.ofList text), rest)

/-- Scan a text after its opening single quote. -/
def scanLiteralText (chars : List Char) : Option (Scalar × List Char) := do
  let (text, rest) ←
    match after? "''" chars with
    | some rest => scanLiteral "'''" (dropBreak rest)
    | none => scanLiteral "'" chars
  return (.text (String.ofList text), rest)

end ShaderIR.Toml
