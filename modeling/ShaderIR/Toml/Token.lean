import ShaderIR.Toml.Key

/-!
# Tokens of a configuration text

A text is read in two modes: one expects a key, a table header or the end of an
inline table, the other one a value or what may follow a value.  An equals sign
leads from the first to the second, and a line break or a new field of an inline
table leads back.  Inside of an array line breaks do not matter.
-/

namespace ShaderIR.Toml

/-- A token. -/
inductive Token where
  | key (path : List String)
  | equals
  | value (scalar : Scalar)
  /-- A date that no time of day directly follows. -/
  | date
  /-- A time of day that directly follows no date. -/
  | time
  /-- The header of a table, as it is written between brackets. -/
  | table (header : List Char)
  /-- The header of an element of an array of tables, as it is written between brackets. -/
  | element (header : List Char)
  | openArray
  | closeArray
  | openTable
  | closeTable
  | comma
  deriving DecidableEq, Repr

/-- What is expected next. -/
inductive Mode where
  | key
  | value
  deriving DecidableEq, Repr

/-- What an open bracket belongs to. -/
inductive Bracket where
  | array
  | table
  deriving DecidableEq, Repr

/--
Scan a table header after its opening bracket.  Brackets with nothing between them
are an empty array instead.
-/
def scanHeader (chars : List Char) : Option (List Token × List Char) :=
  let isPlain (char : Char) : Bool := char != ']' && char != '['
  match chars with
  | ']' :: rest => some ([.openArray, .closeArray], rest)
  | '[' :: rest =>
    match rest.dropWhile isPlain with
    | ']' :: ']' :: rest' => some ([.element (rest.takeWhile isPlain)], rest')
    | _ => none
  | chars =>
    match chars.dropWhile isPlain with
    | ']' :: rest => some ([.table (chars.takeWhile isPlain)], rest)
    | _ => none

/--
Scan a date.  A blank or a `T` has to follow it, unless the text ends.  A time of day
directly follows after a `T`, or after one blank and two digits, and only such a
time of day may have an offset.
-/
def scanMoment (chars : List Char) : Option (Token × List Char) := do
  let timed (rest : List Char) : Option (Token × List Char) := do
    return (.value .other, ← scanOffset (← scanTime rest))
  let rest ← scanDate chars
  match rest with
  | [] => some (.date, [])
  | 'T' :: rest => timed rest
  | ' ' :: next =>
    match next with
    | tens :: ones :: _ => if isDigit tens && isDigit ones then timed next else some (.date, rest)
    | _ => some (.date, rest)
  | _ => none

/-- Scan a date, a time of day or a number, told apart by the first few characters. -/
def scanMomentOrNumber (chars : List Char) : Option (Token × List Char) :=
  match chars.span isDigit with
  | ([_, _], ':' :: _) => (scanTime chars).map (.time, ·)
  | ([_, _, _, _], '-' :: _) => scanMoment chars
  | _ => (scanNumber chars).map fun (scalar, rest) => (.value scalar, rest)

/-- Scan a scalar. -/
def scanScalar (char : Char) (rest : List Char) : Option (Token × List Char) :=
  let chars := char :: rest
  let valued (found : Option (Scalar × List Char)) : Option (Token × List Char) :=
    found.map fun (scalar, rest) => (.value scalar, rest)
  let word (text : String) (scalar : Scalar) := (after? text chars).map (scalar, ·)
  if char = '"' then valued (scanBasicText rest)
  else if char = '\'' then valued (scanLiteralText rest)
  else if isDigit char then scanMomentOrNumber chars
  else if char = '+' ∨ char = '-' then valued (scanNumber chars)
  else
    valued <| (word "true" (.truth true)).or <| (word "false" (.truth false)).or <|
      (word "inf" .other).or (word "nan" .other)

/-- What a scanner has found: tokens, the mode and the brackets after them, and the rest. -/
structure Found where
  tokens : List Token := []
  mode : Mode
  brackets : List Bracket
  rest : List Char

/-- Close the innermost bracket, which has to be of a certain kind. -/
def close? (bracket : Bracket) (token : Token) (brackets : List Bracket) (rest : List Char) :
    Option Found :=
  match brackets with
  | innermost :: brackets =>
    if innermost = bracket then some { tokens := [token], mode := .value, brackets, rest }
    else none
  | [] => none

/-- Scan where a key is expected. -/
def scanInKeyMode (brackets : List Bracket) (char : Char) (rest : List Char) : Option Found :=
  if char = '}' then close? .table .closeTable brackets rest
  else if char = '[' then do
    let (tokens, rest) ← scanHeader rest
    return { tokens, mode := .key, brackets, rest }
  else if char = '#' then
    some { mode := .key, brackets, rest := rest.dropWhile (· != '\n') }
  else if char = '=' then some { tokens := [.equals], mode := .value, brackets, rest }
  else if char = '\r' ∨ char = '\n' ∨ isBlank char then some { mode := .key, brackets, rest }
  else do
    let (key, rest) ← scanKey (rest.length + 2) (char :: rest)
    return { tokens := [.key (← keyPath? key)], mode := .key, brackets, rest }

/-- Scan where a value is expected. -/
def scanInValueMode (brackets : List Bracket) (char : Char) (rest : List Char) : Option Found :=
  let go (tokens : List Token) (mode : Mode) (brackets : List Bracket) : Option Found :=
    some { tokens, mode, brackets, rest }
  if char = '=' then go [.equals] .value brackets
  else if char = '[' then go [.openArray] .value (.array :: brackets)
  else if char = ']' then close? .array .closeArray brackets rest
  else if char = '{' then go [.openTable] .key (.table :: brackets)
  else if char = '}' then close? .table .closeTable brackets rest
  else if char = '#' then
    some { mode := .value, brackets, rest := rest.dropWhile (· != '\n') }
  else if char = ',' then
    go [.comma] (if brackets.head? = some .table then .key else .value) brackets
  else if char = '\r' ∨ char = '\n' then
    go [] (if brackets.head? = some .array then .value else .key) brackets
  else if isBlank char then go [] .value brackets
  else do
    let (token, rest) ← scanScalar char rest
    return { tokens := [token], mode := .value, brackets, rest }

/-- The tokens of a text; at most as many steps as the bound says. -/
def tokensWithin : Nat → Mode → List Bracket → List Char → Option (List Token)
  | _, _, _, [] => some []
  | 0, _, _, _ :: _ => none
  | bound + 1, mode, brackets, char :: rest => do
    let found ←
      match mode with
      | .key => scanInKeyMode brackets char rest
      | .value => scanInValueMode brackets char rest
    return found.tokens ++ (← tokensWithin bound found.mode found.brackets found.rest)

/-- The tokens of a text; a byte order mark at its front does not count. -/
def tokens? (text : String) : Option (List Token) :=
  let chars := text.toList
  let chars := if chars.head? == some '\ufeff' then chars.tail else chars
  tokensWithin chars.length .key [] chars

end ShaderIR.Toml
