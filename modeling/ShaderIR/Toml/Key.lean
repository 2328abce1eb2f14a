import ShaderIR.Toml.Scalar

/-!
# Keys of a configuration text

A key is a path of parts.  Parts are bare words or quoted texts, and dots, with
or without blanks around them, divide them.  Quoted parts are unescaped when a
key is scanned, so its written form still shows the quotes but no escapes.
-/

namespace ShaderIR.Toml

/-- Whether a character may stand in a bare word. -/
def isBare (char : Char) : Bool :=
  char.isAlpha || isDigit char || char == '_' || char == '-'

/-- The parts of a written key, from the front; at most as many steps as the bound says. -/
def keyParts : Nat → List Char → Option (List String)
  | 0, _ => none
  | bound + 1, chars =>
    match chars.dropWhile isBlank with
    | [] => some []
    | '\'' :: rest => quoted bound '\'' rest
    | '"' :: rest => quoted bound '"' rest
    | '.' :: rest =>
      match rest with
      | next :: _ =>
        if isBare next || next == '\'' || next == '"' || next == ' ' then keyParts bound rest
        else none
      | [] => none
    | rest =>
      let word := rest.takeWhile isBare
      let rest := rest.drop word.length
      let next := rest.dropWhile isBlank
      if word.isEmpty || !(next.isEmpty || next.head? == some '.') then none
      else (keyParts bound next).map (String.ofList word :: ·)
where
  /-- A quoted part and the parts after it. -/
  quoted (bound : Nat) (quote : Char) (rest : List Char) : Option (List String) :=
    let word := rest.takeWhile (· != quote)
    match rest.drop word.length with
    | _ :: rest => (keyParts bound rest).map (String.ofList word :: ·)
    | [] => none

/-- The path of a written key, which has at least one part. -/
def keyPath? (chars : List Char) : Option (List String) := do
  let parts ← keyParts (chars.length + 1) chars
  if parts.isEmpty then none else some parts

/--
Take a key from the front of a text, up to an equals sign, the end of the text
or a blank that no dot follows; at most as many steps as the bound says.
-/
def scanKey : Nat → List Char → Option (List Char × List Char)
  | 0, _ => none
  | _ + 1, [] => some ([], [])
  | bound + 1, char :: rest =>
    let go (front rest : List Char) := do
      let (key, rest) ← scanKey bound rest
      return (front ++ key, rest)
    if char = '=' then some ([], char :: rest)
    else if char = '"' then do
      let (word, rest) ← scanEscaped "\"" true (rest.length + 1) rest
      go ('"' :: word ++ ['"']) rest
    else if char = '\'' then do
      let (word, rest) ← scanLiteral "'" rest
      go ('\'' :: word ++ ['\'']) rest
    else if isBlank char then
      match rest.dropWhile isBlank with
      | '.' :: rest => go ([' ', '.'] ++ rest.takeWhile isBlank) (rest.dropWhile isBlank)
      | rest => some ([], rest)
    else if isBare char || char == '.' then go [char] rest
    else none

end ShaderIR.Toml
