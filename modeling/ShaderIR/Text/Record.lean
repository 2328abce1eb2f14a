/-!
# Records

A record is a line of fields divided by commas.  A field may be quoted; then it
may hold commas and line breaks, and a quote inside of it is written twice.
Empty lines before the record are passed over and lines after it are ignored.
-/

namespace ShaderIR.Text

/-- What is wrong with the quotes of a record. -/
inductive QuoteFault where
  | bare
  | unbalanced
  deriving DecidableEq, Repr

/-- Why a text is no record: there is none, or its quotes are wrong at some place. -/
inductive RecordError where
  | absent
  | quotes (start line column : Nat) (fault : QuoteFault)
  deriving DecidableEq, Repr

/-- The text of a record error. -/
def RecordError.message : RecordError → String
  | absent => "EOF"
  | quotes start line column fault =>
    (if start = line then "" else "record on line " ++ toString start ++ "; ") ++
      "parse error on line " ++ toString line ++ ", column " ++ toString column ++ ": " ++
      match fault with
      | .bare => "bare \" in non-quoted-field"
      | .unbalanced => "extraneous or missing \" in quoted-field"

/-- The number of bytes of characters. -/
def byteCount (chars : List Char) : Nat :=
  chars.foldl (fun total char => total + char.utf8Size) 0

/--
The lines of a text, each with its line feed.  A carriage return before a line feed
or at the end of the text is dropped.
-/
def recordLines : List Char → List (List Char)
  | [] => []
  | '\n' :: rest => ['\n'] :: recordLines rest
  | '\r' :: '\n' :: rest => ['\n'] :: recordLines rest
  | ['\r'] => [[]]
  | char :: rest =>
    match recordLines rest with
    | [] => [[char]]
    | line :: lines => (char :: line) :: lines

/-- A place in a record: the line it starts on, the current line and column. -/
structure RecordPlace where
  start : Nat
  line : Nat
  column : Nat

/-- Move a place along characters of its line. -/
def RecordPlace.advance (place : RecordPlace) (chars : List Char) : RecordPlace :=
  { place with column := place.column + byteCount chars }

/-- A fault of the quotes at a place. -/
def RecordPlace.fail (place : RecordPlace) (fault : QuoteFault) : RecordError :=
  .quotes place.start place.line place.column fault

/--
The fields from a place on: of the rest of a line, or of a quoted field that is
open with the characters read so far.  At most as many steps as the bound says.
-/
def fieldsFrom : Nat → RecordPlace → Option (List Char) → List Char → List (List Char) →
    Except RecordError (List String)
  | 0, place, _, _, _ => .error (place.fail .unbalanced)
  | bound + 1, place, some field, line, lines =>
    let text := line.takeWhile (· != '"')
    match line.drop text.length with
    | '"' :: rest =>
      let place := (place.advance text).advance ['"']
      match rest with
      | '"' :: rest =>
        fieldsFrom bound (place.advance ['"']) (some (field ++ text ++ ['"'])) rest lines
      | ',' :: rest => do
        let others ← fieldsFrom bound (place.advance [',']) none rest lines
        return String.ofList (field ++ text) :: others
      | [] | ['\n'] => .ok [String.ofList (field ++ text)]
      | _ => .error ({ place with column := place.column - 1 }.fail .unbalanced)
    | _ =>
      match text, lines with
      | [], _ => .error (place.fail .unbalanced)
      | text, [] | text, [[]] => fieldsFrom bound (place.advance text) (some (field ++ text)) [] []
      | text, next :: lines =>
        fieldsFrom bound { place with line := place.line + 1, column := 1 }
          (some (field ++ text)) next lines
  | bound + 1, place, none, line, lines =>
    match line with
    | '"' :: rest => fieldsFrom bound (place.advance ['"']) (some []) rest lines
    | line =>
      let front := line.takeWhile (· != ',')
      let field := if front.getLast? == some '\n' then front.dropLast else front
      let text := field.takeWhile (· != '"')
      if text.length < field.length then .error ((place.advance text).fail .bare)
      else
        match line.drop front.length with
        | ',' :: rest => do
          let others ← fieldsFrom bound ((place.advance front).advance [',']) none rest lines
          return String.ofList field :: others
        | _ => .ok [String.ofList field]

/-- The fields of the first record of a text. -/
def record (text : String) : Except RecordError (List String) :=
  let lines := recordLines text.toList
  let isEmpty (line : List Char) : Bool := line == [] || line == ['\n']
  let skipped := lines.takeWhile isEmpty
  match lines.dropWhile isEmpty with
  | [] => .error .absent
  | line :: rest =>
    let number := skipped.length + 1
    fieldsFrom (2 * text.length + 2) ⟨number, number, 1⟩ none line rest

end ShaderIR.Text
