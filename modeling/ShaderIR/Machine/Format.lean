import ShaderIR.Machine.Halt
import ShaderIR.Text.Shortest

/-!
# The text of runtime values

Values are shown the way print instructions show them: aggregates in
parentheses, references as what they refer to.  Messages about values show them
plainly instead, aggregates in brackets, and a handle shown plainly inside another
value as its address.  Which digits an address has is up to the memory of the
machine, so a line says of what it shows the address.

A reference that leads back to itself has no text.
-/

namespace ShaderIR.Machine

/-- The text of a truth value. -/
def boolText (truth : Bool) : String := if truth then "true" else "false"

/-- The position of a candidate kind in its fixed numbering. -/
def Candidate.code : Candidate → Nat
  | .triangle => 0
  | .procedural => 1

/-- A line of characters only. -/
def Line.ofString (text : String) : Line := text.toList.map .char

/-- The texts of lines with a separator between them. -/
def Line.joined (separator : String) (lines : List Line) : Line :=
  (Line.ofString separator).intercalate lines

/-- Texts between brackets. -/
def bracketed (parts : List Line) : Line :=
  .ofString "[" ++ Line.joined " " parts ++ .ofString "]"

/-- The text of a number for each of some things. -/
def numbers {α : Type} [ToString α] (things : List α) : Line :=
  bracketed (things.map fun thing => .ofString (toString thing))

/-- The text of a ray query. -/
def RayQuery.text (query : RayQuery) : Line :=
  .ofString "&\x7b" ++ numbers (query.candidates.map Candidate.code) ++ .ofString " " ++
    numbers query.committed ++
    .ofString (" " ++ toString query.current ++ " " ++ toString query.next ++ " " ++
      boolText query.terminated ++ "\x7d")

mutual

/-- The plain text of a value inside another one. -/
def nestedText : Datum → Line
  | .absent => .ofString "<nil>"
  | .bool truth => .ofString (boolText truth)
  | .int number => .ofString (toString number.toInt)
  | .uint number => .ofString (toString number.toNat)
  | .float number => .ofString (Text.renderDouble number)
  | .aggregate elements => bracketed (nestedTexts elements)
  | .reference serial _ _ => [.address (.reference serial)]
  | .buffer address => [.address (.buffer address)]
  | .rayQuery address => [.address (.rayQuery address)]
  | .entity ref => [.address (.entity ref)]

/-- The plain texts of several values inside another one. -/
def nestedTexts : List Datum → List Line
  | [] => []
  | first :: rest => nestedText first :: nestedTexts rest

end

/-- The plain text of a value: what a handle refers to is shown, one level deep. -/
def plainText? (heap : Heap) : Datum → Option Line
  | .buffer address => do
    let elements ← heap.buffers[address]?
    return .ofString "&\x7b" ++ bracketed (nestedTexts elements) ++ .ofString "\x7d"
  | .rayQuery address => heap.rayQueries[address]?.map RayQuery.text
  | .reference _ cell path =>
    let shown : Line := [.address (.cell cell)]
    some (.ofString "&\x7b" ++ shown ++ .ofString " " ++ numbers path ++ .ofString "\x7d")
  | .entity ref => some [.contents ref]
  | datum => some (nestedText datum)

mutual

/-- The text of a value, following references through a given reader. -/
def formatWith? (heap : Heap) (follow : Datum → Option Line) : Datum → Option Line
  | .aggregate elements => do
    let parts ← formatAllWith? heap follow elements
    return .ofString "(" ++ Line.joined ", " parts ++ .ofString ")"
  | .reference serial cell path => follow (.reference serial cell path)
  | .absent => plainText? heap .absent
  | .bool truth => plainText? heap (.bool truth)
  | .int number => plainText? heap (.int number)
  | .uint number => plainText? heap (.uint number)
  | .float number => plainText? heap (.float number)
  | .buffer address => plainText? heap (.buffer address)
  | .rayQuery address => plainText? heap (.rayQuery address)
  | .entity ref => plainText? heap (.entity ref)

/-- The texts of several values. -/
def formatAllWith? (heap : Heap) (follow : Datum → Option Line) :
    List Datum → Option (List Line)
  | [] => some []
  | first :: rest => do
    let first ← formatWith? heap follow first
    return first :: (← formatAllWith? heap follow rest)

end

/-- The text of a value when references are followed to a depth. -/
def formatTo? (heap : Heap) : Nat → Datum → Option Line
  | 0, _ => none
  | depth + 1, datum =>
    formatWith? heap
      (fun reference =>
        match reference with
        | .reference _ cell path => (heap.load? cell path).bind (formatTo? heap depth)
        | _ => none)
      datum

/--
The text of a value.  A chain of references longer than the number of
references ever made repeats one of them and never ends.
-/
def formatLine? (heap : Heap) (datum : Datum) : Option Line :=
  formatTo? heap (heap.serial + 2) datum

/-- The text of a value with the digits of addresses left out. -/
def format? (heap : Heap) (datum : Datum) : Option String :=
  (formatLine? heap datum).map Line.text

/-- Replace each pair of braces of a format by the next text, as long as there are texts. -/
def fillFormat : List Char → List Line → Line
  | '\x7b' :: '\x7d' :: rest, text :: texts => text ++ fillFormat rest texts
  | char :: rest, texts => .char char :: fillFormat rest texts
  | [], _ => []

/-- The line that a print instruction writes; only values that are shown need a text. -/
def printLine? (heap : Heap) (format : String) (values : List Datum) : Option Line := do
  let places := (format.splitOn "\x7b\x7d").length - 1
  let texts ← (values.take places).mapM (formatLine? heap)
  return fillFormat format.toList texts

end ShaderIR.Machine
