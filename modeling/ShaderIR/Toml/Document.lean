import ShaderIR.Toml.Token

/-!
# Documents

A document is a table of tables and values.  Tables made by a header or by a
dotted key can be filled further; an inline table cannot.  A header in double
brackets adds a table to an array of tables, and a path through such an array
leads to its last table.
-/

namespace ShaderIR.Toml

/-- A node of a document. -/
inductive Node where
  | scalar (scalar : Scalar)
  | array (items : List Node)
  | table (closed : Bool) (entries : List (String × Node))
  | tables (items : List (Bool × List (String × Node)))

/-- The entries of a table. -/
abbrev Entries := List (String × Node)

namespace Entries

/-- Set an entry, replacing an older one. -/
def set (entries : Entries) (key : String) (node : Node) : Entries :=
  (key, node) :: entries.filter (·.1 != key)

/-- Look a path up. -/
def find? : Entries → List String → Option Node
  | entries, [] => some (.table false entries)
  | entries, [key] => entries.lookup key
  | entries, key :: rest =>
    match entries.lookup key with
    | some (.table _ entries) => find? entries rest
    | some (.tables items) =>
      match items.getLast? with
      | some (_, entries) => find? entries rest
      | none => none
    | _ => none

/--
Change the table at a path, creating missing tables on the way.  `none` says that
something else than a table is in the way.
-/
def change? (change : Bool → Entries → Option Entries) :
    List String → Bool → Entries → Option Entries
  | [], closed, entries => change closed entries
  | key :: rest, closed, entries =>
    match entries.lookup key with
    | none => do
      let inner ← change? change rest closed []
      return entries.set key (.table closed inner)
    | some (.table closed inner) => do
      let inner ← change? change rest closed inner
      return entries.set key (.table closed inner)
    | some (.tables items) => do
      let (closed, inner) ← items.getLast?
      let inner ← change? change rest closed inner
      return entries.set key (.tables (items.dropLast ++ [(closed, inner)]))
    | some _ => none

/-- Put a node at a path; parts of the path that lead to no table are passed over. -/
def put (node : Node) : List String → Entries → Entries
  | [], entries => entries
  | [key], entries => entries.set key node
  | key :: rest, entries =>
    match entries.lookup key with
    | none => entries.set key (.table false (put node rest []))
    | some (.table closed inner) => entries.set key (.table closed (put node rest inner))
    | some (.tables items) =>
      match items.getLast? with
      | some (closed, inner) =>
        entries.set key (.tables (items.dropLast ++ [(closed, put node rest inner)]))
      | none => entries
    | some _ => put node rest entries

/-- Assign a node to a key of a table, which must be open and not have it yet. -/
def assign? (key : String) (node : Node) (closed : Bool) (entries : Entries) : Option Entries :=
  if closed || (entries.lookup key).isSome then none else some (entries.set key node)

end Entries

/-- An array of tables when all items of a nonempty list are tables, else an array. -/
def Node.ofItems (items : List Node) : Node :=
  let tables := items.filterMap fun item =>
    match item with
    | .table closed entries => some (closed, entries)
    | _ => none
  if items.isEmpty || tables.length != items.length then .array items else .tables tables

mutual

/-- Read a value; at most as many steps as the bound says. -/
def readValue : Nat → List Token → Option (Node × List Token)
  | 0, _ => none
  | bound + 1, tokens =>
    match tokens with
    | .value scalar :: rest => some (.scalar scalar, rest)
    | .date :: .time :: rest | .date :: rest | .time :: rest => some (.scalar .other, rest)
    | .openArray :: rest => do
      let (items, rest) ← readItems bound rest
      return (.ofItems items, rest)
    | .openTable :: rest => do
      let (entries, rest) ← readFields bound true [] rest
      return (.table true entries, rest)
    | _ => none

/-- Read the items of an array up to its end. -/
def readItems : Nat → List Token → Option (List Node × List Token)
  | 0, _ => none
  | bound + 1, tokens =>
    match tokens with
    | .closeArray :: rest => some ([], rest)
    | tokens => do
      let (item, rest) ← readValue bound tokens
      let rest ←
        match rest with
        | .comma :: rest => some rest
        | .closeArray :: _ => some rest
        | _ => none
      let (items, rest) ← readItems bound rest
      return (item :: items, rest)

/-- Read the fields of an inline table up to its end; a later field replaces an earlier one. -/
def readFields : Nat → Bool → Entries → List Token → Option (Entries × List Token)
  | 0, _, _, _ => none
  | bound + 1, first, entries, tokens =>
    match tokens with
    | .closeTable :: rest => if first then some (entries, rest) else none
    | .key path :: .equals :: rest => do
      let (node, rest) ← readValue bound rest
      let entries := Entries.put node path entries
      match rest with
      | .comma :: rest => readFields bound false entries rest
      | .closeTable :: rest => some (entries, rest)
      | _ => none
    | _ => none

end

/-- The state of reading a document. -/
structure Reading where
  entries : Entries := []
  /-- The path of the last header. -/
  current : List String := []
  /-- The headers seen, as they are written. -/
  headers : List (List Char) := []

/-- Start a table, whose header must be new. -/
def Reading.startTable (reading : Reading) (header : List Char) : Option Reading := do
  let path ← keyPath? header
  if reading.headers.contains header then none
  else
    let entries ← Entries.change? (fun _ entries => some entries) path false reading.entries
    match Entries.find? entries path with
    | some (.table true _) => none
    | _ => return { entries, current := path, headers := reading.headers ++ [header] }

/-- Start the next table of an array of tables; headers below it may be used again. -/
def Reading.startElement (reading : Reading) (header : List Char) : Option Reading := do
  let path ← keyPath? header
  let entries :=
    (Entries.change? (fun _ entries => some entries) path.dropLast false reading.entries).getD
      reading.entries
  let items ←
    match Entries.find? entries path with
    | none => some []
    | some (.tables items) => some items
    | some _ => none
  return {
    entries := Entries.put (.tables (items ++ [(false, [])])) path entries
    current := path
    headers :=
      reading.headers.filter (fun old => !((header ++ ['.']).isPrefixOf old)) ++ [header] }

/-- Read the lines of a document; at most as many steps as the bound says. -/
def readLines : Nat → Reading → List Token → Option Entries
  | _, reading, [] => some reading.entries
  | 0, _, _ :: _ => none
  | bound + 1, reading, token :: rest =>
    match token with
    | .table header => do readLines bound (← reading.startTable header) rest
    | .element header => do readLines bound (← reading.startElement header) rest
    | .key path =>
      match rest with
      | .equals :: rest => do
        let (node, rest) ← readValue (rest.length + 1) rest
        let target := reading.current ++ path.dropLast
        let entries ← Entries.change? (Entries.assign? (path.getLast?.getD "") node) target false
          reading.entries
        readLines bound { reading with entries } rest
      | _ => none
    | _ => none

/-- The entries of a document. -/
def parse? (text : String) : Option Entries := do
  let tokens ← tokens? text
  readLines tokens.length {} tokens

end ShaderIR.Toml
