import ShaderIR.CommandLine.Flag
import ShaderIR.Text.Lowercase

/-!
# Commands

Which command the words of a command line name.  Flags may stand before the
command; a flag that takes a value also takes the word after it, and so does a
flag that is not known yet where it stands.
-/

namespace ShaderIR.CommandLine

/-- A command; `overview` stands for no command. -/
inductive Command where
  | overview
  | list
  | print
  | run
  | callgraph
  | help
  | completion
  deriving DecidableEq, Repr

namespace Command

/-- The name of a command. -/
def name : Command → String
  | overview => "xiropt"
  | list => "list"
  | print => "print"
  | run => "run"
  | callgraph => "callgraph"
  | help => "help"
  | completion => "completion"

/-- The commands that can be named. -/
def all : List Command := [list, print, run, callgraph, help, completion]

/-- The commands that are suggested for a misspelt name. -/
def suggested : List Command := [list, print, run, callgraph, completion]

/-- The flags of a command besides those for help and version. -/
def flags : Command → List Flag
  | print => [.raw, .noComments, .noTypes] ++ commonFlags
  | run => [.raw, .maxSteps] ++ commonFlags
  | callgraph => .raw :: commonFlags
  | _ => commonFlags

/-- All flags of a command. -/
def allFlags (command : Command) : List Flag :=
  command.flags ++ .help :: if command = .overview then [.version] else []

/-- A command with the command it belongs to. -/
def path : Command → String
  | overview => "xiropt"
  | command => "xiropt " ++ command.name

end Command

/-- Whether a word takes the next one as its value, as far as some flags tell. -/
def takesNext (flags : List Flag) (word : String) : Bool :=
  !word.contains '=' &&
    match word.toList with
    | '-' :: '-' :: name =>
      !(flags.any fun flag => flag.name == String.ofList name && flag.isSwitch)
    | ['-', letter] =>
      letter.utf8Size == 1 && !(flags.any fun flag => flag.letter? == some letter && flag.isSwitch)
    | _ => false

/-- The words that are neither flags nor their values. -/
def operands (flags : List Flag) : List String → List String
  | [] => []
  | word :: rest =>
    if word = "--" then []
    else if takesNext flags word then
      match rest with
      | [] | [_] => []
      | _ :: rest => operands flags rest
    else if word = "" ∨ word.startsWith "-" then operands flags rest
    else word :: operands flags rest

/-- The words without the first one that is a certain operand. -/
def withoutOperand (flags : List Flag) (operand : String) : List String → List String
  | [] => []
  | word :: rest =>
    if word = "--" then word :: rest
    else if takesNext flags word then
      match rest with
      | [] => [word]
      | value :: rest => word :: value :: withoutOperand flags operand rest
    else if word = operand then rest
    else word :: withoutOperand flags operand rest

/-- The edit distance of two texts, byte by byte, by rows. -/
def editDistance (first second : List UInt8) : Nat :=
  let row (previous : List Nat) (byte : UInt8) : List Nat :=
    let start := previous.headD 0 + 1
    ((first.zip (previous.zip previous.tail)).foldl
      (fun (row : List Nat × Nat) (other, diagonal, above) =>
        let cell := if other = byte then diagonal else min (min row.2 above) diagonal + 1
        (row.1 ++ [cell], cell))
      ([start], start)).1
  (second.foldl row (List.range (first.length + 1))).getLastD 0

/-- The names of commands close to a word: a few edits away, or starting with it. -/
def suggestions (word : String) : List String :=
  let typed := Text.lowercase word
  (Command.suggested.map Command.name).filter fun name =>
    editDistance typed.toUTF8.toList name.toUTF8.toList ≤ 2 || name.startsWith typed

/-- The remark on a misspelt name. -/
def suggestionText (word : String) : String :=
  match suggestions word with
  | [] => ""
  | names => "\n\nDid you mean this?\n" ++ String.join (names.map fun name => "\t" ++ name ++ "\n")

/-- The command that words name and the words left for it, or an unknown name. -/
def findCommand (words : List String) : Except String (Command × List String) :=
  match operands commonFlags words with
  | [] => .ok (.overview, words)
  | name :: _ =>
    match Command.all.find? (·.name == name) with
    | some command => .ok (command, withoutOperand commonFlags name words)
    | none => .error name

end ShaderIR.CommandLine
