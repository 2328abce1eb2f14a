import ShaderIR.Machine.Run
import ShaderIR.Text.Numeral
import ShaderIR.Text.Quoted
import ShaderIR.Text.Record

/-!
# Flags

The flags of the command line, the settings they make and the rules for reading
them.  A flag is written with two dashes and its name, or with one dash and its
letter.  Truth flags need no value; other flags take theirs after an equals sign
or from the next word.  Two dashes alone end the flags.
-/

namespace ShaderIR.CommandLine

/-- A flag. -/
inductive Flag where
  | config
  | passes
  | noValidate
  | workers
  | verbose
  | raw
  | noComments
  | noTypes
  | maxSteps
  | help
  | version
  deriving DecidableEq, Repr

namespace Flag

/-- The name of a flag. -/
def name : Flag → String
  | config => "config"
  | passes => "passes"
  | noValidate => "no-validate"
  | workers => "workers"
  | verbose => "verbose"
  | raw => "raw"
  | noComments => "no-comments"
  | noTypes => "no-types"
  | maxSteps => "max-steps"
  | help => "help"
  | version => "version"

/-- The letter of a flag. -/
def letter? : Flag → Option Char
  | verbose => some 'v'
  | help => some 'h'
  | _ => none

/-- Whether a flag is on when it stands without a value. -/
def isSwitch : Flag → Bool
  | config | passes | workers | maxSteps => false
  | _ => true

/-- The flag as messages name it. -/
def title (flag : Flag) : String :=
  match flag.letter? with
  | some letter => "-" ++ letter.toString ++ ", --" ++ flag.name
  | none => "--" ++ flag.name

end Flag

/-- The flags that every command takes. -/
def commonFlags : List Flag := [.config, .passes, .noValidate, .workers, .verbose]

/-- What the flags say. -/
structure Settings where
  config : String := ""
  /-- The passes asked for, if any were. -/
  passes : Option (List String) := none
  noValidate : Bool := false
  /-- The number of workers asked for, if one was. -/
  workers : Option Int := none
  verbose : Bool := false
  raw : Bool := false
  noComments : Bool := false
  noTypes : Bool := false
  maxSteps : Int := Machine.defaultLimit
  help : Bool := false
  version : Bool := false
  deriving DecidableEq, Repr

/-- Why words cannot be read as flags and arguments. -/
inductive FlagError where
  | badSyntax (word : String)
  | unknown (name : String)
  | unknownLetter (letter : Char) (group : String)
  | missingValue (name : String)
  | invalidValue (flag : Flag) (value cause : String)
  deriving DecidableEq, Repr

/-- A letter in single quotes. -/
def quoteLetter (letter : Char) : String :=
  let escaped :=
    if letter = '\'' then "\\'" else if letter = '"' then "\"" else Text.escape letter
  "'" ++ escaped ++ "'"

/-- The text of a flag error. -/
def FlagError.message : FlagError → String
  | badSyntax word => "bad flag syntax: " ++ word
  | unknown name => "unknown flag: --" ++ name
  | unknownLetter letter group =>
    "unknown shorthand flag: " ++ quoteLetter letter ++ " in -" ++ group
  | missingValue name => "flag needs an argument: --" ++ name
  | invalidValue flag value cause =>
    "invalid argument " ++ Text.quote value ++ " for " ++ Text.quote flag.title ++ " flag: " ++
      cause

/-- The truth value of a text. -/
def truth? (text : String) : Option Bool :=
  if ["1", "t", "T", "TRUE", "true", "True"].contains text then some true
  else if ["0", "f", "F", "FALSE", "false", "False"].contains text then some false
  else none

namespace Settings

/-- Set a flag to the value of a text; an error is the cause of its refusal. -/
def set (settings : Settings) (flag : Flag) (text : String) : Except String Settings := do
  let truth (use : Bool → Settings) : Except String Settings :=
    match truth? text with
    | some truth => .ok (use truth)
    | none => .error ("strconv.ParseBool: parsing " ++ Text.quote text ++ ": invalid syntax")
  let number (use : Int → Settings) : Except String Settings :=
    match Text.signedWord text with
    | .ok number => .ok (use number)
    | .error error =>
      .error ("strconv.ParseInt: parsing " ++ Text.quote text ++ ": " ++ error.message)
  match flag with
  | .config => .ok { settings with config := text }
  | .passes =>
    match if text = "" then .ok [] else Text.record text with
    | .ok names => .ok { settings with passes := some (settings.passes.getD [] ++ names) }
    | .error error => .error error.message
  | .noValidate => truth fun truth => { settings with noValidate := truth }
  | .workers => number fun number => { settings with workers := some number }
  | .verbose => truth fun truth => { settings with verbose := truth }
  | .raw => truth fun truth => { settings with raw := truth }
  | .noComments => truth fun truth => { settings with noComments := truth }
  | .noTypes => truth fun truth => { settings with noTypes := truth }
  | .maxSteps => number fun number => { settings with maxSteps := number }
  | .help => truth fun truth => { settings with help := truth }
  | .version => truth fun truth => { settings with version := truth }

/-- Set a flag, naming it when its value is refused. -/
def assign (settings : Settings) (flag : Flag) (text : String) : Except FlagError Settings :=
  match settings.set flag text with
  | .ok settings => .ok settings
  | .error cause => .error (.invalidValue flag text cause)

end Settings

/-- What was read so far: the settings and the arguments. -/
structure Reading where
  settings : Settings := {}
  arguments : List String := []
  deriving DecidableEq, Repr

/-- Set a flag in what was read. -/
def Reading.assign (reading : Reading) (flag : Flag) (text : String) :
    Except FlagError Reading := do
  return { reading with settings := ← reading.settings.assign flag text }

/-- The letter that messages show for the first character of a group. -/
def shownLetter (letter : Char) : Char :=
  if letter.toNat < 128 then letter else 'Ã'

/--
Read a group of letters after one dash.  All letters here are switches: a value may
only follow after an equals sign, and then it ends the group.
-/
def readLetters (flags : List Flag) : List Char → Reading → Except FlagError Reading
  | [], reading => .ok reading
  | letter :: rest, reading => do
    if (['t', 'e', 's', 't', '.']).isPrefixOf (letter :: rest) then return reading
    else
      match flags.find? (·.letter? == some letter) with
      | none => .error (.unknownLetter (shownLetter letter) (String.ofList (letter :: rest)))
      | some flag =>
        match rest with
        | '=' :: first :: value => reading.assign flag (String.ofList (first :: value))
        | rest => readLetters flags rest (← reading.assign flag "true")

/-- Read words as flags and arguments. -/
def readWords (flags : List Flag) : List String → Reading → Except FlagError Reading
  | [], reading => .ok reading
  | word :: rest, reading => do
    match word.toList with
    | '-' :: '-' :: [] => return { reading with arguments := reading.arguments ++ rest }
    | '-' :: '-' :: text =>
      let name := String.ofList (text.takeWhile (· != '='))
      if text.head? == some '-' || text.head? == some '=' then .error (.badSyntax word)
      else
        match flags.find? (·.name == name), text.dropWhile (· != '=') with
        | none, _ => .error (.unknown name)
        | some flag, _ :: value =>
          readWords flags rest (← reading.assign flag (String.ofList value))
        | some flag, [] =>
          if flag.isSwitch then readWords flags rest (← reading.assign flag "true")
          else
            match rest with
            | [] => .error (.missingValue name)
            | value :: rest => readWords flags rest (← reading.assign flag value)
    | '-' :: letter :: group =>
      readWords flags rest (← readLetters flags (letter :: group) reading)
    | _ => readWords flags rest { reading with arguments := reading.arguments ++ [word] }

end ShaderIR.CommandLine
