import ShaderIR.Options
import ShaderIR.Toml.Document

/-!
# Pipeline configuration

Options written as a configuration text.  Settings that are missing keep their
standard value and unknown settings are ignored.  The name of a setting may also
be written in capitals.
-/

namespace ShaderIR

/-- Why a configuration text gives no options. -/
inductive ConfigError where
  | malformed
  | options (error : OptionsError)
  deriving DecidableEq, Repr

/-- The text of a configuration error. -/
def ConfigError.message : ConfigError → String
  | malformed => "decoding toml"
  | options error => error.message

namespace Options

open Toml (Node Entries)

/-- The node of a setting. -/
def setting? (entries : Entries) (name : String) : Option Node :=
  (entries.lookup name).or (entries.lookup name.toUpper)

/--
The text of a node.  An integer beyond the signed range is taken for the code of a
character, and there is no such character.
-/
def textOf? : Node → Option String
  | .scalar (.text text) => some text
  | .scalar (.integer number) => if number < Text.signedBound then none else some "\ufffd"
  | _ => none

/-- The texts of the items of an array. -/
def textsOf? : Node → Option (List String)
  | .array items => items.mapM textOf?
  | _ => none

/-- The truth value of a node. -/
def truthOf? : Node → Option Bool
  | .scalar (.truth truth) => some truth
  | _ => none

/-- The integer of a node; one beyond the signed range wraps around. -/
def integerOf? : Node → Option Int
  | .scalar (.integer number) =>
    some (if number < Text.signedBound then number else number - Text.wordBound)
  | _ => none

/-- A setting, its standard value when it is missing, or nothing when it has the wrong kind. -/
def read? {α : Type} (entries : Entries) (name : String) (standard : α) (read : Node → Option α) :
    Option α :=
  match setting? entries name with
  | none => some standard
  | some node => read node

/-- The options of a document, not checked yet. -/
def ofEntries? (entries : Entries) : Option Options := do
  return {
    passes := ← read? entries "passes" standard.passes textsOf?
    validate := ← read? entries "validate" standard.validate truthOf?
    workers := ← read? entries "workers" standard.workers integerOf?
    logLevel := ← read? entries "log_level" standard.logLevel textOf? }

/-- The options that a configuration text asks for. -/
def parse (text : String) : Except ConfigError Options :=
  match (Toml.parse? text).bind ofEntries? with
  | none => .error .malformed
  | some options =>
    match options.check with
    | .ok _ => .ok options
    | .error error => .error (.options error)

end Options

end ShaderIR
