import ShaderIR.CallGraph
import ShaderIR.CommandLine.Command
import ShaderIR.CommandLine.Directory
import ShaderIR.Options.Config
import ShaderIR.Pipeline
import ShaderIR.Printer
import ShaderIR.Samples

/-!
# The command line

Commands that list the samples and passes, print optimized samples, run them and
show their call graphs.  A command line writes text and may end in an error.
-/

namespace ShaderIR.CommandLine

/-- Why a command line fails. -/
inductive CommandError where
  | flag (error : FlagError)
  | unknownCommand (name : String) (command : Command) (remark : String)
  | tooFewArguments (needed got : Nat)
  | wrongArguments (needed got : Nat)
  | unknownSample (name : String)
  | unreadableConfig (cause : String)
  | config (path : String) (error : ConfigError)
  | options (error : OptionsError)
  | logLevel (level : String)
  | pipeline (error : PipelineError)
  | noEntry (sample : String)
  | run (sample : String) (error : Machine.RunError)
  | fault
  deriving DecidableEq, Repr

/-- The text of an error. -/
def CommandError.message : CommandError → String
  | flag error => error.message
  | unknownCommand name command remark =>
    "unknown command " ++ Text.quote name ++ " for " ++ Text.quote command.path ++ remark
  | tooFewArguments needed got =>
    "requires at least " ++ toString needed ++ " arg(s), only received " ++ toString got
  | wrongArguments needed got =>
    "accepts " ++ toString needed ++ " arg(s), received " ++ toString got
  | unknownSample name => "unknown sample " ++ Text.quote name ++ ", see 'xiropt list'"
  | unreadableConfig cause => "reading pipeline config: " ++ cause
  | config path error => "pipeline config " ++ path ++ ": " ++ error.message
  | options error => error.message
  | logLevel level => "log level: not a valid logrus Level: " ++ Text.quote level
  | pipeline error => error.message?.getD ""
  | noEntry sample => "sample " ++ sample ++ " has no main function"
  | run sample error => "running " ++ sample ++ ": " ++ error.message?.getD ""
  | fault => ""

/-- What a command line writes, and the error it may end in. -/
structure Outcome where
  out : String := ""
  error : Option CommandError := none
  deriving DecidableEq, Repr

/-! ## Options -/

/-- The levels of reporting. -/
def logLevels : List String :=
  ["panic", "fatal", "error", "warn", "warning", "info", "debug", "trace"]

/-- The options of a configuration file, or the standard ones without a file. -/
def configured (files : Files) (path : String) : Except CommandError Options :=
  if path = "" then .ok .standard
  else
    match files path with
    | .error cause => .error (.unreadableConfig cause)
    | .ok text =>
      match Options.parse text with
      | .error error => .error (.config path error)
      | .ok options => .ok options

/-- The options of a command line: those of the configuration, changed by the flags. -/
def pipelineOptions (files : Files) (settings : Settings) : Except CommandError Options := do
  let base ← configured files settings.config
  let options : Options :=
    { passes := settings.passes.getD base.passes
      validate := base.validate && !settings.noValidate
      workers := settings.workers.getD base.workers
      logLevel := if settings.verbose then "debug" else base.logLevel }
  match options.check with
  | .error error => .error (.options error)
  | .ok _ =>
    if options.logLevel = "" ∨ logLevels.contains (Text.lowercase options.logLevel) then .ok options
    else .error (.logLevel options.logLevel)

/-! ## Samples -/

/-- The samples of some names. -/
def samplesOf : List String → Except CommandError (List Sample)
  | [] => .ok []
  | name :: rest =>
    match Sample.ofName? name with
    | none => .error (.unknownSample name)
    | some sample => (samplesOf rest).map (sample :: ·)

/-- Build samples one after the other and answer their modules. -/
def buildAll : List Sample → Edit (List Nat)
  | [] => pure []
  | sample :: rest => do
    let module ← sample.build
    return module :: (← buildAll rest)

/-- Samples with their modules in a store, optimized unless they are wanted raw. -/
def prepare (files : Files) (settings : Settings) (names : List String) :
    Except CommandError (List (Sample × Nat) × Store) := do
  let samples ← samplesOf names
  match (buildAll samples).run.run {} with
  | (.error _, _) => .error .fault
  | (.ok modules, store) =>
    if settings.raw then return (samples.zip modules, store)
    else
      let options ← pipelineOptions files settings
      match (Pipeline.optimizeAll options modules).run.run store with
      | (.error error, _) => .error (.pipeline error)
      | (.ok _, store) => return (samples.zip modules, store)

/-! ## Commands -/

/-- A text filled up with blanks. -/
def padded (width : Nat) (text : String) : String :=
  text ++ String.ofList (List.replicate (width - text.length) ' ')

/-- The list of samples and passes. -/
def listing : String :=
  "Samples:\n" ++
    String.join (Sample.all.map fun sample =>
      "  " ++ padded 16 sample.name ++ " " ++ sample.description ++ "\n") ++
    "\nPasses:\n" ++ String.join (PassKind.all.map fun pass => "  " ++ pass.name ++ "\n") ++
    "\nDefault pipeline: " ++ String.intercalate "," Options.standard.passes ++ "\n"

/-- The printed samples, divided by empty lines. -/
def printed (settings : Settings) (modules : List (Sample × Nat)) (store : Store) :
    Except CommandError String :=
  let options : Printer.Options := ⟨!settings.noComments, !settings.noTypes⟩
  match modules.mapM fun (_, module) => Printer.moduleText? options store module with
  | some texts => .ok (String.intercalate "\n" texts)
  | none => .error .fault

/-- What running the entry function of a sample prints and returns. -/
def ran (settings : Settings) (sample : Sample) (module : Nat) (store : Store) :
    Except CommandError String :=
  match store.mainFunction? module with
  | none => .error (.noEntry sample.name)
  | some function =>
    let (arguments, heap) := sample.arguments
    match Machine.run store ⟨Machine.limitOf settings.maxSteps, []⟩ heap (some function)
        arguments with
    | .error error => .error (.run sample.name error)
    | .ok result =>
      let lines := String.join (result.output.map (· ++ "\n"))
      match result.value with
      | .absent => .ok lines
      | value => .ok (lines ++ "=> " ++ (Machine.format? result.heap value).getD "" ++ "\n")

/-- The kind and label of a function. -/
def functionTitle (store : Store) (function : Ref) : String :=
  ((store.function? function).map (·.kind.name)).getD "" ++ " " ++ store.label function

/-- The call graph of a module. -/
def callGraphText (module : Nat) (store : Store) : String :=
  let titles (functions : List Ref) : String :=
    String.intercalate ", " (functions.map (functionTitle store))
  "roots: " ++ titles (store.callRoots module) ++ "\n" ++
    String.join ((store.functions module).map fun function =>
      match store.callees module function with
      | [] => ""
      | callees => functionTitle store function ++ " -> " ++ titles callees ++ "\n")

/-- How the program is used. -/
def usage : String :=
  "Optimize and inspect XIR sample modules\n\nUsage:\n  xiropt [OPTIONS] COMMAND\n\n" ++
    "Available Commands:\n" ++
    "  list        List the sample modules and the known passes\n" ++
    "  print       Optimize samples and print the resulting modules\n" ++
    "  run         Interpret the entry function of a sample\n" ++
    "  callgraph   Print the call graph of a sample\n"

/-- The version of the program. -/
def versionText : String := "xiropt version 0.1.0-dev\n"

/-- Perform a command. -/
def perform (files : Files) (command : Command) (reading : Reading) :
    Except CommandError String := do
  let settings := reading.settings
  let arguments := reading.arguments
  let single (use : Sample → Nat → Store → Except CommandError String) := do
    if arguments.length ≠ 1 then .error (.wrongArguments 1 arguments.length)
    else
      match ← prepare files settings arguments with
      | ((sample, module) :: _, store) => use sample module store
      | _ => .error .fault
  if settings.help then return usage
  else if settings.version then return versionText
  else
    match command with
    | .list =>
      match arguments with
      | [] => return listing
      | name :: _ => .error (.unknownCommand name .list "")
    | .print =>
      if arguments.isEmpty then .error (.tooFewArguments 1 0)
      else
        let (modules, store) ← prepare files settings arguments
        printed settings modules store
    | .run => single (ran settings)
    | .callgraph => single fun _ module store => .ok (callGraphText module store)
    | .overview | .help | .completion => return usage

/-- The command of a command line, its settings and its arguments. -/
def read (words : List String) : Except CommandError (Command × Reading) :=
  match findCommand words with
  | .error name => .error (.unknownCommand name .overview (suggestionText name))
  | .ok (command, rest) =>
    match readWords command.allFlags rest {} with
    | .error error => .error (.flag error)
    | .ok reading => .ok (command, reading)

/-- Run a command line. -/
def run (files : Files) (words : List String) : Outcome :=
  match read words with
  | .error error => { error := some error }
  | .ok (command, reading) =>
    match perform files command reading with
    | .ok out => { out }
    | .error error => { error := some error }

/-- The configuration file that a command line names. -/
def configPath? (words : List String) : Option String :=
  match read words with
  | .ok (_, reading) => if reading.settings.config = "" then none else some reading.settings.config
  | .error _ => none

end ShaderIR.CommandLine
