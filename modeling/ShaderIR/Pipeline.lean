import ShaderIR.Options
import ShaderIR.Pass.CallableRemoval
import ShaderIR.Pass.Outlining
import ShaderIR.Pass.Promotion
import ShaderIR.Validation

/-!
# The pipeline

A pipeline runs passes over a module, one after the other.  Most passes work on
one function at a time; the module is validated before the first pass and after
the last one, unless that is switched off.  A violation inside a pass ends the
pipeline with an error that names the pass and the function.
-/

namespace ShaderIR

namespace Pass

/-- Run a pass on each of some functions, in order. -/
def onEach {α : Type} (run : Ref → Edit α) : List Ref → Edit (List α)
  | [] => pure []
  | function :: rest => do
    let report ← run function
    return report :: (← onEach run rest)

/-- Run a pass on the definitions that a module has when the pass starts. -/
def onDefinitions {α : Type} (run : Ref → Edit α) (module : Nat) : Edit (List α) := do
  onEach run (← Edit.see (·.definitions module))

/-- Run a pass on a function and answer its remarks; a pass on modules does nothing there. -/
def runOn (pass : PassKind) (function : Ref) : Edit (List Remark) := do
  let subject ← Edit.see (·.label function)
  match pass with
  | .eliminateDeadCode => return (← eliminateDeadCode function).remarks subject
  | .hoistVariables =>
    let _ ← hoistVariables function
    return []
  | .outlineLoops =>
    let report ← outlineLoops function
    Edit.see fun store => report.remarks store subject
  | .promote => return (← promote function).remarks subject
  | .lowerPhis => return (← lowerPhis function).remarks subject
  | .removeUnusedCallables => return []
  | .flatten => return (← flatten function).remarks subject
  | .transpose => return (← transpose function).remarks subject

end Pass

/-- Why a pipeline ends without a result. -/
inductive PipelineError where
  | options (error : OptionsError)
  | invalidInput (count : Nat) (first : Issue)
  | invalidOutput (count : Nat) (first : Issue)
  | cancelled
  | refused (pass : PassKind) (subject : Option String) (violation : Violation)
  | inModule (name : String) (error : PipelineError)
  | fault (fault : Fault)
  deriving DecidableEq, Repr

namespace PipelineError

/-- The text of the issues of a module. -/
def issuesText (count : Nat) (first : Issue) : String :=
  toString count ++ " validation errors, first: " ++ first.text

/-- The text of a pipeline error; a fault of the program itself has none. -/
def message? : PipelineError → Option String
  | options error => some error.message
  | invalidInput count first => some ("invalid input module: " ++ issuesText count first)
  | invalidOutput count first =>
    some ("pipeline produced an invalid module: " ++ issuesText count first)
  | cancelled => some "context canceled"
  | refused pass subject violation =>
    some ("pass " ++ pass.name ++ (subject.map (" on function " ++ ·)).getD "" ++ ": " ++
      violation.report)
  | inModule name error => error.message?.map ("module " ++ name ++ ": " ++ ·)
  | fault _ => none

end PipelineError

/-- A run of a pipeline. -/
abbrev Pipeline := ExceptT PipelineError (StateM Store)

namespace Pipeline

/-- Run an edit, turning a violation into an error. -/
def attempt {α : Type} (refuse : Violation → PipelineError) (change : Edit α) : Pipeline α :=
  ExceptT.mk do
    match ← change.run with
    | .ok result => return .ok result
    | .error (.violation violation) => return .error (refuse violation)
    | .error fault => return .error (.fault fault)

/-- Run a pass on each of some functions. -/
def onEach (pass : PassKind) : List Ref → Pipeline (List Remark)
  | [] => pure []
  | function :: rest => do
    let subject := (← get).label function
    let remarks ← attempt (.refused pass (some subject)) (Pass.runOn pass function)
    return remarks ++ (← onEach pass rest)

/-- Run a pass on a module. -/
def runPass (pass : PassKind) (module : Nat) : Pipeline (List Remark) := do
  match pass with
  | .removeUnusedCallables =>
    return (← attempt (.refused pass none) (Pass.removeUnusedCallables module)).remarks
  | pass => onEach pass ((← get).definitions module)

/-- Run passes on a module, unless the run is cancelled. -/
def runPasses (cancelled : Bool) (module : Nat) : List PassKind → Pipeline (List Remark)
  | [] => pure []
  | pass :: rest => do
    if cancelled then throw .cancelled
    else
      let remarks ← runPass pass module
      return remarks ++ (← runPasses cancelled module rest)

/-- A module has to be valid. -/
def requireValid (fail : Nat → Issue → PipelineError) (module : Nat) : Pipeline Unit := do
  match (← get).validate? module with
  | none => throw (.fault .stuck)
  | some [] => pure ()
  | some (first :: rest) => throw (fail (rest.length + 1) first)

/-- The passes that options ask for. -/
def checked (options : Options) : Pipeline (List PassKind) :=
  match options.check with
  | .ok passes => pure passes
  | .error error => throw (.options error)

/-- Optimize a module and answer the remarks of the passes. -/
def optimize (options : Options) (cancelled : Bool) (module : Nat) : Pipeline (List Remark) := do
  let passes ← checked options
  if options.validate then requireValid .invalidInput module
  let remarks ← runPasses cancelled module passes
  if options.validate then requireValid .invalidOutput module
  return remarks

/-- Optimize modules one after the other; the first error ends the run and names its module. -/
def optimizeEach (options : Options) : List Nat → Pipeline (List Remark)
  | [] => pure []
  | module :: rest => do
    let name := (((← get).modules[module]?).map (·.name)).getD ""
    let remarks ←
      tryCatch (optimize options false module) fun error => throw (.inModule name error)
    return remarks ++ (← optimizeEach options rest)

/-- Optimize modules after checking the options once. -/
def optimizeAll (options : Options) (modules : List Nat) : Pipeline (List Remark) := do
  let _ ← checked options
  optimizeEach options modules

end Pipeline

end ShaderIR
