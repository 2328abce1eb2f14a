import ShaderIR.Pass.Kind
import ShaderIR.Text.Quoted

/-!
# Pipeline options

Which passes a pipeline runs, whether it validates, how many modules it may work
on at once and how much it reports.
-/

namespace ShaderIR

/-- The settings of a pipeline. -/
structure Options where
  /-- The names of the passes to run, in order. -/
  passes : List String
  /-- Whether the module is validated before the first and after the last pass. -/
  validate : Bool
  /-- How many modules may be worked on at once; zero sets no bound. -/
  workers : Int
  /-- The least severe level reported; empty keeps the current one. -/
  logLevel : String
  deriving DecidableEq, Repr

/-- A setting that makes no sense. -/
inductive OptionsError where
  | unknownPass (name : String)
  | negativeWorkers (workers : Int)
  deriving DecidableEq, Repr

/-- The text of an options error. -/
def OptionsError.message : OptionsError → String
  | unknownPass name => "unknown pass " ++ Text.quote name
  | negativeWorkers workers => "workers must not be negative, got " ++ toString workers

namespace Options

/--
The standard pipeline: element accesses are rewritten so that variables can be
promoted, ray query loops are outlined and dead code is eliminated.
-/
def standard : Options where
  passes := [PassKind.transpose, .promote, .outlineLoops, .eliminateDeadCode].map PassKind.name
  validate := true
  workers := 4
  logLevel := ""

/-- The passes of a list of names, or the first name that is none. -/
def passesOfNames : List String → Except OptionsError (List PassKind)
  | [] => .ok []
  | name :: rest =>
    match PassKind.ofName? name with
    | none => .error (.unknownPass name)
    | some pass => (passesOfNames rest).map (pass :: ·)

/-- The passes to run, when all settings make sense. -/
def check (options : Options) : Except OptionsError (List PassKind) := do
  let passes ← passesOfNames options.passes
  if options.workers < 0 then .error (.negativeWorkers options.workers) else .ok passes

end Options

end ShaderIR
