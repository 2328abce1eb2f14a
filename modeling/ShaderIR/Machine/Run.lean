import ShaderIR.Machine.Step

/-!
# Runs

A run calls a function with data and repeats steps until the function returns,
something ends the run, or the step limit is exceeded.  Every step counts one
instruction, so the limit bounds the number of repetitions.
-/

namespace ShaderIR.Machine

/-- The step limit when none is asked for. -/
def defaultLimit : Nat := 1048576

/-- The step limit for a requested one: anything below one asks for the default. -/
def limitOf (requested : Int) : Nat :=
  if requested ≤ 0 then defaultLimit else requested.toNat

/-- How a run ended, and the state it ended in. -/
inductive Ending where
  | finished (result : Datum)
  | halted (halt : Halt)

/-- Repeat steps, at most as many as the bound says. -/
def State.run (program : Store) (settings : Settings) : Nat → State → Ending × State
  | 0, state => (.halted (.stepLimit settings.limit), state)
  | steps + 1, state =>
    match state.step program settings with
    | .running state => state.run program settings steps
    | .finished result state => (.finished result, state)
    | .halted halt state => (.halted halt, state)

/-- Call a function in a heap and run it to its end. -/
def runFrom
    (program : Store)
    (settings : Settings)
    (heap : Heap)
    (function : Ref)
    (arguments : List Datum) : Ending × State :=
  match (callFrame program settings function arguments).run.run heap with
  | (.ok frame, heap) =>
    State.run program settings (settings.limit + 1) { frame, heap }
  | (.error halt, heap) =>
    (.halted halt, { frame := { block := function, rest := [] }, heap })

/-- The outcome of a successful run. -/
structure Result where
  value : Datum
  lines : List Line
  steps : Nat
  heap : Heap

/-- The texts of the printed lines with the digits of addresses left out. -/
def Result.output (result : Result) : List String := result.lines.map Line.text

/-- Why a function could not be run to its end. -/
inductive RunError where
  | noFunction
  | notDefinition (function : Nat)
  | arity (function expected got : Nat)
  | halted (function : Nat) (halt : Halt)
  deriving DecidableEq, Repr

/-- The text of a run error, if it has one. -/
def RunError.message? : RunError → Option String
  | noFunction => some "no function to run"
  | notDefinition function =>
    some ("function %" ++ toString function ++ " is not a definition")
  | arity function expected got =>
    some ("function %" ++ toString function ++ " takes " ++ toString expected ++
      " arguments, got " ++ toString got)
  | halted function halt =>
    halt.message?.map fun message =>
      "running function %" ++ toString function ++ ": " ++ message

/-- The name of the class of a run error. -/
def RunError.className : RunError → String
  | halted _ (.assertion _) => "assertion"
  | halted _ (.unreachable ..) => "unreachable"
  | halted _ .discarded => "discarded"
  | halted _ (.stepLimit _) => "step_limit"
  | halted _ (.unsupported _) => "unsupported"
  | _ => "run"

/-- Run a function of a program. -/
def run
    (program : Store)
    (settings : Settings)
    (heap : Heap)
    (function : Option Ref)
    (arguments : List Datum) : Except RunError Result :=
  match function with
  | none => .error .noFunction
  | some ref =>
    let id := program.idOf ref
    match program.function? ref with
    | none => .error .noFunction
    | some entry =>
      if !entry.isDefinition then .error (.notDefinition id)
      else if arguments.length ≠ entry.arguments.length then
        .error (.arity id entry.arguments.length arguments.length)
      else
        match runFrom program settings heap ref arguments with
        | (.finished value, state) =>
          .ok { value, lines := state.output.reverse, steps := state.steps, heap := state.heap }
        | (.halted halt, _) => .error (.halted id halt)

end ShaderIR.Machine
