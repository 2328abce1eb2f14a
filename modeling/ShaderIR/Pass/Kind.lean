/-!
# Kinds of passes

The passes a pipeline can run, with their names.  Passes remark on what they did,
naming the function they worked on.
-/

namespace ShaderIR

/-- The passes a pipeline can run. -/
inductive PassKind where
  | eliminateDeadCode
  | hoistVariables
  | outlineLoops
  | promote
  | lowerPhis
  | removeUnusedCallables
  | flatten
  | transpose
  deriving DecidableEq, Repr

namespace PassKind

/-- The name of a pass. -/
def name : PassKind → String
  | eliminateDeadCode => "dce"
  | hoistVariables => "hoist_allocas"
  | outlineLoops => "lower_ray_query_loops"
  | promote => "mem2reg"
  | lowerPhis => "reg2mem"
  | removeUnusedCallables => "remove_unused_callables"
  | flatten => "trace_gep"
  | transpose => "transpose_gep"

/-- All passes, sorted by name. -/
def all : List PassKind :=
  [eliminateDeadCode, hoistVariables, outlineLoops, promote, lowerPhis, removeUnusedCallables,
    flatten, transpose]

/-- The pass of a name. -/
def ofName? (name : String) : Option PassKind :=
  all.find? (·.name == name)

end PassKind

/-- What a pass says about its work on a function, or on a whole module. -/
structure Remark where
  pass : String
  subject : Option String
  message : String
  deriving DecidableEq, Repr

/-- The text of a remark. -/
def Remark.text (remark : Remark) : String :=
  match remark.subject with
  | some subject => remark.pass ++ " " ++ subject ++ ": " ++ remark.message
  | none => remark.pass ++ ": " ++ remark.message

end ShaderIR
