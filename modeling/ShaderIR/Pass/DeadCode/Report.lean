import ShaderIR.Build
import ShaderIR.Pass.Kind

/-!
# Reports of dead code elimination

What the elimination removed so far.  A report travels through all of its parts,
and the elimination ends when a round leaves the report as it was.
-/

namespace ShaderIR

namespace Pass

/-- The instructions removed and the number of blocks cut down to an unreachable end. -/
structure Elimination where
  removed : List Ref := []
  neutralized : Nat := 0
  rounds : Nat := 0
  deriving DecidableEq, Repr

/-- How much was done; it grows with everything that is removed. -/
def Elimination.progress (report : Elimination) : Nat × Nat :=
  (report.removed.length, report.neutralized)

/-- The remark of dead code elimination, given when the function has a body. -/
def Elimination.remarks (report : Elimination) (subject : String) : List Remark :=
  if report.rounds = 0 then []
  else
    [{ pass := "dce"
       subject
       message :=
        "removed " ++ toString report.removed.length ++ " instructions, neutralized " ++
          toString report.neutralized ++ " blocks in " ++ toString report.rounds ++ " rounds" }]

/-- Unlink an instruction and note it. -/
def Elimination.drop (report : Elimination) (ref : Ref) : Edit Elimination := do
  Edit.remove ref
  return { report with
    removed := if report.removed.contains ref then report.removed else ref :: report.removed }

end Pass

end ShaderIR
