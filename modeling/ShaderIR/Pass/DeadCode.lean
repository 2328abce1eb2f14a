import ShaderIR.Pass.DeadCode.Liveness
import ShaderIR.Pass.DeadCode.Unreachable
import ShaderIR.Pass.PhiRemoval

/-!
# Dead code elimination

A round neutralizes the blocks that are never reached, clears merge blocks that
are never reached, drops phi incomings from blocks that no longer branch to the
phi, and removes instructions that nothing needs.  Rounds are repeated until one
of them changes nothing.

Every round but the last removes an instruction or neutralizes a block, and a
neutralized block stays neutralized, so the number of values bounds the rounds.
Only a block with two unreachable ends is neutralized for ever.
-/

namespace ShaderIR

namespace Pass

/-- Forget the merge block of a terminator when that block ends unreachable. -/
def clearMerge (block : Ref) : Edit Unit := do
  match ← Edit.see (·.terminator? block) with
  | none => pure ()
  | some terminator =>
    let opcode := (← Edit.instruction terminator).opcode
    match opcode.merge? with
    | some (some merge) =>
      if ← Edit.see (·.endsUnreachable merge) then
        Edit.setOpcode terminator (opcode.withMerge none)
    | _ => pure ()

/-- Clear the merge blocks of terminators. -/
def clearMerges : List Ref → Edit Unit
  | [] => pure ()
  | block :: rest => do
    clearMerge block
    clearMerges rest

/-- Drop the incomings below a position that come from other blocks than predecessors. -/
def pruneIncomings (predecessors : List Ref) (phi : Ref) : Nat → Edit Unit
  | 0 => pure ()
  | position + 1 => do
    let _ ← Edit.operand phi position
    let blocks := (← Edit.instruction phi).opcode.incomingBlocks
    let source ← Edit.demand blocks[position]?
    if !source.any predecessors.contains then Edit.removeIncoming phi position
    pruneIncomings predecessors phi position

/-- Drop the stale incomings of phis. -/
def prunePhis (predecessors : List Ref) : List Ref → Edit Unit
  | [] => pure ()
  | phi :: rest => do
    pruneIncomings predecessors phi (← Edit.instruction phi).opcode.incomingBlocks.length
    prunePhis predecessors rest

/-- Drop the stale incomings of the phis of some blocks and answer all of those phis. -/
def pruneBlocks : List Ref → Edit (List Ref)
  | [] => pure []
  | block :: rest => do
    let phis ← Edit.see (·.phis block)
    prunePhis (← Edit.see (·.predecessors block)) phis
    return phis ++ (← pruneBlocks rest)

/-- Remove a phi if it is redundant, and note it. -/
def removePhi (report : Elimination) (phi : Ref) : Edit Elimination := do
  if ← removeRedundantPhi phi then report.drop phi else return report

/-- Remove what nothing needs, and redundant phis, until that removes nothing more. -/
def removeUseless (function : Ref) (phis : List Ref) : Nat → Elimination → Edit Elimination
  | 0, _ => Edit.endless
  | bound + 1, report => do
    let next ← removeUnneeded function report
    let next ← removeWriteOnlyVariables function next
    let next ← phis.foldlM removePhi next
    if next.removed.length = report.removed.length then return next
    else removeUseless function phis bound next

/-- One round of the elimination. -/
def eliminationRound (function : Ref) (report : Elimination) : Edit Elimination := do
  let report ← neutralizeDoomed function report
  let report ← neutralizeDead function report
  clearMerges (← Edit.see (·.reversePostOrder function))
  let phis ← pruneBlocks (← Edit.see (·.reversePostOrder function))
  removeUseless function phis ((← Edit.see (·.values.size)) + 2)
    { report with rounds := report.rounds + 1 }

/-- Repeat rounds until one of them changes nothing. -/
def eliminate (function : Ref) : Nat → Elimination → Edit Elimination
  | 0, _ => Edit.endless
  | bound + 1, report => do
    let next ← eliminationRound function report
    if next.progress = report.progress then return next else eliminate function bound next

/-- Eliminate the dead code of a function; without a body there is none. -/
def eliminateDeadCode (function : Ref) : Edit Elimination := do
  if (← Edit.see (·.body? function)).isNone then return {}
  else eliminate function (2 * (← Edit.see (·.values.size)) + 2) {}

end Pass

end ShaderIR
