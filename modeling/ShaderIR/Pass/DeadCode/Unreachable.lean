import ShaderIR.Pass.DeadCode.Report
import ShaderIR.Traversal

/-!
# Code that is never reached

A block is neutralized by taking out everything but an unreachable end.  That
happens to three kinds of blocks: those from which control can only arrive at
an unreachable end, those that only unreachable code enters although they still
use values of reachable code, and the targets that a constant condition never
selects.
-/

namespace ShaderIR

namespace Pass

/-- Take all but unreachable ends out of a block. -/
def emptyBlock : Elimination → List Ref → Edit Elimination
  | report, [] => pure report
  | report, ref :: rest => do
    if ← Edit.see fun store => (store.opcode? ref).any Opcode.isUnreachable then
      emptyBlock report rest
    else emptyBlock (← report.drop ref) rest

/-- Cut a block down to an unreachable end; a block that is just that stays as it is. -/
def neutralize (report : Elimination) (block : Ref) : Edit Elimination := do
  let instructions ← Edit.see (·.instructions block)
  if (← Edit.see (·.endsUnreachable block)) && instructions.length == 1 then return report
  else
    let report ← emptyBlock report instructions
    if (← Edit.see (·.instructions block)).isEmpty then
      Build.run do
        Build.moveToEnd block
        let _ ← Build.unreachable ""
    return { report with neutralized := report.neutralized + 1 }

/-- Whether control leaving a block other than to itself always meets an unreachable end. -/
def leadsNowhere (store : Store) (known : List Ref) (block : Ref) : Bool :=
  store.endsUnreachable block ||
    let others := (store.successors block).filter (· != block)
    !others.isEmpty && others.all fun successor =>
      known.contains successor || store.endsUnreachable successor

/-- Pass over blocks once, collecting those that lead nowhere. -/
def collectDoomed (store : Store) (blocks known : List Ref) : List Ref :=
  blocks.foldl
    (fun known block =>
      if known.contains block || !leadsNowhere store known block then known
      else known ++ [block])
    known

/-- Collect the blocks that lead nowhere until a pass finds no more. -/
def doomedWithin (store : Store) (blocks : List Ref) : Nat → List Ref → List Ref
  | 0, known => known
  | rounds + 1, known =>
    let next := collectDoomed store blocks known
    if next.length = known.length then known else doomedWithin store blocks rounds next

/-- The reachable blocks of a function from which every path ends unreachable. -/
def doomed (store : Store) (function : Ref) : List Ref :=
  let blocks := store.postOrder function
  doomedWithin store blocks (blocks.length + 1) []

/-- Where a terminator with a constant condition goes, and where it could have gone. -/
structure StaticChoice where
  taken : Option Ref
  others : List (Option Ref)
  deriving DecidableEq, Repr

/--
The choice of a switch among its cases, from a case position on, for a constant
selector.  The target of a case follows the selector and the fallback.
-/
def chooseCase (selector : Ref) (targets : List (Option Ref)) (position : Nat) :
    List Int64 → Option (Option Ref) → List (Option Ref) → Edit StaticChoice
  | [], taken, others => do
    let fallback ← Edit.demand targets[1]?
    match taken with
    | some taken => return { taken, others := others ++ [fallback] }
    | none => return { taken := fallback, others }
  | value :: rest, taken, others => do
    let selected := (← Edit.intConstant selector) = value
    let target ← Edit.demand targets[position + 2]?
    if selected then chooseCase selector targets (position + 1) rest (some target) others
    else chooseCase selector targets (position + 1) rest taken (others ++ [target])

/-- The choice that the terminator of a block makes when its condition is constant. -/
def staticChoice (block : Ref) : Edit (Option StaticChoice) := do
  match ← Edit.see (·.terminator? block) with
  | none => return none
  | some terminator =>
    let entry ← Edit.instruction terminator
    let targets ← Edit.see fun store => entry.values.map store.asBlock
    let condition ← Edit.see fun store => (entry.values.head?.join).filter store.isConstant
    match entry.opcode, condition with
    | .ifElse _, some constant | .condBranch, some constant =>
      let whenTrue ← Edit.demand targets[1]?
      let whenFalse ← Edit.demand targets[2]?
      if ← Edit.boolConstant constant then return some ⟨whenTrue, [whenFalse]⟩
      else return some ⟨whenFalse, [whenTrue]⟩
    | .switch _ cases, some constant =>
      return some (← chooseCase constant targets 0 cases none [])
    | _, _ => return none

/-- The blocks that only a block enters and that its constant condition never selects. -/
def excludedTargets (block : Ref) : Edit (List Ref) := do
  match ← staticChoice block with
  | none => return []
  | some choice =>
    Edit.see fun store => choice.others.filterMap fun target =>
      target.filter fun ref =>
        some ref != choice.taken && ref != block && store.predecessors ref == [block]

/-- The unreachable blocks of a function that use the results of a reachable block. -/
def unreachableUsers (store : Store) (function : Ref) (reachable : List Ref) (block : Ref) :
    List Ref :=
  (store.instructions block).flatMap fun ref =>
    (store.usesOf ref).filterMap fun use =>
      (store.blockOf? use.user).filter fun user =>
        store.blockFunction? user == some function && !reachable.contains user

/-- The dead blocks around each of some reachable blocks. -/
def deadAround (function : Ref) (reachable : List Ref) : List Ref → Edit (List Ref)
  | [] => pure []
  | block :: rest => do
    let users ← Edit.see (unreachableUsers · function reachable block)
    let excluded ← excludedTargets block
    return users ++ excluded ++ (← deadAround function reachable rest)

/-- Neutralize the blocks that lead nowhere. -/
def neutralizeDoomed (function : Ref) (report : Elimination) : Edit Elimination := do
  (← Edit.see (doomed · function)).foldlM neutralize report

/-- Neutralize the blocks that are never entered. -/
def neutralizeDead (function : Ref) (report : Elimination) : Edit Elimination := do
  let reachable ← Edit.see (·.reversePostOrder function)
  (Store.distinct (← deadAround function reachable reachable)).foldlM neutralize report

end Pass

end ShaderIR
