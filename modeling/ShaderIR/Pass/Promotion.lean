import ShaderIR.Closure
import ShaderIR.Dominance
import ShaderIR.Pass.PhiRemoval
import ShaderIR.Pass.Transposition

/-!
# Promoting variables to values

A local variable that is only read and written as a whole becomes a value:

* inside a block, a read takes the value of the write or read before it;
* a variable without remaining reads is removed with its writes;
* otherwise phis are placed on the iterated dominance frontier of the writing
  blocks, at those blocks where the variable may still be read, and every read
  takes the value that its nearest dominator leaves behind.

A read that no write reaches takes an undefined value.  Phis that turn out
redundant are removed at the end.
-/

namespace ShaderIR

namespace Pass

/-- What promotion did. -/
structure Promotion where
  transposition : Transposition := {}
  loads : List Ref := []
  stores : List Ref := []
  promoted : List Ref := []
  phis : List Ref := []
  deriving DecidableEq, Repr

/-- The remarks of promotion, its own given when it promoted any variable. -/
def Promotion.remarks (report : Promotion) (subject : String) : List Remark :=
  report.transposition.remarks subject ++
    if report.promoted.isEmpty then []
    else
      [{ pass := "mem2reg"
         subject
         message :=
          "promoted " ++ toString report.promoted.length ++ " allocas, removed " ++
            toString report.loads.length ++ " loads and " ++ toString report.stores.length ++
            " stores, inserted " ++ toString report.phis.length ++ " phis" }]

/-- The reads and writes of a variable that stay after forwarding inside blocks. -/
structure Accesses where
  address : Ref
  /-- Each block that reads the variable before writing it, with the read. -/
  reads : List (Ref × Ref) := []
  /-- Each block that writes the variable, with its last write. -/
  writes : List (Ref × Ref) := []
  /-- Every write. -/
  stores : List Ref := []
  deriving DecidableEq, Repr

/-- The blocks that write a variable, by their first write. -/
def Accesses.writers (accesses : Accesses) : List Ref :=
  accesses.writes.map (·.1)

/-- The blocks that read a variable before writing it. -/
def Accesses.readers (accesses : Accesses) : List Ref :=
  accesses.reads.map (·.1)

/-- Note a read. -/
def Accesses.addRead (accesses : Accesses) (block load : Ref) : Accesses :=
  { accesses with reads := accesses.reads ++ [(block, load)] }

/-- Note a write, which becomes the last one of its block. -/
def Accesses.addWrite (accesses : Accesses) (block store : Ref) : Accesses :=
  { accesses with
    stores := accesses.stores ++ [store]
    writes :=
      if accesses.writers.contains block then
        accesses.writes.map fun (source, last) =>
          if source = block then (source, store) else (source, last)
      else accesses.writes ++ [(block, store)] }

/-! ## Which variables are promoted -/

/-- Whether all uses of a variable read or write it as a whole. -/
def usesArePlain (address : Ref) : List Use → Edit Bool
  | [] => pure true
  | use :: rest => do
    let user := use.user
    let expected ← Edit.see (·.typeOf address)
    let id ← Edit.see (·.idOf user)
    let target ← Edit.see (·.idOf address)
    match (← Edit.instruction user).opcode with
    | .load =>
      if (← Edit.operand user 0) != some address then return false
      else
        let type ← Edit.see (·.typeOf user)
        Edit.require (type == expected) (.promotedLoad id type target expected)
        usesArePlain address rest
    | .store =>
      let stored ← Edit.operand user 1
      if (← Edit.operand user 0) != some address || stored == some address then return false
      else
        let type ← Edit.typeOfPresent stored
        Edit.require (type == expected) (.promotedStore id type target expected)
        usesArePlain address rest
    | _ => return false

/-- The local variables among some instructions that are only read and written as a whole. -/
def promotable : List Ref → Edit (List Accesses)
  | [] => pure []
  | ref :: rest => do
    let plain ←
      if ← Edit.see (·.isLocalVariable ref) then usesArePlain ref (← Edit.see (·.usesOf ref))
      else pure false
    let others ← promotable rest
    return if plain then { address := ref } :: others else others

/-! ## Forwarding inside a block -/

/-- The state of forwarding: the accesses kept, the reads removed, the values at hand. -/
structure Forwarding where
  accesses : List Accesses
  removed : List Ref := []
  current : List (Ref × Option Ref) := []
  deriving DecidableEq, Repr

/-- Change the accesses of a variable. -/
def Forwarding.note (state : Forwarding) (address : Ref) (change : Accesses → Accesses) :
    Forwarding :=
  { state with
    accesses := state.accesses.map fun entry =>
      if entry.address = address then change entry else entry }

/-- Set the value at hand of a variable. -/
def Forwarding.hold (state : Forwarding) (address : Ref) (value : Option Ref) : Forwarding :=
  { state with current := (address, value) :: state.current.filter (·.1 != address) }

/-- The variable being promoted that an instruction accesses. -/
def Forwarding.accessed? (state : Forwarding) (instruction : Instruction) : Option Ref :=
  (instruction.values.head?.join).filter fun address =>
    state.accesses.any (·.address == address)

/-- Forward to one instruction of a block. -/
def forwardOne (block : Ref) (state : Forwarding) (ref : Ref) : Edit Forwarding := do
  let entry ← Edit.instruction ref
  match entry.opcode, state.accessed? entry with
  | .load, some address =>
    match state.current.lookup address with
    | some value =>
      Edit.replaceUses ref value
      Edit.remove ref
      return { state with removed := state.removed ++ [ref] }
    | none => return (state.hold address (some ref)).note address (·.addRead block ref)
  | .store, some address =>
    let stored ← Edit.operand ref 1
    return (state.hold address stored).note address (·.addWrite block ref)
  | _, _ => return state

/-- Forward inside a block. -/
def forwardBlock (state : Forwarding) (block : Ref) : Edit Forwarding := do
  (← Edit.see (·.instructions block)).foldlM (forwardOne block) { state with current := [] }

/-- The reachable blocks of a function in reverse post-order, then its other blocks. -/
def blocksInOrder (store : Store) (function : Ref) : List Ref :=
  let reachable := store.reversePostOrder function
  let blocks := ((store.function? function).map (·.blocks)).getD []
  reachable ++ blocks.filter (!reachable.contains ·)

/-! ## Promoting one variable -/

/-- Unlink instructions. -/
def removeAll : List Ref → Edit Unit
  | [] => pure ()
  | ref :: rest => do
    Edit.remove ref
    removeAll rest

/-- Remove a variable with its writes. -/
def removeVariable (report : Promotion) (accesses : Accesses) : Edit Promotion := do
  let address := accesses.address
  removeAll accesses.stores
  let uses := (← Edit.see (·.usesOf address)).length
  Edit.require (uses == 0) (.promotedUses (← Edit.see (·.idOf address)) uses)
  Edit.remove address
  return { report with
    stores := report.stores ++ accesses.stores
    promoted := report.promoted ++ [address] }

/-- The blocks on entry to which a variable may still be read before it is written. -/
def liveIn (store : Store) (accesses : Accesses) : List Ref :=
  let writers := accesses.writers
  closure store.values.size
    (fun block => (store.predecessors block).filter (!writers.contains ·))
    accesses.readers

/-- The state of promoting one variable. -/
structure Renaming where
  /-- The phi of each block that got one, in the order of placement. -/
  phis : List (Ref × Ref) := []
  /-- The reads that are left. -/
  reads : List (Ref × Ref)
  /-- The reads replaced, newest first, with what they were replaced by. -/
  replaced : List (Ref × Option Ref) := []
  deriving DecidableEq, Repr

/-- Replace a read by a value. -/
def Renaming.replace (state : Renaming) (load : Ref) (value : Option Ref) : Edit Renaming := do
  Edit.replaceUses load value
  Edit.remove load
  return { state with replaced := (load, value) :: state.replaced }

/-- Place a phi at the head of a block, where it also takes the place of a read. -/
def Renaming.place (state : Renaming) (type : Option Ty) (block : Ref) : Edit Renaming := do
  let phi ← Build.run do
    Build.moveToHead block
    Build.phi type []
  let state := { state with phis := state.phis ++ [(block, phi)] }
  match state.reads.lookup block with
  | none => return state
  | some load =>
    let state ← state.replace load (some phi)
    return { state with reads := state.reads.filter (·.1 != block) }

/-- Place phis at some blocks, in order. -/
def Renaming.placeAll (state : Renaming) (type : Option Ty) : List Ref → Edit Renaming
  | [] => pure state
  | block :: rest => do (← state.place type block).placeAll type rest

/--
Place phis on the iterated dominance frontier of a stack of blocks, at blocks
where the variable is live; each block is stacked when it gets its phi.
-/
def placePhis (tree : DominatorTree) (live : List Ref) (type : Option Ty) :
    Nat → List Ref → Renaming → Edit Renaming
  | 0, _, _ => Edit.endless
  | _ + 1, [], state => pure state
  | bound + 1, block :: stack, state => do
    let new := (tree.frontier block).filter fun target =>
      live.contains target && (state.phis.lookup target).isNone
    let state ← state.placeAll type new
    placePhis tree live type bound (new.reverse ++ stack) state

/-- The value a variable has at the end of a block: that of its last write, else its phi. -/
def outValue? (store : Store) (accesses : Accesses) (state : Renaming) (block : Ref) :
    Option (Option Ref) :=
  match accesses.writes.lookup block with
  | some write => (store.instruction? write).bind (·.operand? 1)
  | none => (state.phis.lookup block).map some

/-- What a value was replaced by, if it is a read that was replaced. -/
def resolve (replaced : List (Ref × Option Ref)) : Nat → Option Ref → Edit (Option Ref)
  | 0, _ => Edit.endless
  | bound + 1, value =>
    match value.bind (replaced.lookup ·) with
    | some next => resolve replaced bound next
    | none => pure value

/-- The value a variable has at the end of a block or of its nearest dominator with one. -/
def reachingValue
    (tree : DominatorTree)
    (accesses : Accesses)
    (state : Renaming)
    (block : Option Ref) : Edit (Option Ref) := do
  let path := (block.map tree.path).getD []
  match ← Edit.see fun store => path.findSome? (outValue? store accesses state) with
  | some value => resolve state.replaced (state.replaced.length + 1) value
  | none =>
    let module ← Edit.demand (← Edit.see (·.moduleOf? accesses.address))
    return some (← Edit.undefined module (← Edit.see (·.typeOf accesses.address)))

/-- Replace each remaining read by the value that reaches its block. -/
def renameReads (tree : DominatorTree) (accesses : Accesses) :
    List (Ref × Ref) → Renaming → Edit Renaming
  | [], state => pure state
  | (block, load) :: rest, state => do
    let value ← reachingValue tree accesses state (tree.parent? block)
    renameReads tree accesses rest (← state.replace load value)

/-- Give a phi the values that leave the predecessors of its block. -/
def fillPhi (tree : DominatorTree) (accesses : Accesses) (state : Renaming) (phi : Ref) :
    List Ref → Edit Unit
  | [] => pure ()
  | predecessor :: rest => do
    let value ← reachingValue tree accesses state (some predecessor)
    Edit.addIncoming phi value (some predecessor)
    fillPhi tree accesses state phi rest

/-- Give each phi its incoming values. -/
def fillPhis (tree : DominatorTree) (accesses : Accesses) (state : Renaming) :
    List (Ref × Ref) → Edit Unit
  | [] => pure ()
  | (block, phi) :: rest => do
    fillPhi tree accesses state phi (← Edit.see (·.predecessors block))
    fillPhis tree accesses state rest

/-- Promote a variable that is still read; answers the report and all phis placed so far. -/
def promoteVariable
    (tree : DominatorTree)
    (progress : Promotion × List Ref)
    (accesses : Accesses) : Edit (Promotion × List Ref) := do
  let (report, placed) := progress
  let live ← Edit.see (liveIn · accesses)
  let type ← Edit.see (·.typeOf accesses.address)
  let writers := (accesses.writers.filter tree.contains).reverse
  let state ← placePhis tree live type (writers.length + tree.blocks.size + 1) writers
    { reads := accesses.reads }
  let state ← renameReads tree accesses state.reads state
  fillPhis tree accesses state state.phis
  let report ← removeVariable report accesses
  return ({ report with loads := report.loads ++ state.replaced.map (·.1) },
    placed ++ state.phis.map (·.2))

/-- Pass over phis once, removing redundant ones; tell whether there was one. -/
def removeRedundantPhis : List Ref → Edit Bool
  | [] => pure false
  | phi :: rest => do
    let removed ← removeRedundantPhi phi
    let others ← removeRedundantPhis rest
    return removed || others

/-- Remove redundant phis until a pass finds none. -/
def simplifyPhis (phis : List Ref) : Nat → Edit Unit
  | 0 => Edit.endless
  | bound + 1 => do
    if ← removeRedundantPhis phis then simplifyPhis phis bound

/-- Promote the variables of a function, transposing its element accesses first. -/
def promote (function : Ref) : Edit Promotion := do
  let transposition ← transpose function
  let accesses ← promotable (← Edit.see (·.traverse function))
  if accesses.isEmpty then return { transposition }
  else
    let blocks ← Edit.see (blocksInOrder · function)
    let state ← blocks.foldlM forwardBlock { accesses }
    let (read, unread) := state.accesses.partition (!·.reads.isEmpty)
    let report ← unread.foldlM removeVariable { transposition, loads := state.removed }
    let tree ← Edit.dominatorTree (some function)
    let (report, placed) ← read.foldlM (promoteVariable tree) (report, [])
    simplifyPhis placed (placed.length + 2)
    return { report with
      phis := ← Edit.see fun store => placed.filter fun phi => (store.blockOf? phi).isSome }

end Pass

end ShaderIR
