import ShaderIR.Machine.Datum

/-!
# How runs end without a result

A run may fail an assertion, reach an unreachable block, discard its fragment,
use up its steps or meet something that has no meaning for it.  All of these
are reported.  A run that reads what is not there gets stuck.
-/

namespace ShaderIR.Machine

/-- Something a run cannot give a meaning to. -/
inductive Unsupported where
  | externalCall (function : Nat)
  | argument (index function : Nat) (kind : String)
  | entryPhi (block : Nat)
  | missingIncoming (phi block : Nat)
  | undefinedValue (id : Nat)
  | notReference (id : Nat)
  | notRayQuery (id : Nat)
  | notBuffer (id : Nat)
  | noTerminator (block : Nat)
  | resourceQuery (code : Nat)
  | resourceRead (code : Nat)
  | resourceWrite (code : Nat)
  | instruction (mnemonic : String)
  | bufferIndices (count : Nat)
  | atomicBase (id : Nat)
  | pipelineQuery (kind : String)
  | notInteger (text : Option Line)
  | unary (operation kind : String)
  | binary (operation kind : String)
  | castTarget (type : String)
  deriving DecidableEq, Repr

/-- The text of an unsupported thing, if it has one. -/
def Unsupported.message? : Unsupported → Option String
  | externalCall function => some ("call to external function %" ++ toString function)
  | argument index function kind =>
    some ("argument " ++ toString index ++ " of function %" ++ toString function ++
      " must be a *Pointer, got " ++ kind)
  | entryPhi block => some ("phi in entry block bb" ++ toString block)
  | missingIncoming phi block =>
    some ("phi %" ++ toString phi ++ " has no incoming for bb" ++ toString block)
  | undefinedValue id => some ("value %" ++ toString id ++ " used before its definition")
  | notReference id => some ("value %" ++ toString id ++ " is not a reference")
  | notRayQuery id => some ("value %" ++ toString id ++ " does not hold a ray query")
  | notBuffer id => some ("value %" ++ toString id ++ " is not a buffer")
  | noTerminator block => some ("block bb" ++ toString block ++ " has no terminator")
  | resourceQuery code => some ("resource query " ++ toString code)
  | resourceRead code => some ("resource read " ++ toString code)
  | resourceWrite code => some ("resource write " ++ toString code)
  | instruction mnemonic => some ("instruction " ++ mnemonic)
  | bufferIndices count =>
    some ("atomic on buffer takes one index, got " ++ toString count)
  | atomicBase id =>
    some ("atomic base %" ++ toString id ++ " is neither a variable nor a buffer")
  | pipelineQuery kind => some ("ray query pipeline on " ++ kind)
  | notInteger text => text.map fun text => "value " ++ text.text ++ " is not an integer"
  | unary operation kind => some ("unsupported unary " ++ operation ++ " on " ++ kind)
  | binary operation kind => some ("unsupported binary " ++ operation ++ " on " ++ kind)
  | castTarget type => some ("cast to non-numeric type " ++ type)

/-- Why a run ends without a result. -/
inductive Halt where
  | assertion (message : String)
  | unreachable (block : Nat) (message : String)
  | discarded
  | stepLimit (limit : Nat)
  | unsupported (cause : Unsupported)
  | stuck
  deriving DecidableEq, Repr

/-- The text of a halt; a stuck run has none, and some texts cannot be shown. -/
def Halt.message? : Halt → Option String
  | assertion message => some (message ++ ": assertion failed")
  | unreachable block message =>
    some ("in bb" ++ toString block ++ ": " ++ message ++ ": unreachable executed")
  | discarded => some "fragment discarded"
  | stepLimit limit => some ("after " ++ toString limit ++ " steps: step limit exceeded")
  | unsupported cause => cause.message?.map (· ++ ": unsupported operation")
  | stuck => none

/-- A computation on the heap that may end the run. -/
abbrev Exec := ExceptT Halt (StateM Heap)

namespace Exec

/-- End the run because something has no meaning. -/
def fail {α : Type} (cause : Unsupported) : Exec α := throw (.unsupported cause)

/-- Get stuck. -/
def stuck {α : Type} : Exec α := throw .stuck

/-- Get stuck unless something is there. -/
def demand {α : Type} : Option α → Exec α
  | some found => pure found
  | none => stuck

/-- Make something in the heap. -/
def make {α : Type} (build : Heap → α × Heap) : Exec α := modifyGet build

end Exec

end ShaderIR.Machine
