import ShaderIR.Proofs.Coherence.Session
import ShaderIR.Proofs.Elimination.AccountingParts
import ShaderIR.Proofs.Layout.Typing
import ShaderIR.Validation

/-!
# Effects are kept

Outside of the blocks that are neutralized, the elimination takes out two kinds of
instructions: those that have no effect besides their result, and stores to variables
that it takes out, too.  A variable goes together with the elements that are derived from
it, and with everything that uses one of these.  Reads are no exception: a variable that
is only read by code which nothing needs goes with that code and all that writes it.
-/

namespace ShaderIR

namespace Store

/-- An element reference to a given base, in a block that is none of those listed. -/
structure ElementOutside (store : Store) (blocks : List Ref) (base element : Ref) : Prop where
  isGep : store.isGep element = true
  head : (store.operands element).head? = some (some base)
  outside : ∃ block, store.blockOf? element = some block ∧ block ∉ blocks

end Store

namespace Pass

open Store Edit Elimination

/--
What an elimination did to a program, `cut` being the blocks that it neutralized: nothing
with an effect is gone from the other blocks but stores to variables that are gone.
-/
structure KeepsEffects (store : Store) (function : Ref) (report : Elimination) (left : Store)
    (cut : List Ref) : Prop where
  /-- As many blocks were neutralized as are reported, none of them without need. -/
  counted : cut.length = report.neutralized
  chosen : ∀ block ∈ cut, store.Concerns function block ∧ ¬store.IsNeutral block
  emptied : ∀ block ∈ cut, left.Emptied block
  /-- The instructions reported as removed are those that were linked and no longer are. -/
  removed : ∀ ref, ref ∈ report.removed ↔ (store.blockOf? ref).isSome ∧ left.blockOf? ref = none
  /-- What was removed from another block has no effect or wrote to a variable that is gone. -/
  expendable : ∀ {ref block}, ref ∈ report.removed → store.blockOf? ref = some block →
    block ∉ cut → left.usesOf ref = [] ∧
      ((store.opcode? ref).any isPure = true ∨
        store.opcode? ref = some .store ∧ left.WritesOff report.removed ref)
  /-- An instruction keeps its operands, unless it is a phi or they are. -/
  operands : ∀ {user} {position : Nat} {operand : Option Ref}, store.isPhi user = false →
    operand.any store.isPhi = false → (store.operands user)[position]? = some operand →
    (left.operands user)[position]? = some operand
  /-- With a variable, what is derived from it is gone, and so is whatever used any of that. -/
  swept : ∀ {address pointer}, store.isVariable address = true →
    left.Discarded report.removed address →
    Relation.ReflTransGen (store.ElementOutside cut) address pointer →
    left.Discarded report.removed pointer ∧
      ∀ user, (store.blockOf? user).isSome → some pointer ∈ store.operands user →
        user ∈ report.removed ∨ store.isPhi user = true
  /-- Everything else stays where it was. -/
  kept : ∀ {ref block}, store.blockOf? ref = some block → block ∉ cut →
    (store.opcode? ref).any isPure = false → store.opcode? ref ≠ some .store →
    left.blockOf? ref = some block

variable {store left : Store} {report : Elimination} {function ref block user pointer : Ref}
  {cut : List Ref}

namespace Accounts

theorem expendable_outside
    (accounts : Accounts store function report left cut)
    (member : ref ∈ report.removed)
    (linked : store.blockOf? ref = some block)
    (outside : block ∉ cut) :
    left.usesOf ref = [] ∧
      ((store.opcode? ref).any isPure = true ∨
        store.opcode? ref = some .store ∧ left.WritesOff report.removed ref) := by
  have present := value?_isSome_of_blockOf? (Option.isSome_of_eq_some linked)
  obtain ⟨unused, reason⟩ := accounts.expendable ref member fun other inside same => by
    cases linked.symm.trans same
    exact outside inside
  rw [accounts.dwindles.isPure present, accounts.dwindles.opcode?_iff present rfl rfl] at reason
  exact ⟨unused, reason⟩

/-- What used a value that nothing uses any more is gone, unless one of them is a phi. -/
theorem removed_of_operand
    (accounts : Accounts store function report left cut)
    (unused : left.usesOf pointer = [])
    (plain : store.isPhi pointer = false)
    (notPhi : store.isPhi user = false)
    (linked : (store.blockOf? user).isSome)
    (operand : some pointer ∈ store.operands user) :
    user ∈ report.removed := by
  refine (accounts.noted user).2 ⟨linked, ?_⟩
  by_contra kept
  obtain ⟨position, atPosition⟩ := List.mem_iff_getElem?.1 operand
  have plain : (some pointer).any store.isPhi = false := plain
  have operand' := accounts.dwindles.stable notPhi plain atPosition
  exact accounts.dwindles.coherent.usesOf_eq_nil_iff.1 unused user
    (Option.isSome_iff_ne_none.2 kept) (List.mem_of_getElem? operand')

/-- With a variable, the elements that are derived from it are gone. -/
theorem discarded_of_derived
    (accounts : Accounts store function report left cut)
    {address : Ref}
    (isVariable : store.isVariable address = true)
    (discarded : left.Discarded report.removed address)
    (derived : Relation.ReflTransGen (store.ElementOutside cut) address pointer) :
    left.Discarded report.removed pointer ∧ store.isPhi pointer = false := by
  induction derived with
  | refl =>
      obtain ⟨space, isAlloca⟩ := isVariable_iff.1 isVariable
      exact ⟨discarded, isPhi_eq_false_of_opcode? isAlloca rfl⟩
  | tail _ element base =>
      obtain ⟨isGep, head, block, linked, outside⟩ := element
      have notPhi := isPhi_eq_false_of_opcode? (isGep_iff.1 isGep) rfl
      have gone := accounts.removed_of_operand base.1.unused base.2 notPhi
        (Option.isSome_of_eq_some linked) (List.mem_of_mem_head? head)
      exact ⟨⟨gone, (accounts.expendable_outside gone linked outside).1⟩, notPhi⟩

theorem keepsEffects (accounts : Accounts store function report left cut) :
    KeepsEffects store function report left cut where
  counted := accounts.counted
  chosen := accounts.chosen
  emptied := accounts.emptied
  removed := accounts.noted
  expendable := accounts.expendable_outside
  operands := accounts.dwindles.stable
  swept := by
    intro address pointer isVariable discarded derived
    obtain ⟨gone, plain⟩ := accounts.discarded_of_derived isVariable discarded derived
    refine ⟨gone, fun user linked operand => ?_⟩
    cases isPhi : store.isPhi user with
    | true => exact .inr rfl
    | false => exact .inl (accounts.removed_of_operand gone.unused plain isPhi linked operand)
  kept := by
    intro ref block linked outside impure notStore
    cases now : left.blockOf? ref with
    | none =>
        have gone := (accounts.noted ref).2 ⟨Option.isSome_of_eq_some linked, now⟩
        rcases (accounts.expendable_outside gone linked outside).2 with isPure | ⟨isStore, -⟩
        · simp [impure] at isPure
        · exact absurd isStore notStore
    | some other =>
        have present := value?_isSome_of_blockOf? (Option.isSome_of_eq_some linked)
        exact (accounts.dwindles.linked present now).symm.trans linked

end Accounts

/-- The whole elimination is accounted for. -/
theorem accounts_of_eliminateDeadCode
    (coherent : store.Coherent)
    (regular : store.Regular)
    (idle : store.StoresIdle function)
    (gives : Gives (eliminateDeadCode function) store report left) :
    ∃ cut, Accounts store function report left cut := by
  replace gives := gives_see_bind_iff.1 gives
  split at gives
  · obtain ⟨rfl, rfl⟩ := gives_pure_iff.1 gives
    exact ⟨[], .start coherent⟩
  · exact (Accounts.start coherent).eliminate coherent regular idle (gives_see_bind_iff.1 gives)

end Pass

/-! ## Sessions -/

namespace Store

variable {store : Store} {function : Ref}

/-- What is checked for all values in order holds of all that are there. -/
theorem check_of_all
    (check : Ref → Bool)
    (all : ((List.range store.values.size).all fun index => check ⟨index⟩) = true)
    {ref : Ref}
    (present : (store.value? ref).isSome) :
    check ref = true :=
  List.all_eq_true.1 all ref.index (List.mem_range.2 (index_lt_of_value? present))

/-- Whether no store is an operand. -/
def idleStores (store : Store) : Bool :=
  (List.range store.values.size).all fun index =>
    store.opcode? ⟨index⟩ != some .store || (store.usesOf ⟨index⟩).isEmpty

theorem storesIdle_of_idleStores (idle : store.idleStores = true) : store.StoresIdle function := by
  intro ref _ isStore
  have checked := check_of_all
    (fun ref => store.opcode? ref != some .store || (store.usesOf ref).isEmpty) idle
    (value?_isSome_of_opcode? isStore)
  simpa [isStore] using checked

end Store

namespace Session

open Store Edit Pass

/--
Eliminating the dead code of a function of a session keeps effects, provided that no store
is an operand, which is no restriction where only values with a type are operands.
-/
theorem eliminateDeadCode_keepsEffects
    {operations : List Operation}
    {function : Ref}
    (idle : (after operations).store.StoresIdle function)
    {report : Elimination}
    {left : Store}
    (gives : Gives (eliminateDeadCode function) (after operations).store report left) :
    ∃ cut, KeepsEffects (after operations).store function report left cut := by
  obtain ⟨cut, accounts⟩ := accounts_of_eliminateDeadCode (after_coherent operations).store
    (after_regular operations) idle gives
  exact ⟨cut, accounts.keepsEffects⟩

/-- An element of a variable, written, and read by a load that nothing needs. -/
def reread : List Operation :=
  let word : Ty := .scalar ⟨0, 0, "i32"⟩ (.signed 4)
  let row : Ty := .array ⟨0, 1, ""⟩ word 2
  [.edit (.addModule "reread"),
    .edit (.createFunction 0 .callable none),
    .edit (.createBody ⟨0⟩),
    .edit (.requestType 0 "i32" (.scalar (.signed 4))),
    .edit (.arrayType 0 (some word) 2),
    .edit (.constantInt32 0 1),
    .edit (.constantBool 0 true),
    .moveToEnd ⟨1⟩, .alloca (some row) .local,
    .gep (some word) (some ⟨4⟩) [some ⟨2⟩],
    .store (some ⟨5⟩) (some ⟨2⟩),
    .load (some word) (some ⟨5⟩),
    .assertTrue (some ⟨3⟩) "",
    .emit .ret none [] (.refl true)]

theorem gives_eliminateDeadCode_reread :
    ∃ report left, Gives (eliminateDeadCode ⟨0⟩) (after reread).store report left ∧
      report.removed = [⟨4⟩, ⟨5⟩, ⟨6⟩, ⟨7⟩] ∧ report.neutralized = 0 := by
  have returns : (outcome (eliminateDeadCode ⟨0⟩) (after reread).store).1.toOption.map
      (fun report => (report.removed, report.neutralized)) = some ([⟨4⟩, ⟨5⟩, ⟨6⟩, ⟨7⟩], 0) := by
    decide +kernel
  rcases run : outcome (eliminateDeadCode ⟨0⟩) (after reread).store with ⟨fault | report, left⟩
  · rw [run] at returns
    cases returns
  · rw [run] at returns
    have counted := Prod.mk.inj (Option.some.inj returns)
    exact ⟨report, left, run, counted.1, counted.2⟩

theorem keepsEffects_reread :
    ∃ report left cut, Gives (eliminateDeadCode ⟨0⟩) (after reread).store report left ∧
      report.removed = [⟨4⟩, ⟨5⟩, ⟨6⟩, ⟨7⟩] ∧
      KeepsEffects (after reread).store ⟨0⟩ report left cut := by
  obtain ⟨report, left, gives, removed, -⟩ := gives_eliminateDeadCode_reread
  have idle : (after reread).store.StoresIdle ⟨0⟩ := storesIdle_of_idleStores (by decide +kernel)
  obtain ⟨cut, keeps⟩ := eliminateDeadCode_keepsEffects idle gives
  exact ⟨report, left, cut, gives, removed, keeps⟩

/--
The program is accepted, and nothing without a type is an operand.  None of its variables
is only written, but the store is removed, although no block is neutralized.
-/
theorem removed_store_reread :
    (after reread).store.validate? 0 = some [] ∧
      ⟨0⟩ ∈ (after reread).store.definitions 0 ∧
      (∀ ref, (after reread).store.isInstruction ref = true →
        (after reread).store.typeOf ref = none → (after reread).store.usesOf ref = []) ∧
      (∀ address, (after reread).store.isVariable address = true →
        ¬(after reread).store.WriteOnly address) ∧
      ∃ report left, Gives (eliminateDeadCode ⟨0⟩) (after reread).store report left ∧
        report.neutralized = 0 ∧
        ∃ ref ∈ report.removed, (after reread).store.opcode? ref = some .store := by
  have accepted : (after reread).store.validate? 0 = some [] := by decide +kernel
  have defined : ⟨0⟩ ∈ (after reread).store.definitions 0 := by decide +kernel
  refine ⟨accepted, defined, fun ref isInstruction untyped => ?_,
    fun address isVariable writeOnly => ?_, ?_⟩
  · have checked := check_of_all (fun ref =>
      !(after reread).store.isInstruction ref || ((after reread).store.typeOf ref).isSome ||
        ((after reread).store.usesOf ref).isEmpty) (by decide +kernel)
      (value?_isSome_of_isInstruction isInstruction)
    simpa [isInstruction, untyped] using checked
  · obtain ⟨space, isAlloca⟩ := isVariable_iff.1 isVariable
    have present := value?_isSome_of_opcode? isAlloca
    have checked := check_of_all (fun ref =>
      !(after reread).store.isVariable ref || !isWriteOnly (after reread).store ref)
      (by decide +kernel) present
    simp [isVariable, (isWriteOnly_iff present).2 writeOnly] at checked
  · obtain ⟨report, left, gives, removed, neutralized⟩ := gives_eliminateDeadCode_reread
    refine ⟨report, left, gives, neutralized, ⟨6⟩, ?_, by decide +kernel⟩
    simp [removed]

end Session

end ShaderIR
