import ShaderIR.Proofs.Elimination.Exclusion
import ShaderIR.Proofs.Machine.Control

/-!
# Excluded targets are never selected

The pass reads a constant condition as a truth value or as an integer and leaves
out the targets that it finds are not selected.  The machine evaluates the same
constant and jumps.  Both read integers alike, whatever their width and sign, and
both read a condition of a branch as true unless its first byte is zero.  Only a
switch on a constant of boolean type is special: the machine makes a truth value
of its payload and an integer of that, whereas the pass reads the payload as an
integer.  These agree on the payloads that truth values have.

An excluded block has no predecessor but the one that never selects it.  Control
that starts elsewhere does not come to it either, unless it is the body, where a
call starts, or blocks of other functions, which do not count as predecessors,
lead to it.
-/

namespace ShaderIR

namespace Store

/-- A terminator that chooses between targets has a constant to choose by. -/
def Determined (store : Store) (entry : Instruction) : Prop :=
  (entry.opcode.isConditional = true ∨ ∃ merge values, entry.opcode = .switch merge values) ∧
    ((entry.values.head?.join).filter store.isConstant).isSome

/-- What a switch of a block reads as a boolean constant is the payload of a truth value. -/
def SwitchesOnTruth (store : Store) (block : Ref) : Prop :=
  ∀ terminator entry constant merge values, store.terminator? block = some terminator →
    store.instruction? terminator = some entry → entry.opcode = .switch merge values →
    entry.values.head?.join = some constant → (store.typeOf constant).any Ty.isBool = true →
    store.payload? constant = some [0] ∨ store.payload? constant = some [1]

end Store

namespace Machine

open Exec

/-- Executing a terminator can send control to a block. -/
def Transfers (program : Store) (entry : Instruction) (target : Ref) : Prop :=
  ∃ settings values heap left,
    outcome (Scene.terminate ⟨program, settings, values⟩ entry) heap =
      (.ok (.jump (some target)), left)

end Machine

/-- Control can move along an edge, at least as far as constant conditions tell. -/
def Store.Selectable (store : Store) (source target : Ref) : Prop :=
  target ∈ store.successors source ∧
    ∀ terminator entry, store.terminator? source = some terminator →
      store.instruction? terminator = some entry → store.Determined entry →
      Machine.Transfers store entry target

/-! ## What the machine makes of a constant -/

namespace Machine

open Exec

variable {scene : Scene} {entry : Instruction} {constant target : Ref} {data : List UInt8}
  {heap left : Heap} {datum : Datum}

theorem eval_constant
    (payload : scene.program.payload? constant = some data)
    (answers : outcome (scene.eval constant) heap = (.ok datum, left)) :
    ∃ type, scene.program.typeOf constant = some type ∧
      constantDatum? type data = some datum ∧ heap = left := by
  obtain ⟨value, between, found, answers⟩ := outcome_bind_eq_ok.1 answers
  obtain ⟨present, rfl⟩ := outcome_demand_eq_ok.1 found
  have content : ∃ digest, value.content = .constant data digest := by
    unfold Store.payload? Store.content? at payload
    rw [present] at payload
    cases held : value.content <;> simp_all
  obtain ⟨digest, content⟩ := content
  simp only [content] at answers
  obtain ⟨read, rfl⟩ := outcome_demand_eq_ok.1 answers
  obtain ⟨type, typed, read⟩ := Option.bind_eq_some_iff.1 read
  refine ⟨type, ?_, read, rfl⟩
  simp [Store.typeOf, present, typed]

theorem evalAt_constant
    (first : entry.values.head?.join = some constant)
    (payload : scene.program.payload? constant = some data)
    (answers : outcome (scene.evalAt entry 0) heap = (.ok datum, left)) :
    ∃ type, scene.program.typeOf constant = some type ∧
      constantDatum? type data = some datum ∧ heap = left := by
  obtain ⟨operand, between, taken, answers⟩ := outcome_bind_eq_ok.1 answers
  obtain ⟨held, rfl⟩ := outcome_demand_eq_ok.1 taken
  have same : operand = some constant := by
    rw [List.head?_eq_getElem?, Instruction.values, List.getElem?_map] at first
    rw [Instruction.operand?] at held
    rw [held] at first
    exact first
  rw [same] at answers
  obtain ⟨ref, _, present, answers⟩ := outcome_bind_eq_ok.1 answers
  obtain ⟨equal, rfl⟩ := outcome_demand_eq_ok.1 present
  cases equal
  exact eval_constant payload answers

/-- The machine and the pass read the same truth value. -/
theorem condition_constant
    {truth answer : Bool}
    (first : entry.values.head?.join = some constant)
    (reads : scene.program.constantBool? constant = some truth)
    (answers : outcome (scene.condition entry) heap = (.ok answer, left)) :
    answer = truth := by
  obtain ⟨data, payload, reads⟩ := Option.bind_eq_some_iff.1 reads
  obtain ⟨datum, between, evaluated, answers⟩ := outcome_bind_eq_ok.1 answers
  obtain ⟨type, typed, read, rfl⟩ := evalAt_constant first payload evaluated
  rw [typed, Option.any_some] at reads
  cases type with
  | scalar tag scalar =>
      split at reads
      · rename_i isBool
        have kind : scalar.kind = .bool := by simpa [Ty.isBool, Ty.scalar?] using isBool
        rw [constantDatum?, Ty.readPayload, scalarDatum?, kind] at read
        obtain ⟨byte, here, rfl⟩ := Option.map_eq_some_iff.1 read
        rw [here] at reads
        cases answers
        simpa using reads
      · cases reads
  | _ => simp [Ty.isBool, Ty.scalar?] at reads

/-- The payloads of truth values are read as zero and one. -/
theorem decodeInt?_of_truth
    {scalar : Scalar}
    {value : Int64}
    {byte : UInt8}
    (kind : scalar.kind = .bool)
    (truth : byte = 0 ∨ byte = 1)
    (reads : scalar.decodeInt? [byte] = some value) :
    value = if byte != 0 then 1 else 0 := by
  unfold Scalar.decodeInt? at reads
  dsimp only at reads
  split at reads
  · cases reads
  · rename_i long
    have single : scalar.readWidth = 1 := by
      rw [List.length_singleton] at long
      have positive : scalar.readWidth ≠ 0 := by
        unfold Scalar.readWidth
        split <;> omega
      omega
    rw [kind, single] at reads
    rcases truth with rfl | rfl <;> cases reads <;> decide

/-- The machine and the pass read the same integer. -/
theorem selector_constant
    {value answer : Int64}
    (truths : (scene.program.typeOf constant).any Ty.isBool = true →
      scene.program.payload? constant = some [0] ∨ scene.program.payload? constant = some [1])
    (first : entry.values.head?.join = some constant)
    (reads : scene.program.constantInt? constant = some value)
    (answers : outcome (scene.evalAt entry 0 >>= toInteger) heap = (.ok answer, left)) :
    answer = value := by
  obtain ⟨data, payload, reads⟩ := Option.bind_eq_some_iff.1 reads
  obtain ⟨datum, between, evaluated, answers⟩ := outcome_bind_eq_ok.1 answers
  obtain ⟨type, typed, read, rfl⟩ := evalAt_constant first payload evaluated
  rw [typed] at reads truths
  cases type with
  | scalar tag scalar =>
      rw [constantDatum?, Ty.readPayload, scalarDatum?] at read
      simp only [Ty.scalar?, Option.bind_eq_bind, Option.bind_some] at reads
      cases kind : scalar.kind <;> rw [kind] at read reads
      case bool =>
        have isBool : (some (Ty.scalar tag scalar)).any Ty.isBool = true := by
          simp [Ty.isBool, Ty.scalar?, kind]
        obtain ⟨byte, here, rfl⟩ := Option.map_eq_some_iff.1 read
        have truth : data = [byte] ∧ (byte = 0 ∨ byte = 1) := by
          rcases truths isBool with same | same <;>
            cases payload.symm.trans same <;> cases here <;> simp
        obtain ⟨rfl, truth⟩ := truth
        cases answers
        exact (decodeInt?_of_truth kind truth reads).symm
      case sint =>
        obtain ⟨number, decoded, rfl⟩ := Option.map_eq_some_iff.1 read
        cases answers
        exact Option.some.inj (decoded.symm.trans reads)
      case uint =>
        obtain ⟨number, decoded, rfl⟩ := Option.map_eq_some_iff.1 read
        cases answers
        rw [Int64.toInt64_toUInt64]
        exact Option.some.inj (decoded.symm.trans reads)
      case float => cases reads
  | _ => cases reads

/-! ## Where the machine goes -/

theorem Scene.getElem?_of_target
    {position : Nat}
    {destination : Option Ref}
    (answers : outcome (scene.target entry position) heap = (.ok (.jump destination), left)) :
    (entry.values.map scene.program.asBlock)[position]? = some destination := by
  obtain ⟨operand, between, taken, answers⟩ := outcome_bind_eq_ok.1 answers
  obtain ⟨held, -⟩ := outcome_demand_eq_ok.1 taken
  cases answers
  rw [Instruction.operand?] at held
  rw [List.getElem?_map, Instruction.values, List.getElem?_map, held]
  rfl

/-- Cases have different values, so a selector takes the target that belongs to it. -/
theorem getElem?_casePosition?
    {values : List Int64}
    {targets : List (Option Ref)}
    {selector : Int64}
    {destination : Option Ref}
    (distinct : values.Nodup)
    (member : (selector, destination) ∈ values.zip (targets.drop 2)) :
    targets[(Scene.casePosition? values selector).getD 1]? = some destination := by
  obtain ⟨index, pair⟩ := List.mem_iff_getElem?.1 member
  obtain ⟨here, there⟩ := List.getElem?_zip_eq_some.1 pair
  obtain ⟨inside, atIndex⟩ := List.getElem?_eq_some_iff.1 here
  have first : values.findIdx? (· == selector) = some index := by
    refine List.findIdx?_eq_some_iff_getElem.2 ⟨inside, by simpa using atIndex, ?_⟩
    intro earlier before matched
    have same : values[earlier] = values[index] := by
      rw [atIndex]
      simpa using matched
    have := (distinct.getElem_inj_iff).1 same
    omega
  rw [List.getElem?_drop] at there
  rw [Scene.casePosition?, first, Option.map_some, Option.getD_some, Nat.add_comm]
  exact there

end Machine

namespace Pass

open Store Edit

variable {store left : Store} {block target : Ref} {choice : StaticChoice} {entry : Instruction}
  {terminator : Ref}

theorem constantInt?_of_chooseCase
    {selector : Ref}
    {targets : List (Option Ref)}
    {position : Nat}
    {values : List Int64}
    {taken : Option (Option Ref)}
    {others : List (Option Ref)}
    (gives : Gives (chooseCase selector targets position values taken others) store choice left) :
    values = [] ∨ ∃ value, store.constantInt? selector = some value := by
  cases values with
  | nil => exact .inl rfl
  | cons value rest =>
      obtain ⟨selected, _, given, -⟩ := gives_bind_iff.1 gives
      exact .inr ⟨_, (gives_intConstant_iff.1 given).1⟩

/-- Where the machine goes is what the pass finds taken. -/
theorem Decides.taken_of_transfers
    (decides : Decides store block (some choice))
    (coherent : store.Coherent)
    (truths : store.SwitchesOnTruth block)
    (ends : store.terminator? block = some terminator)
    (found : store.instruction? terminator = some entry)
    (transfers : Machine.Transfers store entry target) :
    choice.taken = some target := by
  obtain ⟨settings, data, heap, heap', answers⟩ := transfers
  unfold Machine.Scene.terminate at answers
  cases decides with
  | @conditional _ constant _ whenTrue whenFalse truth ends' found' isConditional condition atTrue
      atFalse reads =>
      cases ends.symm.trans ends'
      cases found.symm.trans found'
      obtain ⟨first, -⟩ := Option.filter_eq_some_iff.1 condition
      cases opcode : entry.opcode <;> rw [opcode] at answers isConditional
      case ifElse | condBranch =>
        obtain ⟨answer, between, evaluated, answers⟩ := Machine.Exec.outcome_bind_eq_ok.1 answers
        cases Machine.condition_constant first reads evaluated
        cases truth with
        | true =>
            exact Option.some.inj (atTrue.symm.trans (Machine.Scene.getElem?_of_target answers))
        | false =>
            exact Option.some.inj (atFalse.symm.trans (Machine.Scene.getElem?_of_target answers))
      all_goals cases isConditional
  | @switch _ constant _ merge values _ ends' found' isSwitch condition chooses =>
      cases ends.symm.trans ends'
      cases found.symm.trans found'
      obtain ⟨first, -⟩ := Option.filter_eq_some_iff.1 condition
      have truth := truths terminator entry constant merge values ends found isSwitch first
      have distinct : values.Nodup := by
        have cases := coherent.casesDistinct found
        rwa [isSwitch] at cases
      rw [isSwitch] at answers
      obtain ⟨datum, between, evaluated, answers⟩ := Machine.Exec.outcome_bind_eq_ok.1 answers
      obtain ⟨selector, between', converted, answers⟩ := Machine.Exec.outcome_bind_eq_ok.1 answers
      have evaluated := Machine.Exec.outcome_bind_eq_ok.2 ⟨datum, between, evaluated, converted⟩
      have reads : ∀ {value}, store.constantInt? constant = some value → selector = value :=
        fun reads => Machine.selector_constant truth first reads evaluated
      have goes := Machine.Scene.getElem?_of_target answers
      obtain ⟨-, fallback, atFallback, chosen⟩ := chosen_chooseCase chooses
      rcases chosen.taken with none | ⟨value, equal, member⟩ | ⟨-, asFallback, unmatched⟩
      · cases none
      · rw [reads equal, Machine.getElem?_casePosition? distinct member] at goes
        exact Option.some.inj goes
      · have outside : Machine.Scene.casePosition? values selector = none := by
          rw [Machine.Scene.casePosition?, Option.map_eq_none_iff, List.findIdx?_eq_none_iff]
          intro value member
          rcases constantInt?_of_chooseCase chooses with rfl | ⟨number, equal⟩
          · cases member
          · have different := unmatched value member
            rw [equal, ← reads equal] at different
            simpa using fun same : value = selector => different (same ▸ rfl)
        rw [outside, Option.getD_none, atFallback] at goes
        exact asFallback.trans (Option.some.inj goes)

theorem Decides.determined (decides : Decides store block (some choice)) :
    ∃ terminator entry, store.terminator? block = some terminator ∧
      store.instruction? terminator = some entry ∧ store.Determined entry := by
  cases decides with
  | conditional ends found isConditional condition =>
      exact ⟨_, _, ends, found, .inl isConditional, by rw [condition]; rfl⟩
  | switch ends found isSwitch condition =>
      exact ⟨_, _, ends, found, .inr ⟨_, _, isSwitch⟩, by rw [condition]; rfl⟩

end Pass

namespace Store

open Pass Edit

variable {store left : Store} {block : Ref} {targets : List Ref}

/--
No execution of the terminator of a block goes to a block that is excluded
there.  An excluded block other than the body is not reached along edges that
constant conditions select, if it is not entered from other functions.
-/
theorem Coherent.never_selected_of_excluded
    (coherent : store.Coherent)
    (truths : store.SwitchesOnTruth block)
    (gives : Gives (excludedTargets block) store targets left) :
    ∀ target ∈ targets,
      (∀ terminator entry, store.terminator? block = some terminator →
        store.instruction? terminator = some entry → ¬Machine.Transfers store entry target) ∧
      ∀ function body, store.body? function = some body → target ≠ body →
        (∀ source, store.Reached function source → target ∈ store.successors source →
          store.blockFunction? source = store.blockFunction? target) →
        ¬Relation.ReflTransGen store.Selectable body target := by
  obtain ⟨-, choice, decides, rfl⟩ := gives_excludedTargets_iff.1 gives
  cases choice with
  | none =>
      intro target member
      cases member
  | some choice =>
      intro target member
      obtain ⟨-, notTaken, -, entered⟩ := mem_passedOver_iff.1 member
      have never : ∀ terminator entry, store.terminator? block = some terminator →
          store.instruction? terminator = some entry →
          ¬Machine.Transfers store entry target := by
        intro terminator entry ends found transfers
        exact notTaken (decides.taken_of_transfers coherent truths ends found transfers)
      refine ⟨never, ?_⟩
      intro function body hasBody different within path
      rcases path.cases_tail with same | ⟨source, before, edge, selects⟩
      · exact different same
      · have reached : store.Reached function source :=
          ⟨body, hasBody, Relation.ReflTransGen.mono (fun _ _ step => step.1) _ _ before⟩
        have comes := coherent.mem_predecessors_of_successor edge (within source reached edge)
        rw [entered, List.mem_singleton] at comes
        subst comes
        obtain ⟨terminator, entry, ends, found, determined⟩ := decides.determined
        exact never terminator entry ends found (selects terminator entry ends found determined)

/-- A switch on a truth value, which takes its only case. -/
def affirmed : Store :=
  (Session.after [
    .edit (.addModule "affirmed"),
    .edit (.createFunction 0 .kernel none),
    .edit (.createBody ⟨0⟩),
    .edit (.constantBool 0 true),
    .moveToEnd ⟨1⟩, .switch (some ⟨2⟩),
    .edit (.createCase ⟨3⟩ 1),
    .edit (.createBlockAt ⟨3⟩ (.operand 1)),
    .moveToEnd ⟨4⟩, .emit .ret none [] (.refl true),
    .moveToEnd ⟨5⟩, .emit .ret none [] (.refl true)]).store

theorem never_selected_of_excluded_affirmed :
    affirmed.SwitchesOnTruth ⟨1⟩ ∧
      ∃ left, Gives (excludedTargets ⟨1⟩) affirmed [⟨5⟩] left ∧
        (∀ entry, affirmed.instruction? ⟨3⟩ = some entry →
          ¬Machine.Transfers affirmed entry ⟨5⟩) ∧
        ¬Relation.ReflTransGen affirmed.Selectable ⟨1⟩ ⟨5⟩ := by
  have coherent : affirmed.Coherent := (Session.after_coherent _).store
  have ends : affirmed.terminator? ⟨1⟩ = some ⟨3⟩ := by decide +kernel
  have truths : affirmed.SwitchesOnTruth ⟨1⟩ := by
    intro terminator entry constant merge values ends' found _ first _
    cases ends.symm.trans ends'
    have selector : (affirmed.instruction? ⟨3⟩).map (·.values.head?.join) = some (some ⟨2⟩) := by
      decide +kernel
    rw [found, Option.map_some, first] at selector
    cases selector
    exact .inr (by decide +kernel)
  have answers : (outcome (excludedTargets ⟨1⟩) affirmed).1.toOption = some [⟨5⟩] := by
    decide +kernel
  have gives : Gives (excludedTargets ⟨1⟩) affirmed [⟨5⟩]
      (outcome (excludedTargets ⟨1⟩) affirmed).2 := by
    rcases answered : outcome (excludedTargets ⟨1⟩) affirmed with ⟨failure | targets, left⟩
    · rw [answered] at answers
      cases answers
    · rw [answered] at answers
      cases answers
      exact answered
  obtain ⟨never, unreached⟩ :=
    coherent.never_selected_of_excluded truths gives ⟨5⟩ List.mem_cons_self
  refine ⟨truths, _, gives, fun entry found => never ⟨3⟩ entry ends found, ?_⟩
  refine unreached ⟨0⟩ ⟨1⟩ (by decide +kernel) (by decide) fun source reached _ => ?_
  have within : ∀ source ∈ affirmed.reversePostOrder ⟨0⟩,
      affirmed.blockFunction? source = affirmed.blockFunction? ⟨5⟩ := by
    decide +kernel
  exact within source ((mem_reversePostOrder_iff_reached coherent).2 reached)

end Store

end ShaderIR
