import Mathlib.Data.List.TakeWhile
import ShaderIR.Pipeline
import ShaderIR.Proofs.Coherence.Session
import ShaderIR.Proofs.Elimination.Liveness

/-!
# Passes that always succeed

Hoisting moves variables inside their function, and removing callables takes them
out of a list.  In a coherent store nothing refuses either of them, so both passes
come to an end without an error on every module.
-/

namespace ShaderIR

open Store Edit Build

/-! ## Moving an instruction -/

/-- An instruction has come to a block, and nothing else has changed. -/
structure Store.Relocates (store : Store) (ref block : Ref) (left : Store) : Prop where
  coherent : left.Coherent
  placed : left.blockOf? ref = some block
  others : ∀ other, other ≠ ref → left.instruction? other = store.instruction? other
  pools : ∀ other, left.moduleOf? other = store.moduleOf? other
  blocks : ∀ other, left.isBlock other = store.isBlock other

variable {store left : Store} {ref block : Ref} {entry : Instruction} {after : Option Ref}

/-- A linked instruction can be unlinked. -/
theorem exists_gives_remove
    {home : Ref}
    (coherent : store.Coherent)
    (found : store.instruction? ref = some entry)
    (linked : entry.block = some home) :
    ∃ left, Gives (Edit.remove ref) store () left ∧
      store.Rewires ref { entry with block := none } left := by
  refine ⟨_, gives_instruction_bind_iff.2 ⟨entry, found, ?_⟩,
    coherent.rewires_removed found linked⟩
  rw [linked]
  exact rfl

/-- A detached instruction can be linked into a block of its module, after one that is there. -/
theorem exists_gives_insertInto
    (coherent : store.Coherent)
    (found : store.instruction? ref = some entry)
    (detached : entry.block = none)
    (isBlock : store.isBlock block = true)
    (pool : store.moduleOf? ref = store.moduleOf? block)
    (position : ∀ previous ∈ after, store.blockOf? previous = some block) :
    ∃ left, Gives (insertInto block ref after) store () left ∧
      store.Rewires ref { entry with block := some block } left := by
  have prepared : ∀ {next : Instruction → Edit Unit} {left},
      Gives (next entry) store () left →
      Gives (do
        require (← see fun store => store.moduleOf? ref == store.moduleOf? block) .blockPool
        let entry ← instruction ref
        require entry.block.isNone .alreadyLinked
        next entry) store () left := by
    intro next left given
    refine gives_see_bind_iff.2 (gives_bind_iff.2
      ⟨(), store, gives_require_iff.2 ⟨by simpa using pool, rfl⟩, ?_⟩)
    refine gives_instruction_bind_iff.2 ⟨entry, found, ?_⟩
    exact gives_bind_iff.2 ⟨(), store, gives_require_iff.2 ⟨by simp [detached], rfl⟩, given⟩
  cases after with
  | none =>
      exact ⟨_, prepared rfl,
        coherent.rewires_inserted found detached isBlock pool (List.nil_append _).symm rfl⟩
  | some previous =>
      have placed := position previous rfl
      refine ⟨_, prepared ?_, coherent.rewires_insertedAfter found detached pool placed⟩
      refine gives_see_bind_iff.2 (gives_bind_iff.2
        ⟨(), store, gives_require_iff.2 ⟨by simpa using placed, rfl⟩, ?_⟩)
      exact rfl

theorem Store.Rewires.isBlock
    {user : Ref}
    {changed : Instruction}
    (rewires : store.Rewires user changed left)
    (other : Ref) :
    left.isBlock other = store.isBlock other :=
  isBlock_eq_of_blockFunction? (rewires.owners other)

theorem yields_cursorBlock (block : Ref) (after : Option Ref) (store : Store) :
    Yields cursorBlock ⟨some block, after⟩ store block ⟨some block, after⟩ store := by
  refine yields_bind_iff.2 ⟨_, _, store, yields_get_iff.2 ⟨rfl, rfl, rfl⟩, ?_⟩
  exact yields_pure_iff.2 ⟨rfl, rfl, rfl⟩

/-- Building steps can move an instruction to their position in a block of its module. -/
theorem exists_yields_move
    {home : Ref}
    (coherent : store.Coherent)
    (linked : store.blockOf? ref = some home)
    (isBlock : store.isBlock block = true)
    (pool : store.moduleOf? ref = store.moduleOf? block)
    (position : ∀ previous ∈ after, previous ≠ ref ∧ store.blockOf? previous = some block) :
    ∃ left, Yields (Build.move ref) ⟨some block, after⟩ store () ⟨some block, some ref⟩ left ∧
      store.Relocates ref block left := by
  obtain ⟨entry, found, linked⟩ := blockOf?_eq_some_iff.1 linked
  obtain ⟨between, removed, unlinks⟩ := exists_gives_remove coherent found linked
  have position' : ∀ previous ∈ after, between.blockOf? previous = some block := by
    intro previous isAfter
    obtain ⟨different, placed⟩ := position previous isAfter
    rw [blockOf?, unlinks.others previous different]
    exact placed
  obtain ⟨left, inserted, links⟩ := exists_gives_insertInto (unlinks.coherent coherent)
    unlinks.self rfl ((unlinks.isBlock block).trans isBlock)
    ((unlinks.pools ref).trans (pool.trans (unlinks.pools block).symm)) position'
  refine ⟨left, ?_, ?_⟩
  · refine yields_bind_iff.2 ⟨block, _, store, yields_cursorBlock block after store, ?_⟩
    refine yields_bind_iff.2 ⟨(), _, between, yields_lift_iff.2 ⟨removed, rfl⟩, ?_⟩
    refine yields_bind_iff.2 ⟨block, _, between, yields_cursorBlock block after between, ?_⟩
    refine yields_bind_iff.2 ⟨_, _, between, yields_get_iff.2 ⟨rfl, rfl, rfl⟩, ?_⟩
    refine yields_bind_iff.2 ⟨(), _, left, yields_lift_iff.2 ⟨inserted, rfl⟩, ?_⟩
    exact yields_modify_iff.2 ⟨rfl, rfl⟩
  · constructor
    case coherent => exact links.coherent (unlinks.coherent coherent)
    case placed => rw [blockOf?, links.self]; rfl
    case others =>
      intro other different
      rw [links.others other different, unlinks.others other different]
    case pools => exact fun other => (links.pools other).trans (unlinks.pools other)
    case blocks => exact fun other => (links.isBlock other).trans (unlinks.isBlock other)

namespace Pass

/-! ## Hoisting -/

/-- Linked instructions can be moved to a position one after the other. -/
theorem exists_yields_moveAll
    {refs : List Ref}
    (coherent : store.Coherent)
    (isBlock : store.isBlock block = true)
    (distinct : refs.Nodup)
    (linked : ∀ ref ∈ refs,
      (store.blockOf? ref).isSome ∧ store.moduleOf? ref = store.moduleOf? block)
    (position : ∀ previous ∈ after, previous ∉ refs ∧ store.blockOf? previous = some block) :
    ∃ moved left, Yields (moveAll refs) ⟨some block, after⟩ store () moved left ∧
      left.Coherent := by
  induction refs generalizing after store with
  | nil => exact ⟨_, store, yields_pure_iff.2 ⟨rfl, rfl, rfl⟩, coherent⟩
  | cons first rest induction =>
      obtain ⟨fresh, distinct⟩ := List.nodup_cons.1 distinct
      obtain ⟨isLinked, pool⟩ := linked first List.mem_cons_self
      obtain ⟨home, isLinked⟩ := Option.isSome_iff_exists.1 isLinked
      obtain ⟨between, moves, relocates⟩ := exists_yields_move coherent isLinked isBlock pool
        fun previous isAfter =>
          ⟨fun same => (position previous isAfter).1 (same ▸ List.mem_cons_self),
            (position previous isAfter).2⟩
      have linked' : ∀ ref ∈ rest,
          (between.blockOf? ref).isSome ∧ between.moduleOf? ref = between.moduleOf? block := by
        intro ref member
        have different : ref ≠ first := fun same => fresh (same ▸ member)
        rw [blockOf?, relocates.others ref different, relocates.pools, relocates.pools]
        exact linked ref (List.mem_cons_of_mem first member)
      have position' : ∀ previous ∈ some first,
          previous ∉ rest ∧ between.blockOf? previous = some block := by
        rintro _ ⟨⟩
        exact ⟨fresh, relocates.placed⟩
      obtain ⟨moved, left, others, coherent'⟩ := induction relocates.coherent
        ((relocates.blocks block).trans isBlock) distinct linked' position'
      exact ⟨moved, left, yields_bind_iff.2 ⟨(), _, between, moves, others⟩, coherent'⟩

theorem yields_moveAfterPhis (coherent : store.Coherent) (block : Ref) (cursor : Cursor) :
    Yields (moveAfterPhis block) cursor store ()
      { block := some block, after := (store.phis block).getLast? } store := by
  refine yields_bind_iff.2
    ⟨_, cursor, store, yields_lift_iff.2 ⟨gives_see_iff.2 ⟨rfl, rfl⟩, rfl⟩, ?_⟩
  cases last : (store.phis block).getLast? with
  | none => exact yields_set_iff.2 ⟨rfl, rfl⟩
  | some phi =>
      have member : phi ∈ store.instructions block :=
        (List.takeWhile_prefix _).subset (List.mem_of_getLast? last)
      have placed := (coherent.mem_members block phi).1 member
      refine yields_bind_iff.2 ⟨(phi, block), cursor, store, yields_lift_iff.2
        ⟨gives_linkedBlock_iff.2 ⟨rfl, placed, rfl⟩, rfl⟩, ?_⟩
      exact yields_set_iff.2 ⟨rfl, rfl⟩

theorem not_isVariable_of_isPhi (isPhi : store.isPhi ref = true) :
    store.isVariable ref = false := by
  unfold isVariable
  unfold Store.isPhi at isPhi
  cases found : store.opcode? ref with
  | none => rfl
  | some opcode =>
      rw [found] at isPhi
      cases opcode <;> first | rfl | cases isPhi

section Hoisting

variable {function body : Ref}

/-- The variables of a function are linked, and live in the module of its body. -/
theorem linked_of_mem_variables
    (coherent : store.Coherent)
    (hasBody : store.body? function = some body) :
    ∀ ref ∈ (store.traverse function).filter store.isVariable,
      (store.blockOf? ref).isSome ∧ store.moduleOf? ref = store.moduleOf? body := by
  intro ref member
  obtain ⟨block, ⟨body', hasBody', reaches⟩, inside⟩ :=
    coherent.mem_traverse_iff.1 (List.mem_of_mem_filter member)
  cases hasBody.symm.trans hasBody'
  have placed := (coherent.mem_members block ref).1 inside
  exact ⟨by simp [placed], (coherent.memberPool placed).trans
    (coherent.moduleOf?_of_reaches reaches)⟩

theorem not_mem_phis_of_mem_variables :
    ∀ ref ∈ (store.traverse function).filter store.isVariable, ref ∉ store.phis body := by
  intro ref member isPhi
  have isVariable := List.of_mem_filter member
  rw [not_isVariable_of_isPhi (List.mem_takeWhile_imp isPhi)] at isVariable
  cases isVariable

theorem isBlock_of_body? (coherent : store.Coherent) (hasBody : store.body? function = some body) :
    store.isBlock body = true := by
  obtain ⟨entry, found, isBody⟩ := Option.bind_eq_some_iff.1 hasBody
  exact isBlock_iff_blockFunction?.2 (by simp [coherent.bodyOwner found isBody])

/-- A function without variables is left as it is. -/
theorem gives_hoistVariables_of_none
    (none : (store.traverse function).filter store.isVariable = []) :
    Gives (hoistVariables function) store 0 store := by
  refine gives_see_bind_iff.2 ?_
  rw [if_pos (List.isEmpty_iff.2 none)]
  exact gives_pure_iff.2 ⟨rfl, rfl⟩

/-- Hoisting moves the variables of a function behind the phis of its body. -/
theorem gives_hoistVariables_of_moves
    {moved : Cursor}
    (coherent : store.Coherent)
    (hasBody : store.body? function = some body)
    (some : (store.traverse function).filter store.isVariable ≠ [])
    (moves : Yields (moveAll ((store.traverse function).filter store.isVariable))
      ⟨body, (store.phis body).getLast?⟩ store () moved left) :
    Gives (hoistVariables function) store
      ((store.traverse function).filter store.isVariable).length left := by
  refine gives_see_bind_iff.2 ?_
  rw [if_neg (mt List.isEmpty_iff.1 some)]
  refine gives_see_bind_iff.2 (gives_demand_bind_iff.2 ⟨body, hasBody, ?_⟩)
  refine gives_bind_iff.2 ⟨(), left, yields_run_iff.2 ⟨moved, ?_⟩, gives_pure_iff.2 ⟨rfl, rfl⟩⟩
  exact yields_bind_iff.2 ⟨(), _, store, yields_moveAfterPhis coherent body {}, moves⟩

/-- Hoisting the variables of a function is never refused. -/
theorem exists_gives_hoistVariables (coherent : store.Coherent) (function : Ref) :
    ∃ count left, Gives (hoistVariables function) store count left ∧ left.Coherent := by
  by_cases none : (store.traverse function).filter store.isVariable = []
  · exact ⟨0, store, gives_hoistVariables_of_none none, coherent⟩
  · obtain ⟨first, member⟩ := List.exists_mem_of_ne_nil _ none
    obtain ⟨-, ⟨body, hasBody, -⟩, -⟩ :=
      coherent.mem_traverse_iff.1 (List.mem_of_mem_filter member)
    have position : ∀ previous ∈ (store.phis body).getLast?,
        previous ∉ (store.traverse function).filter store.isVariable ∧
          store.blockOf? previous = some body := by
      intro previous isLast
      have isPhi : previous ∈ store.phis body := List.mem_of_getLast? isLast
      exact ⟨fun member => not_mem_phis_of_mem_variables previous member isPhi,
        (coherent.mem_members body previous).1 ((List.takeWhile_prefix _).subset isPhi)⟩
    obtain ⟨moved, left, moves, coherent'⟩ := exists_yields_moveAll coherent
      (isBlock_of_body? coherent hasBody) ((coherent.nodup_traverse function).filter _)
      (linked_of_mem_variables coherent hasBody) position
    exact ⟨_, left, gives_hoistVariables_of_moves coherent hasBody none moves, coherent'⟩

end Hoisting

/-! ## Removing callables -/

theorem exists_gives_removeFunctions (module : Nat) (functions : List Ref) (store : Store) :
    ∃ left, Gives (removeFunctions module functions) store () left := by
  induction functions generalizing store with
  | nil => exact ⟨store, gives_pure_iff.2 ⟨rfl, rfl⟩⟩
  | cons function rest induction =>
      have removes : ∃ between, Gives (removeFunction module function) store () between := by
        simp only [removeFunction, gives_see_bind_iff]
        split
        · simp only [gives_bind_iff, gives_modify_iff]
          exact ⟨_, (), _, rfl, rfl⟩
        · exact ⟨store, gives_pure_iff.2 ⟨rfl, rfl⟩⟩
      obtain ⟨between, removes⟩ := removes
      obtain ⟨left, others⟩ := induction between
      exact ⟨left, gives_bind_iff.2 ⟨(), between, removes, others⟩⟩

theorem exists_gives_removeUnusedCallables (module : Nat) (store : Store) :
    ∃ report left, Gives (removeUnusedCallables module) store report left := by
  obtain ⟨left, removes⟩ := exists_gives_removeFunctions module (store.unusedCallables module) store
  exact ⟨_, left, gives_see_bind_iff.2
    (gives_bind_iff.2 ⟨(), left, removes, gives_pure_iff.2 ⟨rfl, rfl⟩⟩)⟩

end Pass

/-! ## Pipelines -/

namespace Pipeline

variable {α β : Type}

/-- A pipeline ends without an error: with an answer, and leaving a store. -/
def Returns (run : Pipeline α) (store : Store) (answer : α) (left : Store) : Prop :=
  run.run.run store = (.ok answer, left)

theorem returns_bind
    {run : Pipeline α}
    {next : α → Pipeline β}
    {between : Store}
    {found : α}
    {answer : β}
    (first : Returns run store found between)
    (second : Returns (next found) between answer left) :
    Returns (run >>= next) store answer left := by
  unfold Returns at first
  simp only [Returns, ExceptT.run_bind, StateT.run_bind, first]
  exact second

theorem returns_attempt
    {refuse : Violation → PipelineError}
    {edit : Edit α}
    {answer : α}
    (gives : Gives edit store answer left) :
    Returns (attempt refuse edit) store answer left := by
  have ran : edit.run.run store = (.ok answer, left) := gives
  simp only [Returns, attempt, ExceptT.run_mk, StateT.run_bind, ran]
  rfl

theorem exists_returns_hoistEach (functions : List Ref) (coherent : store.Coherent) :
    ∃ remarks left, Returns (onEach .hoistVariables functions) store remarks left ∧
      left.Coherent := by
  induction functions generalizing store with
  | nil => exact ⟨[], store, rfl, coherent⟩
  | cons function rest induction =>
      obtain ⟨count, between, hoists, coherent⟩ :=
        Pass.exists_gives_hoistVariables coherent function
      obtain ⟨remarks, left, others, coherent⟩ := induction coherent
      have runs : Gives (Pass.runOn .hoistVariables function) store [] between := by
        refine gives_see_bind_iff.2 (gives_bind_iff.2 ⟨count, between, hoists, ?_⟩)
        exact gives_pure_iff.2 ⟨rfl, rfl⟩
      have seen : Returns (get : Pipeline Store) store store store := rfl
      exact ⟨remarks, left, returns_bind seen
        (returns_bind (returns_attempt runs) (returns_bind others rfl)), coherent⟩

/-- On every module, hoisting variables and removing callables end without an error. -/
theorem exists_returns_runPass (coherent : store.Coherent) (module : Nat) :
    (∃ remarks left, Returns (runPass .hoistVariables module) store remarks left) ∧
      ∃ remarks left, Returns (runPass .removeUnusedCallables module) store remarks left := by
  constructor
  · obtain ⟨remarks, left, hoists, -⟩ :=
      exists_returns_hoistEach (store.definitions module) coherent
    exact ⟨remarks, left, hoists⟩
  · obtain ⟨report, left, removes⟩ := Pass.exists_gives_removeUnusedCallables module store
    exact ⟨report.remarks, left, returns_bind (returns_attempt removes) rfl⟩

/-- A kernel with a variable in its second block, and a callable that it does not need. -/
def sheltered : Store :=
  let truth : Ty := .scalar ⟨0, 0, "bool"⟩ ⟨.bool, 1⟩
  (Session.after [
    .edit (.addModule "sheltered"),
    .edit (.createFunction 0 .kernel none),
    .edit (.createBody ⟨0⟩),
    .edit (.createBlock ⟨0⟩),
    .edit (.createFunction 0 .callable none),
    .edit (.constantBool 0 false),
    .moveToEnd ⟨1⟩, .emit .branch none [some ⟨2⟩] (.refl true),
    .moveToEnd ⟨2⟩, .alloca (some truth) .local, .emit .ret none [] (.refl true)]).store

theorem exists_returns_sheltered :
    (sheltered.traverse ⟨0⟩).filter sheltered.isVariable = [⟨6⟩] ∧
      sheltered.unusedCallables 0 = [⟨3⟩] ∧
      (∃ remarks left, Returns (runPass .hoistVariables 0) sheltered remarks left) ∧
      ∃ remarks left, Returns (runPass .removeUnusedCallables 0) sheltered remarks left := by
  have coherent : sheltered.Coherent := (Session.after_coherent _).store
  exact ⟨by decide +kernel, by decide +kernel, exists_returns_runPass coherent 0⟩

end Pipeline

end ShaderIR
