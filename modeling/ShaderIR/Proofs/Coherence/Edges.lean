import ShaderIR.Proofs.Coherence.Invariant
import ShaderIR.Proofs.Traversal.Order

/-!
# Edges of control flow

Successors are read off the operands of a terminator, predecessors off the
use-list of a block.  In a coherent store the two views agree within a function.
-/

namespace ShaderIR

namespace Store

@[simp]
theorem mem_distinct {ref : Ref} {refs : List Ref} : ref ∈ distinct refs ↔ ref ∈ refs := by
  have general : ∀ seen : List Ref,
      ref ∈ refs.foldl (fun seen ref => if seen.contains ref then seen else seen ++ [ref]) seen ↔
        ref ∈ seen ∨ ref ∈ refs := by
    induction refs with
    | nil => simp
    | cons first rest induction =>
        intro seen
        rw [List.foldl_cons, induction]
        by_cases known : first ∈ seen
        · simp only [List.contains_iff_mem, known, if_true, List.mem_cons]
          grind
        · simp only [List.contains_iff_mem, known, if_false, List.mem_append, List.mem_cons,
            List.not_mem_nil, or_false, or_assoc]
  simpa [distinct] using general []

theorem nodup_distinct (refs : List Ref) : (distinct refs).Nodup := by
  have general : ∀ seen : List Ref, seen.Nodup →
      (refs.foldl (fun seen ref => if seen.contains ref then seen else seen ++ [ref])
        seen).Nodup := by
    induction refs with
    | nil => exact fun _ distinct => distinct
    | cons first rest induction =>
        intro seen distinct
        rw [List.foldl_cons]
        refine induction _ ?_
        split
        · exact distinct
        · rename_i unknown
          rw [← List.concat_eq_append]
          exact distinct.concat (by simpa using unknown)
  exact general [] List.nodup_nil

theorem terminator?_eq_some_iff {store : Store} {block terminator : Ref} :
    store.terminator? block = some terminator ↔
      (store.instructions block).getLast? = some terminator ∧
        store.isTerminator terminator = true := by
  simp [terminator?, Option.filter_eq_some_iff]

/-- In a block without earlier terminators, a linked terminator is the one that ends it. -/
theorem terminator?_of_linked
    {store : Store}
    {source terminator : Ref}
    (single : ∀ ref ∈ (store.instructions source).dropLast, store.isTerminator ref = false)
    (member : terminator ∈ store.instructions source)
    (ends : store.isTerminator terminator = true) :
    store.terminator? source = some terminator := by
  have nonempty : store.instructions source ≠ [] := List.ne_nil_of_mem member
  rw [← List.dropLast_append_getLast nonempty, List.mem_append] at member
  refine terminator?_eq_some_iff.2 ⟨?_, ends⟩
  rcases member with earlier | last
  · rw [single terminator earlier] at ends
    cases ends
  · rw [List.mem_singleton.1 last, List.getLast?_eq_some_getLast nonempty]

theorem asBlock_eq_some_iff {store : Store} {operand : Option Ref} {block : Ref} :
    store.asBlock operand = some block ↔ operand = some block ∧ store.isBlock block = true := by
  simp [asBlock, Option.filter_eq_some_iff]

theorem mem_successors_iff {store : Store} {source target : Ref} :
    target ∈ store.successors source ↔
      ∃ terminator, store.terminator? source = some terminator ∧
        some target ∈ store.operands terminator ∧ store.isBlock target = true := by
  unfold successors
  split
  · simp_all
  · rename_i terminator found
    simp only [mem_distinct, List.mem_filterMap, asBlock_eq_some_iff, found, Option.some.injEq,
      exists_eq_left']
    constructor
    · rintro ⟨_, member, rfl, isBlock⟩
      exact ⟨member, isBlock⟩
    · rintro ⟨member, isBlock⟩
      exact ⟨_, member, rfl, isBlock⟩

theorem mem_instructions_of_terminator?
    {store : Store}
    {block terminator : Ref}
    (found : store.terminator? block = some terminator) :
    terminator ∈ store.instructions block :=
  List.mem_of_getLast? (terminator?_eq_some_iff.1 found).1

theorem some_mem_operands_iff {store : Store} {user value : Ref} :
    some value ∈ store.operands user ↔
      ∃ entry, store.instruction? user = some entry ∧
        ∃ slot ∈ entry.operands, slot.value = some value := by
  simp only [operands, Instruction.values]
  cases store.instruction? user <;> simp

/-- A successor lies in the module of its source. -/
theorem Coherent.moduleOf?_successor
    {store : Store}
    (coherent : store.Coherent)
    {source target : Ref}
    (edge : target ∈ store.successors source) :
    store.moduleOf? target = store.moduleOf? source := by
  obtain ⟨terminator, last, operand, -⟩ := mem_successors_iff.1 edge
  obtain ⟨entry, found, slot, member, holds⟩ := some_mem_operands_iff.1 operand
  have linked := (coherent.mem_members source terminator).1 (mem_instructions_of_terminator? last)
  exact (coherent.operandPool found slot member target holds).trans (coherent.memberPool linked)

/-- Control stays in a module. -/
theorem Coherent.moduleOf?_of_reaches
    {store : Store}
    (coherent : store.Coherent)
    {source target : Ref}
    (reaches : store.Reaches source target) :
    store.moduleOf? target = store.moduleOf? source := by
  induction reaches with
  | refl => rfl
  | tail _ edge induction => exact (coherent.moduleOf?_successor edge).trans induction

/-! ## Users of a value -/

section Users

variable {store : Store} {ref user : Ref}

theorem Coherent.exists_use_iff (coherent : store.Coherent) :
    (∃ use ∈ store.usesOf ref, use.user = user) ↔
      (store.blockOf? user).isSome ∧ some ref ∈ store.operands user := by
  constructor
  · rintro ⟨use, member, rfl⟩
    obtain ⟨entry, found, linked, slot⟩ := (coherent.mem_uses ref use).1 member
    refine ⟨by simpa [blockOf?, found] using linked, ?_⟩
    exact some_mem_operands_iff.2 ⟨entry, found, _, slot, rfl⟩
  · rintro ⟨linked, operand⟩
    obtain ⟨entry, found, slot, member, holds⟩ := some_mem_operands_iff.1 operand
    have linked : entry.block.isSome := by simpa [blockOf?, found] using linked
    refine ⟨⟨user, slot.key⟩, (coherent.mem_uses ref _).2 ⟨entry, found, linked, ?_⟩, rfl⟩
    rw [← holds]
    exact member

theorem Coherent.usesOf_eq_nil_iff (coherent : store.Coherent) :
    store.usesOf ref = [] ↔
      ∀ user, (store.blockOf? user).isSome → some ref ∉ store.operands user := by
  rw [List.eq_nil_iff_forall_not_mem]
  constructor
  · intro unused user linked operand
    obtain ⟨use, member, -⟩ := coherent.exists_use_iff.2 ⟨linked, operand⟩
    exact unused use member
  · intro unused use member
    obtain ⟨linked, operand⟩ := coherent.exists_use_iff.1 ⟨use, member, rfl⟩
    exact unused _ linked operand

end Users

/-! ## Predecessors -/

section Predecessors

variable {store : Store} {block source : Ref}

/-- A predecessor of a block has a linked terminator that targets the block. -/
theorem Coherent.mem_predecessors_iff (coherent : store.Coherent) :
    source ∈ store.predecessors block ↔
      ∃ terminator, store.blockOf? terminator = some source ∧
        store.isTerminator terminator = true ∧ some block ∈ store.operands terminator ∧
        store.blockFunction? source = store.blockFunction? block := by
  unfold predecessors
  rw [mem_distinct, List.mem_filterMap]
  constructor
  · rintro ⟨use, listed, found⟩
    split at found
    · rename_i isTerminator
      obtain ⟨linked, owner⟩ := Option.filter_eq_some_iff.1 found
      obtain ⟨entry, held, -, member⟩ := (coherent.mem_uses block use).1 listed
      refine ⟨use.user, linked, isTerminator, ?_, by simpa using owner⟩
      exact some_mem_operands_iff.2 ⟨entry, held, _, member, rfl⟩
    · cases found
  · rintro ⟨terminator, linked, isTerminator, operand, owner⟩
    obtain ⟨entry, held, slot, member, holds⟩ := some_mem_operands_iff.1 operand
    have isLinked : entry.block.isSome := by
      rw [blockOf?, held] at linked
      simp only [Option.bind_some] at linked
      simp [linked]
    refine ⟨⟨terminator, slot.key⟩, (coherent.mem_uses block _).2 ⟨entry, held, isLinked, ?_⟩, ?_⟩
    · rw [← holds]
      exact member
    · rw [if_pos isTerminator]
      exact Option.filter_eq_some_iff.2 ⟨linked, by simpa using owner⟩

/-- Where control can move to a block of the same function, it comes from a predecessor. -/
theorem Coherent.mem_predecessors_of_successor
    (coherent : store.Coherent)
    (edge : block ∈ store.successors source)
    (owner : store.blockFunction? source = store.blockFunction? block) :
    source ∈ store.predecessors block := by
  obtain ⟨terminator, last, operand, -⟩ := mem_successors_iff.1 edge
  refine coherent.mem_predecessors_iff.2 ⟨terminator, ?_, ?_, operand, owner⟩
  · exact (coherent.mem_members source terminator).1 (mem_instructions_of_terminator? last)
  · exact (terminator?_eq_some_iff.1 last).2

end Predecessors

end Store

end ShaderIR
