import ShaderIR.Proofs.Control.Dominance
import ShaderIR.Proofs.Dominance.Fixpoint

/-!
# Blocks and their positions

The dominator tree is found on positions in reverse post-order.  Positions and
reachable blocks correspond to each other, and so do the edges between them when
the function keeps to itself: its reachable blocks belong to it, and terminators
stand at the end of them.  Then paths between positions are paths between
blocks, and the ancestors in the table of immediate dominators are dominators.
-/

namespace ShaderIR

namespace Store

/-- The reachable blocks of a function belong to it and have terminators at the end only. -/
structure Confined (store : Store) (function : Ref) : Prop where
  owned : ∀ block, store.Reached function block → store.blockFunction? block = some function
  ended : ∀ block, store.Reached function block →
    ∀ ref ∈ (store.instructions block).dropLast, store.isTerminator ref = false

/-- A block stands at a position in reverse post-order. -/
def At (store : Store) (function : Ref) (position : Nat) (block : Ref) : Prop :=
  (store.reversePostOrder function)[position]? = some block

/-- The positions that control comes from, for every position in reverse post-order. -/
abbrev sourcesOf (store : Store) (function : Ref) : Array (List Nat) :=
  store.predecessorPositions (store.reversePostOrder function).toArray

variable {store : Store} {function body block other : Ref} {position place : Nat}

namespace At

theorem block_eq
    (stands : store.At function position block)
    (stands' : store.At function position other) :
    block = other :=
  Option.some.inj (stands.symm.trans stands')

theorem lt_size (stands : store.At function position block) :
    position < (store.sourcesOf function).size := by
  have inside := (List.getElem?_eq_some_iff.1 stands).1
  simpa [predecessorPositions] using inside

end At

theorem exists_at (inside : position < (store.sourcesOf function).size) :
    ∃ block, store.At function position block := by
  have inside : position < (store.reversePostOrder function).length := by
    simpa [predecessorPositions] using inside
  exact ⟨_, List.getElem?_eq_getElem inside⟩

section Listed

variable (coherent : store.Coherent)

include coherent

theorem At.position_eq
    (stands : store.At function position block)
    (stands' : store.At function place block) :
    position = place := by
  have inside := (List.getElem?_eq_some_iff.1 stands).1
  exact (List.getElem?_inj inside (nodup_reversePostOrder coherent function)).1
    (stands.trans stands'.symm)

theorem exists_at_iff_reached :
    (∃ position, store.At function position block) ↔ store.Reached function block := by
  rw [← mem_reversePostOrder_iff_reached coherent]
  exact List.mem_iff_getElem?.symm

theorem At.reached (stands : store.At function position block) : store.Reached function block :=
  (exists_at_iff_reached coherent).1 ⟨position, stands⟩

/-- Whether a function keeps to itself is seen from the blocks in reverse post-order. -/
theorem confined_iff :
    store.Confined function ↔
      ∀ block ∈ store.reversePostOrder function,
        store.blockFunction? block = some function ∧
          ∀ ref ∈ (store.instructions block).dropLast, store.isTerminator ref = false := by
  constructor
  · intro confined block member
    have reached := (mem_reversePostOrder_iff_reached coherent).1 member
    exact ⟨confined.owned block reached, confined.ended block reached⟩
  · intro listed
    constructor
    · intro block reached
      exact (listed block ((mem_reversePostOrder_iff_reached coherent).2 reached)).1
    · intro block reached
      exact (listed block ((mem_reversePostOrder_iff_reached coherent).2 reached)).2

theorem idxOf?_eq_some_iff_at :
    (store.reversePostOrder function).toArray.idxOf? block = some position ↔
      store.At function position block := by
  rw [List.idxOf?_toArray]
  constructor
  · intro found
    rcases List.idxOf?_eq_some_iff.1 found with ⟨inside, same, -⟩
    exact List.getElem?_eq_some_iff.2 ⟨inside, same⟩
  · intro stands
    cases found : (store.reversePostOrder function).idxOf? block with
    | none => exact absurd (List.mem_of_getElem? stands) (List.idxOf?_eq_none_iff.1 found)
    | some place =>
        rcases List.idxOf?_eq_some_iff.1 found with ⟨inside, same, -⟩
        rw [stands.position_eq coherent (List.getElem?_eq_some_iff.2 ⟨inside, same⟩)]

theorem at_zero (hasBody : store.body? function = some body) : store.At function 0 body := by
  have first := (sourced_reversePostOrder coherent hasBody).getElem?_reverse_zero
  rwa [List.reverse_reverse] at first

end Listed

/-! ## Edges -/

section Edges

variable (coherent : store.Coherent)
  (confined : store.Confined function)

include confined

/-- A terminator in a reachable block is the one that the block ends with. -/
theorem Confined.terminator?_of_mem
    {terminator : Ref}
    (reached : store.Reached function block)
    (member : terminator ∈ store.instructions block)
    (isTerminator : store.isTerminator terminator = true) :
    store.terminator? block = some terminator :=
  terminator?_of_linked (confined.ended block reached) member isTerminator

include coherent in
/-- Between reachable blocks, predecessors and successors are the same edges. -/
theorem Confined.mem_predecessors_iff
    (sourceReached : store.Reached function other)
    (targetReached : store.Reached function block) :
    other ∈ store.predecessors block ↔ block ∈ store.successors other := by
  have sourceOwned := confined.owned other sourceReached
  have targetOwned := confined.owned block targetReached
  constructor
  · intro predecessor
    rcases coherent.mem_predecessors_iff.1 predecessor with
      ⟨terminator, linked, isTerminator, operand, -⟩
    have member := (coherent.mem_members other terminator).2 linked
    have ends := confined.terminator?_of_mem sourceReached member isTerminator
    have isBlock := isBlock_iff_blockFunction?.2 (Option.isSome_of_eq_some targetOwned)
    exact mem_successors_iff.2 ⟨terminator, ends, operand, isBlock⟩
  · intro edge
    exact coherent.mem_predecessors_of_successor edge (sourceOwned.trans targetOwned.symm)

include coherent

/-- Control comes to a position from where it moves to the block there. -/
theorem Confined.mem_sources_iff :
    place ∈ Dominance.sources (store.sourcesOf function) position ↔
      ∃ source target, store.At function place source ∧ store.At function position target ∧
        target ∈ store.successors source := by
  constructor
  · intro member
    unfold Dominance.sources sourcesOf predecessorPositions at member
    rw [Array.getElem?_map, List.getElem?_toArray] at member
    cases found : (store.reversePostOrder function)[position]? with
    | none =>
        rw [found] at member
        cases member
    | some target =>
        rw [found] at member
        rcases List.mem_filterMap.1 member with ⟨source, predecessor, listed⟩
        have sourceAt := (idxOf?_eq_some_iff_at coherent).1 listed
        refine ⟨source, target, sourceAt, found, ?_⟩
        exact (confined.mem_predecessors_iff coherent (sourceAt.reached coherent)
          (At.reached coherent found)).1 predecessor
  · rintro ⟨source, target, sourceAt, targetAt, edge⟩
    unfold Dominance.sources sourcesOf predecessorPositions
    rw [Array.getElem?_map, List.getElem?_toArray, targetAt]
    apply List.mem_filterMap.2
    refine ⟨source, ?_, (idxOf?_eq_some_iff_at coherent).2 sourceAt⟩
    exact (confined.mem_predecessors_iff coherent (sourceAt.reached coherent)
      (targetAt.reached coherent)).2 edge

/-- In reverse post-order control comes to every later position from an earlier one. -/
theorem Confined.ordered (hasBody : store.body? function = some body) :
    Dominance.Ordered (store.sourcesOf function) where
  inside := by
    intro position place member
    rcases (confined.mem_sources_iff coherent).1 member with ⟨source, _, sourceAt, _⟩
    exact sourceAt.lt_size
  earlier := by
    intro position later inside
    rcases exists_at inside with ⟨target, targetAt⟩
    have sourced := sourced_reversePostOrder coherent hasBody
    have reversed : (store.reversePostOrder function).reverse.reverse[position]? = some target := by
      rw [List.reverse_reverse]
      exact targetAt
    rcases sourced.exists_earlier reversed later with ⟨place, source, before, found, edge⟩
    rw [List.reverse_reverse] at found
    exact ⟨place, (confined.mem_sources_iff coherent).2 ⟨source, target, found, targetAt, edge⟩,
      before⟩

/-- Paths around a position are paths around the block there. -/
theorem Confined.bypassed_iff
    {avoided : Ref}
    (hasBody : store.body? function = some body)
    (avoidedAt : store.At function place avoided)
    (stands : store.At function position block) :
    Dominance.Bypassed (store.sourcesOf function) place position ↔
      body ≠ avoided ∧ store.Bypasses avoided body block := by
  constructor
  · intro bypassed
    induction bypassed generalizing block with
    | entry different =>
        cases stands.block_eq (at_zero coherent hasBody)
        refine ⟨?_, .refl⟩
        rintro rfl
        exact different (avoidedAt.position_eq coherent stands)
    | move edge different _ induction =>
        rcases (confined.mem_sources_iff coherent).1 edge with
          ⟨source, target, sourceAt, targetAt, moves⟩
        cases stands.block_eq targetAt
        rcases induction sourceAt with ⟨distinct, bypasses⟩
        refine ⟨distinct, bypasses.tail ⟨moves, ?_⟩⟩
        rintro rfl
        exact different (avoidedAt.position_eq coherent stands)
  · rintro ⟨distinct, bypasses⟩
    induction bypasses generalizing position with
    | refl =>
        cases stands.position_eq coherent (at_zero coherent hasBody)
        apply Dominance.Bypassed.entry
        rintro rfl
        exact distinct (stands.block_eq avoidedAt)
    | @tail source target path step induction =>
        have reached : store.Reached function source := ⟨body, hasBody, Bypasses.reaches path⟩
        rcases (exists_at_iff_reached coherent).2 reached with ⟨before, sourceAt⟩
        have edge := (confined.mem_sources_iff coherent).2
          ⟨source, target, sourceAt, stands, step.1⟩
        apply Dominance.Bypassed.move edge _ (induction sourceAt)
        rintro rfl
        exact step.2 (stands.block_eq avoidedAt)

theorem Confined.not_bypassed_iff_dominates
    {dominator : Ref}
    (hasBody : store.body? function = some body)
    (dominatorAt : store.At function place dominator)
    (stands : store.At function position block) :
    ¬Dominance.Bypassed (store.sourcesOf function) place position ↔
      store.Dominates function dominator block := by
  rw [confined.bypassed_iff coherent hasBody dominatorAt stands, dominates_iff_not_bypasses,
    not_and]
  constructor
  · intro noWay body' hasBody'
    cases hasBody.symm.trans hasBody'
    exact noWay
  · intro noWay
    exact noWay body hasBody

end Edges

end Store

end ShaderIR
