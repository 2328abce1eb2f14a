import Mathlib.Data.List.TakeWhile
import ShaderIR.Proofs.Dominance.Tree

/-!
# Dominance frontiers are exact

The frontier of a block is found by walking up from every predecessor of a block
until the immediate dominator of that block is reached.  The immediate dominator
of a block dominates all its reached predecessors, so these walks end there, and
they pass exactly the dominators of a predecessor that do not strictly dominate
the block.  Nothing is said about the number of predecessors: a block that only
branches to itself is in its own frontier, and so is the body when control
returns to it.
-/

namespace ShaderIR

/-- A block dominates another one and differs from it. -/
def Store.StrictlyDominates (store : Store) (function dominator block : Ref) : Prop :=
  dominator ≠ block ∧ store.Dominates function dominator block

/-- The frontiers of a dominator tree are where dominance by a block ends. -/
structure DominatorTree.Bounds (tree : DominatorTree) (store : Store) (function : Ref) :
    Prop where
  nodup : ∀ block, (tree.frontier block).Nodup
  mem_iff : ∀ block target, target ∈ tree.frontier block ↔
    store.Reached function block ∧ store.Reached function target ∧
      ¬store.StrictlyDominates function block target ∧
      ∃ source ∈ store.predecessors target, store.Reached function source ∧
        store.Dominates function block source
  eq_nil : ∀ block, ¬store.Reached function block → tree.frontier block = []
  /-- The head of a loop dominates a block that leads back to it. -/
  head : ∀ block, store.Reached function block →
    ∀ source ∈ store.predecessors block, store.Reached function source →
      store.Dominates function block source → block ∈ tree.frontier block
  /-- No block but the body itself dominates the body. -/
  body : ∀ body, store.body? function = some body →
    ∀ source ∈ store.predecessors body, store.Reached function source →
      ∀ block, store.Dominates function block source → body ∈ tree.frontier block

namespace Dominance

variable {parents : Parents} {ancestor position limit : Nat}

/-- The proper ancestors of a position are the ancestors of its parent. -/
theorem Ancestor.proper_iff :
    (∃ parent, above parents position = some parent ∧ Ancestor parents ancestor parent) ↔
      ancestor ≠ position ∧ Ancestor parents ancestor position := by
  constructor
  · rintro ⟨parent, step, walk⟩
    have lower := above_lt step
    have upper := walk.le
    exact ⟨by omega, .up step walk⟩
  · rintro ⟨different, walk⟩
    cases walk with
    | refl => exact absurd rfl different
    | up step rest => exact ⟨_, step, rest⟩

theorem mem_ancestorsUntil_iff (ends : Ancestor parents limit position) :
    ancestor ∈ (ancestors parents position).takeWhile (some · != some limit) ↔
      Ancestor parents ancestor position ∧ ¬Ancestor parents ancestor limit := by
  induction ends with
  | refl =>
      rw [ancestors]
      split <;> simp
  | @up position parent step rest induction =>
      have lower := above_lt step
      have upper := rest.le
      have unfolded : ancestors parents position = position :: ancestors parents parent := by
        rw [ancestors]
        split
        · rename_i parent' step'
          cases step.symm.trans step'
          rfl
        · rename_i none
          cases step.symm.trans none
      have passes : (some position != some limit) = true := by
        simpa using (show position ≠ limit by omega)
      rw [unfolded, List.takeWhile_cons, if_pos passes, List.mem_cons, induction]
      constructor
      · rintro (rfl | ⟨walk, outside⟩)
        · refine ⟨.refl ancestor, fun beyond => ?_⟩
          have := beyond.le
          omega
        · exact ⟨.up step walk, outside⟩
      · rintro ⟨walk, outside⟩
        by_cases same : ancestor = position
        · exact .inl same
        · exact .inr ⟨walk.of_above step same, outside⟩

end Dominance

section Lists

variable {tree : DominatorTree} {block target : Ref}

theorem mem_blocks_of_mem_frontier (member : target ∈ tree.frontier block) :
    target ∈ tree.blocks := by
  unfold DominatorTree.frontier at member
  split at member
  · cases member
  · obtain ⟨position, -, found⟩ := List.mem_filterMap.1 member
    exact Array.mem_of_getElem? found

theorem nodup_frontier (distinct : tree.blocks.toList.Nodup) :
    (tree.frontier block).Nodup := by
  unfold DominatorTree.frontier
  split
  · exact .nil
  · refine List.Nodup.filterMap (fun first second block atFirst atSecond => ?_)
      (List.nodup_range.filter _)
    rw [Option.mem_def, ← Array.getElem?_toList] at atFirst atSecond
    obtain ⟨inside, -⟩ := List.getElem?_eq_some_iff.1 atFirst
    exact (List.getElem?_inj inside distinct).1 (atFirst.trans atSecond.symm)

theorem mem_frontier_iff {runner : Nat} (found : tree.position? block = some runner) :
    target ∈ tree.frontier block ↔
      ∃ position, tree.blocks[position]? = some target ∧ runner ∈ tree.endingAt position := by
  unfold DominatorTree.frontier
  rw [found, List.mem_filterMap]
  constructor
  · rintro ⟨position, member, here⟩
    exact ⟨position, here, by simpa using (List.mem_filter.1 member).2⟩
  · rintro ⟨position, here, ending⟩
    obtain ⟨inside, -⟩ := Array.getElem?_eq_some_iff.1 here
    exact ⟨position, List.mem_filter.2 ⟨List.mem_range.2 inside, by simpa using ending⟩, here⟩

end Lists

namespace Store

variable {store : Store} {function body block source target : Ref} {runner place position : Nat}

/-- A path to a block goes on to its successors. -/
theorem Dominates.of_successor
    (dominates : store.Dominates function block target)
    (different : block ≠ target)
    (edge : target ∈ store.successors source) :
    store.Dominates function block source := by
  intro body hasBody path leads
  have member := dominates body hasBody _ (leads.concat edge)
  rw [List.mem_append, List.mem_singleton] at member
  exact member.resolve_right different

section Answers

variable (coherent : store.Coherent) (confined : store.Confined function)
  (hasBody : store.body? function = some body)

include coherent confined hasBody

/-- The immediate dominator of a position is an ancestor of all its sources. -/
theorem Confined.ancestor_of_above
    (step : Dominance.above (store.treeOf function).parents position = some place)
    (comes : runner ∈ Dominance.sources (store.sourcesOf function) position) :
    Dominance.Ancestor (store.treeOf function).parents place runner := by
  obtain ⟨source, target, sourceAt, targetAt, edge⟩ := (confined.mem_sources_iff coherent).1 comes
  obtain ⟨parent, parentAt⟩ := exists_at (Nat.lt_trans (Dominance.above_lt step) targetAt.lt_size)
  have immediate := (confined.above_iff_immediatelyDominates coherent hasBody parentAt targetAt).1
    step
  exact (confined.ancestor_iff_dominates coherent hasBody parentAt sourceAt).2
    (immediate.dominates.of_successor immediate.different edge)

/-- Dominance ends at a position for the ancestors of its sources that are not above it. -/
theorem Confined.mem_endingAt_iff :
    runner ∈ (store.treeOf function).endingAt position ↔
      (∃ place ∈ Dominance.sources (store.sourcesOf function) position,
        Dominance.Ancestor (store.treeOf function).parents runner place) ∧
      ¬(runner ≠ position ∧
        Dominance.Ancestor (store.treeOf function).parents runner position) := by
  have walked : runner ∈ (store.treeOf function).endingAt position ↔
      ∃ place ∈ Dominance.sources (store.sourcesOf function) position,
        runner ∈ (Dominance.ancestors (store.treeOf function).parents place).takeWhile
          (some · != Dominance.above (store.treeOf function).parents position) :=
    List.mem_flatMap
  rw [walked, ← Dominance.Ancestor.proper_iff, ← exists_and_right]
  apply exists_congr
  intro place
  rw [and_assoc]
  apply and_congr_right
  intro comes
  cases step : Dominance.above (store.treeOf function).parents position with
  | none =>
      have whole : (Dominance.ancestors (store.treeOf function).parents place).takeWhile
          (some · != none) = Dominance.ancestors (store.treeOf function).parents place :=
        List.takeWhile_eq_self_iff.2 fun _ _ => rfl
      rw [whole, Dominance.mem_ancestors_iff]
      simp
  | some parent =>
      rw [Dominance.mem_ancestorsUntil_iff (confined.ancestor_of_above coherent hasBody step comes)]
      simp

theorem Confined.mem_frontier_treeOf_iff :
    target ∈ (store.treeOf function).frontier block ↔
      store.Reached function block ∧ store.Reached function target ∧
        ¬store.StrictlyDominates function block target ∧
        ∃ source ∈ store.predecessors target, store.Reached function source ∧
          store.Dominates function block source := by
  constructor
  · intro member
    cases found : (store.treeOf function).position? block with
    | none => simp [DominatorTree.frontier, found] at member
    | some runner =>
        have blockAt := (position?_eq_some_iff coherent).1 found
        obtain ⟨position, targetAt, ending⟩ := (mem_frontier_iff found).1 member
        rw [blocks_treeOf, List.getElem?_toArray] at targetAt
        obtain ⟨⟨place, comes, walk⟩, outside⟩ :=
          (confined.mem_endingAt_iff coherent hasBody).1 ending
        obtain ⟨source, target', sourceAt, targetAt', edge⟩ :=
          (confined.mem_sources_iff coherent).1 comes
        cases At.block_eq targetAt targetAt'
        have sourceReached := sourceAt.reached coherent
        have targetReached := At.reached coherent targetAt
        refine ⟨blockAt.reached coherent, targetReached, ?_, source,
          (confined.mem_predecessors_iff coherent sourceReached targetReached).2 edge,
          sourceReached, (confined.ancestor_iff_dominates coherent hasBody blockAt sourceAt).1 walk⟩
        rintro ⟨different, dominates⟩
        refine outside ⟨?_, (confined.ancestor_iff_dominates coherent hasBody blockAt targetAt).2
          dominates⟩
        rintro rfl
        exact different (blockAt.block_eq targetAt)
  · rintro ⟨blockReached, targetReached, outside, source, comes, sourceReached, dominates⟩
    obtain ⟨runner, blockAt⟩ := (exists_at_iff_reached coherent).2 blockReached
    obtain ⟨position, targetAt⟩ := (exists_at_iff_reached coherent).2 targetReached
    obtain ⟨place, sourceAt⟩ := (exists_at_iff_reached coherent).2 sourceReached
    have edge := (confined.mem_predecessors_iff coherent sourceReached targetReached).1 comes
    refine (mem_frontier_iff ((position?_eq_some_iff coherent).2 blockAt)).2 ⟨position, ?_, ?_⟩
    · rw [blocks_treeOf, List.getElem?_toArray]
      exact targetAt
    · refine (confined.mem_endingAt_iff coherent hasBody).2 ⟨⟨place,
        (confined.mem_sources_iff coherent).2 ⟨source, target, sourceAt, targetAt, edge⟩,
        (confined.ancestor_iff_dominates coherent hasBody blockAt sourceAt).2 dominates⟩, ?_⟩
      rintro ⟨different, walk⟩
      refine outside ⟨?_,
        (confined.ancestor_iff_dominates coherent hasBody blockAt targetAt).1 walk⟩
      rintro rfl
      exact different (blockAt.position_eq coherent targetAt)

end Answers

theorem reached_body (hasBody : store.body? function = some body) : store.Reached function body :=
  ⟨body, hasBody, .refl⟩

theorem Confined.bounds_treeOf
    (coherent : store.Coherent)
    (confined : store.Confined function)
    (hasBody : store.body? function = some body) :
    (store.treeOf function).Bounds store function where
  nodup _ := nodup_frontier (nodup_reversePostOrder coherent function)
  mem_iff _ _ := confined.mem_frontier_treeOf_iff coherent hasBody
  eq_nil block unreached := by
    unfold DominatorTree.frontier
    rw [(position?_eq_none_iff coherent).2 unreached]
  head block reached source comes sourceReached dominates :=
    (confined.mem_frontier_treeOf_iff coherent hasBody).2
      ⟨reached, reached, fun strict => strict.1 rfl, source, comes, sourceReached, dominates⟩
  body body' hasBody' source comes sourceReached block dominates :=
    (confined.mem_frontier_treeOf_iff coherent hasBody).2
      ⟨sourceReached.of_dominates dominates, reached_body hasBody',
        fun strict => strict.1 (strict.2.eq_body hasBody'), source, comes, sourceReached, dominates⟩

/-- Nothing is reached in a function without a body, and its tree is empty. -/
theorem Coherent.bounds_treeOf_of_bodiless
    (coherent : store.Coherent)
    (noBody : store.body? function = none) :
    store.dominatorTree? function = some (store.treeOf function) ∧
      (store.treeOf function).Bounds store function := by
  have unreached : ∀ block, ¬store.Reached function block := by
    rintro block ⟨body, hasBody, -⟩
    cases noBody.symm.trans hasBody
  have order : store.reversePostOrder function = [] :=
    List.eq_nil_iff_forall_not_mem.2 fun block member =>
      unreached block ((mem_reversePostOrder_iff_reached coherent).1 member)
  have noFrontier : ∀ block, (store.treeOf function).frontier block = [] := by
    intro block
    have absent : (store.treeOf function).position? block = none := by
      simp [DominatorTree.position?, blocks_treeOf, order]
    simp [DominatorTree.frontier, absent]
  constructor
  · unfold dominatorTree? treeOf
    rw [order]
    exact if_pos (by simp [dominatorTreeOf, predecessorPositions]; decide)
  · constructor
    · intro block
      rw [noFrontier block]
      exact .nil
    · intro block target
      rw [noFrontier block]
      constructor
      · intro member
        cases member
      · rintro ⟨reached, -⟩
        exact absurd reached (unreached block)
    · intro block _
      exact noFrontier block
    · intro block reached
      exact absurd reached (unreached block)
    · intro body hasBody
      cases noBody.symm.trans hasBody

/--
A function definition whose reachable blocks belong to it and have terminators at
the end only has a dominator tree, and the frontiers of its blocks are exactly
the places where dominance by them ends.
-/
theorem Coherent.exists_bounding_dominatorTree
    (coherent : store.Coherent)
    (definition : (store.function? function).any (·.isDefinition) = true)
    (confined : store.Confined function) :
    ∃ tree, Edit.outcome (Edit.dominatorTree (some function)) store = (.ok tree, store) ∧
      tree.Bounds store function := by
  have answers : store.dominatorTree? function = some (store.treeOf function) ∧
      (store.treeOf function).Bounds store function := by
    cases hasBody : store.body? function with
    | none => exact coherent.bounds_treeOf_of_bodiless hasBody
    | some body =>
        exact ⟨confined.dominatorTree?_eq coherent hasBody, confined.bounds_treeOf coherent hasBody⟩
  obtain ⟨entry, found, isDefinition⟩ := (Option.any_eq_true _ _).1 definition
  refine ⟨store.treeOf function, ?_, answers.2⟩
  unfold Edit.dominatorTree Edit.function
  simp only [Edit.outcome_bind, Edit.outcome_see, Edit.outcome_demand, Edit.outcome_require,
    found, isDefinition, if_true, answers.1]

/--
A function whose body branches to a block that branches to itself and back to
the body.  The last block leads to the one that returns, but is out of reach.
-/
def returning : Store :=
  (Session.after [
    .edit (.addModule "returning"),
    .edit (.createFunction 0 .kernel none),
    .edit (.createBody ⟨0⟩),
    .edit (.createBlock ⟨0⟩),
    .edit (.createBlock ⟨0⟩),
    .edit (.createBlock ⟨0⟩),
    .moveToEnd ⟨1⟩, .condBranch none (some ⟨2⟩) (some ⟨3⟩),
    .moveToEnd ⟨2⟩, .condBranch none (some ⟨2⟩) (some ⟨1⟩),
    .moveToEnd ⟨3⟩, .emit .ret none [] (.refl true),
    .moveToEnd ⟨4⟩, .emit .branch none [some ⟨3⟩] (.refl true)]).store

example : (returning.treeOf ⟨0⟩).frontier ⟨1⟩ = [⟨1⟩] ∧
    (returning.treeOf ⟨0⟩).frontier ⟨2⟩ = [⟨1⟩, ⟨2⟩] ∧
    (returning.treeOf ⟨0⟩).frontier ⟨3⟩ = [] := by
  decide +kernel

theorem exists_bounding_dominatorTree_returning :
    returning.Confined ⟨0⟩ ∧
      ∃ tree, Edit.outcome (Edit.dominatorTree (some ⟨0⟩)) returning = (.ok tree, returning) ∧
        tree.Bounds returning ⟨0⟩ := by
  have coherent : returning.Coherent := (Session.after_coherent _).store
  have confined : returning.Confined ⟨0⟩ := (confined_iff coherent).2 (by decide +kernel)
  exact ⟨confined, coherent.exists_bounding_dominatorTree (by decide +kernel) confined⟩

end Store

end ShaderIR
