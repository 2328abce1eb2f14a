import ShaderIR.Proofs.Coherence.Session
import ShaderIR.Proofs.Dominance.Numbering
import ShaderIR.Proofs.Dominance.Positions

/-!
# Dominator trees are exact

A function definition that keeps to itself has a dominator tree, and what the
tree answers agrees with the paths from the body: it holds the reachable blocks,
it decides dominance, and it leads from every block but the body to its
immediate dominator, the nearest of the blocks that dominate it.
-/

namespace ShaderIR

/-- A block dominates another one and is itself dominated by all others that do. -/
structure Store.ImmediatelyDominates (store : Store) (function dominator block : Ref) : Prop where
  different : dominator ≠ block
  dominates : store.Dominates function dominator block
  nearest : ∀ other, other ≠ block → store.Dominates function other block →
    store.Dominates function other dominator

/-- The answers of a dominator tree agree with the paths from the body. -/
structure DominatorTree.Exact (tree : DominatorTree) (store : Store) (function body : Ref) :
    Prop where
  contains_iff : ∀ block, tree.contains block = true ↔ store.Reached function block
  dominates_iff : ∀ dominator block, tree.dominates dominator block = true ↔
    store.Reached function dominator ∧ store.Reached function block ∧
      ∀ path, store.Path body block path → dominator ∈ path
  parent?_eq_none_iff : ∀ block, tree.parent? block = none ↔
    block = body ∨ ¬store.Reached function block
  parent?_eq_some_iff : ∀ parent block, tree.parent? block = some parent ↔
    store.Reached function block ∧ store.ImmediatelyDominates function parent block
  nodup_children : ∀ block, (tree.children block).Nodup
  mem_children_iff : ∀ child block, child ∈ tree.children block ↔
    tree.parent? child = some block

namespace Store

variable {store : Store} {function body block dominator : Ref} {position place : Nat}

/-- The dominator tree of the reachable blocks of a function. -/
abbrev treeOf (store : Store) (function : Ref) : DominatorTree :=
  store.dominatorTreeOf (store.reversePostOrder function).toArray

theorem blocks_treeOf :
    (store.treeOf function).blocks = (store.reversePostOrder function).toArray :=
  rfl

theorem dominates_iff_forall_path (hasBody : store.body? function = some body) :
    store.Dominates function dominator block ↔
      ∀ path, store.Path body block path → dominator ∈ path := by
  constructor
  · intro dominates
    exact dominates body hasBody
  · intro everyPath body' hasBody'
    cases hasBody.symm.trans hasBody'
    exact everyPath

section Answers

variable (coherent : store.Coherent)

include coherent

theorem position?_eq_some_iff :
    (store.treeOf function).position? block = some position ↔
      store.At function position block :=
  idxOf?_eq_some_iff_at coherent

theorem position?_eq_none_iff :
    (store.treeOf function).position? block = none ↔ ¬store.Reached function block := by
  rw [← exists_at_iff_reached coherent, not_exists, Option.eq_none_iff_forall_ne_some]
  apply forall_congr'
  intro position
  rw [ne_eq, position?_eq_some_iff coherent]

theorem contains_treeOf :
    (store.treeOf function).contains block = true ↔ store.Reached function block := by
  unfold DominatorTree.contains
  rw [Option.isSome_iff_exists, ← exists_at_iff_reached coherent]
  apply exists_congr
  intro position
  exact position?_eq_some_iff coherent

theorem parent?_treeOf {parent : Ref} (stands : store.At function position block) :
    (store.treeOf function).parent? block = some parent ↔
      ∃ place, Dominance.above (store.treeOf function).parents position = some place ∧
        store.At function place parent := by
  unfold DominatorTree.parent?
  rw [(position?_eq_some_iff coherent).2 stands]
  simp only [Option.bind_eq_bind, Option.bind_some, Option.bind_eq_some_iff]
  apply exists_congr
  intro place
  apply and_congr_right
  intro _
  rw [blocks_treeOf, List.getElem?_toArray]
  exact .rfl

variable (confined : store.Confined function)
  (hasBody : store.body? function = some body)

include confined hasBody

theorem Confined.settled :
    Dominance.Front (store.sourcesOf function) (store.treeOf function).parents
        (store.sourcesOf function).size ∧
      Dominance.sweep (store.sourcesOf function) (store.treeOf function).parents =
        (store.treeOf function).parents :=
  Dominance.immediate_settled (confined.ordered coherent hasBody)
    (at_zero coherent hasBody).lt_size

theorem Confined.known (stands : store.At function position block) :
    Dominance.Known (store.treeOf function).parents position :=
  (confined.settled coherent hasBody).1.passed stands.lt_size stands.lt_size

/-- The ancestors in the tree are the dominators. -/
theorem Confined.ancestor_iff_dominates
    (dominatorAt : store.At function place dominator)
    (stands : store.At function position block) :
    Dominance.Ancestor (store.treeOf function).parents place position ↔
      store.Dominates function dominator block := by
  rcases confined.settled coherent hasBody with ⟨state, fixed⟩
  rw [Dominance.ancestor_iff_not_bypassed state fixed (confined.ordered coherent hasBody)
    stands.lt_size]
  exact confined.not_bypassed_iff_dominates coherent hasBody dominatorAt stands

/-- The path of a reached block in the tree leads through its dominators. -/
theorem Confined.mem_path_iff {source : Ref} :
    source ∈ (store.treeOf function).path block ↔
      store.Reached function block ∧ store.Dominates function source block := by
  unfold DominatorTree.path
  split
  · rename_i outside
    have unreached := (position?_eq_none_iff coherent).1 outside
    simp [unreached]
  · rename_i position found
    have stands := (position?_eq_some_iff coherent).1 found
    have reached := stands.reached coherent
    rw [List.mem_filterMap]
    constructor
    · rintro ⟨place, member, sourceAt⟩
      rw [blocks_treeOf, List.getElem?_toArray] at sourceAt
      exact ⟨reached, (confined.ancestor_iff_dominates coherent hasBody sourceAt stands).1
        (Dominance.mem_ancestors_iff.1 member)⟩
    · rintro ⟨-, dominates⟩
      obtain ⟨place, sourceAt⟩ :=
        (exists_at_iff_reached coherent).2 (reached.of_dominates dominates)
      refine ⟨place, Dominance.mem_ancestors_iff.2
        ((confined.ancestor_iff_dominates coherent hasBody sourceAt stands).2 dominates), ?_⟩
      rw [blocks_treeOf, List.getElem?_toArray]
      exact sourceAt

theorem Confined.mem_entered (stands : store.At function position block) :
    position ∈ Dominance.entered (store.treeOf function).parents 0 := by
  have known := confined.known coherent hasBody stands
  have rootKnown := confined.known coherent hasBody (at_zero coherent hasBody)
  apply (Dominance.mem_entered_iff rootKnown.lt_size).2
  exact ⟨(confined.settled coherent hasBody).1.rooted known, known.lt_size⟩

/-- Places in the two orders of the walk over the tree decide dominance. -/
theorem Confined.encloses_iff_dominates
    (dominatorAt : store.At function place dominator)
    (stands : store.At function position block) :
    (store.treeOf function).entered.idxOf place ≤ (store.treeOf function).entered.idxOf position ∧
        (store.treeOf function).left.idxOf position ≤ (store.treeOf function).left.idxOf place ↔
      store.Dominates function dominator block := by
  rw [← confined.ancestor_iff_dominates coherent hasBody dominatorAt stands]
  apply Dominance.encloses_iff
  · exact (confined.known coherent hasBody (at_zero coherent hasBody)).lt_size
  · exact confined.mem_entered coherent hasBody dominatorAt
  · exact confined.mem_entered coherent hasBody stands

theorem Confined.dominates_treeOf :
    (store.treeOf function).dominates dominator block = true ↔
      store.Reached function dominator ∧ store.Reached function block ∧
        store.Dominates function dominator block := by
  unfold DominatorTree.dominates
  cases first : (store.treeOf function).position? dominator with
  | none =>
      have unreached := (position?_eq_none_iff coherent).1 first
      simp [unreached]
  | some place =>
      cases second : (store.treeOf function).position? block with
      | none =>
          have unreached := (position?_eq_none_iff coherent).1 second
          simp [unreached]
      | some position =>
          have dominatorAt := (position?_eq_some_iff coherent).1 first
          have stands := (position?_eq_some_iff coherent).1 second
          rw [Bool.and_eq_true, decide_eq_true_iff, decide_eq_true_iff,
            confined.encloses_iff_dominates coherent hasBody dominatorAt stands]
          constructor
          · intro dominates
            exact ⟨dominatorAt.reached coherent, stands.reached coherent, dominates⟩
          · rintro ⟨_, _, dominates⟩
            exact dominates

/-- Every block but the body has a parent in the tree. -/
theorem Confined.exists_above (stands : store.At function position block) (later : 0 < position) :
    ∃ place parent, Dominance.above (store.treeOf function).parents position = some place ∧
      store.At function place parent := by
  have known := confined.known coherent hasBody stands
  rcases (confined.settled coherent hasBody).1.linked known later with ⟨place, step⟩
  have inside := Nat.lt_trans (Dominance.above_lt step) stands.lt_size
  rcases exists_at inside with ⟨parent, parentAt⟩
  exact ⟨place, parent, step, parentAt⟩

theorem Confined.immediatelyDominates_of_above
    (dominatorAt : store.At function place dominator)
    (stands : store.At function position block)
    (step : Dominance.above (store.treeOf function).parents position = some place) :
    store.ImmediatelyDominates function dominator block where
  different := by
    rintro rfl
    have := Dominance.above_lt step
    have := dominatorAt.position_eq coherent stands
    omega
  dominates :=
    (confined.ancestor_iff_dominates coherent hasBody dominatorAt stands).1
      (.up step (.refl place))
  nearest := by
    intro other different dominates
    have reached := (stands.reached coherent).of_dominates dominates
    rcases (exists_at_iff_reached coherent).2 reached with ⟨above, otherAt⟩
    have walk := (confined.ancestor_iff_dominates coherent hasBody otherAt stands).2 dominates
    apply (confined.ancestor_iff_dominates coherent hasBody otherAt dominatorAt).1
    apply walk.of_above step
    rintro rfl
    exact different (otherAt.block_eq stands)

/-- The parent in the tree is the immediate dominator. -/
theorem Confined.above_iff_immediatelyDominates
    (dominatorAt : store.At function place dominator)
    (stands : store.At function position block) :
    Dominance.above (store.treeOf function).parents position = some place ↔
      store.ImmediatelyDominates function dominator block := by
  constructor
  · exact confined.immediatelyDominates_of_above coherent hasBody dominatorAt stands
  · intro immediate
    have walk := (confined.ancestor_iff_dominates coherent hasBody dominatorAt stands).2
      immediate.dominates
    have different : place ≠ position := by
      rintro rfl
      exact immediate.different (dominatorAt.block_eq stands)
    have later : 0 < position := by
      have := walk.le
      omega
    rcases confined.exists_above coherent hasBody stands later with
      ⟨nearest, parent, step, parentAt⟩
    have parentImmediate :=
      confined.immediatelyDominates_of_above coherent hasBody parentAt stands step
    -- The parent dominates the immediate dominator, which is an ancestor of the parent.
    have lower := (confined.ancestor_iff_dominates coherent hasBody parentAt dominatorAt).2
      (immediate.nearest parent parentImmediate.different parentImmediate.dominates)
    have upper := walk.of_above step different
    rw [step, Nat.le_antisymm upper.le lower.le]

theorem Confined.parent?_eq_some_iff {parent : Ref} :
    (store.treeOf function).parent? block = some parent ↔
      store.Reached function block ∧ store.ImmediatelyDominates function parent block := by
  constructor
  · intro found
    have reached : store.Reached function block := by
      by_contra unreached
      simp [DominatorTree.parent?, (position?_eq_none_iff coherent).2 unreached] at found
    rcases (exists_at_iff_reached coherent).2 reached with ⟨position, stands⟩
    rcases (parent?_treeOf coherent stands).1 found with ⟨place, step, parentAt⟩
    exact ⟨reached,
      (confined.above_iff_immediatelyDominates coherent hasBody parentAt stands).1 step⟩
  · rintro ⟨reached, immediate⟩
    rcases (exists_at_iff_reached coherent).2 reached with ⟨position, stands⟩
    have parentReached := reached.of_dominates immediate.dominates
    rcases (exists_at_iff_reached coherent).2 parentReached with ⟨place, parentAt⟩
    apply (parent?_treeOf coherent stands).2
    exact ⟨place,
      (confined.above_iff_immediatelyDominates coherent hasBody parentAt stands).2 immediate,
      parentAt⟩

theorem Confined.parent?_eq_none_iff :
    (store.treeOf function).parent? block = none ↔
      block = body ∨ ¬store.Reached function block := by
  constructor
  · intro none
    by_contra otherwise
    rw [not_or, not_not] at otherwise
    rcases (exists_at_iff_reached coherent).2 otherwise.2 with ⟨position, stands⟩
    have later : 0 < position := by
      apply Nat.pos_of_ne_zero
      rintro rfl
      exact otherwise.1 (stands.block_eq (at_zero coherent hasBody))
    rcases confined.exists_above coherent hasBody stands later with ⟨place, parent, step, parentAt⟩
    rw [(parent?_treeOf coherent stands).2 ⟨place, step, parentAt⟩] at none
    cases none
  · intro outside
    apply Option.eq_none_iff_forall_ne_some.2
    intro parent found
    rcases (confined.parent?_eq_some_iff coherent hasBody).1 found with ⟨reached, immediate⟩
    rcases outside with rfl | unreached
    · rcases (parent?_treeOf coherent (at_zero coherent hasBody)).1 found with ⟨place, step, _⟩
      exact Nat.not_lt_zero place (Dominance.above_lt step)
    · exact unreached reached

theorem Confined.mem_children_iff {child : Ref} :
    child ∈ (store.treeOf function).children block ↔
      (store.treeOf function).parent? child = some block := by
  unfold DominatorTree.children
  rw [List.mem_filter, beq_iff_eq, and_iff_right_iff_imp]
  intro found
  have reached := ((confined.parent?_eq_some_iff coherent hasBody).1 found).1
  exact (mem_reversePostOrder_iff_reached coherent).2 reached

theorem Confined.exact_treeOf : (store.treeOf function).Exact store function body where
  contains_iff _ := contains_treeOf coherent
  dominates_iff _ _ := by
    rw [← dominates_iff_forall_path hasBody]
    exact confined.dominates_treeOf coherent hasBody
  parent?_eq_none_iff _ := confined.parent?_eq_none_iff coherent hasBody
  parent?_eq_some_iff _ _ := confined.parent?_eq_some_iff coherent hasBody
  nodup_children _ := (nodup_reversePostOrder coherent function).filter _
  mem_children_iff _ _ := confined.mem_children_iff coherent hasBody

theorem Confined.dominatorTree?_eq :
    store.dominatorTree? function = some (store.treeOf function) := by
  unfold dominatorTree?
  apply if_pos
  rw [Array.all_eq_true]
  intro position inside
  have state := (confined.settled coherent hasBody).1
  have known := state.passed (state.size ▸ inside) (state.size ▸ inside)
  simpa [Dominance.Known, Array.getElem?_eq_getElem inside] using known

end Answers

/--
A function definition with a body, whose reachable blocks belong to it and have
terminators at the end only, has a dominator tree.  Sweeping has ended there,
and the answers of the tree are exact.  The store has to be coherent, as it is
after any operations of a session.
-/
theorem Coherent.exists_exact_dominatorTree
    (coherent : store.Coherent)
    (definition : (store.function? function).any (·.isDefinition) = true)
    (hasBody : store.body? function = some body)
    (confined : store.Confined function) :
    ∃ tree, Edit.outcome (Edit.dominatorTree (some function)) store = (.ok tree, store) ∧
      Dominance.sweep tree.predecessors tree.parents = tree.parents ∧
      tree.Exact store function body := by
  refine ⟨store.treeOf function, ?_, (confined.settled coherent hasBody).2,
    confined.exact_treeOf coherent hasBody⟩
  cases found : store.function? function with
  | none =>
      rw [found] at definition
      cases definition
  | some entry =>
      rw [found, Option.any_some] at definition
      unfold Edit.dominatorTree Edit.function
      simp only [Edit.outcome_bind, Edit.outcome_see, Edit.outcome_demand, Edit.outcome_require,
        found, definition, if_true, confined.dominatorTree?_eq coherent hasBody]

/--
A function with a loop that control enters from both sides of a branch.  After
the first sweep one of the sides still counts as a dominator of a block in the
loop, and the second sweep revises that.  The last block is out of reach.
-/
def crossing : Store :=
  (Session.after [
    .edit (.addModule "crossing"),
    .edit (.createFunction 0 .kernel none),
    .edit (.createBody ⟨0⟩),
    .edit (.createBlock ⟨0⟩),
    .edit (.createBlock ⟨0⟩),
    .edit (.createBlock ⟨0⟩),
    .edit (.createBlock ⟨0⟩),
    .edit (.createBlock ⟨0⟩),
    .edit (.createBlock ⟨0⟩),
    .edit (.createBlock ⟨0⟩),
    .moveToEnd ⟨1⟩, .condBranch none (some ⟨2⟩) (some ⟨3⟩),
    .moveToEnd ⟨2⟩, .emit .branch none [some ⟨4⟩] (.refl true),
    .moveToEnd ⟨3⟩, .condBranch none (some ⟨5⟩) (some ⟨6⟩),
    .moveToEnd ⟨4⟩, .emit .branch none [some ⟨5⟩] (.refl true),
    .moveToEnd ⟨5⟩, .condBranch none (some ⟨4⟩) (some ⟨6⟩),
    .moveToEnd ⟨6⟩, .condBranch none (some ⟨5⟩) (some ⟨7⟩),
    .moveToEnd ⟨7⟩, .emit .ret none [] (.refl true),
    .moveToEnd ⟨8⟩, .emit .branch none [some ⟨6⟩] (.refl true)]).store

theorem coherent_crossing : crossing.Coherent :=
  (Session.after_coherent _).store

theorem exists_exact_dominatorTree_crossing :
    crossing.Confined ⟨0⟩ ∧
      ∃ tree, Edit.outcome (Edit.dominatorTree (some ⟨0⟩)) crossing = (.ok tree, crossing) ∧
        Dominance.sweep tree.predecessors tree.parents = tree.parents ∧
        tree.Exact crossing ⟨0⟩ ⟨1⟩ := by
  have confined : crossing.Confined ⟨0⟩ :=
    (confined_iff coherent_crossing).2 (by decide +kernel)
  exact ⟨confined, coherent_crossing.exists_exact_dominatorTree (by decide +kernel)
    (by decide +kernel) confined⟩

end Store

end ShaderIR
