import Mathlib.Algebra.BigOperators.Group.Finset.Basic
import Mathlib.Algebra.GroupWithZero.Nat
import Mathlib.Algebra.Order.BigOperators.Group.Finset
import ShaderIR.Proofs.Coherence.Edges
import ShaderIR.Proofs.Traversal.Order

/-!
# A depth-first walk lists every block once

Every step of the walk uses up a successor or a block, and the bound of the walk
counts all of them.  So the walk ends with an empty stack; then every block it
has come to is listed, once, and so are the successors of listed blocks.
-/

namespace ShaderIR

namespace Traversal

variable {store : Store} {stop : Ref → Bool}

/-- The steps that a block takes: one for each successor and one to finish it. -/
def weight (store : Store) (block : Ref) : Nat :=
  (store.successors block).length + 1

/-- The steps that the blocks not visited yet may take. -/
def ahead (store : Store) (visited : List Ref) : Nat :=
  ∑ index ∈ (Finset.range store.values.size).filter
    fun index => store.isBlock ⟨index⟩ = true ∧ (⟨index⟩ : Ref) ∉ visited, weight store ⟨index⟩

/-- The steps that the stacked blocks have left. -/
def underway (stack : List (Ref × List Ref)) : Nat :=
  (stack.map fun entry => entry.2.length + 1).sum

theorem index_lt_of_isBlock {block : Ref} (isBlock : store.isBlock block = true) :
    block.index < store.values.size := by
  have present : (store.value? block).isSome := by
    rw [← Store.content?_isSome_iff]
    unfold Store.isBlock at isBlock
    cases found : store.content? block with
    | none => simp [found] at isBlock
    | some content => rfl
  rcases Option.isSome_iff_exists.1 present with ⟨value, found⟩
  exact (Array.getElem?_eq_some_iff.1 found).1

/-- Visiting a block moves its steps from those ahead. -/
theorem ahead_cons
    {visited : List Ref}
    {block : Ref}
    (isBlock : store.isBlock block = true)
    (fresh : block ∉ visited) :
    weight store block + ahead store (block :: visited) = ahead store visited := by
  have member : block.index ∈ (Finset.range store.values.size).filter
      fun index => store.isBlock ⟨index⟩ = true ∧ (⟨index⟩ : Ref) ∉ visited :=
    Finset.mem_filter.2 ⟨Finset.mem_range.2 (index_lt_of_isBlock isBlock), isBlock, fresh⟩
  have rest : (Finset.range store.values.size).filter
        (fun index => store.isBlock ⟨index⟩ = true ∧ (⟨index⟩ : Ref) ∉ block :: visited) =
      ((Finset.range store.values.size).filter
        fun index => store.isBlock ⟨index⟩ = true ∧ (⟨index⟩ : Ref) ∉ visited).erase
          block.index := by
    ext index
    have same : (⟨index⟩ : Ref) = block ↔ index = block.index := by
      rw [← Ref.index_eq_iff]
    simp only [Finset.mem_filter, Finset.mem_erase, List.mem_cons, not_or, same]
    tauto
  unfold ahead
  rw [rest]
  exact Finset.add_sum_erase _ (fun index => weight store ⟨index⟩) member

/-- What a walk holds: distinct blocks, and the successors it has dealt with were visited. -/
structure Walk.Orderly (store : Store) (stop : Ref → Bool) (walk : Walk) : Prop where
  distinct : (walk.order ++ walk.stack.map Prod.fst).Nodup
  visited : ∀ block, block ∈ walk.visited ↔ block ∈ walk.order ++ walk.stack.map Prod.fst
  dealt : ∀ entry ∈ walk.stack, ∀ next ∈ store.successors entry.1,
    next ∈ entry.2 ∨ next ∈ walk.visited ∨ stop next = true
  finished : ∀ block ∈ walk.order, ∀ next ∈ store.successors block,
    next ∈ walk.visited ∨ stop next = true

theorem Walk.Orderly.step {walk : Walk} (orderly : walk.Orderly store stop) :
    (walk.step store stop).Orderly store stop := by
  rcases walk with ⟨stack, visited, order⟩
  rcases orderly with ⟨distinct, visitedIff, dealt, finished⟩
  dsimp only at distinct visitedIff dealt finished
  unfold Walk.step
  cases stack with
  | nil => exact ⟨distinct, visitedIff, dealt, finished⟩
  | cons top rest =>
      rcases top with ⟨block, left⟩
      have sameBlocks : order ++ ((block, left) :: rest).map Prod.fst =
          order ++ [block] ++ rest.map Prod.fst := by simp
      cases left with
      | nil =>
          dsimp only
          refine ⟨?_, ?_, ?_, ?_⟩
          · dsimp only
            rw [← sameBlocks]
            exact distinct
          · intro other
            dsimp only
            rw [← sameBlocks]
            exact visitedIff other
          · intro entry member
            exact dealt entry (List.mem_cons_of_mem _ member)
          · intro other member next edge
            rcases List.mem_append.1 member with old | new
            · exact finished other old next edge
            · rw [List.mem_singleton.1 new] at edge
              have done := dealt (block, []) List.mem_cons_self next edge
              simpa using done
      | cons next left =>
          dsimp only
          split
          · rename_i skipped
            have known : next ∈ visited ∨ stop next = true := by simpa using skipped
            refine ⟨distinct, visitedIff, ?_, finished⟩
            intro entry member target edge
            rcases List.mem_cons.1 member with rfl | deeper
            · rcases dealt (block, next :: left) List.mem_cons_self target edge with
                waiting | done
              · rcases List.mem_cons.1 waiting with rfl | waiting
                · exact .inr known
                · exact .inl waiting
              · exact .inr done
            · exact dealt entry (List.mem_cons_of_mem _ deeper) target edge
          · rename_i taken
            have fresh : next ∉ visited := by
              intro member
              simp [member] at taken
            have freshListed : next ∉ order ++ ((block, next :: left) :: rest).map Prod.fst :=
              fun member => fresh ((visitedIff next).2 member)
            have below : (order ++ ((next, store.successors next) :: (block, left) :: rest).map
                Prod.fst).Perm (next ::
                  (order ++ ((block, next :: left) :: rest).map Prod.fst)) := by
              simp only [List.map_cons]
              exact List.perm_middle
            refine ⟨below.nodup_iff.2 (List.nodup_cons.2 ⟨freshListed, distinct⟩), ?_, ?_, ?_⟩
            · intro other
              dsimp only
              rw [below.mem_iff, List.mem_cons, List.mem_cons, visitedIff]
            · intro entry member target edge
              rcases List.mem_cons.1 member with rfl | deeper
              · exact .inl edge
              · rcases List.mem_cons.1 deeper with rfl | deeper
                · rcases dealt (block, next :: left) List.mem_cons_self target edge with
                    waiting | done | stopped
                  · rcases List.mem_cons.1 waiting with rfl | waiting
                    · exact .inr (.inl List.mem_cons_self)
                    · exact .inl waiting
                  · exact .inr (.inl (List.mem_cons_of_mem _ done))
                  · exact .inr (.inr stopped)
                · rcases dealt entry (List.mem_cons_of_mem _ deeper) target edge with
                    waiting | done | stopped
                  · exact .inl waiting
                  · exact .inr (.inl (List.mem_cons_of_mem _ done))
                  · exact .inr (.inr stopped)
            · intro other member target edge
              rcases finished other member target edge with done | stopped
              · exact .inl (List.mem_cons_of_mem _ done)
              · exact .inr stopped

/-- Each step uses up one of the steps ahead. -/
theorem Walk.step_decreases
    (stop : Ref → Bool)
    {walk : Walk}
    {start : Ref}
    (within : walk.Within store start)
    (moving : walk.stack ≠ []) :
    underway (walk.step store stop).stack + ahead store (walk.step store stop).visited + 1 =
      underway walk.stack + ahead store walk.visited := by
  rcases walk with ⟨stack, visited, order⟩
  unfold Walk.step
  cases stack with
  | nil => exact absurd rfl moving
  | cons top rest =>
      rcases top with ⟨block, left⟩
      cases left with
      | nil =>
          simp only [underway, List.map_cons, List.sum_cons, List.length_nil]
          omega
      | cons next left =>
          dsimp only
          split
          · simp only [underway, List.map_cons, List.sum_cons, List.length_cons]
            omega
          · rename_i taken
            have fresh : next ∉ visited := by
              intro member
              simp [member] at taken
            have edge := (within.stacked block (next :: left) (by simp)).2 next List.mem_cons_self
            rcases Store.mem_successors_iff.1 edge with ⟨_, -, -, isBlock⟩
            have moved := ahead_cons isBlock fresh
            simp only [underway, List.map_cons, List.sum_cons, List.length_cons, weight] at moved ⊢
            omega

theorem Walk.run_finishes
    {walk : Walk}
    {start : Ref}
    (within : walk.Within store start)
    (orderly : walk.Orderly store stop)
    (steps : Nat)
    (enough : underway walk.stack + ahead store walk.visited ≤ steps) :
    (walk.run store stop steps).stack = [] ∧ (walk.run store stop steps).Orderly store stop := by
  induction steps generalizing walk with
  | zero =>
      rw [Walk.run]
      refine ⟨?_, orderly⟩
      cases stacked : walk.stack with
      | nil => rfl
      | cons top rest =>
          rw [stacked] at enough
          simp [underway] at enough
  | succ steps induction =>
      rw [Walk.run]
      cases stacked : walk.stack with
      | nil => exact ⟨by simpa using stacked, by simpa using orderly⟩
      | cons top rest =>
          have moving : walk.stack ≠ [] := by simp [stacked]
          have decreases := Walk.step_decreases stop within moving
          simp only [List.isEmpty_cons, Bool.false_eq_true, if_false]
          exact induction within.step orderly.step (by omega)

/-! ## The bound -/

/-- The steps that a value accounts for in the bound of a walk. -/
def allowance : Content → Nat
  | .block .. => 1
  | .instruction entry => entry.operands.length
  | _ => 0

/-- The steps that the value with an index accounts for. -/
def allowanceAt (store : Store) (index : Nat) : Nat :=
  ((store.content? ⟨index⟩).map allowance).getD 0

theorem sum_map_eq_sum_range {α : Type} (list : List α) (measure : α → Nat) :
    (list.map measure).sum =
      ∑ index ∈ Finset.range list.length, ((list[index]?).map measure).getD 0 := by
  induction list with
  | nil => simp
  | cons first rest induction =>
      rw [List.length_cons, Finset.sum_range_succ', List.map_cons, List.sum_cons, induction]
      simp [Nat.add_comm]

theorem bound_eq (store : Store) :
    bound store = 2 + ∑ index ∈ Finset.range store.values.size, allowanceAt store index := by
  have folded : ∀ {count : Nat → Value → Nat},
      (∀ total value, count total value = total + allowance value.content) →
      ∀ (values : List Value) (total : Nat),
        values.foldl count total =
          total + (values.map fun value => allowance value.content).sum := by
    intro count counts values
    induction values with
    | nil => simp
    | cons first rest induction =>
        intro total
        rw [List.foldl_cons, induction, counts, List.map_cons, List.sum_cons, ← Nat.add_assoc]
  unfold bound
  rw [← Array.foldl_toList, folded fun total value => by cases value.content <;> rfl,
    sum_map_eq_sum_range]
  congr 1
  rw [Array.length_toList]
  refine Finset.sum_congr rfl fun index _ => ?_
  rw [Array.getElem?_toList, allowanceAt, Store.content?, Store.value?]
  cases store.values[index]? <;> rfl

theorem length_distinct_le (refs : List Ref) :
    (Store.distinct refs).length ≤ refs.length := by
  have general : ∀ seen : List Ref,
      (refs.foldl (fun seen ref => if seen.contains ref then seen else seen ++ [ref])
        seen).length ≤ seen.length + refs.length := by
    induction refs with
    | nil => simp
    | cons first rest induction =>
        intro seen
        rw [List.foldl_cons, List.length_cons]
        refine Nat.le_trans (induction _) ?_
        split
        · omega
        · rw [List.length_append, List.length_singleton]
          omega
  unfold Store.distinct
  simpa using general []

theorem successors_length_le
    {block terminator : Ref}
    (found : store.terminator? block = some terminator) :
    (store.successors block).length ≤ allowanceAt store terminator.index := by
  have isTerminator := (Store.terminator?_eq_some_iff.1 found).2
  unfold Store.isTerminator Store.opcode? at isTerminator
  cases entryFound : store.instruction? terminator with
  | none => simp [entryFound] at isTerminator
  | some entry =>
      have content := Store.instruction?_eq_some_iff.1 entryFound
      have allowed : allowanceAt store terminator.index = entry.operands.length := by
        unfold allowanceAt
        rw [show (⟨terminator.index⟩ : Ref) = terminator from rfl, content]
        rfl
      unfold Store.successors
      rw [found, allowed]
      refine Nat.le_trans (length_distinct_le _) (Nat.le_trans (List.length_filterMap_le _ _) ?_)
      simp [Store.operands, entryFound, Instruction.values]

/-- The blocks of a coherent store need no more steps than the bound allows. -/
theorem sum_weight_le_bound (coherent : store.Coherent) :
    ∑ index ∈ (Finset.range store.values.size).filter
      (fun index => store.isBlock ⟨index⟩ = true), weight store ⟨index⟩ + 2 ≤ bound store := by
  classical
  rw [bound_eq]
  let isBlockAt (index : Nat) : Prop := store.isBlock ⟨index⟩ = true
  let blocks := (Finset.range store.values.size).filter isBlockAt
  let others := (Finset.range store.values.size).filter fun index => ¬isBlockAt index
  let ending := blocks.filter fun index => (store.terminator? ⟨index⟩).isSome
  let lastAt (index : Nat) : Nat := ((store.terminator? ⟨index⟩).map Ref.index).getD 0
  have ends : ∀ index ∈ ending, ∃ terminator, store.terminator? ⟨index⟩ = some terminator ∧
      lastAt index = terminator.index := by
    intro index member
    rcases Option.isSome_iff_exists.1 (Finset.mem_filter.1 member).2 with ⟨terminator, found⟩
    exact ⟨terminator, found, by simp [lastAt, found]⟩
  have injective : Set.InjOn lastAt ending := by
    intro first firstMember second secondMember equal
    rcases ends first firstMember with ⟨terminator, found, endFirst⟩
    rcases ends second secondMember with ⟨terminator', found', endSecond⟩
    have same : terminator = terminator' :=
      Ref.index_injective (endFirst.symm.trans (equal.trans endSecond))
    subst same
    have linked := (coherent.mem_members _ _).1 (Store.mem_instructions_of_terminator? found)
    have linked' := (coherent.mem_members _ _).1 (Store.mem_instructions_of_terminator? found')
    have blocksSame := linked.symm.trans linked'
    simpa using blocksSame
  have edges : ∑ index ∈ blocks, (store.successors ⟨index⟩).length ≤
      ∑ index ∈ others, allowanceAt store index := by
    calc ∑ index ∈ blocks, (store.successors ⟨index⟩).length
        = ∑ index ∈ ending, (store.successors ⟨index⟩).length := by
          refine (Finset.sum_filter_of_ne fun index _ nonzero => ?_).symm
          cases found : store.terminator? ⟨index⟩ with
          | none => simp [Store.successors, found] at nonzero
          | some terminator => rfl
      _ ≤ ∑ index ∈ ending, allowanceAt store (lastAt index) := by
          refine Finset.sum_le_sum fun index member => ?_
          rcases ends index member with ⟨terminator, found, endIndex⟩
          rw [endIndex]
          exact successors_length_le found
      _ = ∑ index ∈ ending.image lastAt, allowanceAt store index :=
          (Finset.sum_image injective).symm
      _ ≤ ∑ index ∈ others, allowanceAt store index := by
          refine Finset.sum_le_sum_of_subset fun index member => ?_
          rcases Finset.mem_image.1 member with ⟨block, blockMember, rfl⟩
          rcases ends block blockMember with ⟨terminator, found, endIndex⟩
          rw [endIndex]
          have isTerminator := (Store.terminator?_eq_some_iff.1 found).2
          unfold Store.isTerminator Store.opcode? at isTerminator
          cases entryFound : store.instruction? terminator with
          | none => simp [entryFound] at isTerminator
          | some entry =>
              have present := Store.value?_isSome_of_instruction? entryFound
              rcases Option.isSome_iff_exists.1 present with ⟨value, valueFound⟩
              refine Finset.mem_filter.2 ⟨Finset.mem_range.2
                (Array.getElem?_eq_some_iff.1 valueFound).1, ?_⟩
              have content := Store.instruction?_eq_some_iff.1 entryFound
              intro isBlock
              have isBlock : store.isBlock terminator = true := isBlock
              simp [Store.isBlock, content] at isBlock
  have ones : ∑ index ∈ blocks, 1 = ∑ index ∈ blocks, allowanceAt store index := by
    refine Finset.sum_congr rfl fun index member => ?_
    have isBlock : store.isBlock ⟨index⟩ = true := (Finset.mem_filter.1 member).2
    rcases Store.isBlock_iff.1 isBlock with ⟨owner, members, content⟩
    simp [allowanceAt, content, allowance]
  have halves : ∑ index ∈ blocks, allowanceAt store index +
      ∑ index ∈ others, allowanceAt store index =
        ∑ index ∈ Finset.range store.values.size, allowanceAt store index :=
    Finset.sum_filter_add_sum_filter_not _ _ _
  have total : ∑ index ∈ blocks, weight store ⟨index⟩ =
      ∑ index ∈ blocks, (store.successors ⟨index⟩).length + ∑ index ∈ blocks, 1 := by
    rw [← Finset.sum_add_distrib]
    rfl
  show ∑ index ∈ blocks, weight store ⟨index⟩ + 2 ≤ _
  omega

/-! ## Listed blocks -/

/-- A walk that has come to its start block and nowhere else. -/
def Walk.first (store : Store) (start : Ref) : Walk :=
  ⟨[(start, store.successors start)], [start], []⟩

/-- The walk from a start block, as far as the bound lets it go. -/
def Walk.full (store : Store) (stop : Ref → Bool) (start : Ref) : Walk :=
  (Walk.first store start).run store stop (bound store)

theorem Walk.within_first (start : Ref) : (Walk.first store start).Within store start := by
  refine ⟨fun other left stacked => ?_, by simp [first]⟩
  cases List.mem_singleton.1 stacked
  exact ⟨.refl, fun _ member => member⟩

theorem Walk.orderly_first (stop : Ref → Bool) (start : Ref) :
    (Walk.first store start).Orderly store stop := by
  refine ⟨by simp [first], by simp [first], ?_, by simp [first]⟩
  intro entry member next edge
  cases List.mem_singleton.1 member
  exact .inl edge

/-- The bound allows all the steps of a walk. -/
theorem Walk.enough_first (coherent : store.Coherent) (start : Ref) :
    underway (Walk.first store start).stack + ahead store (Walk.first store start).visited ≤
      bound store := by
  have bounded := sum_weight_le_bound coherent
  have all : ahead store [] = ∑ index ∈ (Finset.range store.values.size).filter
      (fun index => store.isBlock ⟨index⟩ = true), weight store ⟨index⟩ := by
    simp [ahead]
  cases isBlock : store.isBlock start with
  | true =>
      have moved := ahead_cons isBlock List.not_mem_nil
      simp only [underway, first, List.map_cons, List.map_nil, List.sum_cons, List.sum_nil,
        weight] at moved ⊢
      omega
  | false =>
      have noSuccessors : store.successors start = [] := by
        unfold Store.successors Store.terminator? Store.instructions
        unfold Store.isBlock at isBlock
        split at isBlock
        · cases isBlock
        · rename_i notBlock
          cases found : store.content? start with
          | none => simp
          | some content =>
              cases content with
              | block owner members => exact absurd found (notBlock owner members)
              | _ => simp
      have fewer : ahead store [start] ≤ ahead store [] := by
        refine Finset.sum_le_sum_of_subset fun index member => ?_
        have parts := Finset.mem_filter.1 member
        exact Finset.mem_filter.2 ⟨parts.1, parts.2.1, by simp⟩
      simp only [underway, first, List.map_cons, List.map_nil, List.sum_cons, List.sum_nil,
        noSuccessors, List.length_nil]
      omega

/-- The walk from a start block comes to its end. -/
theorem Walk.finished_full (coherent : store.Coherent) (stop : Ref → Bool) (start : Ref) :
    (Walk.full store stop start).stack = [] ∧ (Walk.full store stop start).Orderly store stop :=
  Walk.run_finishes (Walk.within_first start) (Walk.orderly_first stop start) (bound store)
    (Walk.enough_first coherent start)

theorem Walk.sourced_full (coherent : store.Coherent) (stop : Ref → Bool) (start : Ref) :
    Sourced store start (Walk.full store stop start).order := by
  have sourced : Sourced store start (Walk.full store stop start).blocks :=
    Walk.sourced_run (Walk.within_first start) .start (bound store)
  rw [Walk.blocks, (Walk.finished_full coherent stop start).1] at sourced
  simpa using sourced

theorem postOrder_some (stop : Ref → Bool) (start : Ref) :
    postOrder store (some start) stop =
      if stop start then [] else (Walk.full store stop start).order :=
  rfl

/-- A walk that is over lists the blocks that it has been to. -/
theorem Walk.mem_order_iff (coherent : store.Coherent) {start block : Ref} :
    block ∈ (Walk.full store stop start).order ↔ block ∈ (Walk.full store stop start).visited := by
  obtain ⟨stack, orderly⟩ := Walk.finished_full coherent stop start
  rw [orderly.visited, stack, List.map_nil, List.append_nil]

theorem Walk.nodup_order (coherent : store.Coherent) (stop : Ref → Bool) (start : Ref) :
    (Walk.full store stop start).order.Nodup := by
  obtain ⟨stack, orderly⟩ := Walk.finished_full coherent stop start
  have distinct := orderly.distinct
  rwa [stack, List.map_nil, List.append_nil] at distinct

end Traversal

namespace Store

variable {store : Store} {function block body : Ref}

/-- The reachable blocks of a function are listed once each. -/
theorem nodup_reversePostOrder (coherent : store.Coherent) (function : Ref) :
    (store.reversePostOrder function).Nodup := by
  unfold reversePostOrder Traversal.reversePostOrder
  rw [List.nodup_reverse]
  cases hasBody : store.body? function with
  | none => exact List.nodup_nil
  | some body => exact Traversal.Walk.nodup_order coherent (fun _ => false) body

/-- Every block that control can reach from the body is listed. -/
theorem mem_reversePostOrder_of_reaches
    (coherent : store.Coherent)
    (hasBody : store.body? function = some body)
    (reaches : store.Reaches body block) :
    block ∈ store.reversePostOrder function := by
  unfold reversePostOrder Traversal.reversePostOrder
  rw [List.mem_reverse, hasBody]
  change block ∈ (Traversal.Walk.full store (fun _ => false) body).order
  induction reaches with
  | refl => exact (Traversal.Walk.sourced_full coherent _ body).start_mem
  | tail _ edge listed =>
      obtain ⟨-, orderly⟩ := Traversal.Walk.finished_full coherent (fun _ => false) body
      refine (Traversal.Walk.mem_order_iff coherent).2 ?_
      exact (orderly.finished _ listed _ edge).resolve_right (by simp)

/-- The body comes first, and control comes to every other block from an earlier one. -/
theorem sourced_reversePostOrder
    (coherent : store.Coherent)
    (hasBody : store.body? function = some body) :
    Traversal.Sourced store body (store.reversePostOrder function).reverse := by
  unfold reversePostOrder Traversal.reversePostOrder
  rw [List.reverse_reverse, hasBody]
  exact Traversal.Walk.sourced_full coherent (fun _ => false) body

end Store

end ShaderIR
