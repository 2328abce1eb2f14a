import Mathlib.Logic.Relation
import ShaderIR.Traversal

/-!
# What a depth-first walk lists

The walk lists blocks that control can reach from the start along successors.
-/

namespace ShaderIR

/-- Control can move from one block to another in any number of steps. -/
def Store.Reaches (store : Store) : Ref → Ref → Prop :=
  Relation.ReflTransGen fun source target => target ∈ store.successors source

namespace Traversal

/-- Everything a walk holds was reached from the start. -/
structure Walk.Within (store : Store) (start : Ref) (walk : Walk) : Prop where
  stacked : ∀ block left, (block, left) ∈ walk.stack →
    store.Reaches start block ∧ ∀ next ∈ left, next ∈ store.successors block
  listed : ∀ block ∈ walk.order, store.Reaches start block

variable {store : Store} {stop : Ref → Bool} {start : Ref}

theorem Walk.Within.step {walk : Walk} (within : walk.Within store start) :
    (walk.step store stop).Within store start := by
  unfold Walk.step
  split
  · exact within
  · rename_i block rest equal
    obtain ⟨reached, -⟩ := within.stacked block [] (by simp [equal])
    refine ⟨fun other left member => within.stacked other left (by simp [equal, member]), ?_⟩
    intro other member
    rcases List.mem_append.1 member with old | new
    · exact within.listed other old
    · rw [List.mem_singleton.1 new]
      exact reached
  · rename_i block next left rest equal
    obtain ⟨reached, successors⟩ := within.stacked block (next :: left) (by simp [equal])
    -- The top block keeps what it has left; only a new block may be put on top of it.
    have below : ∀ other others, (other, others) ∈ (block, left) :: rest →
        store.Reaches start other ∧ ∀ next ∈ others, next ∈ store.successors other := by
      intro other others member
      rcases List.mem_cons.1 member with top | deeper
      · cases top
        exact ⟨reached, fun next member => successors next (List.mem_cons_of_mem _ member)⟩
      · exact within.stacked other others (by simp [equal, deeper])
    split
    · exact ⟨below, within.listed⟩
    · refine ⟨fun other others member => ?_, within.listed⟩
      rcases List.mem_cons.1 member with top | deeper
      · cases top
        exact ⟨reached.tail (successors next List.mem_cons_self), fun _ member => member⟩
      · exact below other others deeper

theorem Walk.Within.run {walk : Walk} (within : walk.Within store start) (steps : Nat) :
    (walk.run store stop steps).Within store start := by
  induction steps generalizing walk with
  | zero => exact within
  | succ steps induction =>
      unfold Walk.run
      split
      · exact within
      · exact induction within.step

/-- Listed blocks are reached from the start. -/
theorem reaches_of_mem_postOrder
    {start : Option Ref}
    {block : Ref}
    (member : block ∈ postOrder store start stop) :
    ∃ first, start = some first ∧ store.Reaches first block := by
  unfold postOrder at member
  split at member
  · simp at member
  · rename_i first
    split at member
    · simp at member
    · refine ⟨first, rfl, (Walk.Within.run ?_ _).listed block member⟩
      refine ⟨fun other left stacked => ?_, by simp⟩
      cases List.mem_singleton.1 stacked
      exact ⟨.refl, fun _ member => member⟩

end Traversal

theorem Store.reaches_of_mem_reversePostOrder
    {store : Store}
    {function block : Ref}
    (member : block ∈ store.reversePostOrder function) :
    ∃ body, store.body? function = some body ∧ store.Reaches body block :=
  Traversal.reaches_of_mem_postOrder (List.mem_reverse.1 member)

end ShaderIR

/-!
## Where control comes from in a depth-first order

The blocks that a walk has finished, followed by its stack from the top down,
form one list that only ever grows by a block put in front of the block that led
to it.  So every block in it but the start, which is the last one, has a block
behind it that control comes from.  In reverse post-order these blocks come
first.
-/

namespace ShaderIR

namespace Traversal

/-- The start comes last, and control comes to every other block from a later one. -/
inductive Sourced (store : Store) (start : Ref) : List Ref → Prop
  | start : Sourced store start [start]
  | cons {block source : Ref} {rest : List Ref}
      (edge : block ∈ store.successors source)
      (later : source ∈ rest)
      (sourced : Sourced store start rest) :
      Sourced store start (block :: rest)

variable {store : Store} {stop : Ref → Bool} {start block source : Ref} {order : List Ref}

namespace Sourced

theorem start_mem (sourced : Sourced store start order) : start ∈ order := by
  induction sourced with
  | start => exact List.mem_singleton_self start
  | cons _ _ _ member => exact List.mem_cons_of_mem _ member

/-- A block may be put in before any block that control comes to it from. -/
theorem insert
    {before after : List Ref}
    (sourced : Sourced store start (before ++ after))
    (edge : block ∈ store.successors source)
    (later : source ∈ after) :
    Sourced store start (before ++ block :: after) := by
  induction before with
  | nil => exact .cons edge later sourced
  | cons first before induction =>
      generalize whole : first :: before ++ after = order at sourced
      cases sourced with
      | start =>
          have empty : before ++ after = [] := List.tail_eq_of_cons_eq whole
          rw [(List.append_eq_nil_iff.1 empty).2] at later
          cases later
      | cons firstEdge firstLater rest =>
          cases whole
          refine .cons firstEdge ?_ (induction rest)
          rcases List.mem_append.1 firstLater with inBefore | inAfter
          · exact List.mem_append_left _ inBefore
          · exact List.mem_append_right _ (List.mem_cons_of_mem _ inAfter)

/-- In reverse the start comes first. -/
theorem getElem?_reverse_zero (sourced : Sourced store start order) :
    order.reverse[0]? = some start := by
  induction sourced with
  | start => rfl
  | cons _ later _ first =>
      have nonempty := List.length_pos_of_mem later
      rw [List.reverse_cons, List.getElem?_append_left (by simpa using nonempty)]
      exact first

/-- In reverse control comes to every later block from an earlier one. -/
theorem exists_earlier
    {index : Nat}
    (sourced : Sourced store start order)
    (found : order.reverse[index]? = some block)
    (later : 0 < index) :
    ∃ (earlier : Nat) (source : Ref), earlier < index ∧
      order.reverse[earlier]? = some source ∧ block ∈ store.successors source := by
  induction sourced with
  | start =>
      cases index with
      | zero => omega
      | succ index => simp at found
  | @cons first source rest edge member _ induction =>
      rw [List.reverse_cons] at found ⊢
      rcases Nat.lt_or_ge index rest.reverse.length with inside | atEnd
      · rw [List.getElem?_append_left inside] at found
        rcases induction found with ⟨earlier, source, before, foundSource, sourceEdge⟩
        refine ⟨earlier, source, before, ?_, sourceEdge⟩
        rw [List.getElem?_append_left (Nat.lt_trans before inside)]
        exact foundSource
      · have last : block = first := by
          rw [List.getElem?_append_right atEnd] at found
          simpa using (List.mem_of_getElem? found)
        rcases List.mem_iff_getElem?.1 (List.mem_reverse.2 member) with ⟨earlier, foundSource⟩
        have inside := (List.getElem?_eq_some_iff.1 foundSource).1
        refine ⟨earlier, source, Nat.lt_of_lt_of_le inside atEnd, ?_, last ▸ edge⟩
        rw [List.getElem?_append_left inside]
        exact foundSource

end Sourced

/-- The finished blocks of a walk and its stack from the top down. -/
def Walk.blocks (walk : Walk) : List Ref :=
  walk.order ++ walk.stack.map Prod.fst

/-- A step keeps the blocks, or puts one in before the block that led to it. -/
theorem Walk.sourced_step
    {walk : Walk}
    (within : walk.Within store start)
    (sourced : Sourced store start walk.blocks) :
    Sourced store start (walk.step store stop).blocks := by
  rcases walk with ⟨stack, visited, order⟩
  unfold Walk.step
  cases stack with
  | nil => exact sourced
  | cons top rest =>
      rcases top with ⟨block, left⟩
      cases left with
      | nil => simpa [Walk.blocks] using sourced
      | cons next left =>
          dsimp only
          split
          · exact sourced
          · have edge := (within.stacked block (next :: left) List.mem_cons_self).2 next
              List.mem_cons_self
            exact Sourced.insert sourced edge List.mem_cons_self

theorem Walk.sourced_run
    {walk : Walk}
    (within : walk.Within store start)
    (sourced : Sourced store start walk.blocks)
    (steps : Nat) :
    Sourced store start (walk.run store stop steps).blocks := by
  induction steps generalizing walk with
  | zero => exact sourced
  | succ steps induction =>
      unfold Walk.run
      split
      · exact sourced
      · exact induction within.step (Walk.sourced_step within sourced)

end Traversal

end ShaderIR
