import Mathlib.Algebra.BigOperators.Group.Finset.Basic
import Mathlib.Algebra.Order.BigOperators.Group.Finset
import ShaderIR.Proofs.Dominance.Sweep

/-!
# The table that sweeping ends with

A revision either keeps the table or finds a first parent for a position, or a
parent nearer to the root.  The sum of all parents therefore bounds the number
of sweeps that change anything, and sweeping ends with a table that another
sweep keeps.

In such a table the parent of every position agrees with all its sources.  Then
no path leads around an ancestor of a position, because each edge of a path
stays below the ancestors that its target has; and the other way round, the
sweeps never drop an ancestor that no path leads around.
-/

namespace ShaderIR

namespace Dominance

/-- The parent of a position; an unknown parent counts as if it came after all positions. -/
def cost (parents : Parents) (position : Nat) : Nat :=
  (parents[position]?.join).getD parents.size

/-- The sum of all parents. -/
def weight (parents : Parents) : Nat :=
  ∑ position ∈ Finset.range parents.size, cost parents position

variable {predecessors : Array (List Nat)} {parents : Parents}
  {front position parent ancestor : Nat}

theorem cost_withParent_self (inside : position < parents.size) :
    cost (withParent parents position parent) position = parent := by
  unfold cost
  rw [parent_withParent_self inside]
  rfl

theorem cost_withParent_ne {changed : Nat} (different : position ≠ changed) :
    cost (withParent parents changed parent) position = cost parents position := by
  unfold cost
  rw [parent_withParent_ne different, Array.size_setIfInBounds]

theorem weight_withParent_lt
    (inside : position < parents.size)
    (smaller : parent < cost parents position) :
    weight (withParent parents position parent) < weight parents := by
  unfold weight
  rw [Array.size_setIfInBounds]
  apply Finset.sum_lt_sum
  · intro other _
    by_cases same : other = position
    · subst same
      rw [cost_withParent_self inside]
      exact Nat.le_of_lt smaller
    · exact Nat.le_of_eq (cost_withParent_ne same)
  · refine ⟨position, Finset.mem_range.2 inside, ?_⟩
    rw [cost_withParent_self inside]
    exact smaller

theorem withParent_eq_self (found : parents[position]?.join = some parent) :
    withParent parents position parent = parents := by
  apply Array.ext_getElem?
  intro other
  by_cases same : other = position
  · subst same
    have inside : other < parents.size := Known.lt_size (known_iff_exists.2 ⟨parent, found⟩)
    rw [Array.getElem?_eq_getElem inside, Option.join_some] at found
    rw [Array.getElem?_setIfInBounds_self_of_lt inside, Array.getElem?_eq_getElem inside, found]
  · rw [Array.getElem?_setIfInBounds_ne (Ne.symm same)]

namespace Front

/-- A revision keeps the table or moves a parent towards the root. -/
theorem revise_descends
    (state : Front predecessors parents front)
    (ordered : Ordered predecessors)
    (later : 0 < front)
    (inside : front < predecessors.size) :
    Dominance.revise predecessors parents front = parents ∨
      weight (Dominance.revise predecessors parents front) < weight parents := by
  rcases state.exists_parent ordered later inside with ⟨parent, revised, before, agrees⟩
  have inTable : front < parents.size := state.size ▸ inside
  rw [revised]
  by_cases known : Known parents front
  · rcases state.linked known later with ⟨former, step⟩
    have found := (above_eq_some_iff.1 step).1
    rcases Nat.lt_or_eq_of_le (state.ancestor_parent step agrees).le with smaller | same
    · apply Or.inr
      apply weight_withParent_lt inTable
      unfold cost
      rw [found]
      exact smaller
    · subst same
      exact .inl (withParent_eq_self found)
  · apply Or.inr
    apply weight_withParent_lt inTable
    unfold cost
    rw [Option.not_isSome_iff_eq_none.1 known, Option.getD_none]
    exact Nat.lt_trans before inTable

/-- A run of revisions keeps the table, each of them, or moves parents towards the root. -/
theorem reviseFrom_descends
    {count : Nat}
    (state : Front predecessors parents front)
    (ordered : Ordered predecessors)
    (later : 0 < front)
    (inside : front + count ≤ predecessors.size) :
    (∀ position, front ≤ position → position < front + count →
        Dominance.revise predecessors parents position = parents) ∧
        Dominance.reviseFrom predecessors front count parents = parents ∨
      weight (Dominance.reviseFrom predecessors front count parents) < weight parents := by
  induction count generalizing parents front with
  | zero => exact .inl ⟨fun position _ _ => by omega, rfl⟩
  | succ count induction =>
      rw [reviseFrom_succ]
      have next := state.revise ordered later (by omega)
      rcases state.revise_descends ordered later (by omega) with same | less
      · rw [same] at next ⊢
        rcases induction next (by omega) (by omega) with ⟨kept, equal⟩ | less
        · refine .inl ⟨fun position notBefore early => ?_, equal⟩
          rcases Nat.eq_or_lt_of_le notBefore with rfl | after
          · exact same
          · exact kept position after (by omega)
        · exact .inr less
      · rcases induction next (by omega) (by omega) with ⟨_, equal⟩ | less'
        · rw [equal]
          exact .inr less
        · exact .inr (Nat.lt_trans less' less)

/-- A sweep keeps the table, with all its revisions, or moves parents towards the root. -/
theorem sweep_descends
    (state : Front predecessors parents 1)
    (ordered : Ordered predecessors)
    (nonempty : 0 < predecessors.size) :
    (∀ position, 0 < position → position < predecessors.size →
        Dominance.revise predecessors parents position = parents) ∧
        Dominance.sweep predecessors parents = parents ∨
      weight (Dominance.sweep predecessors parents) < weight parents := by
  have last : 1 + (predecessors.size - 1) = predecessors.size := Nat.add_sub_cancel' nonempty
  have swept := state.reviseFrom_descends ordered Nat.one_pos (Nat.le_of_eq last)
  rwa [last, ← sweep_eq] at swept

/-- With more rounds than the weight of the table, sweeping ends with what a sweep keeps. -/
theorem settle
    {rounds : Nat}
    (state : Front predecessors parents 1)
    (ordered : Ordered predecessors)
    (nonempty : 0 < predecessors.size)
    (enough : weight parents < rounds) :
    Front predecessors (settle predecessors rounds parents) predecessors.size ∧
      Dominance.sweep predecessors (Dominance.settle predecessors rounds parents) =
        Dominance.settle predecessors rounds parents := by
  induction rounds generalizing parents with
  | zero => omega
  | succ rounds induction =>
      have next := state.sweep ordered nonempty
      rw [Dominance.settle]
      by_cases same : Dominance.sweep predecessors parents = parents
      · rw [if_pos same]
        rw [same] at next
        exact ⟨next, same⟩
      · rw [if_neg same]
        rcases state.sweep_descends ordered nonempty with ⟨_, equal⟩ | less
        · exact absurd equal same
        · exact induction (next.rewind 1) (by omega)

end Front

theorem weight_start_le (size : Nat) :
    weight ((Array.replicate size none).setIfInBounds 0 (some 0)) ≤ size * size := by
  have bounded : ∀ position ∈ Finset.range size,
      cost ((Array.replicate size none).setIfInBounds 0 (some 0)) position ≤ size := by
    intro position member
    have inside : position < size := Finset.mem_range.1 member
    by_cases entry : position = 0
    · subst entry
      rw [cost_withParent_self (by simpa using inside)]
      exact Nat.zero_le size
    · rw [cost_withParent_ne entry]
      simp [cost, inside]
  have total := Finset.sum_le_card_nsmul _ _ size bounded
  simpa [weight] using total

/-- The immediate dominators are kept by another sweep. -/
theorem immediate_settled
    (ordered : Ordered predecessors)
    (nonempty : 0 < predecessors.size) :
    Front predecessors (immediate predecessors) predecessors.size ∧
      sweep predecessors (immediate predecessors) = immediate predecessors := by
  apply (front_start predecessors).settle ordered nonempty
  have := weight_start_le predecessors.size
  omega

/-! ## Ancestors are dominators -/

section Settled

variable (state : Front predecessors parents predecessors.size)
  (fixed : sweep predecessors parents = parents)
  (ordered : Ordered predecessors)

include state fixed ordered in
/-- In a table that a sweep keeps, the sources of every position agree on its parent. -/
theorem agrees_of_sweep_eq (later : 0 < position) (inside : position < predecessors.size) :
    ∃ parent, above parents position = some parent ∧
      Agrees parents (sources predecessors position) parent := by
  have kept : revise predecessors parents position = parents := by
    rcases (state.rewind 1).sweep_descends ordered (by omega) with ⟨kept, _⟩ | less
    · exact kept position later inside
    · rw [fixed] at less
      exact absurd less (Nat.lt_irrefl _)
  rcases (state.rewind position).exists_parent ordered later inside with
    ⟨parent, revised, before, agrees⟩
  refine ⟨parent, ?_, agrees⟩
  have step := above_front (state.rewind position) inside before
  rwa [← revised, kept] at step

include state fixed ordered in
/-- No path leads around an ancestor. -/
theorem not_ancestor_of_bypassed (bypassed : Bypassed predecessors ancestor position) :
    ¬Ancestor parents ancestor position := by
  induction bypassed with
  | entry different =>
      intro walk
      exact different (Nat.le_zero.1 walk.le)
  | @move source target edge different _ apart =>
      intro walk
      have sourceInside := ordered.inside edge
      have later : 0 < target := by
        have := walk.le
        omega
      have inside : target < predecessors.size := by
        by_contra outside
        simp [sources, Array.getElem?_eq_none (Nat.le_of_not_lt outside)] at edge
      rcases agrees_of_sweep_eq state fixed ordered later inside with ⟨parent, step, agrees⟩
      have onParent := walk.of_above step different
      exact apart ((agrees ancestor).1 onParent source edge
        (state.passed sourceInside sourceInside))

include state fixed ordered in
/-- The ancestors of a position are those that no path to it leads around. -/
theorem ancestor_iff_not_bypassed (inside : position < predecessors.size) :
    Ancestor parents ancestor position ↔ ¬Bypassed predecessors ancestor position := by
  constructor
  · intro walk bypassed
    exact not_ancestor_of_bypassed state fixed ordered bypassed walk
  · exact state.ancestor_of_not_bypassed ordered (state.passed inside inside)

end Settled

end Dominance

end ShaderIR
