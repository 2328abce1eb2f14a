import Mathlib.Data.List.Range
import ShaderIR.Proofs.Dominance.Ancestry

/-!
# What a sweep keeps

A sweep revises one position after the other.  `Front` is what holds between two
revisions, when the positions before a front have been revised in the current
sweep.  It bounds the parent of every position from both sides.

* From above: a position keeps all its dominators as ancestors.
* From below: what is an ancestor of all known sources of a position is an
  ancestor of its parent.  A revision therefore moves a parent only towards the
  root.

The second part would be lost when the position that is revised lies on the walk
from some other parent.  It is kept because the ancestors of a parent that come
from the front on are ancestors of every earlier source, too.
-/

namespace ShaderIR

namespace Dominance

/-- The positions from which control moves to a position. -/
def sources (predecessors : Array (List Nat)) (position : Nat) : List Nat :=
  predecessors[position]?.getD []

/-- The positions that control can come to from the entry around some position. -/
inductive Bypassed (predecessors : Array (List Nat)) (avoided : Nat) : Nat → Prop
  | entry (different : avoided ≠ 0) : Bypassed predecessors avoided 0
  | move {source target : Nat}
      (edge : source ∈ sources predecessors target)
      (different : avoided ≠ target)
      (before : Bypassed predecessors avoided source) :
      Bypassed predecessors avoided target

/-- Sources are positions, and control comes to every later position from an earlier one. -/
structure Ordered (predecessors : Array (List Nat)) : Prop where
  inside : ∀ {position source}, source ∈ sources predecessors position →
    source < predecessors.size
  earlier : ∀ {position}, 0 < position → position < predecessors.size →
    ∃ source ∈ sources predecessors position, source < position

variable {predecessors : Array (List Nat)} {parents : Parents}
  {front position parent ancestor : Nat}

/-- What cannot be avoided on the way to a position comes before it. -/
theorem Ordered.le_of_not_bypassed
    (ordered : Ordered predecessors)
    (inside : position < predecessors.size)
    (unavoidable : ¬Bypassed predecessors ancestor position) :
    ancestor ≤ position := by
  induction position using Nat.strong_induction_on with
  | h position induction =>
      by_cases same : ancestor = position
      · exact Nat.le_of_eq same
      by_cases entry : position = 0
      · subst entry
        exact absurd (.entry same) unavoidable
      rcases ordered.earlier (Nat.pos_of_ne_zero entry) inside with ⟨source, edge, before⟩
      have := induction source before (ordered.inside edge)
        fun bypassed => unavoidable (.move edge same bypassed)
      omega

/-- What holds of the parents when the positions before the front have been revised. -/
structure Front (predecessors : Array (List Nat)) (parents : Parents) (front : Nat) : Prop where
  size : parents.size = predecessors.size
  /-- A known position other than the entry has an earlier parent. -/
  linked : ∀ {position}, Known parents position → 0 < position →
    ∃ parent, above parents position = some parent
  closed : ∀ {position earlier}, Known parents position → earlier ≤ position →
    Known parents earlier
  passed : ∀ {position}, position < front → position < predecessors.size →
    Known parents position
  /-- What dominates a position and differs from it dominates its parent. -/
  complete : ∀ {position parent ancestor}, above parents position = some parent →
    ¬Bypassed predecessors ancestor position → ancestor ≠ position →
    ¬Bypassed predecessors ancestor parent
  /-- The common ancestors of the known sources are ancestors of the parent. -/
  descending : ∀ {position parent ancestor}, above parents position = some parent →
    (∀ source ∈ sources predecessors position, Known parents source →
      Ancestor parents ancestor source) →
    Ancestor parents ancestor parent
  /-- Where a position was revised, or from the front on, it is the other way round. -/
  consistent : ∀ {position parent source ancestor}, above parents position = some parent →
    source ∈ sources predecessors position → source < position →
    front ≤ ancestor ∨ position < front →
    Ancestor parents ancestor parent → Ancestor parents ancestor source

theorem known_of_above (step : above parents position = some parent) :
    Known parents position :=
  known_iff_exists.2 ⟨parent, (above_eq_some_iff.1 step).1⟩

theorem pos_of_above (step : above parents position = some parent) : 0 < position :=
  Nat.lt_of_le_of_lt (Nat.zero_le parent) (above_lt step)

namespace Front

theorem known_parent
    (state : Front predecessors parents front)
    (step : above parents position = some parent) :
    Known parents parent :=
  state.closed (known_of_above step) (Nat.le_of_lt (above_lt step))

theorem rooted (state : Front predecessors parents front) (known : Known parents position) :
    Ancestor parents 0 position := by
  induction position using Nat.strong_induction_on with
  | h position induction =>
      by_cases entry : position = 0
      · subst entry
        exact .refl 0
      · rcases state.linked known (Nat.pos_of_ne_zero entry) with ⟨parent, step⟩
        exact .up step (induction parent (above_lt step) (state.known_parent step))

/-- The dominators of a position are its ancestors. -/
theorem ancestor_of_not_bypassed
    (state : Front predecessors parents front)
    (ordered : Ordered predecessors)
    (known : Known parents position)
    (unavoidable : ¬Bypassed predecessors ancestor position) :
    Ancestor parents ancestor position := by
  induction position using Nat.strong_induction_on with
  | h position induction =>
      by_cases same : ancestor = position
      · subst same
        exact .refl ancestor
      · have inside : position < predecessors.size := state.size ▸ known.lt_size
        have before := ordered.le_of_not_bypassed inside unavoidable
        rcases state.linked known (by omega) with ⟨parent, step⟩
        exact .up step (induction parent (above_lt step) (state.known_parent step)
          (state.complete step unavoidable same))

/-- The ancestors of a position have the dominators of the position that come before them. -/
theorem not_bypassed_of_ancestor
    {middle : Nat}
    (state : Front predecessors parents front)
    (unavoidable : ¬Bypassed predecessors ancestor position)
    (walk : Ancestor parents middle position)
    (before : ancestor ≤ middle) :
    ¬Bypassed predecessors ancestor middle := by
  induction walk with
  | refl => exact unavoidable
  | @up position parent step rest induction =>
      have := rest.le
      have := above_lt step
      exact induction (state.complete step unavoidable (by omega))

/-- The sources of the front agree on a parent, which comes before it. -/
theorem exists_parent
    (state : Front predecessors parents front)
    (ordered : Ordered predecessors)
    (later : 0 < front)
    (inside : front < predecessors.size) :
    ∃ parent, revise predecessors parents front = withParent parents front parent ∧
      parent < front ∧ Agrees parents (sources predecessors front) parent := by
  rcases ordered.earlier later inside with ⟨source, edge, before⟩
  have sourceKnown := state.passed before (ordered.inside edge)
  have allRooted : ∀ source ∈ sources predecessors front,
      Known parents source → Ancestor parents 0 source := fun _ _ known => state.rooted known
  rcases exists_agreed allRooted ⟨source, edge, sourceKnown⟩ with ⟨parent, found, agrees⟩
  refine ⟨parent, ?_, ?_, agrees⟩
  · unfold revise
    rw [← sources, found]
  · have := ((agrees parent).1 (.refl parent) source edge sourceKnown).le
    omega

/-- A revision moves the parent of the front towards the root. -/
theorem ancestor_parent
    {former : Nat}
    (state : Front predecessors parents front)
    (step : above parents front = some former)
    (agrees : Agrees parents (sources predecessors front) parent) :
    Ancestor parents parent former :=
  state.descending step ((agrees parent).1 (.refl parent))

end Front

/-! ## One revision

The changed table is `withParent parents front parent`, where the known sources
of the front agree on the parent.
-/

section Revision

variable (state : Front predecessors parents front)
  (ordered : Ordered predecessors)
  (inside : front < predecessors.size)
  (before : parent < front)
  (agrees : Agrees parents (sources predecessors front) parent)

include state inside before in
theorem above_front : above (withParent parents front parent) front = some parent :=
  above_eq_some_iff.2 ⟨parent_withParent_self (state.size ▸ inside), before⟩

theorem known_of_withParent
    {position : Nat}
    (known : Known (withParent parents front parent) position)
    (different : position ≠ front) :
    Known parents position := by
  unfold Known at known ⊢
  rwa [parent_withParent_ne different] at known

include state inside before agrees in
/-- A revision takes ancestors away and gives none. -/
theorem ancestor_of_withParent
    (known : Known parents position)
    (walk : Ancestor (withParent parents front parent) ancestor position) :
    Ancestor parents ancestor position := by
  induction walk with
  | refl => exact .refl _
  | @up position next step rest induction =>
      by_cases same : position = front
      · subst same
        cases (above_front state inside before).symm.trans step
        rcases state.linked known (by omega) with ⟨former, formerStep⟩
        have formerWalk := state.ancestor_parent formerStep agrees
        exact .up formerStep ((induction (state.closed known (by omega))).trans formerWalk)
      · rw [above_withParent_ne same] at step
        exact .up step (induction (state.known_parent step))

include state ordered inside before agrees in
/-- The common ancestors of the sources stay ancestors of the parent. -/
theorem descending_withParent
    {next : Nat}
    (step : above (withParent parents front parent) position = some next)
    (shared : ∀ source ∈ sources predecessors position,
      Known (withParent parents front parent) source →
        Ancestor (withParent parents front parent) ancestor source) :
    Ancestor (withParent parents front parent) ancestor next := by
  have formerShared : ∀ source ∈ sources predecessors position,
      Known parents source → Ancestor parents ancestor source := by
    intro source edge known
    have walk := shared source edge (known.withParent front parent)
    exact ancestor_of_withParent state inside before agrees known walk
  by_cases same : position = front
  · subst same
    cases (above_front state inside before).symm.trans step
    exact (ancestor_withParent_iff (.inl before)).2 ((agrees ancestor).2 formerShared)
  rw [above_withParent_ne same] at step
  have formerWalk := state.descending step formerShared
  by_cases through : Ancestor parents front next
  · by_cases early : ancestor < front
    · -- The walk leaves the front for its new parent, as the walk from an earlier source does.
      have known := known_of_above step
      rcases ordered.earlier (pos_of_above step) (state.size ▸ known.lt_size) with
        ⟨source, edge, sourceBefore⟩
      have sourceKnown := state.closed known (Nat.le_of_lt sourceBefore)
      have sourceThrough :=
        state.consistent step edge sourceBefore (.inl (Nat.le_refl front)) through
      have upper := (shared source edge (sourceKnown.withParent front parent)).linear
        ((ancestor_withParent_iff (.inr (Nat.le_refl front))).2 sourceThrough)
        (Nat.le_of_lt early)
      exact upper.trans ((ancestor_withParent_iff (.inr (Nat.le_refl front))).2 through)
    · exact (ancestor_withParent_iff (.inr (Nat.le_of_not_lt early))).2 formerWalk
  · exact formerWalk.withParent through

include state inside before agrees in
/-- The ancestors of a revised parent are ancestors of the earlier sources. -/
theorem consistent_withParent
    {next source : Nat}
    (step : above (withParent parents front parent) position = some next)
    (edge : source ∈ sources predecessors position)
    (sourceBefore : source < position)
    (covered : front + 1 ≤ ancestor ∨ position < front + 1)
    (walk : Ancestor (withParent parents front parent) ancestor next) :
    Ancestor (withParent parents front parent) ancestor source := by
  by_cases same : position = front
  · subst same
    cases (above_front state inside before).symm.trans step
    rw [ancestor_withParent_iff (.inl before)] at walk
    have sourceKnown := state.passed sourceBefore (Nat.lt_trans sourceBefore inside)
    exact (ancestor_withParent_iff (.inl sourceBefore)).2
      ((agrees ancestor).1 walk source edge sourceKnown)
  rw [above_withParent_ne same] at step
  have := above_lt step
  rcases covered with late | revised
  · rw [ancestor_withParent_iff (.inr (by omega))] at walk ⊢
    exact state.consistent step edge sourceBefore (.inl (by omega)) walk
  · rw [ancestor_withParent_iff (.inl (by omega))] at walk ⊢
    exact state.consistent step edge sourceBefore (.inr (by omega)) walk

include state ordered inside before agrees in
/-- The new parent of the front has the dominators of the front. -/
theorem complete_front
    (unavoidable : ¬Bypassed predecessors ancestor front)
    (different : ancestor ≠ front) :
    ¬Bypassed predecessors ancestor parent := by
  have ofSource : ∀ source ∈ sources predecessors front,
      ¬Bypassed predecessors ancestor source :=
    fun _ edge bypassed => unavoidable (.move edge different bypassed)
  have walk : Ancestor parents ancestor parent := by
    apply (agrees ancestor).2
    intro source edge known
    exact state.ancestor_of_not_bypassed ordered known (ofSource source edge)
  rcases ordered.earlier (by omega) inside with ⟨source, edge, sourceBefore⟩
  have sourceKnown := state.passed sourceBefore (Nat.lt_trans sourceBefore inside)
  have sourceWalk := (agrees parent).1 (.refl parent) source edge sourceKnown
  exact state.not_bypassed_of_ancestor (ofSource source edge) sourceWalk walk.le

include state ordered inside before agrees in
theorem Front.withParent :
    Front predecessors (withParent parents front parent) (front + 1) where
  size := by
    rw [Array.size_setIfInBounds]
    exact state.size
  linked := by
    intro position known later
    by_cases same : position = front
    · subst same
      exact ⟨parent, above_front state inside before⟩
    · rw [above_withParent_ne same]
      exact state.linked (known_of_withParent known same) later
  closed := by
    intro position earlier known ordered
    by_cases same : position = front
    · subst same
      by_cases last : earlier = position
      · subst last
        exact known
      · exact (state.passed (by omega) (by omega)).withParent _ _
    · exact (state.closed (known_of_withParent known same) ordered).withParent _ _
  passed := by
    intro position early positionInside
    by_cases same : position = front
    · subst same
      exact known_of_above (above_front state inside before)
    · exact (state.passed (by omega) positionInside).withParent _ _
  complete := by
    intro position next ancestor step unavoidable different
    by_cases same : position = front
    · subst same
      cases (above_front state inside before).symm.trans step
      exact complete_front state ordered inside before agrees unavoidable different
    · rw [above_withParent_ne same] at step
      exact state.complete step unavoidable different
  descending := descending_withParent state ordered inside before agrees
  consistent := consistent_withParent state inside before agrees

end Revision

/-! ## A whole sweep -/

/-- A revision carries the front one position further. -/
theorem Front.revise
    (state : Front predecessors parents front)
    (ordered : Ordered predecessors)
    (later : 0 < front)
    (inside : front < predecessors.size) :
    Front predecessors (revise predecessors parents front) (front + 1) := by
  rcases state.exists_parent ordered later inside with ⟨parent, revised, before, agrees⟩
  rw [revised]
  exact state.withParent ordered inside before agrees

/-- The revisions from a position on, one after the other. -/
def reviseFrom (predecessors : Array (List Nat)) (front count : Nat) (parents : Parents) :
    Parents :=
  (List.range' front count).foldl (Dominance.revise predecessors) parents

theorem reviseFrom_succ (predecessors : Array (List Nat)) (front count : Nat) (parents : Parents) :
    reviseFrom predecessors front (count + 1) parents =
      reviseFrom predecessors (front + 1) count (revise predecessors parents front) := by
  rw [reviseFrom, List.range'_succ, List.foldl_cons]
  rfl

theorem sweep_eq (predecessors : Array (List Nat)) (parents : Parents) :
    sweep predecessors parents = reviseFrom predecessors 1 (predecessors.size - 1) parents := by
  unfold sweep reviseFrom
  rw [List.range_eq_range', List.drop_range']

theorem Front.reviseFrom
    {count : Nat}
    (state : Front predecessors parents front)
    (ordered : Ordered predecessors)
    (later : 0 < front)
    (inside : front + count ≤ predecessors.size) :
    Front predecessors (reviseFrom predecessors front count parents) (front + count) := by
  induction count generalizing parents front with
  | zero => exact state
  | succ count induction =>
      rw [reviseFrom_succ]
      have next := induction (state.revise ordered later (by omega)) (by omega) (by omega)
      rwa [Nat.add_assoc, Nat.add_comm 1] at next

/-- When the front has passed all positions, it may be anywhere. -/
theorem Front.rewind (state : Front predecessors parents predecessors.size) (front : Nat) :
    Front predecessors parents front where
  size := state.size
  linked := state.linked
  closed := state.closed
  passed := fun _ inside => state.passed inside inside
  complete := state.complete
  descending := state.descending
  consistent := fun step edge before _ walk =>
    state.consistent step edge before (.inr (state.size ▸ (known_of_above step).lt_size)) walk

theorem Front.sweep
    (state : Front predecessors parents 1)
    (ordered : Ordered predecessors)
    (nonempty : 0 < predecessors.size) :
    Front predecessors (sweep predecessors parents) predecessors.size := by
  rw [sweep_eq]
  have last : 1 + (predecessors.size - 1) = predecessors.size := Nat.add_sub_cancel' nonempty
  have swept := state.reviseFrom ordered Nat.one_pos (Nat.le_of_eq last)
  rwa [last] at swept

/-- Before the first sweep the entry is its own parent and nothing else is known. -/
theorem front_start (predecessors : Array (List Nat)) :
    Front predecessors ((Array.replicate predecessors.size none).setIfInBounds 0 (some 0)) 1 := by
  have onlyEntry : ∀ {position}, Known
      ((Array.replicate predecessors.size none).setIfInBounds 0 (some 0)) position →
        position = 0 := by
    intro position known
    by_contra different
    rw [Known, Array.getElem?_setIfInBounds_ne (Ne.symm different),
      Array.getElem?_replicate] at known
    split at known <;> cases known
  have noStep : ∀ {position parent}, above
      ((Array.replicate predecessors.size none).setIfInBounds 0 (some 0)) position ≠
        some parent := by
    intro position parent step
    have := onlyEntry (known_of_above step)
    have := pos_of_above step
    omega
  constructor
  case size => simp
  case linked =>
    intro position known later
    have := onlyEntry known
    omega
  case closed =>
    intro position earlier known before
    have entry := onlyEntry known
    have : earlier = position := by omega
    exact this ▸ known
  case passed =>
    intro position early inside
    have entry : position = 0 := by omega
    subst entry
    simp [Known, inside]
  case complete => exact fun step => absurd step noStep
  case descending => exact fun step => absurd step noStep
  case consistent => exact fun step => absurd step noStep

end Dominance

end ShaderIR
