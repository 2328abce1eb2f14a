import Mathlib.Data.List.Nodup
import ShaderIR.Proofs.Dominance.Ancestry

/-!
# Numbering a tree

A depth-first walk over a tree enters and leaves every position once.  The two
orders in which it does so determine the tree: a position is entered no later
and left no earlier than another one exactly when it is an ancestor of it.

Below a position the walk goes through the subtrees of its children one after
the other.  Two positions of one subtree are in the same order there as in the
whole walk; of two positions of different subtrees the one is entered and left
before the other, so that neither of them encloses the other.
-/

namespace ShaderIR

namespace Dominance

section Concatenation

variable {α : Type} [DecidableEq α] {parts : Nat → List α} {before after : List Nat}
  {part : Nat} {element : α}

/-- The place of an element of one part, when it is in no earlier part. -/
theorem idxOf_flatMap_of_mem
    (member : element ∈ parts part)
    (fresh : element ∉ before.flatMap parts) :
    ((before ++ part :: after).flatMap parts).idxOf element =
      (before.flatMap parts).length + (parts part).idxOf element := by
  rw [List.flatMap_append, List.flatMap_cons, List.idxOf_append_of_notMem fresh,
    List.idxOf_append_of_mem member]

/-- The place of an element of later parts comes after all of an earlier part. -/
theorem length_le_idxOf_flatMap
    (absent : element ∉ parts part)
    (fresh : element ∉ before.flatMap parts) :
    (before.flatMap parts).length + (parts part).length ≤
      ((before ++ part :: after).flatMap parts).idxOf element := by
  rw [List.flatMap_append, List.flatMap_cons, List.idxOf_append_of_notMem fresh,
    List.idxOf_append_of_notMem absent]
  omega

end Concatenation

variable {parents : Parents} {root first second position : Nat}

theorem entered_eq (parents : Parents) (position : Nat) :
    entered parents position =
      position :: (below parents position).flatMap (entered parents) := by
  rw [entered]
  simp [List.flatMap_subtype, List.unattach_attach]

theorem left_eq (parents : Parents) (position : Nat) :
    left parents position =
      (below parents position).flatMap (left parents) ++ [position] := by
  rw [left]
  simp [List.flatMap_subtype, List.unattach_attach]

/-- What holds of a position as soon as it holds of its children holds of every position. -/
theorem induction_below
    (parents : Parents)
    {holds : Nat → Prop}
    (step : ∀ position, (∀ child ∈ below parents position, holds child) → holds position)
    (position : Nat) :
    holds position := by
  induction position using entered.induct parents with
  | case1 position children =>
      exact step position fun child member => children ⟨child, member⟩

/-- The walk from a position enters the positions below it. -/
theorem mem_entered_iff (inside : root < parents.size) :
    position ∈ entered parents root ↔
      Ancestor parents root position ∧ position < parents.size := by
  induction root using induction_below parents with
  | step root children =>
      rw [entered_eq, List.mem_cons, List.mem_flatMap]
      constructor
      · rintro (rfl | ⟨child, member, reached⟩)
        · exact ⟨.refl _, inside⟩
        · rcases mem_below.1 member with ⟨childInside, step⟩
          rcases (children child member childInside).1 reached with ⟨walk, positionInside⟩
          exact ⟨(Ancestor.up step (.refl root)).trans walk, positionInside⟩
      · rintro ⟨walk, positionInside⟩
        by_cases same : root = position
        · exact .inl same.symm
        · rcases walk.exists_child same with ⟨child, step, reached⟩
          have childInside : child < parents.size :=
            Nat.lt_of_le_of_lt reached.le positionInside
          have member : child ∈ below parents root := mem_below.2 ⟨childInside, step⟩
          exact .inr ⟨child, member, (children child member childInside).2
            ⟨reached, positionInside⟩⟩

/-- The subtrees of different children have no position in common. -/
theorem eq_of_mem_entered
    {child other : Nat}
    (childBelow : child ∈ below parents root)
    (otherBelow : other ∈ below parents root)
    (underChild : position ∈ entered parents child)
    (underOther : position ∈ entered parents other) :
    child = other := by
  rcases mem_below.1 childBelow with ⟨childInside, childStep⟩
  rcases mem_below.1 otherBelow with ⟨otherInside, otherStep⟩
  have walk := ((mem_entered_iff childInside).1 underChild).1
  have walk' := ((mem_entered_iff otherInside).1 underOther).1
  have apart : ∀ {low high : Nat}, above parents low = some root →
      above parents high = some root → Ancestor parents low high → low = high := by
    intro low high lowStep highStep between
    by_contra different
    have := (between.of_above highStep different).le
    have := above_lt lowStep
    omega
  rcases Nat.le_total child other with ordered | ordered
  · exact apart childStep otherStep (walk.linear walk' ordered)
  · exact (apart otherStep childStep (walk'.linear walk ordered)).symm

theorem nodup_below (parents : Parents) (position : Nat) : (below parents position).Nodup :=
  List.Nodup.filter _ List.nodup_range

/-! ## Places in the two orders

The entering order and the leaving order list the same positions for every
subtree.  That is all that the order of different subtrees depends on.
-/

/-- For every position, a list of the positions below it. -/
def Lists (parents : Parents) (parts : Nat → List Nat) : Prop :=
  ∀ root position, position ∈ parts root ↔ position ∈ entered parents root

theorem lists_entered (parents : Parents) : Lists parents (entered parents) :=
  fun _ _ => .rfl

/-- The walk leaves the positions that it enters. -/
theorem lists_left (parents : Parents) : Lists parents (left parents) := by
  intro root position
  induction root using induction_below parents with
  | step root children =>
      rw [left_eq, entered_eq]
      simp only [List.mem_append, List.mem_flatMap, List.mem_cons, List.not_mem_nil, or_false]
      rw [or_comm]
      apply or_congr_right
      apply exists_congr
      intro child
      apply and_congr_right
      exact children child

section Places

variable {parts : Nat → List Nat} {before after : List Nat} {child : Nat}

/-- The subtrees before a child hold nothing of its own subtree. -/
theorem not_mem_flatMap_of_split
    (lists : Lists parents parts)
    (split : below parents root = before ++ child :: after)
    (member : position ∈ entered parents child) :
    position ∉ before.flatMap parts := by
  intro elsewhere
  rcases List.mem_flatMap.1 elsewhere with ⟨other, otherBefore, underOther⟩
  have same : child = other := by
    have childBelow : child ∈ below parents root := by simp [split]
    have otherBelow : other ∈ below parents root := by simp [split, otherBefore]
    exact eq_of_mem_entered childBelow otherBelow member ((lists other position).1 underOther)
  have distinct := nodup_below parents root
  rw [split] at distinct
  exact (List.nodup_append.1 distinct).2.2 other otherBefore child List.mem_cons_self same.symm

/-- Positions of one subtree are in the same order there as in the whole walk. -/
theorem idxOf_flatMap_le_iff
    (lists : Lists parents parts)
    (childBelow : child ∈ below parents root)
    (underFirst : first ∈ entered parents child)
    (underSecond : second ∈ entered parents child) :
    ((below parents root).flatMap parts).idxOf first ≤
        ((below parents root).flatMap parts).idxOf second ↔
      (parts child).idxOf first ≤ (parts child).idxOf second := by
  rcases List.append_of_mem childBelow with ⟨before, after, split⟩
  have firstFresh := not_mem_flatMap_of_split lists split underFirst
  have secondFresh := not_mem_flatMap_of_split lists split underSecond
  rw [split, idxOf_flatMap_of_mem ((lists child first).2 underFirst) firstFresh,
    idxOf_flatMap_of_mem ((lists child second).2 underSecond) secondFresh, Nat.add_le_add_iff_left]

/-- A position of one subtree comes before every position of a later subtree. -/
theorem idxOf_flatMap_lt
    {other : Nat}
    (lists : Lists parents parts)
    (split : below parents root = before ++ child :: after)
    (otherAfter : other ∈ after)
    (underChild : first ∈ entered parents child)
    (underOther : second ∈ entered parents other) :
    ((below parents root).flatMap parts).idxOf first <
      ((below parents root).flatMap parts).idxOf second := by
  rcases List.append_of_mem otherAfter with ⟨between, rest, splitAfter⟩
  have splitOther : below parents root = (before ++ child :: between) ++ other :: rest := by
    simp [split, splitAfter]
  have secondFresh := not_mem_flatMap_of_split lists splitOther underOther
  rw [List.flatMap_append, List.flatMap_cons, List.mem_append, List.mem_append, not_or,
    not_or] at secondFresh
  rw [split, idxOf_flatMap_of_mem ((lists child first).2 underChild)
    (not_mem_flatMap_of_split lists split underChild)]
  calc (before.flatMap parts).length + (parts child).idxOf first
      < (before.flatMap parts).length + (parts child).length :=
        Nat.add_lt_add_left (List.idxOf_lt_length_of_mem ((lists child first).2 underChild)) _
    _ ≤ ((before ++ child :: after).flatMap parts).idxOf second :=
        length_le_idxOf_flatMap secondFresh.2.1 secondFresh.1

end Places

/-- The position that a walk starts from is entered first, and all others after it. -/
theorem idxOf_entered_of_ne (different : position ≠ root) :
    (entered parents root).idxOf position =
      ((below parents root).flatMap (entered parents)).idxOf position + 1 := by
  rw [entered_eq, List.idxOf_cons_ne _ different.symm]

/-- The positions below the start are left in the order of the subtrees. -/
theorem idxOf_left_of_mem
    {child : Nat}
    (childBelow : child ∈ below parents root)
    (underChild : position ∈ entered parents child) :
    (left parents root).idxOf position =
      ((below parents root).flatMap (left parents)).idxOf position := by
  have member : position ∈ (below parents root).flatMap (left parents) :=
    List.mem_flatMap.2 ⟨child, childBelow, (lists_left parents child position).2 underChild⟩
  rw [left_eq, List.idxOf_append_of_mem member]

/-- The position that a walk starts from is left last. -/
theorem idxOf_left_le_self (member : position ∈ entered parents root) :
    (left parents root).idxOf position ≤ (left parents root).idxOf root := by
  have notBelow : root ∉ (below parents root).flatMap (left parents) := by
    intro elsewhere
    rcases List.mem_flatMap.1 elsewhere with ⟨child, childBelow, underChild⟩
    rcases mem_below.1 childBelow with ⟨childInside, step⟩
    have := ((mem_entered_iff childInside).1 ((lists_left parents child root).1 underChild)).1.le
    have := above_lt step
    omega
  have last : (left parents root).idxOf root + 1 = (left parents root).length := by
    rw [left_eq, List.idxOf_append_of_notMem notBelow]
    simp
  have := List.idxOf_lt_length_of_mem ((lists_left parents root position).2 member)
  omega

/-- A child whose subtree holds a position other than the start. -/
theorem exists_below_of_mem_entered
    (member : position ∈ entered parents root)
    (different : position ≠ root) :
    ∃ child ∈ below parents root, position ∈ entered parents child := by
  rw [entered_eq] at member
  rcases List.mem_cons.1 member with same | member
  · exact absurd same different
  · exact List.mem_flatMap.1 member

/--
A position is entered no later and left no earlier than another one exactly when
it is an ancestor of it.
-/
theorem encloses_iff
    (inside : root < parents.size)
    (firstMember : first ∈ entered parents root)
    (secondMember : second ∈ entered parents root) :
    (entered parents root).idxOf first ≤ (entered parents root).idxOf second ∧
        (left parents root).idxOf second ≤ (left parents root).idxOf first ↔
      Ancestor parents first second := by
  induction root using induction_below parents with
  | step root children =>
      by_cases firstRoot : first = root
      · subst firstRoot
        apply iff_of_true
        · constructor
          · rw [entered_eq, List.idxOf_cons_self]
            exact Nat.zero_le _
          · exact idxOf_left_le_self secondMember
        · exact ((mem_entered_iff inside).1 secondMember).1
      by_cases secondRoot : second = root
      · subst secondRoot
        apply iff_of_false
        · rintro ⟨enteredEarlier, _⟩
          rw [idxOf_entered_of_ne firstRoot, entered_eq, List.idxOf_cons_self] at enteredEarlier
          omega
        · intro walk
          have := walk.le
          have := ((mem_entered_iff inside).1 firstMember).1.le
          omega
      rcases exists_below_of_mem_entered firstMember firstRoot with
        ⟨child, childBelow, underChild⟩
      rcases exists_below_of_mem_entered secondMember secondRoot with
        ⟨other, otherBelow, underOther⟩
      rw [idxOf_entered_of_ne firstRoot, idxOf_entered_of_ne secondRoot,
        idxOf_left_of_mem childBelow underChild, idxOf_left_of_mem otherBelow underOther,
        Nat.add_le_add_iff_right]
      have childInside := (mem_below.1 childBelow).1
      by_cases same : child = other
      · subst same
        rw [idxOf_flatMap_le_iff (lists_entered parents) childBelow underChild underOther,
          idxOf_flatMap_le_iff (lists_left parents) childBelow underOther underChild]
        exact children child childBelow childInside underChild underOther
      · apply iff_of_false
        · rintro ⟨enteredEarlier, leftLater⟩
          rcases List.append_of_mem childBelow with ⟨before, after, split⟩
          have otherElsewhere := otherBelow
          rw [split, List.mem_append, List.mem_cons] at otherElsewhere
          rcases otherElsewhere with otherBefore | otherSame | otherAfter
          · -- The subtree of the second position comes first: it is entered earlier.
            rcases List.append_of_mem otherBefore with ⟨start, between, splitBefore⟩
            have splitOther :
                below parents root = start ++ other :: (between ++ child :: after) := by
              simp [split, splitBefore]
            have := idxOf_flatMap_lt (lists_entered parents) splitOther
              (List.mem_append_right _ List.mem_cons_self) underOther underChild
            omega
          · exact same otherSame.symm
          · -- The subtree of the first position comes first: it is left earlier.
            have := idxOf_flatMap_lt (lists_left parents) split otherAfter underChild underOther
            omega
        · intro walk
          apply same
          apply eq_of_mem_entered childBelow otherBelow _ underOther
          rcases (mem_entered_iff childInside).1 underChild with ⟨onFirst, _⟩
          apply (mem_entered_iff childInside).2
          exact ⟨onFirst.trans walk, ((mem_entered_iff inside).1 secondMember).2⟩

end Dominance

end ShaderIR
