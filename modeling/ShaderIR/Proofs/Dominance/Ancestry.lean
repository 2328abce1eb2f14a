import ShaderIR.Dominance

/-!
# Ancestry in a parent table

A table of parents leads from every position towards the root.  `Ancestor` is
the relation that these walks define, apart from any function that performs
them.  The ancestors of a position form a chain, the nearest common ancestor of
two positions has exactly the ancestors that both of them have, and what the
known sources of a position agree on has exactly the ancestors of all of them.

The last section changes one parent.  Walks that do not come to the position
with the changed parent are the same in both tables.
-/

namespace ShaderIR

namespace Dominance

/-- A position lies on the walk from another one towards the root, both ends included. -/
inductive Ancestor (parents : Parents) : Nat → Nat → Prop
  | refl (position : Nat) : Ancestor parents position position
  | up {ancestor position parent : Nat}
      (step : above parents position = some parent)
      (rest : Ancestor parents ancestor parent) :
      Ancestor parents ancestor position

/-- The parent of a position is known. -/
def Known (parents : Parents) (position : Nat) : Prop :=
  (parents[position]?.join).isSome

section Walks

variable {parents : Parents} {ancestor other position parent : Nat}

theorem above_eq_some_iff :
    above parents position = some parent ↔
      parents[position]?.join = some parent ∧ parent < position := by
  simp [above, Option.filter_eq_some_iff]

theorem Known.lt_size (known : Known parents position) : position < parents.size := by
  apply Nat.lt_of_not_le
  intro outside
  simp [Known, Array.getElem?_eq_none outside] at known

theorem known_iff_exists :
    Known parents position ↔ ∃ parent, parents[position]?.join = some parent :=
  Option.isSome_iff_exists

namespace Ancestor

theorem le (walk : Ancestor parents ancestor position) : ancestor ≤ position := by
  induction walk with
  | refl => exact Nat.le_refl _
  | up step _ below => exact Nat.le_trans below (Nat.le_of_lt (above_lt step))

theorem trans
    (upper : Ancestor parents ancestor other)
    (lower : Ancestor parents other position) :
    Ancestor parents ancestor position := by
  induction lower with
  | refl => exact upper
  | up step _ reached => exact .up step reached

/-- An ancestor other than the position itself is an ancestor of its parent. -/
theorem of_above
    (walk : Ancestor parents ancestor position)
    (step : above parents position = some parent)
    (different : ancestor ≠ position) :
    Ancestor parents ancestor parent := by
  cases walk with
  | refl => exact absurd rfl different
  | up step' rest =>
      cases step.symm.trans step'
      exact rest

/-- Two ancestors of one position lie on one walk. -/
theorem linear
    (first : Ancestor parents ancestor position)
    (second : Ancestor parents other position)
    (ordered : ancestor ≤ other) :
    Ancestor parents ancestor other := by
  induction second with
  | refl => exact first
  | up step rest reached =>
      apply reached
      apply first.of_above step
      intro same
      have := rest.le
      have := above_lt step
      omega

/-- The walk from below comes to an ancestor through one of its children. -/
theorem exists_child
    (walk : Ancestor parents ancestor position)
    (different : ancestor ≠ position) :
    ∃ child, above parents child = some ancestor ∧ Ancestor parents child position := by
  induction walk with
  | refl => exact absurd rfl different
  | @up position parent step rest found =>
      by_cases same : ancestor = parent
      · subst same
        exact ⟨position, step, .refl position⟩
      · rcases found same with ⟨child, under, reaches⟩
        exact ⟨child, under, .up step reaches⟩

end Ancestor

end Walks

theorem mem_ancestors_iff :
    ancestor ∈ ancestors parents position ↔ Ancestor parents ancestor position := by
  induction position using Nat.strongRecOn with
  | ind position induction =>
      rw [ancestors]
      split
      · rename_i parent step
        rw [List.mem_cons, induction parent (above_lt step)]
        constructor
        · rintro (rfl | walk)
          · exact .refl ancestor
          · exact .up step walk
        · intro walk
          by_cases same : ancestor = position
          · exact .inl same
          · exact .inr (walk.of_above step same)
      · rename_i none
        rw [List.mem_singleton]
        constructor
        · rintro rfl
          exact .refl ancestor
        · intro walk
          cases walk with
          | refl => rfl
          | up step _ => exact absurd step (by rw [none]; simp)

/-! ## Common ancestors -/

section Common

variable {parents : Parents} {ancestor first second : Nat}

/-- The nearest common ancestor has the ancestors that both positions have. -/
theorem ancestor_meet_iff
    (firstRooted : Ancestor parents 0 first)
    (secondRooted : Ancestor parents 0 second) :
    Ancestor parents ancestor (meet parents first second) ↔
      Ancestor parents ancestor first ∧ Ancestor parents ancestor second := by
  fun_induction meet parents first second with
  | case1 position => exact and_self_iff.symm
  | case2 first second different later parent step induction =>
      rw [induction (firstRooted.of_above step (by omega)) secondRooted]
      constructor
      · rintro ⟨onFirst, onSecond⟩
        exact ⟨.up step onFirst, onSecond⟩
      · rintro ⟨onFirst, onSecond⟩
        have := onSecond.le
        exact ⟨onFirst.of_above step (by omega), onSecond⟩
  | case3 first second different later ended =>
      cases firstRooted with
      | refl => omega
      | up step _ => simp [ended] at step
  | case4 first second different notLater parent step induction =>
      rw [induction firstRooted (secondRooted.of_above step (by omega))]
      constructor
      · rintro ⟨onFirst, onSecond⟩
        exact ⟨onFirst, .up step onSecond⟩
      · rintro ⟨onFirst, onSecond⟩
        have := onFirst.le
        exact ⟨onFirst, onSecond.of_above step (by omega)⟩
  | case5 first second different notLater ended =>
      cases secondRooted with
      | refl => omega
      | up step _ => simp [ended] at step

/-- A position has just the ancestors that all known sources have. -/
def Agrees (parents : Parents) (sources : List Nat) (parent : Nat) : Prop :=
  ∀ ancestor, Ancestor parents ancestor parent ↔
    ∀ source ∈ sources, Known parents source → Ancestor parents ancestor source

theorem agreeWith_of_unknown
    {found : Option Nat}
    {source : Nat}
    (unknown : ¬Known parents source) :
    agreeWith parents found source = found := by
  apply if_pos
  simpa [Known] using unknown

theorem agreeWith_of_known
    {found : Option Nat}
    {source : Nat}
    (known : Known parents source) :
    agreeWith parents found source = some (found.elim source (meet parents source)) := by
  apply if_neg
  rcases known_iff_exists.1 known with ⟨parent, isParent⟩
  simp [isParent]

/-- What is agreed on after a known source has the ancestors of what was found and of the source. -/
theorem ancestor_agreeWith_iff
    {found : Option Nat}
    {source : Nat}
    (foundRooted : ∀ start ∈ found, Ancestor parents 0 start)
    (sourceRooted : Ancestor parents 0 source) :
    Ancestor parents ancestor (found.elim source (meet parents source)) ↔
      (∀ start ∈ found, Ancestor parents ancestor start) ∧ Ancestor parents ancestor source := by
  cases found with
  | none => simp
  | some start =>
      have startRooted := foundRooted start rfl
      rw [Option.elim_some, ancestor_meet_iff sourceRooted startRooted, and_comm]
      simp

/-- Sources that are heard after others only narrow down what those agreed on. -/
theorem exists_agreed_from
    {sources : List Nat}
    {found : Option Nat}
    (rooted : ∀ source ∈ sources, Known parents source → Ancestor parents 0 source)
    (foundRooted : ∀ start ∈ found, Ancestor parents 0 start)
    (heard : found.isSome ∨ ∃ source ∈ sources, Known parents source) :
    ∃ parent, sources.foldl (agreeWith parents) found = some parent ∧
      ∀ ancestor, Ancestor parents ancestor parent ↔
        (∀ start ∈ found, Ancestor parents ancestor start) ∧
          ∀ source ∈ sources, Known parents source → Ancestor parents ancestor source := by
  induction sources generalizing found with
  | nil =>
      rcases heard with heard | ⟨source, member, _⟩
      · rcases Option.isSome_iff_exists.1 heard with ⟨start, rfl⟩
        exact ⟨start, rfl, by simp⟩
      · cases member
  | cons source rest induction =>
      have restRooted : ∀ other ∈ rest, Known parents other → Ancestor parents 0 other :=
        fun other member => rooted other (List.mem_cons_of_mem _ member)
      rw [List.foldl_cons]
      by_cases known : Known parents source
      · have sourceRooted := rooted source List.mem_cons_self known
        have nextRooted : ∀ start ∈ agreeWith parents found source, Ancestor parents 0 start := by
          rw [agreeWith_of_known known]
          rintro _ ⟨rfl⟩
          exact (ancestor_agreeWith_iff foundRooted sourceRooted).2 ⟨foundRooted, sourceRooted⟩
        have nextHeard : (agreeWith parents found source).isSome := by
          rw [agreeWith_of_known known]
          rfl
        rcases induction restRooted nextRooted (.inl nextHeard) with ⟨parent, result, common⟩
        refine ⟨parent, result, fun ancestor => ?_⟩
        rw [common, agreeWith_of_known known]
        simp only [Option.mem_some_iff, forall_eq', ancestor_agreeWith_iff foundRooted sourceRooted,
          List.mem_cons, forall_eq_or_imp, known, forall_const, and_assoc]
      · have nextHeard : found.isSome ∨ ∃ source ∈ rest, Known parents source := by
          rcases heard with heard | ⟨other, member, otherKnown⟩
          · exact .inl heard
          · rcases List.mem_cons.1 member with rfl | member
            · exact absurd otherKnown known
            · exact .inr ⟨other, member, otherKnown⟩
        rw [agreeWith_of_unknown known]
        rcases induction restRooted foundRooted nextHeard with ⟨parent, result, common⟩
        refine ⟨parent, result, fun ancestor => ?_⟩
        rw [common]
        simp only [List.mem_cons, forall_eq_or_imp, known, false_implies, true_and]

/-- As soon as one source is known, there is something that the known sources agree on. -/
theorem exists_agreed
    {sources : List Nat}
    (rooted : ∀ source ∈ sources, Known parents source → Ancestor parents 0 source)
    (heard : ∃ source ∈ sources, Known parents source) :
    ∃ parent, agreed parents sources = some parent ∧ Agrees parents sources parent := by
  have nothingFound : ∀ start ∈ (none : Option Nat), Ancestor parents 0 start := nofun
  rcases exists_agreed_from rooted nothingFound (.inr heard) with ⟨parent, result, common⟩
  refine ⟨parent, result, fun ancestor => ?_⟩
  rw [common]
  simp

end Common

/-! ## Changing one parent -/

section Change

variable {parents : Parents} {changed parent ancestor position : Nat}

/-- The table with another parent for one position. -/
abbrev withParent (parents : Parents) (changed parent : Nat) : Parents :=
  parents.setIfInBounds changed (some parent)

theorem parent_withParent_self (inside : changed < parents.size) :
    (withParent parents changed parent)[changed]?.join = some parent := by
  simp [inside]

theorem parent_withParent_ne (different : position ≠ changed) :
    (withParent parents changed parent)[position]?.join = parents[position]?.join := by
  rw [Array.getElem?_setIfInBounds_ne different.symm]

theorem above_withParent_ne (different : position ≠ changed) :
    above (withParent parents changed parent) position = above parents position := by
  unfold above
  rw [parent_withParent_ne different]

theorem Known.withParent (known : Known parents position) (changed parent : Nat) :
    Known (withParent parents changed parent) position := by
  by_cases same : position = changed
  · subst same
    exact known_iff_exists.2 ⟨parent, parent_withParent_self known.lt_size⟩
  · unfold Known
    rw [parent_withParent_ne same]
    exact known

/-- A walk that does not come to the changed position is a walk in the changed table. -/
theorem Ancestor.withParent
    (walk : Ancestor parents ancestor position)
    (apart : ¬Ancestor parents changed position) :
    Ancestor (withParent parents changed parent) ancestor position := by
  induction walk with
  | refl => exact .refl _
  | @up position next step rest moved =>
      have different : position ≠ changed := by
        rintro rfl
        exact apart (.refl position)
      exact .up ((above_withParent_ne different).trans step)
        (moved fun reached => apart (.up step reached))

/-- Walks that end before they leave the changed position, or start after it, are the same. -/
theorem ancestor_withParent_iff (outside : position < changed ∨ changed ≤ ancestor) :
    Ancestor (withParent parents changed parent) ancestor position ↔
      Ancestor parents ancestor position := by
  constructor
  · intro walk
    induction walk with
    | refl => exact .refl _
    | @up position next step rest moved =>
        have := rest.le
        have := above_lt step
        exact .up ((above_withParent_ne (by omega)).symm.trans step) (moved (by omega))
  · intro walk
    induction walk with
    | refl => exact .refl _
    | @up position next step rest moved =>
        have := rest.le
        have := above_lt step
        exact .up ((above_withParent_ne (by omega)).trans step) (moved (by omega))

end Change

end Dominance

end ShaderIR
