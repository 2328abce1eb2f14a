import Mathlib.Data.List.Induction
import Mathlib.Data.List.Nodup
import ShaderIR.Links

/-!
# Links that represent lists

Links represent lists when going along them gives the lists: the first and the last
node of an owner, the number of its nodes and the neighbours of each node are those of
its list, and a node that is in no list has no neighbours.

Linking a node between others and unlinking a node change the links at a few places, and
this is what the same change of the lists asks for.
-/

namespace ShaderIR

namespace Links

variable {Owner Node : Type}

/-- Links represent lists without repetitions. -/
structure Traces (links : Links Owner Node) (lists : Owner → List Node) : Prop where
  distinct : ∀ owner, (lists owner).Nodup
  first : ∀ owner, links.first owner = (lists owner).head?
  last : ∀ owner, links.last owner = (lists owner).getLast?
  count : ∀ owner, links.count owner = (lists owner).length
  owner : ∀ node owner, links.owner node = some owner ↔ node ∈ lists owner
  previous : ∀ {owner before node after}, lists owner = before ++ node :: after →
    links.previous node = before.getLast?
  next : ∀ {owner before node after}, lists owner = before ++ node :: after →
    links.next node = after.head?
  loose : ∀ node, links.owner node = none → links.previous node = none ∧ links.next node = none

/-! ## Single changes, one place at a time -/

section Changes

variable [DecidableEq Owner] [DecidableEq Node] (links : Links Owner Node) (owner other : Owner)
  (node place : Node) (position : Option Node)

theorem first_insertAfter :
    (links.insertAfter owner node position).first other =
      if position = none ∧ other = owner then some node else links.first other := by
  cases followed : links.following owner position <;> cases position <;>
    simp [insertAfter, pointForward, pointBackward, redefine_apply, followed]

theorem last_insertAfter :
    (links.insertAfter owner node position).last other =
      if links.following owner position = none ∧ other = owner then some node
      else links.last other := by
  cases followed : links.following owner position <;> cases position <;>
    simp [insertAfter, pointForward, pointBackward, redefine_apply, followed]

theorem count_insertAfter :
    (links.insertAfter owner node position).count other =
      if other = owner then links.count owner + 1 else links.count other := by
  cases followed : links.following owner position <;> cases position <;>
    simp [insertAfter, pointForward, pointBackward, redefine_apply, followed]

theorem owner_insertAfter :
    (links.insertAfter owner node position).owner place =
      if place = node then some owner else links.owner place := by
  cases followed : links.following owner position <;> cases position <;>
    simp [insertAfter, pointForward, pointBackward, redefine_apply, followed]

theorem previous_insertAfter :
    (links.insertAfter owner node position).previous place =
      if some place = links.following owner position then some node
      else if place = node then position else links.previous place := by
  cases followed : links.following owner position <;> cases position <;>
    simp [insertAfter, pointForward, pointBackward, redefine_apply, followed]

theorem next_insertAfter :
    (links.insertAfter owner node position).next place =
      if place = node then links.following owner position
      else if some place = position then some node else links.next place := by
  cases followed : links.following owner position <;> cases position <;>
    simp [insertAfter, pointForward, pointBackward, redefine_apply, followed]

variable {links owner node}

section Linked

variable (linked : links.owner node = some owner)

include linked

theorem first_unlink :
    (links.unlink node).first other =
      if links.previous node = none ∧ other = owner then links.next node
      else links.first other := by
  cases previous : links.previous node <;> cases next : links.next node <;>
    simp [unlink, linked, pointForward, pointBackward, redefine_apply, previous, next]

theorem last_unlink :
    (links.unlink node).last other =
      if links.next node = none ∧ other = owner then links.previous node
      else links.last other := by
  cases previous : links.previous node <;> cases next : links.next node <;>
    simp [unlink, linked, pointForward, pointBackward, redefine_apply, previous, next]

theorem count_unlink :
    (links.unlink node).count other =
      if other = owner then links.count owner - 1 else links.count other := by
  cases previous : links.previous node <;> cases next : links.next node <;>
    simp [unlink, linked, pointForward, pointBackward, redefine_apply, previous, next]

theorem owner_unlink :
    (links.unlink node).owner place = if place = node then none else links.owner place := by
  cases previous : links.previous node <;> cases next : links.next node <;>
    simp [unlink, linked, pointForward, pointBackward, redefine_apply, previous, next]

theorem previous_unlink :
    (links.unlink node).previous place =
      if place = node then none
      else if some place = links.next node then links.previous node
      else links.previous place := by
  cases previous : links.previous node <;> cases next : links.next node <;>
    simp [unlink, linked, pointForward, pointBackward, redefine_apply, previous, next]

theorem next_unlink :
    (links.unlink node).next place =
      if place = node then none
      else if some place = links.previous node then links.next node
      else links.next place := by
  cases previous : links.previous node <;> cases next : links.next node <;>
    simp [unlink, linked, pointForward, pointBackward, redefine_apply, previous, next]

end Linked

/-- Linking a node behind the last one is linking it after that one, as nothing follows it. -/
theorem push_eq_insertAfter
    (detached : links.owner node = none)
    (apart : links.last owner ≠ some node)
    (ends : links.following owner (links.last owner) = none) :
    links.push owner node = links.insertAfter owner node (links.last owner) := by
  unfold push insertAfter
  rw [detached, ends]
  cases last : links.last owner with
  | none => rfl
  | some tail =>
      have different : node ≠ tail := fun same => apart (last.trans (congrArg some same.symm))
      have nexts : redefine (redefine links.next node none) tail (some node) =
          redefine (redefine links.next tail (some node)) node none := by
        funext other
        simp only [redefine_apply]
        split
        · rename_i same
          rw [same, if_neg (Ne.symm different)]
        · rfl
      simp only [pointForward, pointBackward, nexts]

end Changes

/-! ## Lists that follow -/

theorem traces_empty : Traces ({} : Links Owner Node) fun _ => [] where
  distinct := fun _ => List.nodup_nil
  first := fun _ => rfl
  last := fun _ => rfl
  count := fun _ => rfl
  owner := by simp
  previous := by simp
  next := by simp
  loose := fun _ _ => ⟨rfl, rfl⟩

namespace Traces

variable {links : Links Owner Node} {lists lists' : Owner → List Node} {owner : Owner}
  {node : Node} {front back : List Node}

theorem not_mem
    (traces : links.Traces lists)
    (detached : links.owner node = none)
    (owner : Owner) :
    node ∉ lists owner := by
  intro member
  rw [(traces.owner node owner).2 member] at detached
  cases detached

theorem owner_unique
    (traces : links.Traces lists)
    {owner other : Owner}
    (member : node ∈ lists owner)
    (member' : node ∈ lists other) :
    owner = other :=
  Option.some.inj (((traces.owner node owner).2 member).symm.trans
    ((traces.owner node other).2 member'))

/-- Links that represent lists represent the same lists stated otherwise. -/
theorem congr (traces : links.Traces lists) (same : ∀ owner, lists' owner = lists owner) :
    links.Traces lists' := by
  rwa [show lists' = lists from funext same]

/-- Lists have only one representation by links. -/
theorem unique
    {links' : Links Owner Node}
    (traces : links.Traces lists)
    (traces' : links'.Traces lists) : links = links' := by
  have owners : links.owner = links'.owner := by
    funext node
    exact Option.ext fun owner => (traces.owner node owner).trans (traces'.owner node owner).symm
  have neighbours : ∀ node,
      links.previous node = links'.previous node ∧ links.next node = links'.next node := by
    intro node
    cases holds : links.owner node with
    | none =>
        have free := traces.loose node holds
        have free' := traces'.loose node (owners ▸ holds)
        exact ⟨free.1.trans free'.1.symm, free.2.trans free'.2.symm⟩
    | some owner =>
        obtain ⟨front, back, split⟩ := List.append_of_mem ((traces.owner node owner).1 holds)
        exact ⟨(traces.previous split).trans (traces'.previous split).symm,
          (traces.next split).trans (traces'.next split).symm⟩
  have firsts : links.first = links'.first :=
    funext fun owner => (traces.first owner).trans (traces'.first owner).symm
  have lasts : links.last = links'.last :=
    funext fun owner => (traces.last owner).trans (traces'.last owner).symm
  have counts : links.count = links'.count :=
    funext fun owner => (traces.count owner).trans (traces'.count owner).symm
  have previous : links.previous = links'.previous := funext fun node => (neighbours node).1
  have next : links.next = links'.next := funext fun node => (neighbours node).2
  cases links
  cases links'
  simp_all only

/-- A node of a list is the one node between some first and some last ones. -/
theorem unlinked_split
    [DecidableEq Node]
    (traces : links.Traces lists)
    {other : Owner}
    (split : lists owner = front ++ node :: back)
    (member : node ∈ lists other) :
    other = owner ∧ (lists other).erase node = front ++ back := by
  obtain rfl := traces.owner_unique member (by simp [split] : node ∈ lists owner)
  have distinct := traces.distinct other
  rw [split, List.nodup_middle, List.nodup_cons, List.mem_append, not_or] at distinct
  refine ⟨rfl, ?_⟩
  rw [split, List.erase_append_right _ distinct.1.1, List.erase_cons_head]

/-- What comes after some first nodes of an owner is the first of the others. -/
theorem following (traces : links.Traces lists) (split : lists owner = front ++ back) :
    links.following owner front.getLast? = back.head? := by
  cases front using List.reverseRecOn with
  | nil => exact (traces.first owner).trans (congrArg List.head? split)
  | append_singleton front last _ =>
      rw [List.append_assoc, List.singleton_append] at split
      rw [List.getLast?_concat]
      exact traces.next split

/-! ### A node that is linked between others -/

section InsertAfter

variable (split : lists owner = front ++ back) (joined : lists' owner = front ++ node :: back)
  (others : ∀ other, other ≠ owner → lists' other = lists other)

include split joined others

theorem mem_joined_iff (place : Node) (other : Owner) :
    place ∈ lists' other ↔ (place = node ∧ other = owner) ∨ place ∈ lists other := by
  by_cases same : other = owner
  · subst same
    simp only [joined, split, List.mem_append, List.mem_cons, and_true]
    tauto
  · simp [others other same, same]

theorem distinct_joined
    (traces : links.Traces lists)
    (detached : links.owner node = none)
    (other : Owner) :
    (lists' other).Nodup := by
  by_cases same : other = owner
  · subst same
    have absent := traces.not_mem detached other
    rw [split] at absent
    rw [joined, List.nodup_middle, List.nodup_cons, ← split]
    exact ⟨split ▸ absent, traces.distinct other⟩
  · rw [others other same]
    exact traces.distinct other

/-- A split of the list with the new node is one in front of it, at it, or behind it. -/
theorem split_joined
    {other : Owner}
    {before after : List Node}
    {place : Node}
    (whole : lists' other = before ++ place :: after) :
    (other = owner ∧ place = node ∧ before = front ∧ after = back) ∨
    (other = owner ∧ ∃ between, front = before ++ place :: between ∧
      after = between ++ node :: back ∧ lists owner = before ++ place :: (between ++ back)) ∨
    (other = owner ∧ ∃ between, back = between ++ place :: after ∧
      before = front ++ node :: between ∧ lists owner = (front ++ between) ++ place :: after) ∨
    (other ≠ owner ∧ lists other = before ++ place :: after) := by
  by_cases same : other = owner
  · subst same
    rw [joined] at whole
    rcases List.append_eq_append_iff.1 whole with
      ⟨between, isBefore, rest⟩ | ⟨between, isFront, rest⟩
    · cases between with
      | nil =>
          cases rest
          exact .inl ⟨rfl, rfl, by simpa using isBefore, rfl⟩
      | cons first between =>
          obtain ⟨rfl, isBack⟩ := List.cons.inj rest
          exact .inr (.inr (.inl ⟨rfl, between, isBack, isBefore, by rw [split, isBack]; simp⟩))
    · cases between with
      | nil =>
          cases rest
          exact .inl ⟨rfl, rfl, by simpa using isFront.symm, rfl⟩
      | cons first between =>
          obtain ⟨rfl, isAfter⟩ := List.cons.inj rest
          exact .inr (.inl ⟨rfl, between, isFront, isAfter, by rw [split, isFront]; simp⟩)
  · exact .inr (.inr (.inr ⟨same, (others other same).symm.trans whole⟩))

end InsertAfter

section Linking

variable [DecidableEq Owner] [DecidableEq Node]

/-- Linking a detached node behind some first nodes puts it there. -/
theorem insertAfter
    (traces : links.Traces lists)
    (detached : links.owner node = none)
    (split : lists owner = front ++ back)
    (joined : lists' owner = front ++ node :: back)
    (others : ∀ other, other ≠ owner → lists' other = lists other) :
    (links.insertAfter owner node front.getLast?).Traces lists' := by
  have follows := traces.following split
  have absent := traces.not_mem detached
  have distinct := traces.distinct owner
  rw [split, List.nodup_append] at distinct
  have followsOwn : ∀ place, some place = back.head? → place ∈ lists owner := by
    intro place same
    rw [split]
    exact List.mem_append_right _ (List.mem_of_head? same.symm)
  constructor
  case distinct => exact distinct_joined split joined others traces detached
  case first =>
    intro other
    simp only [first_insertAfter, List.getLast?_eq_none_iff]
    by_cases same : other = owner
    · subst same
      cases front with
      | nil => simp [joined]
      | cons first front => simp [traces.first, joined, split]
    · simp [same, traces.first, others other same]
  case last =>
    intro other
    simp only [last_insertAfter, follows, List.head?_eq_none_iff]
    by_cases same : other = owner
    · subst same
      cases back with
      | nil => simp [joined]
      | cons first back => simp [traces.last, joined, split]
    · simp [same, traces.last, others other same]
  case count =>
    intro other
    rw [count_insertAfter]
    by_cases same : other = owner
    · subst same
      simp only [if_true, traces.count, joined, split, List.length_append, List.length_cons]
      omega
    · simp [same, traces.count, others other same]
  case owner =>
    intro place other
    rw [owner_insertAfter, mem_joined_iff split joined others]
    by_cases same : place = node
    · subst same
      simp [absent other, eq_comm]
    · simp [same, traces.owner]
  case previous =>
    intro other before place after whole
    rw [previous_insertAfter, follows]
    rcases split_joined split joined others whole with
      ⟨rfl, rfl, rfl, rfl⟩ | ⟨rfl, between, rfl, rfl, held⟩ | ⟨rfl, between, rfl, rfl, held⟩ |
      ⟨different, held⟩
    · rw [if_neg fun same => absent _ (followsOwn _ same), if_pos rfl]
    · have member : place ∈ lists other := by simp [held]
      rw [if_neg, if_neg, traces.previous held]
      · exact fun same => absent other ((show place = node from same) ▸ member)
      · exact fun same => distinct.2.2 place (by simp) place (List.mem_of_head? same.symm) rfl
    · have member : place ∈ lists other := by simp [held]
      cases between with
      | nil => simp
      | cons first between =>
          have apart : first ≠ place := by
            have later := (List.nodup_cons.1 distinct.2.1).1
            rintro rfl
            exact later (by simp)
          rw [if_neg, if_neg, traces.previous held]
          · simp [List.getLast?_append, List.getLast?_cons]
          · exact fun same => absent other ((show place = node from same) ▸ member)
          · simpa using apart.symm
    · have member : place ∈ lists other := by simp [held]
      rw [if_neg, if_neg, traces.previous held]
      · exact fun same => absent other ((show place = node from same) ▸ member)
      · exact fun same => different (traces.owner_unique member (followsOwn _ same))
  case next =>
    intro other before place after whole
    rw [next_insertAfter, follows]
    rcases split_joined split joined others whole with
      ⟨rfl, rfl, rfl, rfl⟩ | ⟨rfl, between, rfl, rfl, held⟩ | ⟨rfl, between, rfl, rfl, held⟩ |
      ⟨different, held⟩
    · rw [if_pos rfl]
    · have member : place ∈ lists other := by simp [held]
      rw [if_neg fun same => absent other ((show place = node from same) ▸ member)]
      cases between with
      | nil => simp
      | cons first between =>
          have apart : place ∉ first :: between :=
            (List.nodup_cons.1 (List.nodup_append.1 distinct.1).2.1).1
          rw [if_neg, traces.next held]
          · rfl
          · intro same
            refine apart (List.mem_of_getLast? ?_)
            simpa [List.getLast?_append, List.getLast?_cons] using same.symm
    · have member : place ∈ lists other := by simp [held]
      rw [if_neg fun same => absent other ((show place = node from same) ▸ member), if_neg,
        traces.next held]
      exact fun same => distinct.2.2 place (List.mem_of_getLast? same.symm) place (by simp) rfl
    · have member : place ∈ lists other := by simp [held]
      rw [if_neg fun same => absent other ((show place = node from same) ▸ member), if_neg,
        traces.next held]
      intro same
      refine different (traces.owner_unique member ?_)
      rw [split]
      exact List.mem_append_left _ (List.mem_of_getLast? same.symm)
  case loose =>
    intro place
    rw [owner_insertAfter, previous_insertAfter, next_insertAfter, follows]
    by_cases same : place = node
    · simp [same]
    · rw [if_neg same, if_neg same, if_neg same]
      intro free
      have outside := traces.not_mem free owner
      rw [if_neg fun holds => outside (followsOwn place holds), if_neg]
      · exact traces.loose place free
      · intro holds
        refine outside ?_
        rw [split]
        exact List.mem_append_left _ (List.mem_of_getLast? holds.symm)

/-- Linking a detached node behind the last one puts it to the end. -/
theorem push
    (traces : links.Traces lists)
    (detached : links.owner node = none)
    (joined : lists' owner = lists owner ++ [node])
    (others : ∀ other, other ≠ owner → lists' other = lists other) :
    (links.push owner node).Traces lists' := by
  have split : lists owner = lists owner ++ [] := (List.append_nil _).symm
  have ends := traces.following split
  rw [← traces.last] at ends
  have apart : links.last owner ≠ some node := by
    rw [traces.last]
    exact fun holds => traces.not_mem detached owner (List.mem_of_getLast? holds)
  rw [push_eq_insertAfter detached apart ends, traces.last]
  exact traces.insertAfter detached split joined others

end Linking

/-! ### A node that is unlinked -/

section Unlink

variable (split : lists owner = front ++ node :: back)
  (parted : lists' owner = front ++ back)
  (others : ∀ other, other ≠ owner → lists' other = lists other)

include split parted others

theorem mem_parted_iff (traces : links.Traces lists) (place : Node) (other : Owner) :
    place ∈ lists' other ↔ place ≠ node ∧ place ∈ lists other := by
  by_cases same : other = owner
  · subst same
    have distinct := traces.distinct other
    rw [split, List.nodup_middle, List.nodup_cons, List.mem_append] at distinct
    simp only [parted, split, List.mem_append, List.mem_cons]
    constructor
    · intro member
      exact ⟨fun same => distinct.1 (same ▸ member), member.imp_right Or.inr⟩
    · tauto
  · rw [others other same]
    refine ⟨fun member => ⟨?_, member⟩, And.right⟩
    rintro rfl
    exact same (traces.owner_unique member (by simp [split]))

/-- A split of the list without the node is one in front of where it was, or behind. -/
theorem split_parted
    {other : Owner}
    {before after : List Node}
    {place : Node}
    (whole : lists' other = before ++ place :: after) :
    (other = owner ∧ ∃ between, front = before ++ place :: between ∧
      after = between ++ back ∧ lists owner = before ++ place :: (between ++ node :: back)) ∨
    (other = owner ∧ ∃ between, back = between ++ place :: after ∧
      before = front ++ between ∧ lists owner = (front ++ node :: between) ++ place :: after) ∨
    (other ≠ owner ∧ lists other = before ++ place :: after) := by
  by_cases same : other = owner
  · subst same
    rw [parted] at whole
    rcases List.append_eq_append_iff.1 whole with
      ⟨between, isBefore, rest⟩ | ⟨between, isFront, rest⟩
    · exact .inr (.inl ⟨rfl, between, rest, isBefore, by rw [split, rest]; simp⟩)
    · cases between with
      | nil =>
          refine .inr (.inl ⟨rfl, [], rest.symm, by simpa using isFront.symm, ?_⟩)
          rw [split, List.append_cons]
          exact congrArg _ rest.symm
      | cons first between =>
          obtain ⟨rfl, isAfter⟩ := List.cons.inj rest
          exact .inl ⟨rfl, between, isFront, isAfter, by rw [split, isFront]; simp⟩
  · exact .inr (.inr ⟨same, (others other same).symm.trans whole⟩)

/-- Unlinking a node takes it out of its list. -/
theorem unlink [DecidableEq Owner] [DecidableEq Node] (traces : links.Traces lists) :
    (links.unlink node).Traces lists' := by
  have linked := (traces.owner node owner).2 (by simp [split])
  have isPrevious := traces.previous split
  have isNext := traces.next split
  have distinct := traces.distinct owner
  rw [split, List.nodup_append] at distinct
  obtain ⟨distinctFront, distinctBack, apart⟩ := distinct
  have previousOwn : ∀ place, some place = front.getLast? → place ∈ lists owner := by
    intro place same
    rw [split]
    exact List.mem_append_left _ (List.mem_of_getLast? same.symm)
  have nextOwn : ∀ place, some place = back.head? → place ∈ lists owner := by
    intro place same
    rw [split]
    exact List.mem_append_right _ (List.mem_cons_of_mem _ (List.mem_of_head? same.symm))
  have survives : ∀ {other before place after}, lists' other = before ++ place :: after →
      place ≠ node := by
    intro other before place after whole
    have member : place ∈ lists' other := by simp [whole]
    exact ((mem_parted_iff split parted others traces place other).1 member).1
  constructor
  case distinct =>
    intro other
    by_cases same : other = owner
    · subst same
      have whole := traces.distinct other
      rw [split, List.nodup_middle, List.nodup_cons] at whole
      rw [parted]
      exact whole.2
    · rw [others other same]
      exact traces.distinct other
  case first =>
    intro other
    simp only [first_unlink other linked, isPrevious, isNext, List.getLast?_eq_none_iff]
    by_cases same : other = owner
    · subst same
      cases front with
      | nil => simp [parted]
      | cons first front => simp [traces.first, parted, split]
    · simp [same, traces.first, others other same]
  case last =>
    intro other
    simp only [last_unlink other linked, isPrevious, isNext, List.head?_eq_none_iff]
    by_cases same : other = owner
    · subst same
      cases back with
      | nil => simp [parted]
      | cons first back => simp [traces.last, parted, split]
    · simp [same, traces.last, others other same]
  case count =>
    intro other
    rw [count_unlink other linked]
    by_cases same : other = owner
    · subst same
      simp only [if_true, traces.count, parted, split, List.length_append, List.length_cons]
      omega
    · simp [same, traces.count, others other same]
  case owner =>
    intro place other
    rw [owner_unlink place linked, mem_parted_iff split parted others traces]
    by_cases same : place = node
    · simp [same]
    · simp [same, traces.owner]
  case previous =>
    intro other before place after whole
    rw [previous_unlink place linked, isPrevious, isNext, if_neg (survives whole)]
    rcases split_parted split parted others whole with
      ⟨rfl, between, rfl, rfl, held⟩ | ⟨rfl, between, rfl, rfl, held⟩ | ⟨different, held⟩
    · rw [if_neg, traces.previous held]
      intro same
      exact apart place (by simp) place (List.mem_cons_of_mem _ (List.mem_of_head? same.symm)) rfl
    · cases between with
      | nil => simp
      | cons first between =>
          have later : place ≠ first := by
            have absent := (List.nodup_cons.1 (List.nodup_cons.1 distinctBack).2).1
            rintro rfl
            exact absent (by simp)
          rw [if_neg (by simpa using later), traces.previous held]
          simp [List.getLast?_append, List.getLast?_cons]
    · rw [if_neg, traces.previous held]
      intro same
      exact different (traces.owner_unique (by simp [held]) (nextOwn place same))
  case next =>
    intro other before place after whole
    rw [next_unlink place linked, isPrevious, isNext, if_neg (survives whole)]
    rcases split_parted split parted others whole with
      ⟨rfl, between, rfl, rfl, held⟩ | ⟨rfl, between, rfl, rfl, held⟩ | ⟨different, held⟩
    · cases between with
      | nil => simp
      | cons first between =>
          have later : place ∉ first :: between :=
            (List.nodup_cons.1 (List.nodup_append.1 distinctFront).2.1).1
          rw [if_neg, traces.next held]
          · rfl
          · intro same
            refine later (List.mem_of_getLast? ?_)
            simpa [List.getLast?_append, List.getLast?_cons] using same.symm
    · rw [if_neg, traces.next held]
      intro same
      exact apart place (List.mem_of_getLast? same.symm) place (by simp) rfl
    · rw [if_neg, traces.next held]
      intro same
      exact different (traces.owner_unique (by simp [held]) (previousOwn place same))
  case loose =>
    intro place
    rw [owner_unlink place linked, previous_unlink place linked, next_unlink place linked,
      isPrevious, isNext]
    by_cases same : place = node
    · simp [same]
    · rw [if_neg same, if_neg same, if_neg same]
      intro free
      have outside := traces.not_mem free owner
      rw [if_neg fun holds => outside (nextOwn place holds),
        if_neg fun holds => outside (previousOwn place holds)]
      exact traces.loose place free

end Unlink

/-- Unlinking a node that is in no list changes nothing; one that is in a list is taken out. -/
theorem unlink_erase
    [DecidableEq Owner]
    [DecidableEq Node]
    (traces : links.Traces lists)
    (erased : ∀ owner, lists' owner = (lists owner).erase node) :
    (links.unlink node).Traces lists' := by
  cases holds : links.owner node with
  | none =>
      have same : links.unlink node = links := by simp [Links.unlink, holds]
      rw [same]
      refine traces.congr fun owner => ?_
      rw [erased, List.erase_of_not_mem (traces.not_mem holds owner)]
  | some owner =>
      have member := (traces.owner node owner).1 holds
      obtain ⟨front, back, split⟩ := List.append_of_mem member
      refine unlink split ?_ (fun other different => ?_) traces
      · rw [erased, (traces.unlinked_split split member).2]
      · rw [erased, List.erase_of_not_mem]
        exact fun member' => different (traces.owner_unique member' member)

/-! ## Going along the links of a list -/

theorem forward
    (traces : links.Traces lists)
    {steps : Nat}
    (split : lists owner = front ++ back)
    (enough : back.length ≤ steps) :
    links.forward steps back.head? = back := by
  induction back generalizing front steps with
  | nil => cases steps <;> rfl
  | cons node back induction =>
      obtain ⟨steps, rfl⟩ : ∃ rest, steps = rest + 1 := ⟨steps - 1, by simp at enough; omega⟩
      have rest : lists owner = (front ++ [node]) ++ back := by simpa using split
      have onward := induction rest (by simpa using enough)
      simp only [Links.forward, List.head?_cons, traces.next split, onward]

/-- Enough steps forward from the first node of an owner give its list. -/
theorem forward_first
    (traces : links.Traces lists)
    (owner : Owner)
    {steps : Nat}
    (enough : (lists owner).length ≤ steps) :
    links.forward steps (links.first owner) = lists owner := by
  rw [traces.first]
  exact traces.forward (List.nil_append _).symm enough

theorem backward
    (traces : links.Traces lists)
    {steps : Nat}
    (split : lists owner = front ++ back)
    (enough : front.length ≤ steps) :
    links.backward steps front.getLast? = front.reverse := by
  induction front using List.reverseRecOn generalizing back steps with
  | nil => cases steps <;> rfl
  | append_singleton front node induction =>
      obtain ⟨steps, rfl⟩ : ∃ rest, steps = rest + 1 := ⟨steps - 1, by simp at enough; omega⟩
      have rest : lists owner = front ++ node :: back := by simpa using split
      have onward := induction rest (by simpa using enough)
      simp only [Links.backward, List.getLast?_concat, traces.previous rest, onward,
        List.reverse_append, List.reverse_singleton, List.singleton_append]

/-- Enough steps backward from the last node of an owner give its list from behind. -/
theorem backward_last
    (traces : links.Traces lists)
    (owner : Owner)
    {steps : Nat}
    (enough : (lists owner).length ≤ steps) :
    links.backward steps (links.last owner) = (lists owner).reverse := by
  rw [traces.last]
  exact traces.backward (List.append_nil _).symm enough

theorem walk?
    (traces : links.Traces lists)
    {steps : Nat}
    (split : lists owner = front ++ back)
    (enough : back.length ≤ steps) :
    links.walk? steps back.head? = some back := by
  induction back generalizing front steps with
  | nil => cases steps <;> rfl
  | cons node back induction =>
      obtain ⟨steps, rfl⟩ : ∃ rest, steps = rest + 1 := ⟨steps - 1, by simp at enough; omega⟩
      have rest : lists owner = (front ++ [node]) ++ back := by simpa using split
      have onward := induction rest (by simpa using enough)
      simp only [Links.walk?, List.head?_cons, traces.next split, onward, Option.map_some]

/-- Enough steps from the first node of an owner find its list and its end. -/
theorem walk?_first
    (traces : links.Traces lists)
    (owner : Owner)
    {steps : Nat}
    (enough : (lists owner).length ≤ steps) :
    links.walk? steps (links.first owner) = some (lists owner) := by
  rw [traces.first]
  exact traces.walk? (List.nil_append _).symm enough

end Traces

/--
The chain of an owner is a list: going along the links from the first node gives its
nodes in order, going back from the last one gives them in reverse, each node has its
neighbours in the list as its own, and they are counted.
-/
structure Chain (links : Links Owner Node) (owner : Owner) (list : List Node) : Prop where
  forward : ∀ steps, list.length ≤ steps → links.walk? steps (links.first owner) = some list
  backward : ∀ steps, list.length ≤ steps →
    links.backward steps (links.last owner) = list.reverse
  neighbours : ∀ before node after, list = before ++ node :: after →
    links.previous node = before.getLast? ∧ links.next node = after.head?
  owners : ∀ node, links.owner node = some owner ↔ node ∈ list
  count : links.count owner = list.length

theorem Traces.chain
    {links : Links Owner Node}
    {lists : Owner → List Node}
    (traces : links.Traces lists)
    (owner : Owner) :
    links.Chain owner (lists owner) where
  forward := fun _ enough => traces.walk?_first owner enough
  backward := fun _ enough => traces.backward_last owner enough
  neighbours := fun _ _ _ split => ⟨traces.previous split, traces.next split⟩
  owners := fun node => traces.owner node owner
  count := traces.count owner

end Links

end ShaderIR
