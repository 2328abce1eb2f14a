import ShaderIR.Proofs.Control.SsaForm
import ShaderIR.Proofs.Dominance.Frontier

/-!
# Joins of definitions

Some blocks of a function define a value.  The value is wanted at the start of a block; then
it is wanted in front of every predecessor as well that does not define it.  Suppose that
wherever dominance by a defining block ends, and the value is wanted, there is a join, which
is a definition itself.  Then at a block without a join it does not matter on which path
control came there: the last definition on the path is the nearest one of those that strictly
dominate the block.  So a walk up the dominator tree finds the value.

It is enough to ask for joins where the value is wanted.  Between the last definition on a
path and the block there is no definition, so the value is wanted all along the way, and the
first block on the way that the definition does not strictly dominate would be a join.
-/

namespace ShaderIR

/-- The last one of some blocks on a way. -/
def LastOf (defines : Ref → Prop) (way : List Ref) (last : Ref) : Prop :=
  ∃ front back, way = front ++ last :: back ∧ defines last ∧ ∀ block ∈ back, ¬defines block

namespace Store

/-- The nearest one of some blocks among those that strictly dominate a block. -/
structure Nearest (store : Store) (function : Ref) (defines : Ref → Prop) (dominator block : Ref) :
    Prop where
  definition : defines dominator
  strict : store.StrictlyDominates function dominator block
  nearest : ∀ other, defines other → store.StrictlyDominates function other block →
    store.Dominates function other dominator

/--
Definitions are joined where dominance by one of them ends, at those blocks on entry to which
the value is wanted.
-/
structure Joined (store : Store) (function : Ref) (defines joins wanted : Ref → Prop) : Prop where
  join : ∀ {definition source target}, defines definition → store.Reached function source →
    store.Dominates function definition source → target ∈ store.successors source →
    ¬store.StrictlyDominates function definition target → wanted target → joins target
  definition : ∀ {block}, joins block → defines block
  back : ∀ {source target}, store.Reached function source → target ∈ store.successors source →
    ¬defines source → wanted target → wanted source

/-- A walk through the strict dominators of a block, the nearest one first. -/
structure Ascends (store : Store) (function block : Ref) (walk : List Ref) : Prop where
  mem_iff : ∀ dominator, dominator ∈ walk ↔ store.StrictlyDominates function dominator block
  order : walk.Pairwise fun nearer farther => store.Dominates function farther nearer

end Store

namespace Dominance

variable {parents : Parents} {position : Nat}

/-- On the walk towards the root, later positions are ancestors of earlier ones. -/
theorem pairwise_ancestors :
    (ancestors parents position).Pairwise fun lower upper => Ancestor parents upper lower := by
  induction position using Nat.strongRecOn with
  | ind position induction =>
      rw [ancestors]
      split
      · rename_i parent step
        refine .cons (fun upper member => ?_) (induction parent (above_lt step))
        exact .up step (mem_ancestors_iff.1 member)
      · exact List.pairwise_singleton _ _

end Dominance

section Ways

variable {defines : Ref → Prop} {way : List Ref} {last : Ref}

theorem exists_lastOf {block : Ref} (member : block ∈ way) (definition : defines block) :
    ∃ last, LastOf defines way last := by
  induction way using List.reverseRecOn with
  | nil => cases member
  | append_singleton init final induction =>
      by_cases here : defines final
      · exact ⟨final, init, [], rfl, here, fun _ none => by cases none⟩
      · rcases List.mem_append.1 member with member | atEnd
        · obtain ⟨last, front, back, rfl, holds, without⟩ := induction member
          refine ⟨last, front, back ++ [final], by simp, holds, ?_⟩
          exact List.forall_mem_append.2 ⟨without, List.forall_mem_singleton.2 here⟩
        · rw [List.mem_singleton.1 atEnd] at definition
          exact absurd definition here

/-- The last block with a value is the first one with a value on the way back. -/
theorem LastOf.findSome?_reverse
    {α : Type}
    {value? : Ref → Option α}
    (isLast : LastOf defines way last)
    (hasValue : ∀ block ∈ way, (value? block).isSome = true ↔ defines block) :
    way.reverse.findSome? value? = value? last := by
  obtain ⟨front, back, rfl, definition, without⟩ := isLast
  obtain ⟨here, later⟩ := List.forall_mem_cons.1 (List.forall_mem_append.1 hasValue).2
  obtain ⟨value, found⟩ := Option.isSome_iff_exists.1 (here.2 definition)
  have none : back.reverse.findSome? value? = none := by
    refine List.findSome?_eq_none_iff.2 fun block member => ?_
    have member := List.mem_reverse.1 member
    by_contra present
    exact without block member ((later block member).1 (Option.isSome_iff_ne_none.2 present))
  rw [List.reverse_append, List.reverse_cons, List.append_assoc, List.findSome?_append, none,
    Option.none_or, List.singleton_append, List.findSome?_cons, found]

end Ways

namespace Store

variable {store : Store} {function body block definition source : Ref}
  {defines joins wanted : Ref → Prop} {front between : List Ref}

/-! ## Paths -/

theorem Path.append
    {first middle last : Ref}
    {front back : List Ref}
    (path : store.Path first middle front)
    (path' : store.Path middle last (middle :: back)) :
    store.Path first last (front ++ back) := by
  obtain ⟨starts, ends, moves⟩ := path
  obtain ⟨-, ends', moves'⟩ := path'
  obtain ⟨init, rfl⟩ := List.getLast?_eq_some_iff.1 ends
  rw [List.append_assoc, List.singleton_append]
  refine ⟨?_, ?_, List.isChain_split.2 ⟨moves, moves'⟩⟩
  · rw [← starts, List.head?_append, List.head?_append, List.head?_cons, List.head?_cons]
  · rw [List.getLast?_append_of_ne_nil _ (List.cons_ne_nil _ _), ends']

theorem Path.split
    {first middle last : Ref}
    {front back : List Ref}
    (path : store.Path first last (front ++ middle :: back)) :
    store.Path first middle (front ++ [middle]) ∧ store.Path middle last (middle :: back) := by
  obtain ⟨starts, ends, moves⟩ := path
  obtain ⟨moves, moves'⟩ := List.isChain_split.1 moves
  refine ⟨⟨?_, List.getLast?_concat, moves⟩, rfl, ?_, moves'⟩
  · rw [← starts, List.head?_append, List.head?_append, List.head?_cons, List.head?_cons]
  · rw [← ends, List.getLast?_append_of_ne_nil _ (List.cons_ne_nil _ _)]

theorem Path.reached
    {path : List Ref}
    (hasBody : store.body? function = some body)
    (path' : store.Path body block path) :
    store.Reached function block := by
  obtain ⟨starts, ends, moves⟩ := path'
  have nonempty : path ≠ [] := by
    rintro rfl
    cases starts
  rw [List.head?_eq_some_head nonempty] at starts
  rw [List.getLast?_eq_some_getLast nonempty] at ends
  refine ⟨body, hasBody, ?_⟩
  rw [← Option.some.inj starts, ← Option.some.inj ends]
  exact List.relationReflTransGen_of_exists_isChain path moves nonempty

/-! ## The last definition on a path -/

namespace Joined

variable (joined : store.Joined function defines joins wanted)

include joined

/-- The value is wanted all along a way without definitions to where it is wanted. -/
theorem wanted_of_way
    (reached : store.Reached function source)
    (moves : (source :: (between ++ [block])).IsChain fun source target =>
      target ∈ store.successors source)
    (notHere : ¬defines source)
    (without : ∀ other ∈ between, ¬defines other)
    (isWanted : wanted block) :
    wanted source := by
  induction between generalizing source with
  | nil =>
      rw [List.nil_append, List.isChain_pair] at moves
      exact joined.back reached moves notHere isWanted
  | cons next rest induction =>
      obtain ⟨edge, moves⟩ := List.isChain_cons_cons.1 moves
      obtain ⟨notNext, without⟩ := List.forall_mem_cons.1 without
      exact joined.back reached edge notHere (induction (reached.tail edge) moves notNext without)

/-- A definition strictly dominates a block when none is on a way to it, and no join there. -/
theorem strictlyDominates_of_way
    (reached : store.Reached function source)
    (moves : (source :: (between ++ [block])).IsChain fun source target =>
      target ∈ store.successors source)
    (isDefinition : defines definition)
    (dominates : store.Dominates function definition source)
    (without : ∀ other ∈ between, ¬defines other)
    (isWanted : wanted block)
    (notJoin : ¬joins block) :
    store.StrictlyDominates function definition block := by
  induction between generalizing source with
  | nil =>
      rw [List.nil_append, List.isChain_pair] at moves
      by_contra ends
      exact notJoin (joined.join isDefinition reached dominates moves ends isWanted)
  | cons next rest induction =>
      obtain ⟨edge, moves⟩ := List.isChain_cons_cons.1 moves
      obtain ⟨notNext, without⟩ := List.forall_mem_cons.1 without
      have reached' := reached.tail edge
      refine induction reached' moves ?_ without
      by_contra ends
      have isWanted := joined.wanted_of_way reached' moves notNext without isWanted
      exact notNext (joined.definition (joined.join isDefinition reached dominates edge
        (fun strict => ends strict.2) isWanted))

variable (hasBody : store.body? function = some body)
  (path : store.Path body block (front ++ [block]))
  (isWanted : wanted block)
  (notJoin : ¬joins block)

include hasBody path isWanted notJoin

/-- The last definition on a path is the nearest one that strictly dominates its end. -/
theorem nearest_of_lastOf (isLast : LastOf defines front definition) :
    store.Nearest function defines definition block := by
  obtain ⟨before, between, rfl, isDefinition, without⟩ := isLast
  rw [List.append_assoc, List.cons_append] at path
  obtain ⟨arrives, goesOn⟩ := path.split
  refine ⟨isDefinition, joined.strictlyDominates_of_way (arrives.reached hasBody) goesOn.2.2
    isDefinition (dominates_self _ _) without isWanted notJoin, fun other defines' strict => ?_⟩
  rw [dominates_iff_forall_path hasBody]
  intro other' arrives'
  have member := strict.2 body hasBody _ (arrives'.append goesOn)
  rcases List.mem_append.1 member with member | member
  · exact member
  · rcases List.mem_append.1 member with inside | atEnd
    · exact absurd defines' (without other inside)
    · exact absurd (List.mem_singleton.1 atEnd) strict.1

/-- A strict dominator is on every path. -/
theorem lastOf_iff :
    LastOf defines front definition ↔ store.Nearest function defines definition block := by
  constructor
  · exact joined.nearest_of_lastOf hasBody path isWanted notJoin
  · intro nearest
    have member := nearest.strict.2 body hasBody _ path
    rw [List.mem_append, List.mem_singleton] at member
    obtain ⟨last, isLast⟩ :=
      exists_lastOf (member.resolve_right nearest.strict.1) nearest.definition
    have nearest' := joined.nearest_of_lastOf hasBody path isWanted notJoin isLast
    have same : definition = last := by
      refine (nearest'.nearest definition nearest.definition nearest.strict).antisymm
        (nearest.nearest last nearest'.definition nearest'.strict) ?_
      exact (path.reached hasBody).of_dominates nearest'.strict.2
    exact same ▸ isLast

end Joined

/-! ## Walking up the tree -/

section Answers

variable (coherent : store.Coherent) (confined : store.Confined function)
  (hasBody : store.body? function = some body)

include coherent confined hasBody

/-- On the walk up the tree, later blocks dominate earlier ones. -/
theorem Confined.pairwise_path (block : Ref) :
    ((store.treeOf function).path block).Pairwise fun nearer farther =>
      store.Dominates function farther nearer := by
  unfold DominatorTree.path
  split
  · exact .nil
  · refine Dominance.pairwise_ancestors.filterMap _
      fun lower upper walk nearer here farther there => ?_
    rw [blocks_treeOf, List.getElem?_toArray] at here there
    exact (confined.ancestor_iff_dominates coherent hasBody there here).1 walk

omit hasBody in
/-- The walk from the immediate dominator leads through the strict dominators. -/
theorem Confined.mem_above_iff {dominator : Ref} :
    dominator ∈ (((store.treeOf function).parent? block).map (store.treeOf function).path).getD [] ↔
      store.Reached function block ∧ store.StrictlyDominates function dominator block := by
  cases found : (store.treeOf function).parent? block with
  | none =>
      refine iff_of_false (by simp) ?_
      rintro ⟨reached, strict⟩
      obtain ⟨body, hasBody, -⟩ := id reached
      rcases (confined.parent?_eq_none_iff coherent hasBody).1 found with rfl | unreached
      · exact strict.1 (strict.2.eq_body hasBody)
      · exact unreached reached
  | some parent =>
      have reached : store.Reached function block := by
        by_contra unreached
        simp [DominatorTree.parent?, (position?_eq_none_iff coherent).2 unreached] at found
      obtain ⟨body, hasBody, -⟩ := id reached
      obtain ⟨-, immediate⟩ := (confined.parent?_eq_some_iff coherent hasBody).1 found
      rw [Option.map_some, Option.getD_some, confined.mem_path_iff coherent hasBody]
      constructor
      · rintro ⟨-, dominates⟩
        refine ⟨reached, ?_, dominates.trans immediate.dominates⟩
        rintro rfl
        exact immediate.different (immediate.dominates.antisymm dominates reached)
      · rintro ⟨-, strict⟩
        exact ⟨reached.of_dominates immediate.dominates,
          immediate.nearest dominator strict.1 strict.2⟩

theorem Confined.ascends (reached : store.Reached function block) :
    store.Ascends function block
      ((((store.treeOf function).parent? block).map (store.treeOf function).path).getD []) where
  mem_iff := fun dominator =>
    (confined.mem_above_iff coherent).trans (and_iff_right reached)
  order := by
    cases (store.treeOf function).parent? block with
    | none => exact .nil
    | some parent => exact confined.pairwise_path coherent hasBody parent

end Answers

section Walks

variable {α : Type} {value? : Ref → Option α} {walk : List Ref}

/-- The nearest strict dominator with a value is the first block with one on the walk. -/
theorem Ascends.findSome?_eq
    {nearest : Ref}
    (ascends : store.Ascends function block walk)
    (reached : store.Reached function block)
    (hasValue : ∀ other, store.Reached function other →
      ((value? other).isSome = true ↔ defines other))
    (isNearest : store.Nearest function defines nearest block) :
    walk.findSome? value? = value? nearest := by
  have onWalk := (ascends.mem_iff nearest).2 isNearest.strict
  have strict {other : Ref} (member : other ∈ walk) := (ascends.mem_iff other).1 member
  obtain ⟨first, isFirst⟩ := exists_lastOf (List.mem_reverse.2 onWalk) isNearest.definition
  have found : walk.reverse.reverse.findSome? value? = value? first :=
    isFirst.findSome?_reverse fun other member =>
      hasValue other (reached.of_dominates (strict (List.mem_reverse.1 member)).2)
  suffices first = nearest by rwa [List.reverse_reverse, this] at found
  obtain ⟨farther, nearer, split, definition, without⟩ := isFirst
  have member : first ∈ walk := by
    rw [← List.mem_reverse, split]
    exact List.mem_append_right _ List.mem_cons_self
  have above := isNearest.nearest first definition (strict member)
  rw [← List.mem_reverse, split] at onWalk
  rcases List.mem_append.1 onWalk with far | near
  · have order := List.pairwise_reverse.2 ascends.order
    rw [split, List.pairwise_append] at order
    have below := order.2.2 nearest far first List.mem_cons_self
    exact above.antisymm below (reached.of_dominates isNearest.strict.2)
  · rcases List.mem_cons.1 near with same | near
    · exact same.symm
    · exact absurd isNearest.definition (without nearest near)

/-- Walking up the dominators finds the value that the last definition on a path has. -/
theorem Joined.findSome?_eq
    (joined : store.Joined function defines joins wanted)
    (ascends : store.Ascends function block walk)
    (hasBody : store.body? function = some body)
    (hasValue : ∀ other, store.Reached function other →
      ((value? other).isSome = true ↔ defines other))
    (path : store.Path body block (front ++ [block]))
    (isWanted : wanted block)
    (notJoin : ¬joins block) :
    walk.findSome? value? = front.reverse.findSome? value? := by
  have reached := path.reached hasBody
  have onPath : ∀ other ∈ front, store.Reached function other := by
    intro other member
    obtain ⟨before, behind, rfl⟩ := List.append_of_mem member
    rw [List.append_assoc, List.cons_append] at path
    exact path.split.1.reached hasBody
  by_cases defined : ∃ other ∈ front, defines other
  · obtain ⟨other, member, definition⟩ := defined
    obtain ⟨last, isLast⟩ := exists_lastOf member definition
    rw [isLast.findSome?_reverse fun other member => hasValue other (onPath other member)]
    exact ascends.findSome?_eq reached hasValue
      (joined.nearest_of_lastOf hasBody path isWanted notJoin isLast)
  · have absent : ∀ other ∈ front, value? other = none := by
      intro other member
      by_contra present
      refine defined ⟨other, member, (hasValue other (onPath other member)).1 ?_⟩
      exact Option.isSome_iff_ne_none.2 present
    rw [List.findSome?_eq_none_iff.2 fun other member => absent other (List.mem_reverse.1 member),
      List.findSome?_eq_none_iff.2 fun other member => ?_]
    have strict := (ascends.mem_iff other).1 member
    have member := strict.2 body hasBody _ path
    rw [List.mem_append, List.mem_singleton] at member
    exact absent other (member.resolve_right strict.1)

end Walks

end Store

end ShaderIR
