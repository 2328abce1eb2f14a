import ShaderIR.Proofs.Coherence.Session
import ShaderIR.Proofs.Control.Dominance

/-!
# The order of a depth-first walk

When a walk finishes a block, it has been to all successors of the block.  A
successor that it has not finished by then is still on the stack.  The stack is
a way, from the start at its bottom to the block on top, so such a successor
leads back to the block.  This is the only way in which a block can be listed
before one of its successors.

The walk does not come to blocks that satisfy the stop condition, so all ways
considered here go around them.
-/

namespace ShaderIR

namespace Traversal

/-- Control can move from one block to another without coming to a block that stops the walk. -/
def Leads (store : Store) (stop : Ref → Bool) : Ref → Ref → Prop :=
  Relation.ReflTransGen fun source target =>
    target ∈ store.successors source ∧ stop target = false

/-- A walk goes on step by step while there is something on its stack, and then it is over. -/
def Walk.Ends (store : Store) (stop : Ref → Bool) (walk final : Walk) : Prop :=
  Relation.ReflTransGen (fun walk next => walk.stack ≠ [] ∧ next = walk.step store stop)
    walk final ∧ final.stack = []

/-- Both blocks are listed, and control can move from the first one to the second one. -/
def Along (store : Store) (order : List Ref) (source target : Ref) : Prop :=
  source ∈ order ∧ target ∈ order ∧ target ∈ store.successors source

/-- What a depth-first walk lists, and in which order: the blocks that are finished
first come first. -/
structure DepthFirst (store : Store) (stop : Ref → Bool) (start : Ref) (order : List Ref) :
    Prop where
  distinct : order.Nodup
  mem_iff : ∀ block, block ∈ order ↔ stop start = false ∧ Leads store stop start block
  last : stop start = false → order.getLast? = some start
  /-- A successor comes first, unless it leads back through listed blocks. -/
  nested : ∀ {source target}, Along store order source target →
    [target, source].Sublist order ∨ Relation.ReflTransGen (Along store order) target source
  /-- Without circles, the reverse order is topological. -/
  topological : (∀ block, ¬Relation.TransGen (Along store order) block block) →
    ∀ {source target}, Along store order source target → [source, target].Sublist order.reverse
  /-- In reverse, a block comes after all that are on every way to it. -/
  dominators : ∀ {dominator block}, block ∈ order → dominator ≠ block →
    (∀ path, store.Path start block path → (∀ other ∈ path, other ∈ order) → dominator ∈ path) →
    [dominator, block].Sublist order.reverse

variable {store : Store} {stop : Ref → Bool} {start block source target : Ref}
  {order : List Ref}

/-! ## The steps of a walk -/

theorem Walk.ends_run
    {walk : Walk}
    {steps : Nat}
    (ended : (walk.run store stop steps).stack = []) :
    walk.Ends store stop (walk.run store stop steps) := by
  refine ⟨?_, ended⟩
  clear ended
  induction steps generalizing walk with
  | zero => exact .refl
  | succ steps induction =>
      rw [Walk.run]
      split
      · exact .refl
      · rename_i moving
        exact .head ⟨by simpa using moving, rfl⟩ induction

/-- The stack of a walk is a way, and what is finished comes after its successors or on
such a way. -/
structure Walk.Nested (store : Store) (stop : Ref → Bool) (start : Ref) (walk : Walk) : Prop where
  entered : ∀ block ∈ walk.visited, Leads store stop start block
  stacked : (walk.stack.map Prod.fst).Pairwise fun upper lower => Leads store stop lower upper
  finished : ∀ {before block after}, walk.order = before ++ block :: after →
    ∀ next ∈ store.successors block, stop next = false →
      next ∈ before ∨ Leads store stop next block

theorem Walk.nested_first (stop : Ref → Bool) (start : Ref) :
    (Walk.first store start).Nested store stop start where
  entered := by
    intro block member
    cases List.mem_singleton.1 member
    exact .refl
  stacked := List.pairwise_singleton _ start
  finished := by
    intro before block after split
    simp [Walk.first] at split

/-- All that is on the stack leads to the block on top. -/
theorem Walk.Nested.leads_top
    {left : List Ref}
    {rest : List (Ref × List Ref)}
    {walk : Walk}
    (nested : walk.Nested store stop start)
    (stack : walk.stack = (block, left) :: rest)
    (member : source ∈ walk.stack.map Prod.fst) :
    Leads store stop source block := by
  have pairwise := nested.stacked
  rw [stack, List.map_cons] at member pairwise
  rcases List.mem_cons.1 member with rfl | below
  · exact .refl
  · exact (List.pairwise_cons.1 pairwise).1 source below

theorem Walk.Nested.step
    {walk : Walk}
    (nested : walk.Nested store stop start)
    (orderly : walk.Orderly store stop)
    (within : walk.Within store start) :
    (walk.step store stop).Nested store stop start := by
  have stacked := nested.stacked
  unfold Walk.step
  split
  · exact nested
  · -- The top block is finished: all its successors were visited, and are finished or stacked.
    rename_i block rest stack
    rw [stack, List.map_cons] at stacked
    refine ⟨nested.entered, (List.pairwise_cons.1 stacked).2, ?_⟩
    intro before other after split next edge goes
    rcases List.eq_nil_or_concat after with rfl | ⟨after, last, rfl⟩
    · obtain ⟨rfl, same⟩ := List.append_inj' split rfl
      cases same
      have visited : next ∈ walk.visited := by
        have dealt := orderly.dealt (block, []) (by simp [stack]) next edge
        simpa [goes] using dealt
      rw [orderly.visited, List.mem_append] at visited
      exact visited.imp id (nested.leads_top stack)
    · have init : walk.order = before ++ other :: after := by
        rw [List.concat_eq_append, ← List.cons_append, ← List.append_assoc] at split
        exact (List.append_inj' split rfl).1
      exact nested.finished init next edge goes
  · rename_i block next left rest stack
    rw [stack, List.map_cons] at stacked
    split
    · exact ⟨nested.entered, by simpa using stacked, nested.finished⟩
    · -- A new block goes on top, and the former top leads to it.
      rename_i taken
      have goes : stop next = false := by
        rw [Bool.eq_false_iff]
        intro stops
        simp [stops] at taken
      have edge := (within.stacked block (next :: left) (by simp [stack])).2 next List.mem_cons_self
      have below : ∀ source ∈ walk.stack.map Prod.fst, Leads store stop source next :=
        fun source member => (nested.leads_top stack member).tail ⟨edge, goes⟩
      rw [stack, List.map_cons] at below
      refine ⟨?_, List.pairwise_cons.2 ⟨below, stacked⟩, nested.finished⟩
      intro other member
      rcases List.mem_cons.1 member with rfl | old
      · have visited : block ∈ walk.visited := by
          rw [orderly.visited, stack]
          simp
        exact (nested.entered block visited).tail ⟨edge, goes⟩
      · exact nested.entered other old

theorem Walk.Nested.run
    {walk : Walk}
    (nested : walk.Nested store stop start)
    (orderly : walk.Orderly store stop)
    (within : walk.Within store start)
    (steps : Nat) :
    (walk.run store stop steps).Nested store stop start := by
  induction steps generalizing walk with
  | zero => exact nested
  | succ steps induction =>
      rw [Walk.run]
      split
      · exact nested
      · exact induction (nested.step orderly within) orderly.step within.step

theorem Walk.nested_full (stop : Ref → Bool) (start : Ref) :
    (Walk.full store stop start).Nested store stop start :=
  (Walk.nested_first stop start).run (Walk.orderly_first stop start) (Walk.within_first start) _

/-! ## Listed blocks -/

/-- The finished blocks are those that the start leads to. -/
theorem Walk.mem_order_iff_leads (coherent : store.Coherent) :
    block ∈ (Walk.full store stop start).order ↔ Leads store stop start block := by
  constructor
  · intro listed
    exact (Walk.nested_full stop start).entered block ((Walk.mem_order_iff coherent).1 listed)
  · intro leads
    induction leads with
    | refl => exact (Walk.sourced_full coherent stop start).start_mem
    | tail _ step listed =>
        refine (Walk.mem_order_iff coherent).2 ?_
        have finished := (Walk.finished_full coherent stop start).2.finished _ listed _ step.1
        exact finished.resolve_right (by simp [step.2])

/-- A way from a listed block around those that stop the walk goes along listed blocks. -/
theorem Walk.along_of_leads
    (coherent : store.Coherent)
    (listed : source ∈ (Walk.full store stop start).order)
    (leads : Leads store stop source target) :
    Relation.ReflTransGen (Along store (Walk.full store stop start).order) source target := by
  induction leads with
  | refl => exact .refl
  | @tail middle last before step along =>
      have first := (Walk.mem_order_iff_leads coherent).1 listed
      have here := (Walk.mem_order_iff_leads coherent).2 (first.trans before)
      have there := (Walk.mem_order_iff_leads coherent).2 ((first.trans before).tail step)
      exact along.tail ⟨here, there, step.1⟩

theorem Walk.stop_of_mem_order
    (coherent : store.Coherent)
    (entered : stop start = false)
    (listed : block ∈ (Walk.full store stop start).order) :
    stop block = false := by
  have leads := (Walk.mem_order_iff_leads coherent).1 listed
  cases leads with
  | refl => exact entered
  | tail _ step => exact step.2

/-- A listed block comes after each of its successors that does not lead back to it. -/
theorem Walk.sublist_or_leads_back
    (coherent : store.Coherent)
    (entered : stop start = false)
    (along : Along store (Walk.full store stop start).order source target) :
    [target, source].Sublist (Walk.full store stop start).order ∨
      Relation.ReflTransGen (Along store (Walk.full store stop start).order) target source := by
  obtain ⟨here, there, edge⟩ := along
  obtain ⟨before, after, split⟩ := List.append_of_mem here
  have goes := Walk.stop_of_mem_order coherent entered there
  refine ((Walk.nested_full stop start).finished split target edge goes).imp ?_
    (Walk.along_of_leads coherent there)
  intro sooner
  rw [split]
  exact (List.singleton_sublist.2 sooner).append (List.singleton_sublist.2 List.mem_cons_self)

/-- A way from the start to a listed block goes along blocks that are listed later. -/
theorem Sourced.exists_path (sourced : Sourced store start order) (member : block ∈ order) :
    ∃ path, store.Path start block path ∧
      ∀ other ∈ path, other ∈ order ∧ (other = block ∨ [block, other].Sublist order) := by
  induction sourced generalizing block with
  | start =>
      cases List.mem_singleton.1 member
      refine ⟨[start], ⟨rfl, rfl, List.isChain_singleton start⟩, fun other here => ?_⟩
      exact ⟨here, .inl (List.mem_singleton.1 here)⟩
  | @cons first source rest edge later _ induction =>
      rcases List.mem_cons.1 member with rfl | member
      · obtain ⟨path, leads, inside⟩ := induction later
        refine ⟨path ++ [block], leads.concat edge, fun other here => ?_⟩
        rcases List.mem_append.1 here with before | last
        · have listed := (inside other before).1
          exact ⟨List.mem_cons_of_mem _ listed,
            .inr ((List.singleton_sublist.2 listed).cons_cons block)⟩
        · exact ⟨List.mem_singleton.1 last ▸ List.mem_cons_self, .inl (List.mem_singleton.1 last)⟩
      · obtain ⟨path, leads, inside⟩ := induction member
        refine ⟨path, leads, fun other here => ?_⟩
        obtain ⟨listed, later⟩ := inside other here
        exact ⟨List.mem_cons_of_mem _ listed, later.imp id (·.cons first)⟩

theorem Sourced.getLast? (sourced : Sourced store start order) : order.getLast? = some start := by
  rw [← List.head?_reverse, List.head?_eq_getElem?]
  exact sourced.getElem?_reverse_zero

theorem Walk.depthFirst_full (coherent : store.Coherent) (entered : stop start = false) :
    DepthFirst store stop start (Walk.full store stop start).order where
  distinct := Walk.nodup_order coherent stop start
  mem_iff := by
    intro block
    rw [Walk.mem_order_iff_leads coherent]
    simp [entered]
  last := fun _ => (Walk.sourced_full coherent stop start).getLast?
  nested := Walk.sublist_or_leads_back coherent entered
  topological := by
    intro acyclic source target along
    rw [← List.reverse_sublist, List.reverse_reverse]
    refine (Walk.sublist_or_leads_back coherent entered along).resolve_right fun back => ?_
    exact acyclic source (.head' along back)
  dominators := by
    intro dominator block listed different through
    rw [← List.reverse_sublist, List.reverse_reverse]
    obtain ⟨path, leads, inside⟩ := (Walk.sourced_full coherent stop start).exists_path listed
    have here := through path leads fun other member => (inside other member).1
    exact (inside dominator here).2.resolve_left different

end Traversal

/-- A block dominates another one if no walk from the body around it comes there. -/
theorem Store.Coherent.dominates_iff
    {store : Store}
    (coherent : store.Coherent)
    {function dominator block : Ref} :
    store.Dominates function dominator block ↔ ∀ body, store.body? function = some body →
      block ∉ Traversal.postOrder store (some body) (· == dominator) := by
  have leads : ∀ {body}, Traversal.Leads store (· == dominator) body block ↔
      store.Bypasses dominator body block := by
    intro body
    simp only [Traversal.Leads, Store.Bypasses, beq_eq_false_iff_ne]
  rw [Store.dominates_iff_not_bypasses]
  refine forall_congr' fun body => imp_congr_right fun _ => ?_
  rw [Traversal.postOrder_some]
  by_cases same : body = dominator
  · simp [same]
  · rw [if_neg (by simpa using same), Traversal.Walk.mem_order_iff_leads coherent, leads]
    simp [same]

/--
The walk from any start block comes to its end, whatever stops it, and the order that it
gives is depth-first.  The store has to be coherent, as it is after any operations of a
session.
-/
theorem Store.Coherent.depthFirst_postOrder
    {store : Store}
    (coherent : store.Coherent)
    (stop : Ref → Bool)
    (start : Ref) :
    (∃ final, (Traversal.Walk.first store start).Ends store stop final ∧
      Traversal.postOrder store (some start) stop = if stop start then [] else final.order) ∧
    Traversal.DepthFirst store stop start (Traversal.postOrder store (some start) stop) := by
  refine ⟨⟨_, Traversal.Walk.ends_run (Traversal.Walk.finished_full coherent stop start).1, rfl⟩,
    ?_⟩
  rw [Traversal.postOrder_some]
  cases entered : stop start with
  | false => exact Traversal.Walk.depthFirst_full coherent entered
  | true => constructor <;> simp [entered, Traversal.Along]

namespace Store

/-- A loop of the blocks 2 and 3, and a block 4 to which the loop can be left. -/
def detour : Store :=
  (Session.after [
    .edit (.addModule "detour"),
    .edit (.createFunction 0 .kernel none),
    .edit (.createBody ⟨0⟩),
    .edit (.createBlock ⟨0⟩),
    .edit (.createBlock ⟨0⟩),
    .edit (.createBlock ⟨0⟩),
    .moveToEnd ⟨1⟩, .emit .branch none [some ⟨2⟩] (.refl true),
    .moveToEnd ⟨2⟩, .condBranch none (some ⟨3⟩) (some ⟨4⟩),
    .moveToEnd ⟨3⟩, .emit .branch none [some ⟨2⟩] (.refl true),
    .moveToEnd ⟨4⟩, .emit .ret none [] (.refl true)]).store

theorem depthFirst_postOrder_detour :
    detour.Coherent ∧
      Traversal.postOrder detour (some ⟨1⟩) (· == ⟨4⟩) = [⟨3⟩, ⟨2⟩, ⟨1⟩] ∧
      Traversal.DepthFirst detour (· == ⟨4⟩) ⟨1⟩ [⟨3⟩, ⟨2⟩, ⟨1⟩] := by
  have coherent : detour.Coherent := (Session.after_coherent _).store
  have listed : Traversal.postOrder detour (some ⟨1⟩) (· == ⟨4⟩) = [⟨3⟩, ⟨2⟩, ⟨1⟩] := by
    decide +kernel
  refine ⟨coherent, listed, ?_⟩
  have depthFirst := (coherent.depthFirst_postOrder (· == ⟨4⟩) ⟨1⟩).2
  rwa [listed] at depthFirst

end Store

end ShaderIR
