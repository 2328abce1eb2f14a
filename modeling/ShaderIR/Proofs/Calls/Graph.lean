import ShaderIR.CallGraph
import ShaderIR.Proofs.Coherence.Edges
import ShaderIR.Proofs.Coherence.Listing

/-!
# What the call graph holds

The call graph is read off the use-lists of the functions, which hold one use for every operand
slot.  A call is therefore found once for its callee and once more for every argument that is
the callee itself.  Apart from this the graph is exact: it holds the linked calls of functions
that were not removed, grouped by callee in the order of the module, and no others.
-/

namespace ShaderIR

open Store Edit

namespace Store

/-! ## Calls -/

/-- A call that is linked into a block of a function which was not removed. -/
structure Calls (store : Store) (caller call callee : Ref) : Prop where
  isCall : store.opcode? call = some .call
  target : (store.operands call).head? = some (some callee)
  holder : store.functionOf? call = some caller
  kept : ∃ entry, store.function? caller = some entry ∧ entry.removed = false

/-- The calls of one function to another one, in the order of the uses of the latter. -/
def callsBetween (store : Store) (caller callee : Ref) : List Ref :=
  ((store.usesOf callee).filter fun use => store.caller? callee use == some caller).map (·.user)

variable {store : Store} {caller call callee : Ref} {module : Nat}

theorem caller?_eq_some_iff {use : Use} :
    store.caller? callee use = some caller ↔ store.Calls caller use.user callee := by
  have guarded : store.caller? callee use = some caller ↔
      ∃ entry, store.instruction? use.user = some entry ∧
        (entry.opcode = .call ∧ entry.operand? 0 = some (some callee)) ∧
        store.functionOf? use.user = some caller ∧
          ∃ function, store.function? caller = some function ∧ function.removed = false := by
    simp only [caller?, Option.bind_eq_bind, Option.bind_eq_some_iff, guard]
    constructor
    · rintro ⟨entry, found, _, passed, holder, holds, function, isFunction, kept⟩
      split at passed
      · rename_i isCall
        rw [Bool.and_eq_true, beq_iff_eq, beq_iff_eq] at isCall
        split at kept
        · cases kept
        · rename_i stays
          cases kept
          exact ⟨entry, found, isCall, holds, function, isFunction, by simpa using stays⟩
      · cases passed
    · rintro ⟨entry, found, isCall, holds, function, isFunction, kept⟩
      refine ⟨entry, found, (), ?_, caller, holds, function, isFunction, ?_⟩
      · rw [if_pos (by simpa using isCall)]
        rfl
      · rw [kept]
        rfl
  have operand : ∀ entry : Instruction, entry.operand? 0 = entry.values.head? := by
    intro entry
    rw [Instruction.operand?, Instruction.values, List.head?_map, List.head?_eq_getElem?]
  rw [guarded]
  constructor
  · rintro ⟨entry, found, ⟨isCall, target⟩, holds, kept⟩
    refine ⟨?_, ?_, holds, kept⟩
    · rw [opcode?, found, Option.map_some, isCall]
    · rw [operands, found, Option.map_some, Option.getD_some, ← operand]
      exact target
  · rintro ⟨isCall, target, holds, kept⟩
    obtain ⟨entry, found, isCall⟩ := Option.map_eq_some_iff.1 isCall
    rw [operands, found, Option.map_some, Option.getD_some, ← operand] at target
    exact ⟨entry, found, ⟨isCall, target⟩, holds, kept⟩

/-- A call has one callee. -/
theorem Calls.callee_unique
    {other holder : Ref}
    (calls : store.Calls caller call callee)
    (calls' : store.Calls holder call other) :
    other = callee :=
  Option.some.inj (Option.some.inj (calls'.target.symm.trans calls.target))

/-! ## Grouping by callee -/

/-- The edges of one group that leave a caller. -/
theorem map_filter_callsOf {α : Type} (read : CallEdge → α) :
    ((store.callsOf callee).filter (·.caller == caller)).map read =
      ((store.usesOf callee).filter fun use => store.caller? callee use == some caller).map
        fun use => read ⟨caller, use.user, callee⟩ := by
  rw [callsOf]
  induction store.usesOf callee with
  | nil => rfl
  | cons use rest induction =>
      cases holds : store.caller? callee use with
      | none => simpa [holds] using induction
      | some holder =>
          by_cases same : holder = caller
          · subst same
            simpa [holds] using induction
          · simpa [holds, same] using induction

/-- The edges of a caller are grouped by callee, in the order of the module. -/
theorem map_filter_callEdges {α : Type} (read : CallEdge → α) :
    ((store.callEdges module).filter (·.caller == caller)).map read =
      (store.functions module).flatMap fun callee =>
        (store.callsBetween caller callee).map fun call => read ⟨caller, call, callee⟩ := by
  rw [callEdges, List.filter_flatMap, List.map_flatMap]
  congr 1
  funext callee
  rw [map_filter_callsOf, callsBetween, List.map_map]
  rfl

theorem callsFrom_eq_flatMap :
    store.callsFrom module caller =
      (store.functions module).flatMap (store.callsBetween caller) := by
  rw [callsFrom, map_filter_callEdges]
  simp

/-! ## Counting calls -/

/-- A linked instruction is in the use-list of a value as often as it has it for an operand. -/
theorem Coherent.countP_usesOf
    (coherent : store.Coherent)
    (linked : (store.blockOf? call).isSome) :
    (store.usesOf callee).countP (·.user == call) = (store.operands call).count (some callee) := by
  obtain ⟨block, linked⟩ := Option.isSome_iff_exists.1 linked
  obtain ⟨entry, found, inBlock⟩ := blockOf?_eq_some_iff.1 linked
  have permutes : ((store.usesOf callee).filter (·.user == call)).Perm
      (usesAmong call callee entry.operands) := by
    refine (List.perm_ext_iff_of_nodup ((coherent.usesDistinct callee).filter _)
      (nodup_usesAmong call callee (coherent.keysDistinct found))).2 fun use => ?_
    rw [List.mem_filter, beq_iff_eq, coherent.mem_uses, mem_usesAmong]
    constructor
    · rintro ⟨⟨_, found', -, held⟩, rfl⟩
      cases found.symm.trans found'
      exact ⟨rfl, held⟩
    · rintro ⟨rfl, held⟩
      exact ⟨⟨entry, found, by simp [inBlock], held⟩, rfl⟩
  rw [List.countP_eq_length_filter, permutes.length_eq, usesAmong, List.length_map,
    ← List.countP_eq_length_filter, operands, found, Option.map_some, Option.getD_some,
    Instruction.values, List.count, List.countP_map]
  rfl

theorem count_callsBetween
    (coherent : store.Coherent)
    (calls : store.Calls caller call callee) :
    (store.callsBetween caller callee).count call =
      (store.operands call).count (some callee) := by
  have linked : (store.blockOf? call).isSome := by
    obtain ⟨block, linked, -⟩ := Option.bind_eq_some_iff.1 calls.holder
    rw [linked]
    rfl
  rw [← coherent.countP_usesOf linked, callsBetween, List.count, List.countP_map,
    List.countP_filter]
  refine List.countP_congr fun use _ => ?_
  rw [Bool.and_eq_true, Function.comp_apply, beq_iff_eq, beq_iff_eq, caller?_eq_some_iff]
  constructor
  · exact fun both => both.1
  · rintro rfl
    exact ⟨rfl, calls⟩

theorem mem_callsBetween_iff (coherent : store.Coherent) :
    call ∈ store.callsBetween caller callee ↔ store.Calls caller call callee := by
  constructor
  · intro member
    obtain ⟨use, listed, rfl⟩ := List.mem_map.1 member
    exact caller?_eq_some_iff.1 (beq_iff_eq.1 (List.mem_filter.1 listed).2)
  · intro calls
    rw [← List.count_pos_iff, count_callsBetween coherent calls, List.count_pos_iff]
    exact List.mem_of_head? calls.target

theorem count_flatMap_of_unique
    {refs : List Ref}
    {group : Ref → List Ref}
    (distinct : refs.Nodup)
    (member : callee ∈ refs)
    (unique : ∀ other ∈ refs, call ∈ group other → other = callee) :
    (refs.flatMap group).count call = (group callee).count call := by
  induction refs with
  | nil => cases member
  | cons first rest induction =>
      obtain ⟨fresh, distinct⟩ := List.nodup_cons.1 distinct
      rw [List.flatMap_cons, List.count_append]
      rcases List.mem_cons.1 member with rfl | later
      · have absent : call ∉ rest.flatMap group := by
          intro inside
          obtain ⟨other, listed, held⟩ := List.mem_flatMap.1 inside
          exact fresh (unique other (List.mem_cons_of_mem _ listed) held ▸ listed)
        rw [List.count_eq_zero.2 absent, Nat.add_zero]
      · have absent : call ∉ group first := by
          intro held
          exact fresh (unique first List.mem_cons_self held ▸ later)
        rw [List.count_eq_zero.2 absent, Nat.zero_add]
        exact induction distinct later fun other listed =>
          unique other (List.mem_cons_of_mem _ listed)

/-! ## Distinct callees -/

/-- Adding the copies of a new value one by one adds the value, if there are any copies. -/
theorem foldl_distinct_replicate
    {seen copies : List Ref}
    (unseen : callee ∉ seen)
    (all : ∀ ref ∈ copies, ref = callee) :
    copies.foldl (fun seen ref => if seen.contains ref then seen else seen ++ [ref]) seen =
      if copies.isEmpty then seen else seen ++ [callee] := by
  have known : ∀ rest : List Ref, (∀ ref ∈ rest, ref = callee) →
      rest.foldl (fun seen ref => if seen.contains ref then seen else seen ++ [ref])
        (seen ++ [callee]) = seen ++ [callee] := by
    intro rest all
    induction rest with
    | nil => rfl
    | cons first rest induction =>
        obtain ⟨rfl, all⟩ := List.forall_mem_cons.1 all
        rw [List.foldl_cons, if_pos (by simp)]
        exact induction all
  cases copies with
  | nil => rfl
  | cons first rest =>
      obtain ⟨rfl, all⟩ := List.forall_mem_cons.1 all
      rw [List.foldl_cons, if_neg (by simpa using unseen)]
      exact known rest all

/-- Of groups of copies of distinct values, the distinct values are those with copies. -/
theorem distinct_flatMap
    {refs : List Ref}
    {copies : Ref → List Ref}
    (distinct : refs.Nodup)
    (all : ∀ ref, ∀ copy ∈ copies ref, copy = ref) :
    Store.distinct (refs.flatMap copies) = refs.filter fun ref => !(copies ref).isEmpty := by
  have general : ∀ seen : List Ref, (∀ ref ∈ refs, ref ∉ seen) →
      (refs.flatMap copies).foldl
          (fun seen ref => if seen.contains ref then seen else seen ++ [ref]) seen =
        seen ++ refs.filter fun ref => !(copies ref).isEmpty := by
    induction refs with
    | nil => simp
    | cons first rest induction =>
        obtain ⟨fresh, distinct⟩ := List.nodup_cons.1 distinct
        intro seen unseen
        obtain ⟨unseen, others⟩ := List.forall_mem_cons.1 unseen
        rw [List.flatMap_cons, List.foldl_append,
          foldl_distinct_replicate unseen (all first), List.filter_cons]
        cases none : (copies first).isEmpty with
        | true => simpa using induction distinct seen others
        | false =>
            have others' : ∀ ref ∈ rest, ref ∉ seen ++ [first] := by
              intro ref member
              rw [List.mem_append, List.mem_singleton, not_or]
              exact ⟨others ref member, fun same => fresh (same ▸ member)⟩
            simpa using induction distinct (seen ++ [first]) others'
  simpa [Store.distinct] using general [] (by simp)

theorem callees_eq_filter (listed : store.WellListed) :
    store.callees module caller =
      (store.functions module).filter fun callee =>
        !(store.callsBetween caller callee).isEmpty := by
  rw [callees, map_filter_callEdges, distinct_flatMap (listed.distinct module)]
  · simp only [List.isEmpty_map]
  · intro callee copy member
    obtain ⟨_, -, rfl⟩ := List.mem_map.1 member
    rfl

/-! ## The call graph of a module -/

/-- What the call graph of a module holds. -/
structure GraphsCalls (store : Store) (module : Nat) : Prop where
  /-- The calls of a function are grouped by callee, in the order of the module. -/
  grouped : ∀ caller, store.callsFrom module caller =
    (store.functions module).flatMap (store.callsBetween caller)
  /-- A group holds the linked calls of the caller to the callee, if the caller was not removed. -/
  groups : ∀ caller call callee,
    call ∈ store.callsBetween caller callee ↔ store.Calls caller call callee
  /-- A call is listed once for its callee, and once for each argument that is the callee. -/
  counted : ∀ caller call callee, callee ∈ store.functions module →
    store.Calls caller call callee →
    (store.callsFrom module caller).count call = (store.operands call).count (some callee)
  /-- A call that is not passed its own callee is listed once. -/
  once : ∀ caller call callee, callee ∈ store.functions module →
    store.Calls caller call callee → some callee ∉ (store.operands call).tail →
    (store.callsFrom module caller).count call = 1
  /-- The roots are the functions without calls, in the order of the module. -/
  roots : (store.callRoots module).Sublist (store.functions module) ∧
    ∀ function, function ∈ store.callRoots module ↔
      function ∈ store.functions module ∧ ∀ caller call, ¬store.Calls caller call function
  /-- The callees of a function are those of its calls, without repetitions. -/
  called : ∀ caller, (store.callees module caller).Nodup ∧
    (store.callees module caller).Sublist (store.functions module) ∧
    ∀ callee, callee ∈ store.callees module caller ↔
      callee ∈ store.functions module ∧ ∃ call, store.Calls caller call callee

theorem mem_callRoots_iff (coherent : store.Coherent) {function : Ref} :
    function ∈ store.callRoots module ↔
      function ∈ store.functions module ∧ ∀ caller call, ¬store.Calls caller call function := by
  have none : (store.callsOf function).isEmpty ↔
      ∀ caller call, ¬store.Calls caller call function := by
    rw [List.isEmpty_iff, callsOf, List.filterMap_eq_nil_iff]
    constructor
    · intro unused caller call calls
      obtain ⟨use, listed, rfl⟩ := List.mem_map.1 ((mem_callsBetween_iff coherent).2 calls)
      have holds := beq_iff_eq.1 (List.mem_filter.1 listed).2
      have absent := unused use (List.mem_filter.1 listed).1
      rw [holds] at absent
      cases absent
    · intro uncalled use _
      cases holds : store.caller? function use with
      | none => rfl
      | some caller => exact absurd (caller?_eq_some_iff.1 holds) (uncalled caller use.user)
  rw [callRoots, List.mem_filter, none]

theorem Coherent.graphsCalls
    (coherent : store.Coherent)
    (listed : store.WellListed)
    (module : Nat) :
    store.GraphsCalls module := by
  have counted : ∀ caller call callee, callee ∈ store.functions module →
      store.Calls caller call callee →
      (store.callsFrom module caller).count call = (store.operands call).count (some callee) := by
    intro caller call callee member calls
    rw [callsFrom_eq_flatMap, count_flatMap_of_unique (listed.distinct module) member ?_]
    · exact count_callsBetween coherent calls
    · exact fun other _ held => calls.callee_unique ((mem_callsBetween_iff coherent).1 held)
  constructor
  case grouped => exact fun caller => callsFrom_eq_flatMap
  case groups => exact fun caller call callee => mem_callsBetween_iff coherent
  case counted => exact counted
  case once =>
    intro caller call callee member calls absent
    rw [counted caller call callee member calls]
    obtain ⟨arguments, split⟩ := List.head?_eq_some_iff.1 calls.target
    rw [split, List.tail_cons] at absent
    rw [split, List.count_cons_self, List.count_eq_zero.2 absent]
  case roots => exact ⟨List.filter_sublist, fun function => mem_callRoots_iff coherent⟩
  case called =>
    intro caller
    refine ⟨nodup_distinct _, ?_, fun callee => ?_⟩
    · rw [callees_eq_filter listed]
      exact List.filter_sublist
    · rw [callees_eq_filter listed, List.mem_filter, Bool.not_eq_true', 
        List.isEmpty_eq_false_iff_exists_mem]
      simp only [mem_callsBetween_iff coherent]

end Store

namespace Session

/--
After any operations, refused ones among them, the call graph of a module holds the linked
calls of functions that were not removed, where a call that passes its own callee as an
argument is listed once more for each of these arguments.
-/
theorem call_graph_exact (operations : List Operation) (module : Nat) :
    (after operations).store.GraphsCalls module :=
  (after_coherent operations).store.graphsCalls (after_wellListed operations) module

/-- A function that calls another one with a number, and again with the called function itself. -/
def selfPassing : List Operation :=
  let number : Ty := .scalar ⟨0, 0, "i32"⟩ (.signed 4)
  [.edit (.addModule "passing"),
    .edit (.createFunction 0 .callable (some number)),
    .edit (.createArgument ⟨0⟩ .byValue (some number)),
    .edit (.createFunction 0 .kernel none),
    .edit (.createBody ⟨2⟩),
    .edit (.constantInt32 0 7),
    .moveToEnd ⟨3⟩,
    .call (some number) (some ⟨0⟩) [some ⟨4⟩],
    .call (some number) (some ⟨0⟩) [some ⟨0⟩]]

/-- The first call is listed once, the second one twice. -/
theorem call_graph_exact_passing :
    let store := (after selfPassing).store
    store.callsFrom 0 ⟨2⟩ = [⟨5⟩, ⟨6⟩, ⟨6⟩] ∧ store.callees 0 ⟨2⟩ = [⟨0⟩] ∧
      store.callRoots 0 = [⟨2⟩] ∧ store.Calls ⟨2⟩ ⟨5⟩ ⟨0⟩ ∧
      (store.callsFrom 0 ⟨2⟩).count ⟨5⟩ = 1 := by
  have listed : ⟨0⟩ ∈ (after selfPassing).store.functions 0 := by decide +kernel
  have calls : (after selfPassing).store.Calls ⟨2⟩ ⟨5⟩ ⟨0⟩ :=
    ⟨by decide +kernel, by decide +kernel, by decide +kernel,
      { kind := .kernel, body := some ⟨3⟩, blocks := [⟨3⟩] }, by decide +kernel, rfl⟩
  refine ⟨by decide +kernel, by decide +kernel, by decide +kernel, calls, ?_⟩
  exact (call_graph_exact selfPassing 0).once ⟨2⟩ ⟨5⟩ ⟨0⟩ listed calls (by decide +kernel)

end Session

end ShaderIR
