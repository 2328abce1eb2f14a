import ShaderIR.Proofs.Promotion.Addressing
import ShaderIR.Proofs.Promotion.Continuing

/-!
# Flattening levels the pointers to a variable

Flattening visits all element references that point to a variable which is only
addressed, because those that are linked are in reached blocks.  Each of them is based
on the variable itself afterwards and has indices, or it is in no block any more.
-/

namespace ShaderIR

open Store Edit

namespace Store

/-- No linked instruction has an operand that is an instruction in no block. -/
def Attached (store : Store) : Prop :=
  ∀ {user value}, (store.blockOf? user).isSome → some value ∈ store.operands user →
    store.isInstruction value = true → (store.blockOf? value).isSome

/-- An element of a variable, with an index at least. -/
structure Indexes (store : Store) (address gep : Ref) : Prop
    extends store.Leads gep address where
  indices : 1 < (store.operands gep).length

variable {origin store left : Store} {function address ref gep : Ref}

/-- What names no location does not point to the variable. -/
theorem Accessible.not_pointsTo_of_opcode?
    (accessible : origin.Accessible function address store)
    {opcode : Opcode}
    (found : store.opcode? ref = some opcode)
    (notLValue : opcode.isLValue = false) :
    store.isGep ref = false ∧ ¬store.PointsTo address ref := by
  have notGep : store.isGep ref = false := by
    rw [Bool.eq_false_iff]
    intro isGep
    rw [Option.some.inj (found.symm.trans (isGep_iff.1 isGep))] at notLValue
    cases notLValue
  refine ⟨notGep, fun points => ?_⟩
  by_cases same : ref = address
  · rw [Option.some.inj (found.symm.trans (same ▸ accessible.isLocal))] at notLValue
    cases notLValue
  · rw [points.isGep same] at notGep
    cases notGep

/-- Indices of linked element references are no pointers to a variable that is only addressed. -/
theorem Accessible.clean
    (accessible : origin.Accessible function address store)
    {pointer : Ref}
    (linked : (store.blockOf? gep).isSome)
    (points : store.PointsTo address pointer) :
    some pointer ∉ (store.operands gep).tail :=
  fun member => (accessible.used points linked (List.mem_of_mem_tail member)).only member

end Store

namespace Pass

/--
While flattening, the element references that point to a variable are still to be
visited or based on the variable itself.
-/
structure Leveled (origin : Store) (function : Ref) (geps : List Ref) (address : Ref)
    (rest : List Ref) (store : Store) : Prop
    extends Flattened origin function geps store where
  accessible : origin.Accessible function address store
  attached : ∀ {gep user}, store.isGep gep = true → (store.blockOf? user).isSome →
    some gep ∈ store.operands user → (store.blockOf? gep).isSome
  linked : ∀ gep ∈ rest, (store.blockOf? gep).isSome
  level : ∀ {gep}, store.PointsTo address gep → gep ≠ address → (store.blockOf? gep).isSome →
    gep ∈ rest ∨ store.Indexes address gep

variable {origin store left : Store} {function address gep : Ref} {geps rest : List Ref}

namespace Leveled

variable (leveled : Leveled origin function geps address (gep :: rest) store)

include leveled

theorem coherent : store.Coherent :=
  leveled.narrows.trims.coherent

/-- Element references along the bases of a linked one are linked. -/
theorem linked_of_pointsTo
    {pointer base : Ref}
    (linked : (store.blockOf? pointer).isSome)
    (points : store.PointsTo base pointer)
    (isGep : store.isGep base = true) :
    (store.blockOf? base).isSome := by
  induction points with
  | refl => exact linked
  | tail _ leads induction =>
      exact leveled.attached isGep (induction leads.isGep) leads.mem

theorem address_ne (isGep : store.isGep gep = true) : address ≠ gep := by
  rintro rfl
  rw [leveled.accessible.notGep] at isGep
  cases isGep

/-- An element reference is based on the root that its bases lead to. -/
theorem traces
    {traced : Bool}
    (isGep : store.isGep gep = true)
    (home : ∀ {block}, store.blockOf? gep = some block → origin.Reached function block)
    (gives : Gives (traceBase gep) store traced left) :
    Leveled origin function geps address (gep :: rest) left ∧
      ∀ root, (left.operands gep).head? = some (some root) → left.isGep root = false := by
  replace gives := gives_see_bind_iff.1 gives
  obtain ⟨base, head, gives⟩ := gives_demand_bind_iff.1 gives
  replace gives := gives_see_bind_iff.1 gives
  split at gives
  · rename_i isBase
    obtain ⟨base, rfl, -⟩ := (Option.any_eq_true _ _).1 isBase
    obtain ⟨path, _, followed, gives⟩ := gives_bind_iff.1 gives
    obtain ⟨unchanged, roots, gathered⟩ := gives_elementPath followed
    rw [unchanged] at gives
    obtain ⟨_, _, changes, returned⟩ := gives_bind_iff.1 gives
    obtain ⟨-, rfl⟩ := gives_pure_iff.1 returned
    obtain ⟨flattened, head', notGep⟩ :=
      leveled.toFlattened.rebases isGep (fun root found => (roots root found).1) changes
    obtain ⟨isLValue, repoints⟩ := leveled.coherent.repoints_setBaseAndIndices changes
    obtain ⟨root, found, -⟩ := (Option.any_eq_true _ _).1 isLValue
    obtain ⟨notGep', _, ⟨⟩, points⟩ := roots root found
    rw [found] at repoints
    have leads : store.Leads gep base := ⟨isGep, head⟩
    have linked := leveled.linked gep List.mem_cons_self
    have indices : ∀ index ∈ path.indices ++ (store.operands gep).tail,
        ∃ other, (store.blockOf? other).isSome ∧ index ∈ (store.operands other).tail := by
      intro index member
      rcases List.mem_append.1 member with member | member
      · obtain ⟨_, other, ⟨⟩, passed, isGep', member⟩ := gathered index member
        exact ⟨other, leveled.linked_of_pointsTo linked (passed.head leads) isGep', member⟩
      · exact ⟨gep, linked, member⟩
    have accessible := leveled.accessible.rebases repoints isGep home notGep' (points.head leads)
      fun {pointer} points member => by
        obtain ⟨other, linked, member⟩ := indices _ member
        exact leveled.accessible.clean linked points member
    refine ⟨⟨flattened, accessible, ?_, ?_, ?_⟩, fun root' head'' => ?_⟩
    · intro other user isGep' linked operand
      have isGep' := repoints.trims.of_isGep isGep'
      rw [repoints.blockOf?] at linked ⊢
      rw [repoints.operands] at operand
      split at operand
      · rcases List.mem_cons.1 operand with same | member
        · rw [Option.some.inj same, notGep'] at isGep'
          cases isGep'
        · obtain ⟨holder, linked, member⟩ := indices _ member
          exact leveled.attached isGep' linked (List.mem_of_mem_tail member)
      · exact leveled.attached isGep' linked operand
    · intro other member
      rw [repoints.blockOf?]
      exact leveled.linked other member
    · intro other points different linked
      rw [repoints.blockOf?] at linked
      have points := (leveled.accessible.pointers _).2 ((accessible.pointers _).1 points)
      rcases leveled.level points different linked with member | indexes
      · exact .inl member
      · by_cases same : gep = other
        · exact .inl (List.mem_cons.2 (.inl same.symm))
        · have operands : left.operands other = store.operands other := by
            rw [repoints.operands, if_neg same]
          have isGep' := repoints.trims.opcode?_kept (isGep_iff.1 indexes.isGep) rfl
          exact .inr ⟨⟨isGep_iff.2 isGep', by rw [operands, indexes.head]⟩,
            by rw [operands]; exact indexes.indices⟩
    · exact notGep root' (Option.some.inj (head'.symm.trans head''))
  · rename_i notGep
    obtain ⟨-, rfl⟩ := gives_pure_iff.1 gives
    refine ⟨leveled, fun root found => ?_⟩
    obtain rfl := Option.some.inj (head.symm.trans found)
    simpa using notGep

/-- An element reference without indices is taken out, and another one stays. -/
theorem retires
    {removed : Bool}
    (inside : gep ∈ geps)
    (apart : gep ∉ rest)
    (isGep : store.isGep gep = true)
    (notGep : ∀ root, (store.operands gep).head? = some (some root) → store.isGep root = false)
    (gives : Gives (removeTrivial gep) store removed left) :
    Leveled origin function geps address rest left := by
  have based {root : Ref} (leads : store.Leads gep root)
      (points : store.PointsTo address root ∨ store.PointsTo address gep) : root = address := by
    by_contra different
    have notGep := notGep root leads.head
    rcases points with points | points
    · rw [points.isGep different] at notGep
      cases notGep
    · obtain ⟨base, leads', points⟩ :=
        points.cases.resolve_left (leveled.address_ne isGep).symm
      obtain rfl := leads.unique leads'
      rw [points.isGep different] at notGep
      cases notGep
  obtain ⟨root, head, isLValue⟩ := leveled.rooted gep inside
  have leads : store.Leads gep root := ⟨isGep, head⟩
  replace gives := gives_see_bind_iff.1 gives
  split at gives
  · rename_i base alone
    obtain rfl : base = some root := by
      rw [alone] at head
      exact Option.some.inj head
    obtain ⟨_, middle, replaces, gives⟩ := gives_bind_iff.1 gives
    obtain ⟨_, _, removes, returned⟩ := gives_bind_iff.1 gives
    obtain ⟨-, rfl⟩ := gives_pure_iff.1 returned
    have isRoot := notGep root head
    have different : root ≠ gep := by
      rintro rfl
      rw [isGep] at isRoot
      cases isRoot
    have flattened := leveled.toFlattened.replaces isLValue isRoot replaces
    have repoints := leveled.coherent.repoints_replaceUses replaces
    obtain ⟨takes, trims⟩ := flattened.narrows.trims.coherent.removes removes
    have was {user : Ref} (linked : (left.blockOf? user).isSome) :
        (store.blockOf? user).isSome ∧ user ≠ gep := by
      obtain ⟨block, atBlock⟩ := Option.isSome_iff_exists.1 linked
      obtain ⟨atBlock, kept⟩ := takes.blockOf?_eq_some_iff.1 atBlock
      rw [repoints.blockOf?] at atBlock
      exact ⟨Option.isSome_of_eq_some atBlock, fun same => kept (List.mem_singleton.2 same)⟩
    have operands {user : Ref} (linked : (left.blockOf? user).isSome) :
        left.operands user = (store.operands user).map (replaced gep root) := by
      rw [takes.operands, repoints.operands, if_pos (was linked).1]
    have stays {other : Ref} (linked : (store.blockOf? other).isSome) (kept : other ≠ gep) :
        (left.blockOf? other).isSome := by
      rw [takes.blockOf?_kept (by simpa using kept), repoints.blockOf?]
      exact linked
    have accessible : origin.Accessible function address left := by
      refine (leveled.accessible.replaces repoints fun points => ⟨leads, based leads points⟩).takes
        takes trims (by simpa using leveled.address_ne isGep) ?_
      intro pointer gone _ user linked operand
      rw [List.mem_singleton.1 gone, repoints.operands, if_pos (was linked).1,
        some_mem_map_replaced] at operand
      rcases operand with ⟨-, wrong⟩ | ⟨-, same⟩
      · exact wrong rfl
      · exact different same.symm
    refine ⟨flattened.removes removes, accessible, ?_, ?_, ?_⟩
    · intro other user isGep' linked operand
      have isGep' := repoints.trims.of_isGep (trims.of_isGep isGep')
      rw [operands linked, some_mem_map_replaced] at operand
      rcases operand with ⟨operand, kept⟩ | ⟨-, rfl⟩
      · exact stays (leveled.attached isGep' (was linked).1 operand) kept
      · rw [isRoot] at isGep'
        cases isGep'
    · intro other member
      refine stays (leveled.linked other (List.mem_cons_of_mem _ member)) ?_
      rintro rfl
      exact apart member
    · intro other points different' linked
      have points := (leveled.accessible.pointers _).2 ((accessible.pointers _).1 points)
      rcases leveled.level points different' (was linked).1 with member | indexes
      · exact .inl ((List.mem_cons.1 member).resolve_left (was linked).2)
      · have isGep' := trims.opcode?_kept (repoints.trims.opcode?_kept
          (isGep_iff.1 indexes.isGep) rfl) rfl
        refine .inr ⟨⟨isGep_iff.2 isGep', ?_⟩, ?_⟩
        · rw [operands linked, List.head?_map, indexes.head, Option.map_some, replaced, if_neg]
          exact fun same => leveled.address_ne isGep (Option.some.inj same)
        · rw [operands linked, List.length_map]
          exact indexes.indices
  · rename_i several
    obtain ⟨-, rfl⟩ := gives_pure_iff.1 gives
    refine ⟨leveled.toFlattened, leveled.accessible, leveled.attached,
      fun other member => leveled.linked other (List.mem_cons_of_mem _ member), ?_⟩
    intro other points different linked
    rcases leveled.level points different linked with member | indexes
    · rcases List.mem_cons.1 member with rfl | member
      · obtain rfl := based leads (.inr points)
        refine .inr ⟨leads, ?_⟩
        rcases operands : left.operands other with _ | ⟨first, _ | ⟨second, others⟩⟩
        · simp [operands] at head
        · exact absurd operands (several first)
        · simp
      · exact .inl member
    · exact .inr indexes

end Leveled

/-- Flattening leaves a variable that is only addressed with element references into itself. -/
theorem leveled_flatten
    {module : Nat}
    {report : Flattening}
    (coherent : store.Coherent)
    (accepted : store.validate? module = some [])
    (listed : function ∈ store.functions module)
    (attached : store.Attached)
    (accessible : store.Accessible function address store)
    (gives : Gives (flatten function) store report left) :
    Leveled store function ((store.traverse function).filter store.isGep) address [] left := by
  have confined := Validation.confined_of_validate coherent accepted listed
  have home : ∀ gep ∈ (store.traverse function).filter store.isGep, store.isGep gep = true ∧
      ∃ block, store.Reached function block ∧ store.blockOf? gep = some block := by
    intro gep member
    obtain ⟨member, isGep⟩ := List.mem_filter.1 member
    obtain ⟨block, reached, member⟩ := coherent.mem_traverse_iff.1 member
    exact ⟨isGep, block, reached, (coherent.mem_members block gep).1 member⟩
  have start : Leveled store function ((store.traverse function).filter store.isGep) address
      ((store.traverse function).filter store.isGep) store := by
    refine ⟨⟨⟨.refl coherent confined, fun _ _ based => based⟩, fun gep member => ?_⟩, accessible,
      fun isGep linked operand => attached linked operand (isInstruction_of_isGep isGep),
      fun gep member => ?_, fun {gep} points different linked => .inl ?_⟩
    · obtain ⟨member, isGep⟩ := List.mem_filter.1 member
      exact Validation.isLValue_base_of_validate coherent accepted listed member isGep
    · obtain ⟨-, block, -, linked⟩ := home gep member
      exact Option.isSome_of_eq_some linked
    · obtain ⟨block, atBlock⟩ := Option.isSome_iff_exists.1 linked
      obtain ⟨base, leads, points'⟩ := points.cases.resolve_left different
      have reached := (accessible.used points' linked leads.mem).reached atBlock
      exact List.mem_filter.2 ⟨coherent.mem_traverse_iff.2
        ⟨block, reached, (coherent.mem_members block gep).2 atBlock⟩, leads.isGep⟩
  have whole := (coherent.nodup_traverse function).filter store.isGep
  refine ((gives_see_bind_iff.1 gives).foldlM_rest (fun rest _ left =>
    rest.Nodup ∧ (∀ gep ∈ rest, gep ∈ (store.traverse function).filter store.isGep) ∧
      Leveled store function ((store.traverse function).filter store.isGep) address rest left)
    ⟨whole, fun _ member => member, start⟩ ?_).2.2
  rintro gep rest _ middle _ left ⟨distinct, inside, leveled⟩ gives
  obtain ⟨apart, distinct⟩ := List.nodup_cons.1 distinct
  obtain ⟨here, inside⟩ := List.forall_mem_cons.1 inside
  refine ⟨distinct, inside, ?_⟩
  obtain ⟨isGep, block, reached, atBlock⟩ := home gep here
  obtain ⟨_, between, traces, gives⟩ := gives_bind_iff.1 gives
  obtain ⟨_, _, shortens, returned⟩ := gives_bind_iff.1 gives
  obtain ⟨-, rfl⟩ := gives_pure_iff.1 returned
  have isGep' := isGep_iff.2 (leveled.narrows.trims.opcode?_kept (isGep_iff.1 isGep) rfl)
  obtain ⟨leveled, notGep⟩ := leveled.traces isGep' (fun {other} linked => by
    have linked := leveled.narrows.trims.linked (value?_isSome_of_isGep isGep) linked
    rwa [Option.some.inj (linked.symm.trans atBlock)]) traces
  have isGep'' := isGep_iff.2 (leveled.narrows.trims.opcode?_kept (isGep_iff.1 isGep) rfl)
  exact leveled.retires here apart isGep'' notGep shortens

end Pass

end ShaderIR
