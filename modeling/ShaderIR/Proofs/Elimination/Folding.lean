import ShaderIR.Proofs.Elimination.Accepting
import ShaderIR.Proofs.Pass.Success
import ShaderIR.Proofs.Revision.Answers

/-!
# Folding phis

A phi is redundant if its incomings are one value, the phi itself and undefined values.  If
there are undefined ones, the value is not the result of an instruction, so it is there
everywhere.  Otherwise the value strictly dominates the phi.  So the phi can give way to
the value, and static single assignment form is kept.

The pass never fails: it takes the phi out and lets its uses have the value, or it leaves
everything as it is.  An index has to stay what it is, a constant or none, for validation to
find the same element.
-/

namespace ShaderIR

namespace Pass

open Edit

variable {store : Store} {phi value : Ref} {incomings : List (Option Ref)}
  {merged merged' : Merged} {incoming : Option Ref}

/-! ## What is merged -/

/-- All incomings seen so far are what they agree on, the phi itself or undefined. -/
structure Merged.Covers (store : Store) (phi : Ref) (merged : Merged) (seen : List (Option Ref)) :
    Prop where
  each : ∀ incoming ∈ seen, incoming = some phi ∨ incoming = merged.value ∨
    store.isUndefinedOption incoming = true ∧ merged.sawUndefined = true
  present : (∃ incoming ∈ seen, incoming ≠ some phi) → merged.value.isSome
  undefined : store.isUndefinedOption merged.value = true → merged.sawUndefined = true

theorem Merged.Covers.add
    {seen : List (Option Ref)}
    (covers : merged.Covers store phi seen)
    (added : Merged.add store phi merged incoming = some merged')
    (whole : incoming.isSome) :
    merged'.Covers store phi (seen ++ [incoming]) := by
  unfold Merged.add at added
  split at added
  · rename_i isPhi
    cases added
    refine ⟨?_, ?_, covers.undefined⟩
    · rintro other member
      rcases List.mem_append.1 member with member | member
      · exact covers.each other member
      · exact .inl ((List.mem_singleton.1 member).trans isPhi)
    · rintro ⟨other, member, different⟩
      rcases List.mem_append.1 member with member | member
      · exact covers.present ⟨other, member, different⟩
      · exact absurd ((List.mem_singleton.1 member).trans isPhi) different
  · split at added
    · rename_i undefined
      cases added
      refine ⟨?_, fun _ => by simp [whole], fun _ => rfl⟩
      rintro other member
      rcases List.mem_append.1 member with member | member
      · rcases covers.each other member with isPhi | same | ⟨undefined, -⟩
        · exact .inl isPhi
        · cases held : merged.value with
          | none =>
              -- Nothing but the phi was seen.
              by_contra none
              have present := covers.present ⟨other, member, fun isPhi => none (.inl isPhi)⟩
              rw [held] at present
              cases present
          | some value => exact .inr (.inl (same.trans held))
        · exact .inr (.inr ⟨undefined, rfl⟩)
      · exact .inr (.inr ⟨List.mem_singleton.1 member ▸ undefined, rfl⟩)
    · split at added
      · rename_i defined gives
        cases added
        refine ⟨?_, fun _ => whole, fun undefined => absurd undefined defined⟩
        rintro other member
        rcases List.mem_append.1 member with member | member
        · rcases covers.each other member with isPhi | same | undefined
          · exact .inl isPhi
          · by_cases isPhi : other = some phi
            · exact .inl isPhi
            · have present := covers.present ⟨other, member, isPhi⟩
              rw [Bool.or_eq_true, Option.isNone_iff_eq_none] at gives
              have undefined := gives.resolve_left fun none => by simp [none] at present
              exact .inr (.inr ⟨same ▸ undefined, covers.undefined undefined⟩)
          · exact .inr (.inr undefined)
        · exact .inr (.inl (List.mem_singleton.1 member))
      · split at added
        · rename_i same
          cases added
          refine ⟨?_, fun _ => same ▸ whole, covers.undefined⟩
          rintro other member
          rcases List.mem_append.1 member with member | member
          · exact covers.each other member
          · exact .inr (.inl ((List.mem_singleton.1 member).trans same.symm))
        · cases added

theorem Merged.Covers.foldlM
    {seen : List (Option Ref)}
    (covers : merged.Covers store phi seen)
    (folded : incomings.foldlM (Merged.add store phi) merged = some merged')
    (whole : ∀ incoming ∈ incomings, incoming.isSome) :
    merged'.Covers store phi (seen ++ incomings) := by
  induction incomings generalizing merged seen with
  | nil =>
      cases folded
      rwa [List.append_nil]
  | cons first rest induction =>
      rw [List.foldlM_cons] at folded
      obtain ⟨next, added, folded⟩ := Option.bind_eq_some_iff.1 folded
      obtain ⟨here, later⟩ := List.forall_mem_cons.1 whole
      have covers := induction (covers.add added here) folded later
      rwa [List.append_assoc, List.singleton_append] at covers

/--
Where incomings merge, each of them is the merged value, the phi itself or undefined, and
only an invariant value is merged with undefined ones.
-/
theorem agree_of_mergedValue?
    {value : Option Ref}
    (found : mergedValue? store phi incomings = some value)
    (whole : ∀ incoming ∈ incomings, incoming.isSome) :
    (∀ incoming ∈ incomings, incoming = some phi ∨ incoming = value ∨
      store.isUndefinedOption incoming = true ∧ store.isInvariant value = true) ∧
    ((∃ incoming ∈ incomings, incoming ≠ some phi) → value.isSome) := by
  obtain ⟨merged, folded, found⟩ := Option.bind_eq_some_iff.1 found
  have start : ({} : Merged).Covers store phi [] := ⟨by simp, by simp, fun wrong => by cases wrong⟩
  have covers := start.foldlM folded whole
  rw [List.nil_append] at covers
  split at found
  · cases found
  · rename_i invariant
    obtain rfl := Option.some.inj found
    refine ⟨fun incoming member => ?_, covers.present⟩
    refine (covers.each incoming member).imp_right (Or.imp_right fun undefined => ?_)
    rw [undefined.2, Bool.true_and, Bool.not_eq_true', Bool.not_eq_false] at invariant
    exact ⟨undefined.1, invariant⟩

/-! ## What removing a phi comes to -/

section

variable {left between : Store} {entry : Instruction} {module : Nat} {type : Option Ty}
  {pairs : List (Option Ref × Option Ref)}
  (found : store.instruction? phi = some entry) (linked : entry.block.isSome)

include found linked

theorem gives_remove_unused
    (unused : store.hasUses phi = false)
    (removes : Gives (Edit.remove phi) store () left) :
    Gives (removeRedundantPhi phi) store true left := by
  refine gives_instruction_bind_iff.2 ⟨entry, found, ?_⟩
  rw [← Option.not_isSome, linked]
  refine gives_see_bind_iff.2 ?_
  rw [unused]
  exact gives_bind_iff.2 ⟨(), left, removes, gives_pure_iff.2 ⟨rfl, rfl⟩⟩

variable (used : store.hasUses phi = true) (paired : store.incomings? phi = some pairs)

include used paired

theorem gives_keep_unmerged (unmerged : mergedValue? store phi (pairs.map (·.1)) = none) :
    Gives (removeRedundantPhi phi) store false store := by
  refine gives_instruction_bind_iff.2 ⟨entry, found, ?_⟩
  rw [← Option.not_isSome, linked]
  refine gives_see_bind_iff.2 ?_
  rw [used]
  refine gives_see_bind_iff.2 (gives_demand_bind_iff.2 ⟨pairs, paired, gives_see_bind_iff.2 ?_⟩)
  rw [unmerged]
  exact gives_pure_iff.2 ⟨rfl, rfl⟩

theorem gives_replace_merged
    (merged : mergedValue? store phi (pairs.map (·.1)) = some (some value))
    (replaces : Gives (do
      replaceUses phi (some value)
      Edit.remove phi
      return true) store true left) :
    Gives (removeRedundantPhi phi) store true left := by
  refine gives_instruction_bind_iff.2 ⟨entry, found, ?_⟩
  rw [← Option.not_isSome, linked]
  refine gives_see_bind_iff.2 ?_
  rw [used]
  refine gives_see_bind_iff.2 (gives_demand_bind_iff.2 ⟨pairs, paired, gives_see_bind_iff.2 ?_⟩)
  rw [merged]
  exact gives_bind_iff.2 ⟨value, store, gives_pure_iff.2 ⟨rfl, rfl⟩, replaces⟩

theorem gives_replace_undefined
    (merged : mergedValue? store phi (pairs.map (·.1)) = some none)
    (pool : store.moduleOf? phi = some module)
    (undefines : Gives (Edit.undefined module (store.typeOf phi)) store value between)
    (replaces : Gives (do
      replaceUses phi (some value)
      Edit.remove phi
      return true) between true left) :
    Gives (removeRedundantPhi phi) store true left := by
  refine gives_instruction_bind_iff.2 ⟨entry, found, ?_⟩
  rw [← Option.not_isSome, linked]
  refine gives_see_bind_iff.2 ?_
  rw [used]
  refine gives_see_bind_iff.2 (gives_demand_bind_iff.2 ⟨pairs, paired, gives_see_bind_iff.2 ?_⟩)
  rw [merged]
  refine gives_see_bind_iff.2 (gives_demand_bind_iff.2 ⟨module, pool, gives_see_bind_iff.2 ?_⟩)
  exact gives_bind_iff.2 ⟨value, between, undefines, replaces⟩

end

end Pass

namespace Store

open Edit Pass

/--
A phi merges a value with nothing but itself and undefined values.  If the value is the result
of an instruction, its block strictly dominates that of the phi.
-/
structure Folds (store : Store) (function block phi value : Ref) : Prop where
  different : value ≠ phi
  merges : ∃ pairs, store.incomings? phi = some pairs ∧ ∀ pair ∈ pairs,
    pair.1 = some value ∨ pair.1 = some phi ∨ store.isUndefinedOption pair.1 = true
  strictly : ∀ {home}, store.blockOf? value = some home →
    store.Dominates function home block ∧ home ≠ block

/-- An address in a reached block of some functions has a value among its indices. -/
def IsIndex (store : Store) (functions : List Ref) (value : Ref) : Prop :=
  ∃ owner ∈ functions, ∃ block user, store.Reached owner block ∧
    user ∈ store.instructions block ∧ store.opcode? user = some .gep ∧
    some value ∈ (store.operands user).drop 1

/-- A value that is the index of an address has no constants among its operands. -/
def StaysDynamic (store : Store) (functions : List Ref) (index : Ref) : Prop :=
  store.IsIndex functions index →
    ∀ operand, some operand ∈ store.operands index → store.isConstant operand = false

variable {store left : Store} {function block phi value : Ref} {module : Nat}
  {pairs : List (Option Ref × Option Ref)}

theorem Furnished.typeOf_phi
    (furnished : store.Furnished)
    (member : phi ∈ store.phis block) :
    (store.typeOf phi).isSome := by
  obtain ⟨entry, found, isPhi⟩ := isPhi_iff.1 (isPhi_of_mem_phis member)
  exact (furnished found).1 (Opcode.isTyped_iff.2 (.inl isPhi))

theorem constantInt?_of_isConstant {index : Ref} (dynamic : store.isConstant index = false) :
    store.constantInt? index = none := by
  rw [isConstant_eq_payload?, Option.isSome_eq_false_iff, Option.isNone_iff_eq_none] at dynamic
  rw [constantInt?, dynamic]
  rfl

/-- Indices that no constant takes the place of keep being as constant as they are. -/
theorem YieldsTo.keepsIndices
    {become : Ref → Ref}
    {functions : List Ref}
    (yieldsTo : store.YieldsTo function become)
    (coherent : store.Coherent)
    (dynamic : ∀ index, become index ≠ index → store.StaysDynamic functions index) :
    store.KeepsIndices functions become := by
  intro owner place user index owned reached member isGep indexOf
  by_cases same : become index = index
  · rw [same]
    exact ⟨rfl, rfl⟩
  have yields := (yieldsTo index).resolve_left same
  have isConstant : store.isConstant index = false := by
    obtain ⟨entry, found⟩ := Option.isSome_iff_exists.1 (yields.isInstruction coherent)
    rw [Store.isConstant, instruction?_eq_some_iff.1 found]
  have becomes := yields.isConstant (dynamic index same
    ⟨owner, owned, place, user, reached, member, isGep, indexOf⟩)
  exact ⟨becomes.trans isConstant.symm,
    (constantInt?_of_isConstant becomes).trans (constantInt?_of_isConstant isConstant).symm⟩

theorem not_isInvariant_of_linked {home : Ref} (placed : store.blockOf? value = some home) :
    store.isInvariant (some value) = false := by
  obtain ⟨entry, found, -⟩ := blockOf?_eq_some_iff.1 placed
  simp [isInvariant, instruction?_eq_some_iff.1 found, Content.isInvariant]

theorem isLValue_of_isPhi (isPhi : store.isPhi phi = true) : store.isLValue phi = false := by
  obtain ⟨opcode, found, isPhi⟩ := (Option.any_eq_true _ _).1 isPhi
  by_contra isLValue
  refine opcode?_ne_of_isLValue (Bool.not_eq_false _ ▸ isLValue) ?_ found
  cases opcode <;> simp_all [Opcode.isPhi, Opcode.isLValue]

theorem Reached.moduleOf?
    (reached : store.Reached function block)
    (coherent : store.Coherent)
    (pool : store.moduleOf? function = some module) :
    store.moduleOf? block = some module :=
  Validation.moduleOf?_of_mem_reversePostOrder coherent pool
    ((mem_reversePostOrder_iff_reached coherent).2 reached)

section

variable (coherent : store.Coherent) (regular : store.Regular)
  (accepted : store.validate? module = some []) (listed : function ∈ store.functions module)
  (inForm : store.InSsaForm function) (reached : store.Reached function block)
  (member : phi ∈ store.phis block)

include inForm reached member

/-- The incomings of a phi in a function in static single assignment form. -/
theorem InSsaForm.exists_of_mem
    {pair : Option Ref × Option Ref}
    (paired : store.incomings? phi = some pairs)
    (inside : pair ∈ pairs) :
    ∃ value source, pair = (some value, some source) ∧ store.typeOf value = store.typeOf phi ∧
      store.AvailableIn function source value := by
  obtain ⟨_, paired', each, given⟩ := inForm.incomings reached member
  cases paired.symm.trans paired'
  obtain ⟨incoming, place⟩ := pair
  have known : place ∈ pairs.map Prod.snd := List.mem_map.2 ⟨_, inside, rfl⟩
  rw [each.mem_iff] at known
  obtain ⟨source, -, rfl⟩ := List.mem_map.1 known
  obtain ⟨value, rfl, sameType, available⟩ := given inside
  exact ⟨value, source, rfl, sameType, available⟩

/-- All that a phi merges are values. -/
theorem InSsaForm.isSome_of_mem (paired : store.incomings? phi = some pairs) :
    ∀ incoming ∈ pairs.map (·.1), incoming.isSome := by
  intro incoming known
  obtain ⟨pair, inside, rfl⟩ := List.mem_map.1 known
  obtain ⟨value, source, rfl, -⟩ := inForm.exists_of_mem reached member paired inside
  rfl

/-- A phi that merges anything merges a value. -/
theorem InSsaForm.eq_nil_of_merged
    (coherent : store.Coherent)
    (ordered : store.Ordered (store.functions module))
    (listed : function ∈ store.functions module)
    (paired : store.incomings? phi = some pairs)
    (merges : mergedValue? store phi (pairs.map (·.1)) = some none) :
    pairs = [] := by
  obtain ⟨-, present⟩ := agree_of_mergedValue? merges (inForm.isSome_of_mem reached member paired)
  refine List.eq_nil_iff_forall_not_mem.2 fun pair inside => ?_
  obtain ⟨value, source, inside, different⟩ :=
    inForm.exists_other_incoming coherent (ordered.owner listed) reached member paired inside
  have wrong := present ⟨some value, List.mem_map.2 ⟨_, inside, rfl⟩,
    fun same => different (Option.some.inj same)⟩
  cases wrong

include coherent accepted listed

theorem folds_of_mergedValue?
    (paired : store.incomings? phi = some pairs)
    (merges : mergedValue? store phi (pairs.map (·.1)) = some (some value)) :
    store.Folds function block phi value := by
  have ordered := ordered_of_validate coherent accepted
  obtain ⟨agree, -⟩ := agree_of_mergedValue? merges (inForm.isSome_of_mem reached member paired)
  obtain ⟨known, different⟩ := mem_of_mergedValue? merges
  obtain ⟨⟨_, place⟩, inside, rfl⟩ := List.mem_map.1 known
  refine ⟨different, ⟨pairs, paired, fun pair inside => ?_⟩, fun placed => ?_⟩
  · rcases agree pair.1 (List.mem_map.2 ⟨pair, inside, rfl⟩) with isPhi | same | undefined
    · exact .inr (.inl isPhi)
    · exact .inl same
    · exact .inr (.inr undefined.1)
  · refine inForm.dominates_of_merged coherent (ordered.owner listed) reached member paired inside
      placed fun pair inside => ?_
    rcases agree pair.1 (List.mem_map.2 ⟨pair, inside, rfl⟩) with isPhi | same | ⟨-, invariant⟩
    · exact .inr isPhi
    · exact .inl same
    · rw [not_isInvariant_of_linked placed] at invariant
      cases invariant

include regular

/-- A phi can give way to the value that it merges. -/
theorem Folds.yields
    (folds : store.Folds function block phi value)
    (typed : (store.typeOf phi).isSome)
    (paired : store.incomings? phi = some pairs)
    {place : Option Ref}
    (inside : (some value, place) ∈ pairs) :
    store.Yields function phi value := by
  have inBlock := mem_instructions_of_mem_phis member
  obtain ⟨_, source, equal, sameType, -⟩ := inForm.exists_of_mem reached member paired inside
  cases equal
  have operandOf := mem_operands_of_incomings? paired inside
  refine ⟨⟨block, reached, inBlock⟩, sameType, present_of_mem_operands coherent operandOf, ?_, ?_,
    fun _ => operandOf, fun linked placed => ?_⟩
  · by_contra isBlock
    rw [Bool.not_eq_false] at isBlock
    rw [← sameType, regular.blocks isBlock] at typed
    cases typed
  · obtain ⟨before, rest, split⟩ := List.append_of_mem inBlock
    obtain ⟨entry, admitted⟩ :=
      (Validation.admittedBlock_of_validate coherent accepted listed reached).instruction split
    exact admitted.belongs (by simpa [Store.operands, admitted.found] using operandOf)
  · cases linked.symm.trans ((coherent.mem_members block phi).1 inBlock)
    obtain ⟨dominates, elsewhere⟩ := folds.strictly placed
    exact ⟨dominates, fun here => absurd here elsewhere⟩

end

/-! ## Taking phis out -/

/--
A phi has given way to a value, or nothing used it, and the function is in static single
assignment form still.  Validation accepts what is left unless the phi was an index and merged
a constant.
-/
structure Condensed (store : Store) (module : Nat) (function phi : Ref) (become : Ref → Ref)
    (left : Store) : Prop where
  coherent : left.Coherent
  inForm : left.InSsaForm function
  ordered : left.Ordered (store.functions module)
  accepted : store.StaysDynamic (store.functions module) phi → left.validate? module = some []
  instructions : ∀ block, left.instructions block = (store.instructions block).filter (· ≠ phi)
  operands : ∀ {user}, (left.blockOf? user).isSome →
    left.operands user = (store.operands user).map (Option.map become)

theorem Condenses.condensed
    {become : Ref → Ref}
    (condenses : store.Condenses [phi] become left)
    (coherent : store.Coherent)
    (accepted : store.validate? module = some [])
    (listed : function ∈ store.functions module)
    (inForm : store.InSsaForm function)
    (isPhi : store.isPhi phi = true)
    (others : ∀ ref, ref ≠ phi → become ref = ref)
    (yieldsTo : store.YieldsTo function become) :
    store.Condensed module function phi become left where
  coherent := condenses.trims.coherent
  inForm := condenses.inSsaForm coherent yieldsTo (ordered_of_validate coherent accepted) listed
    inForm
  ordered := condenses.ordered_left coherent yieldsTo (ordered_of_validate coherent accepted) listed
  accepted := by
    intro dynamic
    refine condenses.validate? coherent yieldsTo (ordered_of_validate coherent accepted) listed
      (fun ref location => ?_) (yieldsTo.keepsIndices coherent fun index changed => ?_) accepted
    · rwa [others ref]
      rintro rfl
      rw [isLValue_of_isPhi isPhi] at location
      cases location
    · by_contra wrong
      exact changed (others index fun same => wrong (same ▸ dynamic))
  instructions := by
    intro block
    rw [condenses.instructions]
    exact List.filter_congr fun ref _ => by simp
  operands := condenses.operands coherent

/-- A linked instruction can give way to a value of its module. -/
theorem Coherent.exists_gives_replace
    {old new : Ref}
    (coherent : store.Coherent)
    (linked : (store.blockOf? old).isSome)
    (present : (store.value? new).isSome)
    (pool : store.moduleOf? new = store.moduleOf? old) :
    ∃ left, Gives (do
      replaceUses old (some new)
      Edit.remove old
      return true) store true left := by
  obtain ⟨between, replaces⟩ := coherent.exists_gives_replaceUses present pool
  have repoints := coherent.repoints_replaceUses replaces
  obtain ⟨home, placed⟩ := Option.isSome_iff_exists.1 linked
  rw [← repoints.blockOf?] at placed
  obtain ⟨entry, found, placed⟩ := blockOf?_eq_some_iff.1 placed
  obtain ⟨left, removes, -⟩ := exists_gives_remove repoints.trims.coherent found placed
  exact ⟨left, gives_bind_iff.2 ⟨(), between, replaces, gives_bind_iff.2
    ⟨(), left, removes, gives_pure_iff.2 ⟨rfl, rfl⟩⟩⟩⟩

/-- A phi gives way to a value that it merges, for which room may have been made before. -/
def GivesWay (store : Store) (function block phi value : Ref) (left : Store) : Prop :=
  ∃ between, store.Condenses [] id between ∧ phi ∈ between.phis block ∧
    between.Folds function block phi value ∧ between.Yields function phi value ∧
    between.Condenses [phi] (Ref.instead phi value) left

/-- What became of a phi that is taken out. -/
inductive Removed (store : Store) (module : Nat) (function block phi : Ref) (left : Store) : Prop
  | unused (unused : store.hasUses phi = false)
      (condenses : store.Condenses [phi] id left)
      (condensed : store.Condensed module function phi id left)
  | folded {value : Ref} (folds : store.Folds function block phi value)
      (givesWay : store.GivesWay function block phi value left)
      (sameType : left.typeOf value = store.typeOf phi)
      (condensed : store.Condensed module function phi (Ref.instead phi value) left)

section

variable (coherent : store.Coherent) (regular : store.Regular)
  (accepted : store.validate? module = some []) (listed : function ∈ store.functions module)
  (inForm : store.InSsaForm function) (reached : store.Reached function block)
  (member : phi ∈ store.phis block)

include coherent accepted listed inForm reached member

omit reached in
/-- A phi gives way to a value of its module. -/
theorem Folds.condensed
    (folds : store.Folds function block phi value)
    (yields : store.Yields function phi value)
    (pool : store.moduleOf? value = store.moduleOf? phi) :
    ∃ left, Gives (do
      replaceUses phi (some value)
      Edit.remove phi
      return true) store true left ∧ store.Condenses [phi] (Ref.instead phi value) left ∧
        left.typeOf value = store.typeOf phi ∧
        store.Condensed module function phi (Ref.instead phi value) left := by
  have isPhi := isPhi_of_mem_phis member
  have linked := (coherent.mem_members block phi).1 (mem_instructions_of_mem_phis member)
  obtain ⟨left, gives⟩ :=
    coherent.exists_gives_replace (Option.isSome_of_eq_some linked) yields.present pool
  have condenses := coherent.condenses_replace (isTerminator_of_isPhi isPhi) folds.different gives
  refine ⟨left, gives, condenses, ?_, condenses.condensed coherent accepted listed inForm isPhi
    (fun ref => Ref.instead_of_ne) fun ref => ?_⟩
  · rw [condenses.trims.ages.typeOf yields.present, yields.sameType]
  · by_cases same : ref = phi
    · rw [same, Ref.instead_old]
      exact .inr yields
    · exact .inl (Ref.instead_of_ne same)

/-- A phi that merges nothing gives way to an undefined value. -/
theorem exists_gives_undefine
    (regular : store.Regular)
    (typed : (store.typeOf phi).isSome)
    (paired : store.incomings? phi = some []) :
    ∃ value between left, Gives (Edit.undefined module (store.typeOf phi)) store value between ∧
      Gives (do
        replaceUses phi (some value)
        Edit.remove phi
        return true) between true left ∧
      store.Folds function block phi value ∧ store.GivesWay function block phi value left ∧
        left.typeOf value = store.typeOf phi ∧
        store.Condensed module function phi (Ref.instead phi value) left := by
  have isPhi := isPhi_of_mem_phis member
  have inBlock := mem_instructions_of_mem_phis member
  have linked := (coherent.mem_members block phi).1 inBlock
  have ordered := ordered_of_validate coherent accepted
  have pool : store.moduleOf? phi = some module :=
    (coherent.memberPool linked).trans
      (reached.moduleOf? coherent (coherent.listed module function listed).2)
  have present : (store.value? phi).isSome :=
    moduleOf?_isSome_iff.1 (Option.isSome_of_eq_some pool)
  have isModule : (store.modules[module]?).isSome := by
    obtain ⟨entry, found, -⟩ := Option.bind_eq_some_iff.1 accepted
    exact Option.isSome_of_eq_some found
  obtain ⟨value, between, undefines⟩ := exists_gives_undefined (store.typeOf phi) isModule
  obtain ⟨interned, interns⟩ := regular.interns_undefined undefines
  have content := isUndefined_iff.1 interned.undefined
  have coherent' := ((undefined_keeps module _).of_gives undefines coherent).1
  -- Nothing has changed in the function so far.
  have condenses := interns.condenses coherent'
  have yieldsTo : store.YieldsTo function id := fun ref => .inl rfl
  have accepted' : between.validate? module = some [] :=
    condenses.validate? coherent yieldsTo ordered listed (fun _ location => location)
      (fun _ _ _ _ _ => ⟨rfl, rfl⟩) accepted
  have inForm' := condenses.inSsaForm coherent yieldsTo ordered listed inForm
  have reached' := (condenses.reached_iff coherent yieldsTo ordered listed).2 reached
  have sameIsPhi (ref : Ref) : between.isPhi ref = store.isPhi ref := by
    rw [Store.isPhi, Store.isPhi, interns.opcode?]
  have member' : phi ∈ between.phis block := by
    rw [Store.phis, interns.instructions, funext sameIsPhi]
    exact member
  have paired' : between.incomings? phi = some [] := by
    rw [Store.incomings?, interns.instruction?]
    exact paired
  have notLinked : between.blockOf? value = none := by
    simp [Store.blockOf?, Store.instruction?, content]
  have different : value ≠ phi := by
    rintro rfl
    rw [← sameIsPhi] at isPhi
    simp [Store.isPhi, Store.opcode?, Store.instruction?, content] at isPhi
  have folds' : between.Folds function block phi value :=
    ⟨different, ⟨[], paired', by simp⟩, fun placed => by simp [notLinked] at placed⟩
  have yields : between.Yields function phi value := by
    refine ⟨⟨block, reached', mem_instructions_of_mem_phis member'⟩, ?_, ?_, ?_, ?_, ?_, ?_⟩
    · rw [interned.type, interns.ages.typeOf present]
    · exact content?_isSome_iff.1 (Option.isSome_of_eq_some content)
    · simp [isBlock, content]
    · constructor <;> simp [Store.instruction?, blockFunction?, content]
    · simp [isUndefined_iff.2 content]
    · intro _ home _ placed
      rw [notLinked] at placed
      cases placed
  have listed' : function ∈ between.functions module := by rwa [interns.ages.functions]
  obtain ⟨left, gives, condenses', sameType, condensed⟩ :=
    folds'.condensed coherent' accepted' listed' inForm' member' yields
      (interned.pool.trans ((interns.ages.moduleOf? present).trans pool).symm)
  refine ⟨value, between, left, undefines, gives, ?_,
    ⟨between, condenses, member', folds', yields, condenses'⟩, ?_, ?_⟩
  · refine ⟨different, ⟨[], paired, by simp⟩, fun placed => ?_⟩
    rw [← interns.blockOf?, notLinked] at placed
    cases placed
  · rw [sameType, interns.ages.typeOf present]
  · refine ⟨condensed.coherent, condensed.inForm, ?_, fun dynamic => condensed.accepted ?_, ?_, ?_⟩
    · exact interns.ages.functions module ▸ condensed.ordered
    · rintro ⟨owner, owned, place, user, found, inside, isGep, index⟩ operand operandOf
      rw [interns.ages.functions] at owned
      rw [interns.operands] at operandOf
      rw [interns.ages.isConstant]
      refine dynamic ⟨owner, owned, place, user, ?_, ?_, ?_, ?_⟩ operand operandOf
      · rwa [← condenses.reached_iff coherent yieldsTo ordered owned]
      · rwa [← interns.instructions]
      · rwa [← interns.opcode?]
      · rwa [← interns.operands]
    · exact fun block => by rw [condensed.instructions, interns.instructions]
    · exact fun linked => by rw [condensed.operands linked, interns.operands]

include regular

/-- Removing a redundant phi comes to an end, and a phi that is removed has given way. -/
theorem exists_gives_removeRedundantPhi (typed : (store.typeOf phi).isSome) :
    ∃ removed left, Gives (removeRedundantPhi phi) store removed left ∧
      (removed = false → left = store) ∧
      (removed = true → store.Removed module function block phi left) := by
  have isPhi := isPhi_of_mem_phis member
  have inBlock := mem_instructions_of_mem_phis member
  have linked := (coherent.mem_members block phi).1 inBlock
  have ordered := ordered_of_validate coherent accepted
  obtain ⟨entry, found, placed⟩ := blockOf?_eq_some_iff.1 linked
  obtain ⟨pairs, paired, -⟩ := inForm.incomings reached member
  have isLinked : entry.block.isSome := Option.isSome_of_eq_some placed
  cases used : store.hasUses phi with
  | false =>
      obtain ⟨left, removes, -⟩ := exists_gives_remove coherent found placed
      have unused : store.usesOf phi = [] := by simpa [hasUses] using used
      have condenses := coherent.condenses_remove (isTerminator_of_isPhi isPhi) unused removes
      refine ⟨true, left, gives_remove_unused found isLinked used removes, by simp,
        fun _ => .unused used ?_ ?_⟩
      · exact condenses
      · exact condenses.condensed coherent accepted listed inForm isPhi (fun _ _ => rfl)
          fun ref => .inl rfl
  | true =>
      cases merged : mergedValue? store phi (pairs.map (·.1)) with
      | none =>
          exact ⟨false, store, gives_keep_unmerged found isLinked used paired merged, fun _ => rfl,
            by simp⟩
      | some agreed =>
          cases agreed with
          | some value =>
              have folds := folds_of_mergedValue? coherent accepted listed inForm reached member
                paired merged
              obtain ⟨⟨_, place⟩, inside, rfl⟩ := List.mem_map.1 (mem_of_mergedValue? merged).1
              have yields := folds.yields coherent regular accepted listed inForm reached member
                typed paired inside
              obtain ⟨entry', found', slot, holding, holds⟩ :=
                some_mem_operands_iff.1 (mem_operands_of_incomings? paired inside)
              obtain ⟨left, gives, condenses, sameType, condensed⟩ :=
                folds.condensed coherent accepted
                listed inForm member yields (coherent.operandPool found' slot holding value holds)
              have givesWay : store.GivesWay function block phi value left :=
                ⟨store, coherent.condenses_refl, member, folds, yields, condenses⟩
              exact ⟨true, left, gives_replace_merged found isLinked used paired merged gives,
                by simp, fun _ => .folded folds givesWay sameType condensed⟩
          | none =>
              obtain rfl := inForm.eq_nil_of_merged reached member coherent ordered listed paired
                merged
              have pool : store.moduleOf? phi = some module :=
                (coherent.memberPool linked).trans
                  (reached.moduleOf? coherent (coherent.listed module function listed).2)
              obtain ⟨value, between, left, undefines, gives, folds, givesWay,
                sameType, condensed⟩ :=
                exists_gives_undefine coherent accepted listed inForm reached member regular typed
                  paired
              exact ⟨true, left, gives_replace_undefined found isLinked used paired merged pool
                undefines gives, by simp, fun _ => .folded folds givesWay sameType condensed⟩

end

end Store

end ShaderIR
