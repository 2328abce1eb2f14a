import ShaderIR.Proofs.Elimination.Doomed
import ShaderIR.Proofs.Promotion.Forwarding
import ShaderIR.Proofs.Promotion.Pointing

/-!
# What goes on while memory accesses are simplified

Whatever flattening, transposing and forwarding do, terminators stay in their blocks
and lead to the blocks they led to.  Instructions keep their opcodes, and no phi is
new.  None of this depends on how the memory accesses look, so it holds of every
function for which these passes answer at all.
-/

namespace ShaderIR

open Store Edit

namespace Store

/-- A block holds a terminator as its last instruction only. -/
def EndsLast (store : Store) (block : Ref) : Prop :=
  (store.instructions block).Pairwise fun ref _ => store.isTerminator ref = false

/--
Trimming has kept linked terminators in their blocks, at the end if they were there, with
the blocks they lead to.  Only some phis may be new or have another opcode.
-/
structure Continues (store : Store) (phis : List Ref) (left : Store) : Prop where
  trims : store.Trims left
  linked : ∀ {ref block}, store.isTerminator ref = true → store.blockOf? ref = some block →
    left.blockOf? ref = some block
  targets : ∀ {ref target}, store.isTerminator ref = true → store.isBlock target = true →
    some target ∈ store.operands ref → some target ∈ left.operands ref
  ended : ∀ {block}, store.EndsLast block → left.EndsLast block
  fresh : ∀ {ref}, store.value? ref = none → left.isPhi ref = true → ref ∈ phis
  opcode? : ∀ {ref}, (store.value? ref).isSome → ref ∉ phis → left.opcode? ref = store.opcode? ref

variable {store left last : Store} {phis : List Ref} {function ref block source target : Ref}

namespace Continues

theorem refl (coherent : store.Coherent) : store.Continues [] store where
  trims := .refl coherent
  linked := fun _ linked => linked
  targets := fun _ _ operand => operand
  ended := id
  fresh := by
    intro ref absent isPhi
    obtain ⟨opcode, found, -⟩ := (Option.any_eq_true _ _).1 isPhi
    have present := value?_isSome_of_opcode? found
    simp [absent] at present
  opcode? := fun _ _ => rfl

theorem trans
    {phis' : List Ref}
    (continues : store.Continues phis left)
    (continues' : left.Continues phis' last) :
    store.Continues (phis ++ phis') last where
  trims := continues.trims.trans continues'.trims
  linked := by
    intro ref block isTerminator linked
    have present := value?_isSome_of_blockOf? (Option.isSome_of_eq_some linked)
    refine continues'.linked ?_ (continues.linked isTerminator linked)
    rw [continues.trims.isTerminator_old present, isTerminator]
  targets := by
    intro ref target isTerminator isBlock operand
    obtain ⟨opcode, found, -⟩ := isTerminator_iff.1 isTerminator
    refine continues'.targets ?_ ?_ (continues.targets isTerminator isBlock operand)
    · rw [continues.trims.isTerminator_old (value?_isSome_of_opcode? found), isTerminator]
    · rw [continues.trims.ages.isBlock, isBlock]
  ended := fun ended => continues'.ended (continues.ended ended)
  fresh := by
    intro ref absent isPhi
    rw [List.mem_append]
    cases between : left.value? ref with
    | none => exact .inr (continues'.fresh between isPhi)
    | some value =>
        rcases continues'.trims.kind (Option.isSome_of_eq_some between) with same | ⟨isPhi', -⟩
        · exact .inl (continues.fresh absent (by rwa [Store.isPhi, ← same]))
        · exact .inl (continues.fresh absent isPhi')
  opcode? := by
    intro ref present notPhi
    rw [List.mem_append, not_or] at notPhi
    rw [continues'.opcode? (continues.trims.ages.value?_isSome present) notPhi.2,
      continues.opcode? present notPhi.1]

theorem trans_nil (continues : store.Continues [] left) (continues' : left.Continues phis last) :
    store.Continues phis last :=
  continues.trans continues'

theorem mono {phis' : List Ref} (continues : store.Continues phis left) (sub : phis ⊆ phis') :
    store.Continues phis' left :=
  { continues with
    fresh := fun absent isPhi => sub (continues.fresh absent isPhi)
    opcode? := fun present notPhi => continues.opcode? present fun member => notPhi (sub member) }

variable (continues : store.Continues phis left)

include continues

/-- Control still moves to where it moved. -/
theorem mem_successors
    (coherent : store.Coherent)
    (ended : left.EndsLast source)
    (edge : target ∈ store.successors source) :
    target ∈ left.successors source := by
  have trims := continues.trims
  obtain ⟨terminator, last, operand, isBlock⟩ := mem_successors_iff.1 edge
  have isTerminator := (terminator?_eq_some_iff.1 last).2
  have atSource := (coherent.mem_members source terminator).1
    (mem_instructions_of_terminator? last)
  have present := value?_isSome_of_blockOf? (Option.isSome_of_eq_some atSource)
  have member := (trims.coherent.mem_members source terminator).2
    (continues.linked isTerminator atSource)
  refine mem_successors_iff.2 ⟨terminator, terminator?_of_linked (pairwise_iff_dropLast.1 ended)
    member ?_, continues.targets isTerminator isBlock operand, ?_⟩
  · rw [trims.isTerminator_old present, isTerminator]
  · rw [trims.ages.isBlock, isBlock]

/-- Control still comes to where it came to. -/
theorem reached
    (coherent : store.Coherent)
    (confined : left.Confined function)
    (reached : store.Reached function block) :
    left.Reached function block := by
  obtain ⟨body, hasBody, reaches⟩ := reached
  have hasBody' := (continues.trims.ages.body? function).trans hasBody
  refine ⟨body, hasBody', ?_⟩
  induction reaches with
  | refl => exact .refl
  | tail _ edge induction =>
      have ended := pairwise_iff_dropLast.2 (confined.ended _ ⟨body, hasBody', induction⟩)
      exact induction.tail (continues.mem_successors coherent ended edge)

/-- Control may still come from where it came from. -/
theorem mem_predecessors
    (coherent : store.Coherent)
    (predecessor : source ∈ store.predecessors block) :
    source ∈ left.predecessors block := by
  have trims := continues.trims
  have isBlock := coherent.isBlock_of_mem_predecessors predecessor
  obtain ⟨terminator, linked, isTerminator, operand, owner⟩ :=
    coherent.mem_predecessors_iff.1 predecessor
  have present := value?_isSome_of_blockOf? (Option.isSome_of_eq_some linked)
  refine trims.coherent.mem_predecessors_iff.2
    ⟨terminator, continues.linked isTerminator linked, ?_, ?_, ?_⟩
  · rw [trims.isTerminator_old present, isTerminator]
  · exact continues.targets isTerminator isBlock operand
  · rw [trims.ages.blockFunction?, trims.ages.blockFunction?, owner]

end Continues

/-! ## One step -/

/-- Rewriting instructions that keep their opcodes and the blocks they lead to. -/
theorem Rewrites.continues
    {change : Ref → Instruction → Instruction}
    (rewrites : store.Rewrites change left)
    (coherent : left.Coherent)
    (opcode : ∀ ref entry, (change ref entry).opcode = entry.opcode)
    (block : ∀ ref entry, (change ref entry).block = entry.block)
    (targets : ∀ {ref entry target}, store.instruction? ref = some entry →
      entry.opcode.isTerminator = true → store.isBlock target = true →
      some target ∈ entry.values → some target ∈ (change ref entry).values) :
    store.Continues [] left := by
  have repoints : store.Repoints
      (fun ref _ => ((store.instruction? ref).map fun entry => (change ref entry).values).getD [])
      left := by
    refine repoints_of_rewrites rewrites coherent
      (fun {ref entry} _ => .inl (opcode ref entry)) block
      ?_ ?_
    · intro ref entry found
      rw [found, Option.map_some, Option.getD_some]
    · intro ref absent
      rw [absent, Option.map_none, Option.getD_none]
  have kept (ref : Ref) : left.opcode? ref = store.opcode? ref := by
    rw [Store.opcode?, rewrites.instruction?, Store.opcode?, Option.map_map]
    exact congrArg (Option.map · _) (funext fun entry => opcode ref entry)
  constructor
  case trims => exact repoints.trims
  case linked =>
    intro ref block _ linked
    rw [repoints.blockOf?, linked]
  case targets =>
    intro ref target isTerminator isBlock operand
    rw [repoints.operands]
    cases found : store.instruction? ref with
    | none => simp [Store.operands, found] at operand
    | some entry =>
        rw [Option.map_some, Option.getD_some]
        refine targets found ?_ isBlock ?_
        · simpa [Store.isTerminator, Store.opcode?, found] using isTerminator
        · simpa [Store.operands, found] using operand
  case ended =>
    intro block ended
    rw [EndsLast, repoints.instructions]
    exact ended.imp repoints.trims.not_isTerminator
  case fresh =>
    intro ref absent isPhi
    rw [Store.isPhi, kept] at isPhi
    obtain ⟨opcode, found, -⟩ := (Option.any_eq_true _ _).1 isPhi
    have present := value?_isSome_of_opcode? found
    simp [absent] at present
  case opcode? => exact fun _ _ => kept _

theorem Takes.continues
    {gone : List Ref}
    (takes : store.Takes gone left)
    (trims : store.Trims left)
    (kept : ∀ ref ∈ gone, store.isTerminator ref = false) :
    store.Continues [] left where
  trims := trims
  linked := by
    intro ref block isTerminator linked
    refine takes.blockOf?_eq_some_iff.2 ⟨linked, fun taken => ?_⟩
    rw [kept ref taken] at isTerminator
    cases isTerminator
  targets := by
    intro ref target _ _ operand
    rwa [takes.operands]
  ended := by
    intro block ended
    rw [EndsLast, takes.instructions]
    exact (ended.filter _).imp trims.not_isTerminator
  fresh := by
    intro ref absent isPhi
    rw [takes.isPhi] at isPhi
    obtain ⟨opcode, found, -⟩ := (Option.any_eq_true _ _).1 isPhi
    have present := value?_isSome_of_opcode? found
    simp [absent] at present
  opcode? := fun _ _ => takes.opcode? _

theorem Receives.continues
    {after : Option Ref}
    {new : Ref}
    {entry : Instruction}
    (receives : store.Receives block after new entry left)
    (notTerminator : entry.opcode.isTerminator = false)
    (notLValue : entry.opcode.isLValue = false)
    (isBlock : store.isBlock block = true)
    (quiet : store.EndsLast block → ∀ position, after = some position →
      store.isTerminator position = false)
    (placed : entry.opcode.isPhi = true → new ∈ phis) :
    store.Continues phis left where
  trims := receives.trims notTerminator notLValue
  linked := by
    intro ref block _ linked
    have present := value?_isSome_of_blockOf? (Option.isSome_of_eq_some linked)
    rw [receives.blockOf?_old (receives.ne_new present), linked]
  targets := by
    intro ref target isTerminator _ operand
    obtain ⟨opcode, found, -⟩ := isTerminator_iff.1 isTerminator
    rwa [receives.operands_old (receives.ne_new (value?_isSome_of_opcode? found))]
  ended := by
    intro other ended
    have new := isTerminator_of_absent receives.fresh
    suffices (left.instructions other).Pairwise fun ref _ => store.isTerminator ref = false from
      this.imp (receives.trims notTerminator notLValue).not_isTerminator
    rw [receives.instructions isBlock]
    by_cases same : block = other
    · subst same
      rw [if_pos rfl]
      cases after with
      | none => exact .cons (fun _ _ => new) ended
      | some position => exact pairwise_insertAfter ended (quiet ended position rfl) new
    · rwa [if_neg same]
  fresh := by
    intro ref absent isPhi
    by_cases same : ref = new
    · subst same
      rw [Store.isPhi, receives.opcode?_new, Option.any_some] at isPhi
      exact placed isPhi
    · rw [Store.isPhi, receives.opcode?_old same] at isPhi
      obtain ⟨opcode, found, -⟩ := (Option.any_eq_true _ _).1 isPhi
      have present := value?_isSome_of_opcode? found
      simp [absent] at present
  opcode? := fun present _ => receives.opcode?_old (receives.ne_new present)

theorem Interns.continues (interns : store.Interns left) (coherent : left.Coherent) :
    store.Continues [] left where
  trims := (interns.repoints coherent).trims
  linked := fun _ linked => (interns.blockOf? _).trans linked
  targets := by
    intro ref target _ _ operand
    rwa [interns.operands]
  ended := by
    intro block ended
    rw [EndsLast, interns.instructions]
    exact ended.imp (interns.repoints coherent).trims.not_isTerminator
  fresh := by
    intro ref absent isPhi
    rw [Store.isPhi, interns.opcode?] at isPhi
    obtain ⟨opcode, found, -⟩ := (Option.any_eq_true _ _).1 isPhi
    have present := value?_isSome_of_opcode? found
    simp [absent] at present
  opcode? := fun _ _ => interns.opcode? _

/-- Replacing the uses of anything but a block, also by no operand. -/
theorem Coherent.continues_replaceUses
    (coherent : store.Coherent)
    {old : Ref}
    {new : Option Ref}
    {answer : Unit}
    (notBlock : store.isBlock old = false)
    (gives : Gives (replaceUses old new) store answer left) :
    store.Continues [] left := by
  have coherent' := ((replaceUses_keeps old new).of_gives gives coherent).1
  refine (rewrites_redirect (gives_see_bind_iff.1 gives)).continues coherent' (fun _ _ => rfl)
    (fun _ _ => rfl) ?_
  intro ref entry target found _ isBlock operand
  obtain ⟨slot, member, holds⟩ := List.mem_map.1 operand
  refine List.mem_map.2 ⟨_, List.mem_map_of_mem member, ?_⟩
  rw [if_neg, holds]
  intro listed
  obtain ⟨entry', found', -, member'⟩ := (coherent.mem_uses _ _).1 listed
  cases found.symm.trans found'
  have same : slot.value = some old :=
    congrArg Slot.value (coherent.slot_unique found member member' rfl)
  rw [Option.some.inj (holds.symm.trans same), notBlock] at isBlock
  cases isBlock

/-- Giving an instruction that ends no block other operands. -/
theorem Coherent.continues_setBaseAndIndices
    (coherent : store.Coherent)
    {base : Option Ref}
    {indices : List (Option Ref)}
    {answer : Unit}
    (notTerminator : store.isTerminator ref = false)
    (gives : Gives (setBaseAndIndices ref base indices) store answer left) :
    store.Continues [] left := by
  have coherent' := ((setBaseAndIndices_keeps ref base indices).of_gives gives coherent).1
  obtain ⟨_, _, given, rest⟩ := gives_bind_iff.1 (gives_see_bind_iff.1 gives)
  obtain ⟨-, unchanged⟩ := gives_require_iff.1 given
  rw [unchanged] at rest
  obtain ⟨-, slots, -, rewrites⟩ := rewrites_setOperands rest
  refine rewrites.continues coherent' ?_ ?_ ?_
  · intro other entry
    split <;> rfl
  · intro other entry
    split <;> rfl
  · intro other entry target found isTerminator _ operand
    rw [if_neg]
    · exact operand
    · rintro rfl
      simp [Store.isTerminator, Store.opcode?, found, isTerminator] at notTerminator

/-- Taking out an instruction that ends no block. -/
theorem Coherent.continues_remove
    (coherent : store.Coherent)
    {answer : Unit}
    (notTerminator : store.isTerminator ref = false)
    (gives : Gives (remove ref) store answer left) :
    store.Continues [] left := by
  obtain ⟨takes, trims⟩ := coherent.removes gives
  refine takes.continues trims fun other member => ?_
  rw [List.mem_singleton.1 member, notTerminator]

theorem isTerminator_of_opcode?
    {opcode : Opcode}
    (found : store.opcode? ref = some opcode)
    (notTerminator : opcode.isTerminator = false) :
    store.isTerminator ref = false := by
  rw [isTerminator, found, Option.any_some, notTerminator]

/-- Replacing an instruction that ends no block and taking it out. -/
theorem Coherent.continues_substitute
    (coherent : store.Coherent)
    {new : Option Ref}
    {opcode : Opcode}
    {between : Store}
    {answer answer' : Unit}
    (found : store.opcode? ref = some opcode)
    (notTerminator : opcode.isTerminator = false)
    (replaces : Gives (replaceUses ref new) store answer between)
    (removes : Gives (remove ref) between answer' left) :
    store.Continues [] left := by
  have continues := coherent.continues_replaceUses (isBlock_of_opcode? found) replaces
  refine continues.trans_nil (continues.trims.coherent.continues_remove ?_ removes)
  exact continues.trims.not_isTerminator (isTerminator_of_opcode? found notTerminator)

end Store

/-! ## Building -/

/-- A cursor that does not stand behind the terminator that a block ends with. -/
structure Cursor.Inside (cursor : Cursor) (store : Store) : Prop where
  stands : cursor.Stands store
  quiet : ∀ {block position}, cursor.block = some block → store.EndsLast block →
    cursor.after = some position → store.isTerminator position = false

/-- The position in front of a linked instruction is inside its block. -/
theorem Store.Coherent.inside_before
    {store : Store}
    {user block : Ref}
    (coherent : store.Coherent)
    (linked : store.blockOf? user = some block) :
    ({ block := some block, after := store.previous? user } : Cursor).Inside store where
  stands := by
    rintro _ ⟨⟩
    exact coherent.isBlock_of_blockOf? linked
  quiet := by
    rintro _ position ⟨⟩ ended previous
    exact coherent.not_isTerminator_previous? linked ended previous

namespace Build

variable {store left : Store} {cursor moved : Cursor} {new : Ref} {opcode : Opcode}
  {type : Option Ty} {operands : List (Option Ref)}

theorem continues_emit
    (coherent : store.Coherent)
    (inside : cursor.Inside store)
    (plain : opcode.isTerminator = false ∧ opcode.isLValue = false ∧ opcode.isPhi = false)
    (yields : Yields (emit opcode type operands) cursor store new moved left) :
    store.Continues [] left ∧ moved.Inside left := by
  obtain ⟨block, entry, atBlock, rfl, rfl, -, receives⟩ :=
    receives_emit coherent inside.stands (Opcode.nodup_caseValues plain.1) yields
  have continues : store.Continues [] left :=
    receives.continues plain.1 plain.2.1 (inside.stands block atBlock)
      (fun ended _ behind => inside.quiet atBlock ended behind)
      fun isPhi => by simp [plain.2.2] at isPhi
  refine ⟨continues, fun other found => ?_, ?_⟩
  · rw [continues.trims.ages.isBlock]
    exact inside.stands other found
  · rintro other _ - - ⟨⟩
    rw [isTerminator, receives.opcode?_new, Option.any_some, plain.1]

end Build

/-! ## Flattening -/

namespace Pass

variable {store left : Store} {function gep root user : Ref}

theorem continues_traceBase
    (coherent : store.Coherent)
    {traced : Bool}
    (isGep : store.opcode? gep = some .gep)
    (gives : Gives (traceBase gep) store traced left) :
    store.Continues [] left := by
  replace gives := gives_see_bind_iff.1 gives
  obtain ⟨base, -, gives⟩ := gives_demand_bind_iff.1 gives
  replace gives := gives_see_bind_iff.1 gives
  split at gives
  · obtain ⟨path, between, followed, gives⟩ := gives_bind_iff.1 gives
    rw [(gives_elementPath followed).1] at gives
    obtain ⟨_, between, changed, returned⟩ := gives_bind_iff.1 gives
    obtain ⟨-, rfl⟩ := gives_pure_iff.1 returned
    exact coherent.continues_setBaseAndIndices (isTerminator_of_opcode? isGep rfl) changed
  · obtain ⟨-, rfl⟩ := gives_pure_iff.1 gives
    exact .refl coherent

theorem continues_removeTrivial
    (coherent : store.Coherent)
    {removed : Bool}
    (isGep : store.opcode? gep = some .gep)
    (gives : Gives (removeTrivial gep) store removed left) :
    store.Continues [] left := by
  replace gives := gives_see_bind_iff.1 gives
  split at gives
  · obtain ⟨_, between, replaces, gives⟩ := gives_bind_iff.1 gives
    obtain ⟨_, last, removes, returned⟩ := gives_bind_iff.1 gives
    obtain ⟨-, rfl⟩ := gives_pure_iff.1 returned
    exact coherent.continues_substitute isGep rfl replaces removes
  · obtain ⟨-, rfl⟩ := gives_pure_iff.1 gives
    exact .refl coherent

theorem continues_flattenOne
    (coherent : store.Coherent)
    {report report' : Flattening}
    (isGep : store.opcode? gep = some .gep)
    (gives : Gives (flattenOne report gep) store report' left) :
    store.Continues [] left := by
  obtain ⟨_, between, traces, gives⟩ := gives_bind_iff.1 gives
  obtain ⟨_, last, removes, returned⟩ := gives_bind_iff.1 gives
  obtain ⟨-, rfl⟩ := gives_pure_iff.1 returned
  have continues := continues_traceBase coherent isGep traces
  have isGep := continues.trims.opcode?_kept isGep rfl
  exact continues.trans_nil (continues_removeTrivial continues.trims.coherent isGep removes)

theorem continues_flatten
    (coherent : store.Coherent)
    {report : Flattening}
    (gives : Gives (flatten function) store report left) :
    store.Continues [] left := by
  replace gives := gives_see_bind_iff.1 gives
  refine gives.foldlM (fun _ left => store.Continues [] left) (.refl coherent) ?_
  intro gep member _ between _ left continues gives
  have isGep := isGep_iff.1 (List.mem_filter.1 member).2
  have isGep := continues.trims.opcode?_kept isGep rfl
  exact continues.trans_nil (continues_flattenOne continues.trims.coherent isGep gives)

/-! ## Transposing -/

theorem continues_transposeUse
    (coherent : store.Coherent)
    {indices : List (Option Ref)}
    {report report' : Transposition}
    {use : Use}
    (gives : Gives (transposeUse root gep indices report use) store report' left) :
    store.Continues [] left := by
  unfold transposeUse at gives
  obtain ⟨entry, found, gives⟩ := gives_instruction_bind_iff.1 gives
  have opcode : store.opcode? use.user = some entry.opcode := by simp [Store.opcode?, found]
  replace gives := gives_see_bind_iff.1 gives
  split at gives
  · rename_i isLoad
    rw [isLoad] at opcode
    obtain ⟨element, between, reads, gives⟩ := gives_bind_iff.1 gives
    obtain ⟨_, _, replaces, gives⟩ := gives_bind_iff.1 gives
    obtain ⟨_, _, removes, returned⟩ := gives_bind_iff.1 gives
    obtain ⟨-, rfl⟩ := gives_pure_iff.1 returned
    obtain ⟨block, whole, _, _, _, linked, read, _, extracted⟩ := emits_of_readElement reads
    obtain ⟨continues, inside⟩ :=
      Build.continues_emit coherent (coherent.inside_before linked) ⟨rfl, rfl, rfl⟩ read
    obtain ⟨continues', -⟩ :=
      Build.continues_emit continues.trims.coherent inside ⟨rfl, rfl, rfl⟩ extracted
    have continues := continues.trans_nil continues'
    exact continues.trans_nil (continues.trims.coherent.continues_substitute
      (continues.trims.opcode?_kept opcode rfl) rfl replaces removes)
  · rename_i isStore
    rw [isStore] at opcode
    obtain ⟨held, between, given, gives⟩ := gives_bind_iff.1 gives
    rw [(gives_operand_iff.1 given).2] at gives
    obtain ⟨_, between, given, gives⟩ := gives_bind_iff.1 gives
    rw [(gives_require_iff.1 given).2] at gives
    obtain ⟨written, between, writes, gives⟩ := gives_bind_iff.1 gives
    obtain ⟨_, _, removes, returned⟩ := gives_bind_iff.1 gives
    obtain ⟨-, rfl⟩ := gives_pure_iff.1 returned
    obtain ⟨block, _, _, _, _, _, _, _, _, _, linked, read, -, -, ⟨_, inserted⟩, written⟩ :=
      emits_of_writeElement writes
    obtain ⟨continues, inside⟩ :=
      Build.continues_emit coherent (coherent.inside_before linked) ⟨rfl, rfl, rfl⟩ read
    obtain ⟨continues', inside⟩ :=
      Build.continues_emit continues.trims.coherent inside ⟨rfl, rfl, rfl⟩ inserted
    obtain ⟨continues'', -⟩ :=
      Build.continues_emit continues'.trims.coherent inside ⟨rfl, rfl, rfl⟩ written
    have continues := (continues.trans_nil continues').trans_nil continues''
    refine continues.trans_nil (continues.trims.coherent.continues_remove ?_ removes)
    exact isTerminator_of_opcode? (continues.trims.opcode?_kept opcode rfl) rfl
  · exact absurd gives not_gives_violate

theorem continues_transposeOne
    (coherent : store.Coherent)
    {excluded : List Ref}
    {report report' : Transposition}
    (isGep : store.opcode? gep = some .gep)
    (gives : Gives (transposeOne excluded report gep) store report' left) :
    store.Continues [] left := by
  replace gives := gives_see_bind_iff.1 gives
  obtain ⟨answer, between, traced, gives⟩ := gives_bind_iff.1 gives
  rw [(gives_pointerVariable? traced).1] at gives
  split at gives
  · obtain ⟨-, rfl⟩ := gives_pure_iff.1 gives
    exact .refl coherent
  · split at gives
    · obtain ⟨-, rfl⟩ := gives_pure_iff.1 gives
      exact .refl coherent
    · replace gives := gives_see_bind_iff.1 gives
      obtain ⟨_, between, rewritten, gives⟩ := gives_bind_iff.1 gives
      obtain ⟨_, _, removes, returned⟩ := gives_bind_iff.1 gives
      obtain ⟨-, rfl⟩ := gives_pure_iff.1 returned
      have continues : store.Continues [] between := by
        refine rewritten.foldlM (fun _ left => store.Continues [] left) (.refl coherent) ?_
        intro use _ _ _ _ _ continues gives
        exact continues.trans_nil (continues_transposeUse continues.trims.coherent gives)
      refine continues.trans_nil (continues.trims.coherent.continues_remove ?_ removes)
      exact isTerminator_of_opcode? (continues.trims.opcode?_kept isGep rfl) rfl

theorem gives_variablesOf
    {operands : List (Option Ref)}
    {found : List Ref}
    (gives : Gives (variablesOf operands) store found left) :
    left = store ∧
      ∀ root ∈ found, ∃ pointer, some pointer ∈ operands ∧ store.PointsTo root pointer := by
  induction operands generalizing found left with
  | nil =>
      obtain ⟨rfl, unchanged⟩ := gives_pure_iff.1 gives
      exact ⟨unchanged, fun _ none => by cases none⟩
  | cons operand rest induction =>
      obtain ⟨answer, _, traced, gives⟩ := gives_bind_iff.1 gives
      obtain ⟨unchanged, roots, -⟩ := gives_pointerVariable? traced
      rw [unchanged] at gives
      obtain ⟨others, _, gathered, returned⟩ := gives_bind_iff.1 gives
      obtain ⟨unchanged, others⟩ := induction gathered
      obtain ⟨rfl, unchanged'⟩ := gives_pure_iff.1 returned
      refine ⟨unchanged'.trans unchanged, List.forall_mem_append.2 ⟨fun root member => ?_, ?_⟩⟩
      · obtain ⟨-, pointer, rfl, points⟩ := roots root (Option.mem_toList.1 member)
        exact ⟨pointer, List.mem_cons_self, points⟩
      · intro root member
        obtain ⟨pointer, listed, points⟩ := others root member
        exact ⟨pointer, List.mem_cons_of_mem _ listed, points⟩

/-- A variable escapes where an instruction that is no plain access has a pointer to it. -/
theorem gives_escaping {refs found : List Ref} (gives : Gives (escaping refs) store found left) :
    left = store ∧ ∀ root ∈ found, ∃ user ∈ refs, ∃ pointer,
      (store.opcode? user).any (!isPlainAccess ·) = true ∧ some pointer ∈ store.operands user ∧
        store.PointsTo root pointer := by
  induction refs generalizing found left with
  | nil =>
      obtain ⟨rfl, unchanged⟩ := gives_pure_iff.1 gives
      exact ⟨unchanged, fun _ none => by cases none⟩
  | cons ref rest induction =>
      obtain ⟨entry, present, gives⟩ := gives_instruction_bind_iff.1 gives
      have later {own found : List Ref} {left : Store}
          (gives : Gives (do return own ++ (← escaping rest)) store found left)
          (mine : ∀ root ∈ own, ∃ pointer, isPlainAccess entry.opcode = false ∧
            some pointer ∈ entry.values ∧ store.PointsTo root pointer) :
          left = store ∧ ∀ root ∈ found, ∃ user ∈ ref :: rest, ∃ pointer,
            (store.opcode? user).any (!isPlainAccess ·) = true ∧
              some pointer ∈ store.operands user ∧ store.PointsTo root pointer := by
        obtain ⟨others, _, gathered, returned⟩ := gives_bind_iff.1 gives
        obtain ⟨unchanged, others⟩ := induction gathered
        obtain ⟨rfl, unchanged'⟩ := gives_pure_iff.1 returned
        refine ⟨unchanged'.trans unchanged, List.forall_mem_append.2 ⟨?_, ?_⟩⟩
        · intro root member
          obtain ⟨pointer, notPlain, operand, points⟩ := mine root member
          refine ⟨ref, List.mem_cons_self, pointer, ?_, ?_, points⟩
          · simp [Store.opcode?, present, notPlain]
          · simpa [Store.operands, present] using operand
        · intro root member
          obtain ⟨user, listed, rest⟩ := others root member
          exact ⟨user, List.mem_cons_of_mem _ listed, rest⟩
      dsimp only at gives
      split at gives
      · obtain ⟨_, _, given, gives⟩ := gives_bind_iff.1 gives
        obtain ⟨rfl, unchanged⟩ := gives_pure_iff.1 given
        rw [unchanged] at gives
        exact later gives fun _ none => by cases none
      · rename_i notPlain
        obtain ⟨_, _, gathered, gives⟩ := gives_bind_iff.1 gives
        obtain ⟨unchanged, mine⟩ := gives_variablesOf gathered
        rw [unchanged] at gives
        refine later gives fun root member => ?_
        obtain ⟨pointer, operand, points⟩ := mine root member
        exact ⟨pointer, by simpa using notPlain, operand, points⟩

theorem continues_transpose
    (coherent : store.Coherent)
    {report : Transposition}
    (gives : Gives (transpose function) store report left) :
    store.Continues [] left := by
  obtain ⟨flattening, middle, flattened, gives⟩ := gives_bind_iff.1 gives
  have continues := continues_flatten coherent flattened
  replace gives := gives_see_bind_iff.1 gives
  obtain ⟨excluded, _, escapes, gives⟩ := gives_bind_iff.1 gives
  rw [(gives_escaping escapes).1] at gives
  replace gives := gives_see_bind_iff.1 gives
  refine gives.foldlM (fun _ left => store.Continues [] left) continues ?_
  intro gep member _ between _ left continues' gives
  have isGep := (List.mem_filter.1 member).2
  rw [Bool.and_eq_true] at isGep
  have isGep := continues.trims.of_isGep isGep.1
  have isGep := continues'.trims.opcode?_kept (isGep_iff.1 isGep) rfl
  exact continues'.trans_nil (continues_transposeOne continues'.trims.coherent isGep gives)

end Pass

end ShaderIR

/-!
## Transposing narrows control flow whenever it answers

When transposing comes to an end it has kept control where it moved before.  Nothing has to
be said about bases that run in a circle: they would keep it from answering.
-/

namespace ShaderIR

open Store Edit

namespace Pass

variable {origin store left : Store} {function gep : Ref} {geps : List Ref} {module : Nat}

/-- An element reference is left with a root that is no element reference. -/
theorem Flattened.traces
    (flattened : Flattened origin function geps store)
    (isGep : store.isGep gep = true)
    {traced : Bool}
    (gives : Gives (traceBase gep) store traced left) :
    Flattened origin function geps left ∧
      ∀ root, (left.operands gep).head? = some (some root) → left.isGep root = false := by
  replace gives := gives_see_bind_iff.1 gives
  obtain ⟨base, head, gives⟩ := gives_demand_bind_iff.1 gives
  replace gives := gives_see_bind_iff.1 gives
  split at gives
  · obtain ⟨path, _, followed, gives⟩ := gives_bind_iff.1 gives
    obtain ⟨unchanged, roots, -⟩ := gives_elementPath followed
    rw [unchanged] at gives
    obtain ⟨_, _, changes, returned⟩ := gives_bind_iff.1 gives
    obtain ⟨-, rfl⟩ := gives_pure_iff.1 returned
    obtain ⟨flattened, head', notGep⟩ :=
      flattened.rebases isGep (fun root found => (roots root found).1) changes
    exact ⟨flattened, fun root found => notGep root (Option.some.inj (head'.symm.trans found))⟩
  · rename_i notGep
    obtain ⟨-, rfl⟩ := gives_pure_iff.1 gives
    refine ⟨flattened, fun root found => ?_⟩
    obtain rfl := Option.some.inj (head.symm.trans found)
    simpa using notGep

theorem reshaped_flatten
    {report : Flattening}
    (coherent : store.Coherent)
    (accepted : store.validate? module = some [])
    (listed : function ∈ store.functions module)
    (gives : Gives (flatten function) store report left) :
    Reshaped store function left := by
  have start := Flattened.start coherent accepted listed
  replace gives := gives_see_bind_iff.1 gives
  refine (gives.foldlM (fun _ left => Flattened store function
    ((store.traverse function).filter store.isGep) left) start ?_).toReshaped
  intro gep member _ between _ left flattened gives
  have isGep := isGep_iff.1 (List.mem_filter.1 member).2
  have isGep := isGep_iff.2 (flattened.narrows.trims.opcode?_kept isGep rfl)
  obtain ⟨_, middle, traces, gives⟩ := gives_bind_iff.1 gives
  obtain ⟨_, last, shortens, returned⟩ := gives_bind_iff.1 gives
  obtain ⟨-, rfl⟩ := gives_pure_iff.1 returned
  obtain ⟨flattened, notGep⟩ := flattened.traces isGep traces
  exact (ensures_removeTrivial flattened member notGep).2 _ _ shortens

theorem Reshaped.transposes
    (reshaped : Reshaped origin function store)
    {excluded : List Ref}
    {report report' : Transposition}
    (gives : Gives (transposeOne excluded report gep) store report' left) :
    Reshaped origin function left := by
  replace gives := gives_see_bind_iff.1 gives
  obtain ⟨answer, _, traced, gives⟩ := gives_bind_iff.1 gives
  rw [(gives_pointerVariable? traced).1] at gives
  split at gives
  · obtain ⟨-, rfl⟩ := gives_pure_iff.1 gives
    exact reshaped
  · split at gives
    · obtain ⟨-, rfl⟩ := gives_pure_iff.1 gives
      exact reshaped
    · replace gives := gives_see_bind_iff.1 gives
      obtain ⟨_, between, rewritten, gives⟩ := gives_bind_iff.1 gives
      obtain ⟨_, _, removes, returned⟩ := gives_bind_iff.1 gives
      obtain ⟨-, rfl⟩ := gives_pure_iff.1 returned
      have reshaped : Reshaped origin function between :=
        rewritten.foldlM (fun _ left => Reshaped origin function left) reshaped
          fun use _ _ _ _ _ reshaped gives =>
            (ensures_transposeUse reshaped _ _ _ _ use).2 _ _ gives
      exact reshaped.removes removes

theorem reshaped_transpose
    {report : Transposition}
    (coherent : store.Coherent)
    (accepted : store.validate? module = some [])
    (listed : function ∈ store.functions module)
    (gives : Gives (transpose function) store report left) :
    Reshaped store function left := by
  obtain ⟨flattening, middle, flattens, gives⟩ := gives_bind_iff.1 gives
  have reshaped := reshaped_flatten coherent accepted listed flattens
  replace gives := gives_see_bind_iff.1 gives
  obtain ⟨excluded, _, escapes, gives⟩ := gives_bind_iff.1 gives
  rw [(gives_escaping escapes).1] at gives
  replace gives := gives_see_bind_iff.1 gives
  exact gives.foldlM (fun _ left => Reshaped store function left) reshaped
    fun gep _ _ _ _ _ reshaped gives => reshaped.transposes gives

end Pass

end ShaderIR
