import ShaderIR.Proofs.Promotion.Leveling
import ShaderIR.Proofs.Promotion.Transposing

/-!
# Transposing dissolves the element references into a variable

After flattening, all element references into a variable that is only addressed are based
on it.  Transposing rewrites each read and each write through one of them, and unlinks
the reference when it is done.  Rewriting uses of one reference gives no other reference
further uses, so nothing points to the variable in the end but the variable itself.
-/

namespace ShaderIR

open Store Edit

namespace Pass

/--
Accesses through an element reference are rewritten: element references stay where they
are, those based on the variable stay so, and none of them gets another user.
-/
structure Reworks (origin : Store) (function address : Ref) (store left : Store) : Prop where
  reshaped : Reshaped origin function left
  accessible : origin.Accessible function address left
  trims : store.Trims left
  geps : ∀ {gep}, store.isGep gep = true → left.blockOf? gep = store.blockOf? gep
  leads : ∀ {gep}, store.Leads gep address → left.Leads gep address
  users : ∀ {pointer user}, store.PointsTo address pointer → pointer ≠ address →
    (left.blockOf? user).isSome → some pointer ∈ left.operands user →
    (store.blockOf? user).isSome ∧ some pointer ∈ store.operands user

variable {origin store left last : Store} {function address user gep root : Ref}

namespace Reworks

theorem refl
    (reshaped : Reshaped origin function store)
    (accessible : origin.Accessible function address store) :
    Reworks origin function address store store where
  reshaped := reshaped
  accessible := accessible
  trims := .refl reshaped.narrows.trims.coherent
  geps := fun _ => rfl
  leads := fun leads => leads
  users := fun _ _ linked operand => ⟨linked, operand⟩

theorem pointsTo_iff
    (reworks : Reworks origin function address store left)
    (accessible : origin.Accessible function address store)
    {pointer : Ref} :
    left.PointsTo address pointer ↔ store.PointsTo address pointer :=
  (reworks.accessible.pointers pointer).trans (accessible.pointers pointer).symm

theorem trans
    (reworks : Reworks origin function address store left)
    (reworks' : Reworks origin function address left last)
    (accessible : origin.Accessible function address store) :
    Reworks origin function address store last where
  reshaped := reworks'.reshaped
  accessible := reworks'.accessible
  trims := reworks.trims.trans reworks'.trims
  geps := by
    intro gep isGep
    have isGep' := reworks.trims.opcode?_kept (isGep_iff.1 isGep) rfl
    rw [reworks'.geps (isGep_iff.2 isGep'), reworks.geps isGep]
  leads := fun leads => reworks'.leads (reworks.leads leads)
  users := by
    intro pointer user points different linked operand
    have points' := (reworks.pointsTo_iff accessible).2 points
    obtain ⟨linked, operand⟩ := reworks'.users points' different linked operand
    exact reworks.users points different linked operand

end Reworks

section Steps

variable (reshaped : Reshaped origin function store)
  (accessible : origin.Accessible function address store)

include reshaped accessible

/-- Building a read or a write of the variable, or what has no pointer to it. -/
theorem reworks_emit
    {cursor moved : Cursor}
    {block new : Ref}
    {opcode : Opcode}
    {type : Option Ty}
    {operands : List (Option Ref)}
    (isOpen : cursor.Open origin function store)
    (atBlock : cursor.block = some block)
    (yields : Build.Yields (Build.emit opcode type operands) cursor store new moved left)
    (plain : opcode.isTerminator = false ∧ opcode.isLValue = false)
    (stored : opcode = .store → ∀ value, operands[1]? = some (some value) →
      ∃ opcode, store.opcode? value = some opcode ∧ opcode ≠ .load)
    (clean : ∀ {pointer}, store.PointsTo address pointer → some pointer ∈ operands →
      pointer = address ∧ origin.Reached function block ∧ (opcode = .load ∨ opcode = .store) ∧
        operands.head? = some (some address) ∧ some address ∉ operands.tail) :
    Reworks origin function address store left ∧ moved.Open origin function left ∧
      moved.block = some block ∧ left.opcode? new = some opcode ∧
      ∀ {ref}, (store.value? ref).isSome → left.instruction? ref = store.instruction? ref := by
  have coherent := reshaped.narrows.trims.coherent
  obtain ⟨reshaped, isOpen', isNew⟩ := reshaped.emits isOpen yields plain stored
  obtain ⟨block, entry, atBlock', moves, rfl, rfl, receives⟩ :=
    Build.receives_emit coherent isOpen.stands (Opcode.nodup_caseValues plain.1) yields
  obtain rfl := Option.some.inj (atBlock.symm.trans atBlock')
  refine ⟨⟨reshaped, accessible.receives receives plain.1 plain.2 clean,
    receives.trims plain.1 plain.2, ?_, ?_, ?_⟩, isOpen', by rw [moves, atBlock],
    isNew, fun present => receives.instruction?_old (receives.ne_new present)⟩
  · intro gep isGep
    exact receives.blockOf?_old (receives.ne_new (value?_isSome_of_isGep isGep))
  · intro gep leads
    have old := receives.ne_new (value?_isSome_of_isGep leads.isGep)
    refine ⟨?_, by rw [receives.operands_old old, leads.head]⟩
    rw [isGep, receives.opcode?_old old]
    exact leads.isGep
  · intro pointer user points different linked operand
    by_cases atNew : user = new
    · subst atNew
      rw [receives.operands_new] at operand
      exact absurd (clean points operand).1 different
    · rw [receives.blockOf?_old atNew] at linked
      rw [receives.operands_old atNew] at operand
      exact ⟨linked, operand⟩

/-- Taking out an instruction that is no element reference. -/
theorem reworks_remove
    {ref : Ref}
    {answer : Unit}
    (notPointer : ¬store.PointsTo address ref)
    (notGep : store.isGep ref = false)
    (gives : Gives (remove ref) store answer left) :
    Reworks origin function address store left ∧ left.blockOf? ref = none := by
  obtain ⟨takes, trims⟩ := reshaped.narrows.trims.coherent.removes gives
  have kept {other : Ref} (different : other ≠ ref) : other ∉ [ref] := by simpa using different
  have accessible' := accessible.takes takes trims
    (kept fun same => notPointer (same ▸ .refl store address)) fun pointer gone points => by
      rw [List.mem_singleton.1 gone] at points
      exact absurd points notPointer
  refine ⟨⟨reshaped.removes gives, accessible', trims, ?_, ?_, ?_⟩, ?_⟩
  · intro gep isGep
    refine takes.blockOf?_kept (kept ?_)
    rintro rfl
    rw [isGep] at notGep
    cases notGep
  · rintro gep ⟨isGep, head⟩
    exact ⟨by rwa [Store.isGep, takes.opcode?], by rw [takes.operands, head]⟩
  · intro pointer user _ _ linked operand
    obtain ⟨block, atBlock⟩ := Option.isSome_iff_exists.1 linked
    rw [takes.operands] at operand
    exact ⟨Option.isSome_of_eq_some (takes.blockOf?_eq_some_iff.1 atBlock).1, operand⟩
  · exact takes.blockOf?_taken (List.mem_singleton_self ref)

/-- Replacing a value that is no location by one that is neither a location nor a read. -/
theorem reworks_replaceUses
    {old new : Ref}
    {opcode opcode' : Opcode}
    {answer : Unit}
    (found : store.opcode? old = some opcode)
    (notLValue : opcode.isLValue = false)
    (found' : store.opcode? new = some opcode')
    (notLValue' : opcode'.isLValue = false)
    (notLoad : opcode' ≠ .load)
    (gives : Gives (replaceUses old (some new)) store answer left) :
    Reworks origin function address store left := by
  have repoints := reshaped.narrows.trims.coherent.repoints_replaceUses gives
  have notOld := (accessible.not_pointsTo_of_opcode? found notLValue).2
  obtain ⟨notGep, notNew⟩ := accessible.not_pointsTo_of_opcode? found' notLValue'
  have accessible' := accessible.replaces repoints fun points =>
    (points.elim notNew notOld).elim
  have different : address ≠ old := fun same => notOld (same ▸ .refl store address)
  refine ⟨reshaped.replaces (isBlock_of_opcode? found') notGep
    (fun isLoad => notLoad (Option.some.inj (found'.symm.trans isLoad))) gives, accessible',
    repoints.trims, fun _ => repoints.blockOf? _, ?_, ?_⟩
  · rintro gep ⟨isGep, head⟩
    refine ⟨isGep_iff.2 (repoints.trims.opcode?_kept (isGep_iff.1 isGep) rfl), ?_⟩
    rw [repoints.operands]
    split
    · rw [List.head?_map, head, Option.map_some, replaced,
        if_neg fun same => different (Option.some.inj same)]
    · exact head
  · intro pointer user points _ linked operand
    rw [repoints.blockOf?] at linked
    rw [repoints.operands, if_pos linked, some_mem_map_replaced] at operand
    rcases operand with ⟨operand, -⟩ | ⟨-, rfl⟩
    · exact ⟨linked, operand⟩
    · exact absurd points notNew

end Steps

/-! ## One access -/

theorem reworks_transposeUse
    {indices : List (Option Ref)}
    {report report' : Transposition}
    {use : Use}
    (reshaped : Reshaped origin function store)
    (accessible : origin.Accessible function address store)
    (isLocal : store.isLocalVariable root = true)
    (home : ∀ {block}, root = address → store.blockOf? use.user = some block →
      origin.Reached function block)
    (clean : ∀ {pointer}, store.PointsTo address pointer → some pointer ∉ indices)
    (gives : Gives (transposeUse root gep indices report use) store report' left) :
    Reworks origin function address store left ∧ left.blockOf? use.user = none := by
  have isAddress {middle : Store} (accessible' : origin.Accessible function address middle)
      {pointer : Ref} (points : middle.PointsTo address pointer) (same : pointer = root) :
      pointer = address := by
    by_contra different
    have points' := (accessible.pointers _).2 ((accessible'.pointers _).1 points)
    have isGep := points'.isGep different
    rw [same, isGep_iff, isLocalVariable_iff.1 isLocal] at isGep
    cases isGep
  unfold transposeUse at gives
  obtain ⟨entry, found, gives⟩ := gives_instruction_bind_iff.1 gives
  have opcode : store.opcode? use.user = some entry.opcode := by simp [Store.opcode?, found]
  replace gives := gives_see_bind_iff.1 gives
  split at gives
  · rename_i isLoad
    rw [isLoad] at opcode
    obtain ⟨element, between, reads, gives⟩ := gives_bind_iff.1 gives
    obtain ⟨_, middle, replaces, gives⟩ := gives_bind_iff.1 gives
    obtain ⟨_, _, removes, returned⟩ := gives_bind_iff.1 gives
    obtain ⟨-, rfl⟩ := gives_pure_iff.1 returned
    obtain ⟨block, whole, _, _, _, linked, read, _, extracted⟩ := emits_of_readElement reads
    obtain ⟨first, isOpen, atBlock, isWhole, -⟩ := reworks_emit reshaped accessible
      (reshaped.open_before linked) rfl read ⟨rfl, rfl⟩ (by simp) fun {pointer} points operand => by
        obtain rfl := Option.some.inj (List.mem_singleton.1 operand)
        obtain rfl := isAddress accessible points rfl
        exact ⟨rfl, home rfl linked, .inl rfl, rfl, by simp⟩
    obtain ⟨second, -, -, isElement, -⟩ := reworks_emit first.reshaped first.accessible isOpen
      atBlock extracted ⟨rfl, rfl⟩ (by simp) fun {pointer} points operand => by
        rcases List.mem_cons.1 operand with same | member
        · rw [Option.some.inj same] at points
          exact absurd points (first.accessible.not_pointsTo_of_opcode? isWhole rfl).2
        · exact absurd member (clean ((first.pointsTo_iff accessible).1 points))
    have built := first.trans second accessible
    have opcode := built.trims.opcode?_kept opcode rfl
    have third := reworks_replaceUses built.reshaped built.accessible opcode rfl isElement rfl
      (by simp) replaces
    have opcode := third.trims.opcode?_kept opcode rfl
    obtain ⟨notGep, notPointer⟩ := third.accessible.not_pointsTo_of_opcode? opcode rfl
    obtain ⟨fourth, unlinked⟩ := reworks_remove third.reshaped third.accessible notPointer notGep
      removes
    exact ⟨(built.trans third accessible).trans fourth accessible, unlinked⟩
  · rename_i isStore
    rw [isStore] at opcode
    obtain ⟨held, _, given, gives⟩ := gives_bind_iff.1 gives
    rw [(gives_operand_iff.1 given).2] at gives
    obtain ⟨_, _, given, gives⟩ := gives_bind_iff.1 gives
    rw [(gives_require_iff.1 given).2] at gives
    obtain ⟨written, between, writes, gives⟩ := gives_bind_iff.1 gives
    obtain ⟨_, _, removes, returned⟩ := gives_bind_iff.1 gives
    obtain ⟨-, rfl⟩ := gives_pure_iff.1 returned
    obtain ⟨block, whole, _, _, stored, entry', changed, _, _, _, linked, read, found', held',
      ⟨_, inserted⟩, written⟩ := emits_of_writeElement writes
    obtain ⟨first, isOpen, atBlock, isWhole, kept⟩ := reworks_emit reshaped accessible
      (reshaped.open_before linked) rfl read ⟨rfl, rfl⟩ (by simp) fun {pointer} points operand => by
        obtain rfl := Option.some.inj (List.mem_singleton.1 operand)
        obtain rfl := isAddress accessible points rfl
        exact ⟨rfl, home rfl linked, .inl rfl, rfl, by simp⟩
    obtain ⟨second, isOpen, atBlock, isChanged, -⟩ := reworks_emit first.reshaped first.accessible
      isOpen atBlock inserted ⟨rfl, rfl⟩ (by simp) fun {pointer} points operand => by
        have points' := (first.pointsTo_iff accessible).1 points
        rcases List.mem_cons.1 operand with same | member
        · rw [Option.some.inj same] at points
          exact absurd points (first.accessible.not_pointsTo_of_opcode? isWhole rfl).2
        rcases List.mem_cons.1 member with same | member
        · rw [kept (value?_isSome_of_instruction? found)] at found'
          have second : (store.operands use.user).tail[0]? = some (some pointer) := by
            rw [List.getElem?_tail, getElem?_operands found', held', same]
          have only := accessible.clean (Option.isSome_of_eq_some linked) points'
          exact absurd (List.mem_of_getElem? second) only
        · exact absurd member (clean points')
    have built := first.trans second accessible
    obtain ⟨third, -⟩ := reworks_emit built.reshaped built.accessible isOpen atBlock written
      ⟨rfl, rfl⟩ (fun _ value held => by
        obtain rfl := Option.some.inj (Option.some.inj held)
        exact ⟨_, isChanged, by simp⟩) fun {pointer} points operand => by
        have notChanged := (built.accessible.not_pointsTo_of_opcode? isChanged rfl).2
        rcases List.mem_cons.1 operand with same | member
        · obtain rfl := Option.some.inj same
          obtain rfl := isAddress built.accessible points rfl
          refine ⟨rfl, home rfl linked, .inr rfl, rfl, fun member => notChanged ?_⟩
          rwa [← Option.some.inj (List.mem_singleton.1 member)]
        · rw [Option.some.inj (List.mem_singleton.1 member)] at points
          exact absurd points notChanged
    have built := built.trans third accessible
    have opcode := built.trims.opcode?_kept opcode rfl
    obtain ⟨notGep, notPointer⟩ := built.accessible.not_pointsTo_of_opcode? opcode rfl
    obtain ⟨fourth, unlinked⟩ := reworks_remove built.reshaped built.accessible notPointer notGep
      removes
    exact ⟨built.trans fourth accessible, unlinked⟩
  · exact absurd gives not_gives_violate

/-- When all accesses through an element reference are rewritten, none is left. -/
theorem reworks_transposeUses
    {indices : List (Option Ref)}
    {report report' : Transposition}
    (reshaped : Reshaped origin function store)
    (accessible : origin.Accessible function address store)
    (isLocal : store.isLocalVariable root = true)
    (based : root = address → store.PointsTo address gep)
    (clean : ∀ {pointer}, store.PointsTo address pointer → some pointer ∉ indices)
    (gives : Gives ((store.usesOf gep).foldlM (transposeUse root gep indices) report) store report'
      left) :
    Reworks origin function address store left ∧
      (store.PointsTo address gep → gep ≠ address →
        ∀ {user}, (left.blockOf? user).isSome → some gep ∉ left.operands user) := by
  have coherent := reshaped.narrows.trims.coherent
  obtain ⟨-, reworks, unused⟩ := gives.foldlM_rest
    (fun rest _ middle => (∀ use ∈ rest, use ∈ store.usesOf gep) ∧
      Reworks origin function address store middle ∧
      (store.PointsTo address gep → gep ≠ address → ∀ {user}, (middle.blockOf? user).isSome →
        some gep ∈ middle.operands user → ∃ use ∈ rest, use.user = user))
    ⟨fun _ member => member, .refl reshaped accessible,
      fun _ _ _ linked operand => coherent.exists_use_iff.2 ⟨linked, operand⟩⟩ (by
    rintro use rest _ middle _ left ⟨uses, reworks, unused⟩ gives
    obtain ⟨here, uses⟩ := List.forall_mem_cons.1 uses
    obtain ⟨linked, operand⟩ := coherent.exists_use_iff.1 ⟨use, here, rfl⟩
    have isLocal' := reworks.trims.opcode?_kept (isLocalVariable_iff.1 isLocal) rfl
    obtain ⟨reworks', unlinked⟩ := reworks_transposeUse reworks.reshaped reworks.accessible
      (isLocalVariable_iff.2 isLocal') (fun same atBlock => by
        have atBlock := reworks.trims.linked (value?_isSome_of_blockOf? linked) atBlock
        exact (accessible.used (based same) linked operand).reached atBlock)
      (fun points => clean ((reworks.pointsTo_iff accessible).1 points)) gives
    refine ⟨uses, reworks.trans reworks' accessible, fun points different user stays operand => ?_⟩
    have points' := (reworks.pointsTo_iff accessible).2 points
    obtain ⟨linked', operand⟩ := reworks'.users points' different stays operand
    obtain ⟨use', member, rfl⟩ := unused points different linked' operand
    rcases List.mem_cons.1 member with rfl | member
    · rw [unlinked] at stays
      cases stays
    · exact ⟨use', member, rfl⟩)
  refine ⟨reworks, fun points different user linked operand => ?_⟩
  obtain ⟨use, none, -⟩ := unused points different linked operand
  cases none

/-! ## One element reference after the other -/

/-- While transposing, linked element references that point to a variable are still to come. -/
structure Dissolved (origin : Store) (function address : Ref) (rest : List Ref) (store : Store) :
    Prop where
  reshaped : Reshaped origin function store
  accessible : origin.Accessible function address store
  linked : ∀ gep ∈ rest, store.isGep gep = true ∧ (store.blockOf? gep).isSome
  pending : ∀ {gep}, store.PointsTo address gep → gep ≠ address → (store.blockOf? gep).isSome →
    gep ∈ rest ∧ store.Leads gep address

theorem Dissolved.transposes
    {rest excluded : List Ref}
    {report report' : Transposition}
    (dissolved : Dissolved origin function address (gep :: rest) store)
    (apart : gep ∉ rest)
    (included : address ∉ excluded)
    (gives : Gives (transposeOne excluded report gep) store report' left) :
    Dissolved origin function address rest left := by
  obtain ⟨reshaped, accessible, awaiting, pending⟩ := dissolved
  obtain ⟨⟨isGep, isLinked⟩, later⟩ := List.forall_mem_cons.1 awaiting
  have different : gep ≠ address := by
    rintro rfl
    rw [accessible.notGep] at isGep
    cases isGep
  have elsewhere (foreign : ¬store.PointsTo address gep) :
      Dissolved origin function address rest store := by
    refine ⟨reshaped, accessible, later, fun {other} points different linked => ?_⟩
    obtain ⟨member, leads⟩ := pending points different linked
    refine ⟨(List.mem_cons.1 member).resolve_left ?_, leads⟩
    rintro rfl
    exact foreign points
  replace gives := gives_see_bind_iff.1 gives
  obtain ⟨answer, _, traced, gives⟩ := gives_bind_iff.1 gives
  obtain ⟨unchanged, roots, complete⟩ := gives_pointerVariable? traced
  rw [unchanged] at gives
  have found (points : store.PointsTo address gep) : answer = some address :=
    complete address gep (isLocalVariable_iff.2 accessible.isLocal) rfl points
  split at gives
  · obtain ⟨-, rfl⟩ := gives_pure_iff.1 gives
    exact elsewhere fun points => by cases found points
  · rename_i root
    obtain ⟨isLocal, -⟩ := roots root rfl
    split at gives
    · rename_i refused
      obtain ⟨-, rfl⟩ := gives_pure_iff.1 gives
      refine elsewhere fun points => ?_
      obtain rfl := Option.some.inj (found points)
      have head := (pending points different isLinked).2.head
      simp [included, head] at refused
    · rename_i accepted
      have leads : store.Leads gep root := by
        refine ⟨isGep, ?_⟩
        simp only [Bool.or_eq_true, bne_iff_ne, not_or, ne_eq, not_not] at accepted
        exact accepted.2
      replace gives := gives_see_bind_iff.1 gives
      obtain ⟨_, middle, rewritten, gives⟩ := gives_bind_iff.1 gives
      obtain ⟨_, _, removes, returned⟩ := gives_bind_iff.1 gives
      obtain ⟨-, rfl⟩ := gives_pure_iff.1 returned
      obtain ⟨reworks, unused⟩ := reworks_transposeUses reshaped accessible isLocal
        (fun same => .head leads (same ▸ .refl store root))
        (fun points => accessible.clean isLinked points) rewritten
      obtain ⟨takes, trims⟩ := reworks.reshaped.narrows.trims.coherent.removes removes
      have kept {other : Ref} (different : other ≠ gep) : other ∉ [gep] := by simpa using different
      have accessible' := reworks.accessible.takes takes trims (kept different.symm)
        fun pointer gone points user linked => by
          obtain rfl := List.mem_singleton.1 gone
          have wasLinked := linked_of_takes takes linked
          exact unused ((reworks.pointsTo_iff accessible).1 points) different wasLinked
      refine ⟨reworks.reshaped.removes removes, accessible', fun other member => ?_, ?_⟩
      · obtain ⟨isGep', linked⟩ := later other member
        have isGep'' := reworks.trims.opcode?_kept (isGep_iff.1 isGep') rfl
        refine ⟨isGep_iff.2 (trims.opcode?_kept isGep'' rfl), ?_⟩
        rw [takes.blockOf?_kept (kept ?_), reworks.geps isGep']
        · exact linked
        · rintro rfl
          exact apart member
      · intro other points different' linked
        have points := (accessible.pointers _).2 ((accessible'.pointers _).1 points)
        have isHere : other ≠ gep := by
          rintro rfl
          rw [takes.blockOf?_taken (List.mem_singleton_self other)] at linked
          cases linked
        rw [takes.blockOf?_kept (kept isHere), reworks.geps (points.isGep different')] at linked
        obtain ⟨member, leads⟩ := pending points different' linked
        obtain ⟨isGep', head⟩ := reworks.leads leads
        refine ⟨(List.mem_cons.1 member).resolve_left isHere, ?_, ?_⟩
        · rwa [Store.isGep, takes.opcode?]
        · rw [takes.operands, head]

/-- An instruction that has a pointer to a variable which is only addressed is a plain access. -/
theorem not_mem_of_gives_escaping
    {excluded : List Ref}
    (coherent : store.Coherent)
    (accessible : origin.Accessible function address store)
    (gives : Gives (escaping (store.traverse function)) store excluded left) :
    left = store ∧ address ∉ excluded := by
  obtain ⟨unchanged, escapes⟩ := gives_escaping gives
  refine ⟨unchanged, fun member => ?_⟩
  obtain ⟨user, listed, pointer, notPlain, operand, points⟩ := escapes address member
  obtain ⟨block, -, listed⟩ := coherent.mem_traverse_iff.1 listed
  have linked := Option.isSome_of_eq_some ((coherent.mem_members block user).1 listed)
  rcases (accessible.used points linked operand).kind with found | found | found <;>
    simp [found, isPlainAccess] at notPlain

/-- Transposing leaves a variable that is only addressed without element references into it. -/
theorem dissolved_transpose
    {module : Nat}
    {report : Transposition}
    (coherent : store.Coherent)
    (accepted : store.validate? module = some [])
    (listed : function ∈ store.functions module)
    (attached : store.Attached)
    (accessible : store.Accessible function address store)
    (gives : Gives (transpose function) store report left) :
    Dissolved store function address [] left := by
  obtain ⟨flattening, middle, flattens, gives⟩ := gives_bind_iff.1 gives
  have leveled := leveled_flatten coherent accepted listed attached accessible flattens
  have coherent' := leveled.narrows.trims.coherent
  replace gives := gives_see_bind_iff.1 gives
  obtain ⟨excluded, _, escapes, gives⟩ := gives_bind_iff.1 gives
  obtain ⟨unchanged, included⟩ := not_mem_of_gives_escaping coherent' leveled.accessible escapes
  rw [unchanged] at gives
  have confined := Validation.confined_of_validate coherent accepted listed
  have start : Dissolved store function address ((middle.traverse function).filter fun ref =>
      middle.isGep ref && decide (1 < (middle.operands ref).length)) middle := by
    refine ⟨leveled.toReshaped, leveled.accessible, fun gep member => ?_,
      fun {gep} points different linked => ?_⟩
    · obtain ⟨member, isGep⟩ := List.mem_filter.1 member
      rw [Bool.and_eq_true] at isGep
      obtain ⟨block, -, member⟩ := coherent'.mem_traverse_iff.1 member
      exact ⟨isGep.1, Option.isSome_of_eq_some ((coherent'.mem_members block gep).1 member)⟩
    · have indexes := (leveled.level points different linked).resolve_left List.not_mem_nil
      obtain ⟨block, atBlock⟩ := Option.isSome_iff_exists.1 linked
      have reached := (leveled.accessible.used (.refl middle address) linked indexes.mem).reached
        atBlock
      have reached := (continues_flatten coherent flattens).reached coherent
        (leveled.narrows.confined confined) reached
      refine ⟨List.mem_filter.2 ⟨coherent'.mem_traverse_iff.2
        ⟨block, reached, (coherent'.mem_members block gep).2 atBlock⟩, ?_⟩, indexes.toLeads⟩
      rw [indexes.isGep, decide_eq_true indexes.indices]
      rfl
  have whole := (coherent'.nodup_traverse function).filter fun ref =>
    middle.isGep ref && decide (1 < (middle.operands ref).length)
  refine ((gives_see_bind_iff.1 gives).foldlM_rest (fun rest _ left =>
    rest.Nodup ∧ Dissolved store function address rest left) ⟨whole, start⟩ ?_).2
  rintro gep rest _ _ _ _ ⟨distinct, dissolved⟩ gives
  obtain ⟨apart, distinct⟩ := List.nodup_cons.1 distinct
  exact ⟨distinct, dissolved.transposes apart included gives⟩

end Pass

end ShaderIR
