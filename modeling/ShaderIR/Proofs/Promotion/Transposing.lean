import ShaderIR.Proofs.Coherence.Report
import ShaderIR.Proofs.Promotion.Flattening
import ShaderIR.Pass.Transposition

/-!
# Transposing comes to an end

Transposing follows bases to find out which variables it may rewrite.  Then it
builds reads, element accesses and writes in front of the accesses that it takes
the place of, which keeps terminators at the ends of their blocks.
-/

namespace ShaderIR

open Store Edit

variable {origin store left : Store} {function : Ref} {module : Nat}

/-- A cursor that does not stand behind the end of a block. -/
structure Cursor.Open (cursor : Cursor) (origin : Store) (function : Ref) (store : Store) :
    Prop where
  stands : cursor.Stands store
  quiet : ∀ {block position}, cursor.block = some block → cursor.after = some position →
    origin.Reached function block → store.isTerminator position = false

/-- What stands in front of an instruction ends no block that has terminators at its end only. -/
theorem Store.Coherent.not_isTerminator_previous?
    (coherent : store.Coherent)
    {user block position : Ref}
    (linked : store.blockOf? user = some block)
    (ended : (store.instructions block).Pairwise fun ref _ => store.isTerminator ref = false)
    (previous : store.previous? user = some position) :
    store.isTerminator position = false := by
  obtain ⟨before, rest, split⟩ := List.append_of_mem ((coherent.mem_members block user).2 linked)
  rw [(coherent.chained block before user rest split).1] at previous
  rw [split, List.pairwise_append] at ended
  exact ended.2.2 position (List.mem_of_getLast? previous) user List.mem_cons_self

theorem Opcode.nodup_caseValues {opcode : Opcode} (notTerminator : opcode.isTerminator = false) :
    opcode.caseValues.Nodup := by
  cases opcode <;> simp_all [caseValues, isTerminator]

namespace Build

variable {new : Ref} {opcode : Opcode} {type : Option Ty} {cursor moved : Cursor}

theorem yields_moveBefore
    {user : Ref}
    {answer : Unit}
    (yields : Yields (moveBefore (some user)) cursor store answer moved left) :
    left = store ∧ ∃ block, store.blockOf? user = some block ∧
      moved = { block := some block, after := store.previous? user } := by
  obtain ⟨found, between, located, rest⟩ := yields_lift_bind_iff.1 yields
  obtain ⟨same, linked, rfl⟩ := gives_linkedBlock_iff.1 located
  cases same
  obtain ⟨moves, unchanged⟩ := yields_set_iff.1 (yields_see_bind_iff.1 rest)
  exact ⟨unchanged, found.2, linked, moves⟩

/-! Building a read or a write builds an instruction once it is checked. -/

theorem yields_load
    {address : Option Ref}
    (yields : Yields (load type address) cursor store new moved left) :
    Yields (emit .load type [address]) cursor store new moved left := by
  simp only [load, yields_see_bind_iff, yields_require_bind_iff] at yields
  exact yields.2.2

theorem yields_store
    {address stored : Option Ref}
    (yields : Yields (Build.store address stored) cursor store new moved left) :
    Yields (emit .store none [address, stored]) cursor store new moved left := by
  simp only [Build.store, yields_see_bind_iff, yields_require_bind_iff] at yields
  exact yields.2.2

end Build

namespace Pass

variable {user gep root : Ref} {opcode : Opcode} {type : Option Ty} {operands : List (Option Ref)}
  {cursor moved : Cursor}

namespace Reshaped

/-- The position in front of a linked instruction is no end of a block. -/
theorem open_before
    (reshaped : Reshaped origin function store)
    {block : Ref}
    (linked : store.blockOf? user = some block) :
    ({ block := some block, after := store.previous? user } : Cursor).Open origin
      function store where
  stands := by
    rintro _ ⟨⟩
    exact reshaped.narrows.trims.coherent.isBlock_of_blockOf? linked
  quiet := by
    rintro _ position ⟨⟩ previous reached
    exact reshaped.narrows.trims.coherent.not_isTerminator_previous? linked
      (reshaped.narrows.ended reached) previous

/-- Building an instruction that neither ends a block nor names a location. -/
theorem emits
    (reshaped : Reshaped origin function store)
    (isOpen : cursor.Open origin function store)
    {new : Ref}
    (yields : Build.Yields (Build.emit opcode type operands) cursor store new moved left)
    (plain : opcode.isTerminator = false ∧ opcode.isLValue = false)
    (stored : opcode = .store → ∀ value, operands[1]? = some (some value) →
      ∃ opcode, store.opcode? value = some opcode ∧ opcode ≠ .load) :
    Reshaped origin function left ∧ moved.Open origin function left ∧
      left.opcode? new = some opcode := by
  obtain ⟨block, entry, atBlock, moves, rfl, rfl, receives⟩ :=
    Build.receives_emit reshaped.narrows.trims.coherent isOpen.stands
      (Opcode.nodup_caseValues plain.1) yields
  have trims := receives.trims plain.1 plain.2
  refine ⟨⟨?_, reshaped.sheds.receives receives trims⟩, ⟨?_, ?_⟩, receives.opcode?_new⟩
  · refine reshaped.narrows.receives receives (isOpen.stands block atBlock) plain.1 plain.2
      (fun reached position behind => isOpen.quiet atBlock behind reached) ?_
    intro isStore value held
    obtain ⟨opcode, found, notLoad⟩ := stored isStore value held
    refine ⟨fun isLoad => ?_, receives.ne_new (value?_isSome_of_opcode? found)⟩
    exact notLoad (Option.some.inj (found.symm.trans isLoad))
  · intro other found
    rw [moves] at found
    rw [trims.ages.isBlock]
    exact isOpen.stands other found
  · intro other position _ behind _
    rw [moves] at behind
    cases behind
    rw [isTerminator, receives.opcode?_new, Option.any_some, plain.1]

end Reshaped

/-- An element is read in front of an instruction by reading the variable and extracting it. -/
theorem emits_of_readElement
    {element : Ref}
    {indices : List (Option Ref)}
    (gives : Gives (Build.run do
      Build.moveBefore (some user)
      let whole ← Build.load type (some root)
      Build.extract (← see (·.typeOf user)) (some whole) indices) store element left) :
    ∃ block whole middle between moved, store.blockOf? user = some block ∧
      Build.Yields (Build.emit .load type [some root])
        { block := some block, after := store.previous? user } store whole middle between ∧
      ∃ type, Build.Yields (Build.emit (.arithmetic .extract) type (some whole :: indices))
        middle between element moved left := by
  obtain ⟨moved, yields⟩ := Build.yields_run_iff.1 gives
  obtain ⟨_, _, _, positioned, yields⟩ := Build.yields_bind_iff.1 yields
  obtain ⟨unchanged, block, linked, atUser⟩ := Build.yields_moveBefore positioned
  rw [unchanged, atUser] at yields
  obtain ⟨whole, middle, between, read, yields⟩ := Build.yields_bind_iff.1 yields
  rw [Build.yields_see_bind_iff] at yields
  exact ⟨block, whole, middle, between, moved, linked, Build.yields_load read, _,
    (Build.yields_arithmetic yields).2⟩

/-- An element is written in front of a write by inserting it into the variable. -/
theorem emits_of_writeElement
    {written : Ref}
    {indices : List (Option Ref)}
    (gives : Gives (Build.run do
      Build.moveBefore (some user)
      let whole ← Build.load type (some root)
      let changed ← Build.insert (some whole) (← operand user 1) indices
      Build.store (some root) (some changed)) store written left) :
    ∃ block whole middle between stored entry changed moved last final,
      store.blockOf? user = some block ∧
      Build.Yields (Build.emit .load type [some root])
        { block := some block, after := store.previous? user } store whole middle between ∧
      between.instruction? user = some entry ∧ entry.operand? 1 = some stored ∧
      (∃ type, Build.Yields
        (Build.emit (.arithmetic .insert) type (some whole :: stored :: indices))
        middle between changed moved last) ∧
      Build.Yields (Build.emit .store none [some root, some changed]) moved last written final
        left := by
  obtain ⟨final, yields⟩ := Build.yields_run_iff.1 gives
  obtain ⟨_, _, _, positioned, yields⟩ := Build.yields_bind_iff.1 yields
  obtain ⟨unchanged, block, linked, atUser⟩ := Build.yields_moveBefore positioned
  rw [unchanged, atUser] at yields
  obtain ⟨whole, middle, between, read, yields⟩ := Build.yields_bind_iff.1 yields
  obtain ⟨stored, _, held, yields⟩ := Build.yields_lift_bind_iff.1 yields
  obtain ⟨⟨entry, found, held⟩, unchanged⟩ := gives_operand_iff.1 held
  rw [unchanged] at yields
  obtain ⟨changed, moved, last, inserted, yields⟩ := Build.yields_bind_iff.1 yields
  exact ⟨block, whole, middle, between, stored, entry, changed, moved, last, final, linked,
    Build.yields_load read, found, held,
    ⟨_, (Build.yields_arithmetic (Build.yields_insert inserted)).2⟩, Build.yields_store yields⟩

/-- The read of an element in front of a read of it. -/
theorem ensures_readElement
    (reshaped : Reshaped origin function store)
    (user root : Ref)
    (type : Option Ty)
    (indices : List (Option Ref)) :
    Ensures (Build.run do
      Build.moveBefore (some user)
      let whole ← Build.load type (some root)
      Build.extract (← see (·.typeOf user)) (some whole) indices) store fun element left =>
        Reshaped origin function left ∧ left.opcode? element = some (.arithmetic .extract) := by
  have ends : Build.Ends (do
      Build.moveBefore (some user)
      let whole ← Build.load type (some root)
      Build.extract (← see (·.typeOf user)) (some whole) indices) :=
    Build.Ends.bind (Build.moveBefore_ends _) fun _ => Build.Ends.bind (Build.load_ends _ _)
      fun _ => Build.Ends.bind (Build.Ends.see _) fun _ => Build.extract_ends _ _ _
  refine .of_ends ends.run fun element left gives => ?_
  obtain ⟨block, whole, _, _, _, linked, read, _, extracted⟩ := emits_of_readElement gives
  obtain ⟨reshaped, isOpen, -⟩ :=
    reshaped.emits (reshaped.open_before linked) read ⟨rfl, rfl⟩ (by simp)
  obtain ⟨reshaped, -, isExtract⟩ := reshaped.emits isOpen extracted ⟨rfl, rfl⟩ (by simp)
  exact ⟨reshaped, isExtract⟩

/-- The write of a whole variable in front of a write of an element of it. -/
theorem ensures_writeElement
    (reshaped : Reshaped origin function store)
    (user root : Ref)
    (type : Option Ty)
    (indices : List (Option Ref)) :
    Ensures (Build.run do
      Build.moveBefore (some user)
      let whole ← Build.load type (some root)
      let changed ← Build.insert (some whole) (← operand user 1) indices
      Build.store (some root) (some changed)) store fun _ left =>
        Reshaped origin function left := by
  have ends : Build.Ends (do
      Build.moveBefore (some user)
      let whole ← Build.load type (some root)
      let changed ← Build.insert (some whole) (← operand user 1) indices
      Build.store (some root) (some changed)) :=
    Build.Ends.bind (Build.moveBefore_ends _) fun _ => Build.Ends.bind (Build.load_ends _ _)
      fun _ => Build.Ends.bind (Build.Ends.lift (Ends.operand _ _)) fun _ =>
        Build.Ends.bind (Build.insert_ends _ _ _) fun _ => Build.store_ends _ _
  refine .of_ends ends.run fun written left gives => ?_
  obtain ⟨block, whole, _, _, _, _, changed, _, _, _, linked, read, -, -, ⟨_, inserted⟩, written⟩ :=
    emits_of_writeElement gives
  obtain ⟨reshaped, isOpen, -⟩ :=
    reshaped.emits (reshaped.open_before linked) read ⟨rfl, rfl⟩ (by simp)
  obtain ⟨reshaped, isOpen, isInsert⟩ := reshaped.emits isOpen inserted ⟨rfl, rfl⟩ (by simp)
  refine (reshaped.emits isOpen written ⟨rfl, rfl⟩ ?_).1
  rintro - value ⟨⟩
  exact ⟨_, isInsert, by simp⟩

theorem ensures_transposeUse
    (reshaped : Reshaped origin function store)
    (root gep : Ref)
    (indices : List (Option Ref))
    (report : Transposition)
    (use : Use) :
    Ensures (transposeUse root gep indices report use) store fun _ left =>
      Reshaped origin function left := by
  unfold transposeUse
  refine .instructionBind fun entry found => .seeBind ?_
  split
  · refine (ensures_readElement reshaped _ _ _ _).bind ?_
    rintro element left ⟨reshaped, isExtract⟩
    refine Ensures.bind (.of_ends (replaceUses_ends _ _) fun _ left gives =>
      reshaped.replaces (isBlock_of_opcode? isExtract) (by simp [isGep, isExtract])
        (by simp [isExtract]) gives) ?_
    rintro _ left reshaped
    refine Ensures.bind (.of_ends (remove_ends _) fun _ left gives => reshaped.removes gives) ?_
    exact fun _ left reshaped => .pure reshaped
  · refine .operandBind fun _ _ _ _ => .requireBind fun _ =>
      (ensures_writeElement reshaped _ _ _ _).bind ?_
    rintro written left reshaped
    refine Ensures.bind (.of_ends (remove_ends _) fun _ left gives => reshaped.removes gives) ?_
    exact fun _ left reshaped => .pure reshaped
  · exact .violate _

theorem ensures_transposeOne
    (reshaped : Reshaped origin function store)
    (ends : origin.BasesEnd module)
    (pool : origin.moduleOf? gep = some module)
    (excluded : List Ref)
    (report : Transposition) :
    Ensures (transposeOne excluded report gep) store fun _ left =>
      Reshaped origin function left := by
  have trims := reshaped.narrows.trims
  have present : (origin.value? gep).isSome := by
    rw [← moduleOf?_isSome_iff, pool]
    rfl
  refine .seeBind ((ensures_pointerVariable? trims.coherent (ends.sheds trims.ages reshaped.sheds)
    ?_).bind ?_)
  · rintro ref ⟨⟩
    exact (trims.ages.moduleOf? present).trans pool
  · rintro root left ⟨rfl, -⟩
    cases root with
    | none => exact .pure reshaped
    | some root =>
        dsimp only
        split
        · exact .pure reshaped
        · refine .seeBind (Ensures.bind (Ensures.foldlM reshaped
            fun use _ report left reshaped => ensures_transposeUse reshaped _ _ _ report use) ?_)
          rintro report left reshaped
          refine Ensures.bind (.of_ends (remove_ends _) fun _ left gives =>
            reshaped.removes gives) ?_
          exact fun _ left reshaped => .pure reshaped

/-! ## Variables that escape -/

theorem ensures_variablesOf
    (coherent : store.Coherent)
    (ends : store.BasesEnd module)
    {operands : List (Option Ref)}
    (pool : ∀ ref, some ref ∈ operands → store.moduleOf? ref = some module) :
    Ensures (variablesOf operands) store fun _ left => left = store := by
  induction operands with
  | nil => exact .pure rfl
  | cons operand rest induction =>
      refine (ensures_pointerVariable? coherent ends ?_).bind ?_
      · rintro ref rfl
        exact pool ref List.mem_cons_self
      · rintro root left ⟨rfl, -⟩
        refine (induction fun ref member => pool ref (List.mem_cons_of_mem _ member)).bind ?_
        rintro others left rfl
        exact .pure rfl

theorem ensures_escaping
    (coherent : store.Coherent)
    (ends : store.BasesEnd module)
    {refs : List Ref}
    (pool : ∀ ref ∈ refs, store.moduleOf? ref = some module) :
    Ensures (escaping refs) store fun _ left => left = store := by
  induction refs with
  | nil => exact .pure rfl
  | cons ref rest induction =>
      have later := induction fun ref member => pool ref (List.mem_cons_of_mem _ member)
      refine .instructionBind fun entry found => ?_
      have rest : ∀ found : List Ref,
          Ensures (do return found ++ (← escaping rest)) store fun _ left => left = store := by
        intro found
        refine later.bind ?_
        rintro others left rfl
        exact .pure rfl
      dsimp only
      split
      · exact rest []
      · refine (ensures_variablesOf coherent ends fun operand member => ?_).bind ?_
        · have held : some operand ∈ store.operands ref := by simpa [operands, found] using member
          rw [coherent.moduleOf?_operand held]
          exact pool ref List.mem_cons_self
        · rintro gathered left rfl
          exact rest gathered

/-- Transposing a function of an accepted module comes to an end. -/
theorem ensures_transpose
    (coherent : store.Coherent)
    (accepted : store.validate? module = some [])
    (listed : function ∈ store.functions module)
    (ends : store.BasesEnd module) :
    Ensures (transpose function) store fun _ left => Reshaped store function left := by
  refine (ensures_flatten coherent accepted listed ends).bind fun flattening left reshaped => ?_
  have trims := reshaped.narrows.trims
  have pool : ∀ ref ∈ left.traverse function, left.moduleOf? ref = some module :=
    fun ref member => Validation.moduleOf?_of_mem_traverse trims.coherent
      (trims.ages.functions module ▸ listed) member
  refine .seeBind ((ensures_escaping trims.coherent (ends.sheds trims.ages reshaped.sheds)
    pool).bind ?_)
  rintro excluded _ rfl
  refine .seeBind (Ensures.foldlM reshaped fun gep member report left' reshaped' => ?_)
  obtain ⟨member, isGep⟩ := List.mem_filter.1 member
  rw [Bool.and_eq_true] at isGep
  have present := value?_isSome_of_isGep (trims.of_isGep isGep.1)
  exact ensures_transposeOne reshaped' ends
    ((trims.ages.moduleOf? present).symm.trans (pool gep member)) excluded report

end Pass

end ShaderIR
