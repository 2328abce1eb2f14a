import ShaderIR.Proofs.Coherence.Housing
import ShaderIR.Proofs.Promotion.Restraining

/-!
# The accesses that forwarding leaves

Forwarding walks over the blocks of a function.  In a block it has walked over, a variable is
read at most once, and not after it is written: any other read has been replaced and taken
out.  What is noted about the variable is just that: of each block the read and the last write,
if the block has them.
-/

namespace ShaderIR

open Store Edit

open Pass (Accesses Handling)

theorem lookup_eq_none_iff_notMem {α : Type} {pairs : List (Ref × α)} {key : Ref} :
    pairs.lookup key = none ↔ key ∉ pairs.map (·.1) := by
  rw [List.lookup_eq_none_iff, List.mem_map, not_exists]
  refine forall_congr' fun pair => ?_
  rw [not_and, bne_iff_ne]
  exact imp_congr_right fun _ => ne_comm

theorem exists_lookup_iff {α : Type} {pairs : List (Ref × α)} {key : Ref} :
    (∃ value, pairs.lookup key = some value) ↔ key ∈ pairs.map (·.1) := by
  rw [← not_iff_not, ← lookup_eq_none_iff_notMem, not_exists, Option.eq_none_iff_forall_ne_some]

namespace Store

/-- The accesses of a variable in a block, in order. -/
def accessesOf (store : Store) (address block : Ref) : List Ref :=
  (store.instructions block).filter (store.isAccess address)

/-- The reads and writes noted of a variable are accesses of it. -/
structure Accessed (store : Store) (accesses : Accesses) : Prop where
  reads : ∀ read ∈ accesses.reads, store.Touches .load accesses.address read.2
  stores : ∀ ref ∈ accesses.stores, store.Touches .store accesses.address ref

variable {store left : Store} {address ref block : Ref} {addresses : List Ref}

theorem Touches.trims
    {opcode : Opcode}
    (touches : store.Touches opcode address ref)
    (trims : store.Trims left)
    (notPhi : opcode.isPhi = false)
    (head : (left.operands ref).head? = some (some address)) :
    left.Touches opcode address ref :=
  ⟨trims.opcode?_kept touches.opcode notPhi, head⟩

theorem Trims.isAccess_congr
    (trims : store.Trims left)
    (present : (store.value? ref).isSome)
    (head : (left.operands ref).head? = some (some address) ↔
      (store.operands ref).head? = some (some address)) :
    left.isAccess address ref = store.isAccess address ref := by
  have opcodes {opcode : Opcode} (notPhi : opcode.isPhi = false) :
      left.opcode? ref = some opcode ↔ store.opcode? ref = some opcode :=
    ⟨fun found => trims.opcode?_old present found notPhi,
      fun found => trims.opcode?_kept found notPhi⟩
  rw [Bool.eq_iff_iff]
  simp only [isAccess, Bool.and_eq_true, Bool.or_eq_true, beq_iff_eq]
  rw [opcodes rfl, opcodes rfl, head]

theorem Accessed.step
    {accesses : Accesses}
    (accessed : store.Accessed accesses)
    (touches : ∀ {opcode ref}, opcode.isPhi = false → store.Touches opcode accesses.address ref →
      left.Touches opcode accesses.address ref) :
    left.Accessed accesses where
  reads := fun read member => touches rfl (accessed.reads read member)
  stores := fun ref member => touches rfl (accessed.stores ref member)

/-- Members of a block are there. -/
theorem Coherent.linked_of_mem
    (coherent : store.Coherent)
    (member : ref ∈ store.instructions block) :
    (store.blockOf? ref).isSome :=
  Option.isSome_of_eq_some ((coherent.mem_members block ref).1 member)

end Store

namespace Pass

variable {store left : Store} {address ref block : Ref} {addresses : List Ref}
  {accesses : Accesses}

/-! ## Substituting a read -/

namespace Substitutes

variable {old new : Ref} (substitutes : Substitutes store old new left)

include substitutes

theorem instructions (block : Ref) :
    left.instructions block = (store.instructions block).filter (· ≠ old) := by
  obtain ⟨middle, repoints, takes, -⟩ := substitutes
  rw [takes.instructions, repoints.instructions]
  simp only [List.mem_singleton]

/-- What is accessed stays the same as long as it is not what is replaced or replaces. -/
theorem isAccess
    (linked : (store.blockOf? ref).isSome)
    (notOld : address ≠ old)
    (notNew : address ≠ new) :
    left.isAccess address ref = store.isAccess address ref := by
  refine substitutes.trims.isAccess_congr (value?_isSome_of_blockOf? linked) ?_
  rw [substitutes.operands linked, List.head?_map, Option.map_eq_some_iff]
  constructor
  · rintro ⟨operand, head, same⟩
    unfold replaced at same
    split at same
    · exact absurd (Option.some.inj same).symm notNew
    · rw [head, same]
  · intro head
    exact ⟨some address, head, if_neg fun same => notOld (Option.some.inj same)⟩

end Substitutes

theorem Handling.isAccess_of_substitutes
    {old new : Ref}
    (handling : Handling addresses store)
    (substitutes : Substitutes store old new left)
    (isLoad : store.opcode? old = some .load)
    (storable : store.Storable addresses new)
    (listed : address ∈ addresses)
    (linked : (store.blockOf? ref).isSome) :
    left.isAccess address ref = store.isAccess address ref :=
  substitutes.isAccess linked (handling.ne_of_isLoad isLoad listed)
    fun same => storable.notAddress (same ▸ listed)

/-! ## What is noted -/

/--
What is noted of a block describes some accesses: a read, if they start with one, and the last
one of the writes that follow.
-/
structure Notes (store : Store) (accesses : Accesses) (block : Ref) (refs : List Ref) : Prop where
  split : ∃ writes, refs = (accesses.reads.lookup block).toList ++ writes ∧
    accesses.writes.lookup block = writes.getLast? ∧
    ∀ ref ∈ writes, store.opcode? ref = some .store
  isLoad : ∀ ref ∈ accesses.reads.lookup block, store.opcode? ref = some .load

namespace Notes

variable {refs : List Ref} {other : Ref}

theorem start (address : Ref) : Notes store { address } block [] where
  split := ⟨[], rfl, rfl, fun _ none => by cases none⟩
  isLoad := fun _ none => by cases none

theorem trims (notes : Notes store accesses block refs) (trims : store.Trims left) :
    Notes left accesses block refs where
  split := by
    obtain ⟨writes, equal, last, isStore⟩ := notes.split
    exact ⟨writes, equal, last, fun ref member => trims.opcode?_kept (isStore ref member) rfl⟩
  isLoad := fun ref noted => trims.opcode?_kept (notes.isLoad ref noted) rfl

theorem addRead (notes : Notes store accesses block []) (isLoad : store.opcode? ref = some .load) :
    Notes store (accesses.addRead block ref) block [ref] := by
  obtain ⟨writes, equal, last, -⟩ := notes.split
  obtain ⟨noRead, rfl⟩ := List.append_eq_nil_iff.1 equal.symm
  rw [Option.toList_eq_nil_iff] at noRead
  have noted : (accesses.addRead block ref).reads.lookup block = some ref := by
    rw [Accesses.addRead, List.lookup_append, noRead]
    simp
  refine ⟨⟨[], ?_, last, fun _ none => by cases none⟩, fun other found => ?_⟩
  · rw [noted]
    rfl
  · rw [noted] at found
    exact Option.some.inj found ▸ isLoad

theorem addRead_other (notes : Notes store accesses other refs) (different : other ≠ block) :
    Notes store (accesses.addRead block ref) other refs := by
  have same : (accesses.addRead block ref).reads.lookup other = accesses.reads.lookup other := by
    rw [Accesses.addRead, List.lookup_append]
    simp [different]
  exact ⟨same ▸ notes.split, same ▸ notes.isLoad⟩

/-- A write becomes the last one of its block. -/
theorem lookup_addWrite (accesses : Accesses) (block ref other : Ref) :
    (accesses.addWrite block ref).writes.lookup other =
      if other = block then some ref else accesses.writes.lookup other := by
  have mapped (writes : List (Ref × Ref)) :
      (writes.map fun write => if write.1 = block then (write.1, ref) else write).lookup other =
        if other = block then (writes.lookup other).map fun _ => ref else writes.lookup other := by
    induction writes with
    | nil => simp
    | cons write rest induction =>
        obtain ⟨source, last⟩ := write
        rw [List.map_cons]
        by_cases here : other = source
        · subst here
          by_cases same : other = block <;> simp [same]
        · have apart : (other == source) = false := beq_false_of_ne here
          by_cases same : source = block
          · subst same
            simp [List.lookup_cons, apart, induction, here]
          · simp [List.lookup_cons, apart, induction, same]
  unfold Accesses.addWrite
  dsimp only
  split
  · rename_i written
    rw [mapped]
    split
    · rename_i same
      subst same
      obtain ⟨last, found⟩ := exists_lookup_iff.2 (List.contains_iff_mem.1 written)
      rw [found]
      rfl
    · rfl
  · rename_i unwritten
    rw [List.lookup_append]
    by_cases same : other = block
    · subst same
      have absent : accesses.writes.lookup other = none :=
        lookup_eq_none_iff_notMem.2 fun written => unwritten (List.contains_iff_mem.2 written)
      simp [absent]
    · simp [same]

theorem addWrite
    (notes : Notes store accesses block refs)
    (isStore : store.opcode? ref = some .store) :
    Notes store (accesses.addWrite block ref) block (refs ++ [ref]) := by
  obtain ⟨writes, equal, -, isStores⟩ := notes.split
  refine ⟨⟨writes ++ [ref], ?_, ?_, ?_⟩, notes.isLoad⟩
  · rw [equal, List.append_assoc]
    rfl
  · rw [lookup_addWrite, if_pos rfl, List.getLast?_concat]
  · exact List.forall_mem_append.2 ⟨isStores, List.forall_mem_singleton.2 isStore⟩

theorem addWrite_other (notes : Notes store accesses other refs) (different : other ≠ block) :
    Notes store (accesses.addWrite block ref) other refs := by
  obtain ⟨writes, equal, last, isStores⟩ := notes.split
  refine ⟨⟨writes, equal, ?_, isStores⟩, notes.isLoad⟩
  rw [lookup_addWrite, if_neg different, last]

end Notes

/-- What is noted describes the accesses in the parts of blocks that were walked over. -/
structure Surveyed (store : Store) (walked : Ref → List Ref) (accesses : Accesses) : Prop where
  notes : ∀ block, Notes store accesses block
    ((walked block).filter (store.isAccess accesses.address))
  accessed : store.Accessed accesses
  distinct : accesses.readers.Nodup

namespace Surveyed

variable {walked walked' : Ref → List Ref}

/-- A step that changes neither what was walked over nor what is accessed there. -/
theorem step
    (surveyed : Surveyed store walked accesses)
    (trims : store.Trims left)
    (same : ∀ block, walked' block = walked block)
    (access : ∀ block, ∀ ref ∈ walked block,
      left.isAccess accesses.address ref = store.isAccess accesses.address ref)
    (touches : ∀ {opcode ref}, opcode.isPhi = false → store.Touches opcode accesses.address ref →
      left.Touches opcode accesses.address ref) :
    Surveyed left walked' accesses where
  notes := by
    intro block
    rw [same, List.filter_congr (access block)]
    exact (surveyed.notes block).trims trims
  accessed := surveyed.accessed.step touches
  distinct := surveyed.distinct

/-- Walking over an instruction that does not access the variable. -/
theorem pass
    (surveyed : Surveyed store walked accesses)
    (apart : store.isAccess accesses.address ref = false) :
    Surveyed store (Function.update walked block (walked block ++ [ref])) accesses where
  notes := by
    intro other
    by_cases here : other = block
    · subst here
      rw [Function.update_self, List.filter_append, List.filter_cons_of_neg (by simp [apart]),
        List.filter_nil, List.append_nil]
      exact surveyed.notes other
    · rw [Function.update_of_ne here]
      exact surveyed.notes other
  accessed := surveyed.accessed
  distinct := surveyed.distinct

/-- Walking over the first access of a block, a read. -/
theorem addRead
    (surveyed : Surveyed store walked accesses)
    (touches : store.Touches .load accesses.address ref)
    (first : (walked block).filter (store.isAccess accesses.address) = []) :
    Surveyed store (Function.update walked block (walked block ++ [ref]))
      (accesses.addRead block ref) where
  notes := by
    intro other
    have notes := surveyed.notes other
    by_cases here : other = block
    · subst here
      rw [first] at notes
      have new : (walked other ++ [ref]).filter (store.isAccess accesses.address) = [ref] := by
        rw [List.filter_append, first, List.filter_cons_of_pos (isAccess_of_load touches)]
        rfl
      rw [Function.update_self]
      exact new.symm ▸ notes.addRead touches.opcode
    · rw [Function.update_of_ne here]
      exact notes.addRead_other here
  accessed :=
    { surveyed.accessed with
      reads := List.forall_mem_append.2
        ⟨surveyed.accessed.reads, List.forall_mem_singleton.2 touches⟩ }
  distinct := by
    have notes := surveyed.notes block
    rw [first] at notes
    obtain ⟨writes, equal, -⟩ := notes.split
    have noRead := (List.append_eq_nil_iff.1 equal.symm).1
    rw [Option.toList_eq_nil_iff, lookup_eq_none_iff_notMem] at noRead
    rw [Accesses.readers, Accesses.addRead, List.map_append, List.map_singleton]
    refine List.Nodup.append surveyed.distinct (List.nodup_singleton _) ?_
    rwa [List.disjoint_singleton]

/-- Walking over a write. -/
theorem addWrite
    (surveyed : Surveyed store walked accesses)
    (touches : store.Touches .store accesses.address ref) :
    Surveyed store (Function.update walked block (walked block ++ [ref]))
      (accesses.addWrite block ref) where
  notes := by
    intro other
    have notes := surveyed.notes other
    by_cases here : other = block
    · subst here
      have new : (walked other ++ [ref]).filter (store.isAccess accesses.address) =
          (walked other).filter (store.isAccess accesses.address) ++ [ref] := by
        rw [List.filter_append, List.filter_cons_of_pos (isAccess_of_store touches)]
        rfl
      rw [Function.update_self]
      exact new.symm ▸ notes.addWrite touches.opcode
    · rw [Function.update_of_ne here]
      exact notes.addWrite_other here
  accessed :=
    { surveyed.accessed with
      stores := List.forall_mem_append.2
        ⟨surveyed.accessed.stores, List.forall_mem_singleton.2 touches⟩ }
  distinct := surveyed.distinct

end Surveyed

/-! ## Walking over a block -/

theorem lookup_hold (state : Forwarding) (address other : Ref) (value : Option Ref) :
    (state.hold address value).current.lookup other =
      if other = address then some value else state.current.lookup other := by
  have kept (different : other ≠ address) (entries : List (Ref × Option Ref)) :
      (entries.filter (·.1 != address)).lookup other = entries.lookup other := by
    induction entries with
    | nil => rfl
    | cons entry rest induction =>
        obtain ⟨source, held⟩ := entry
        by_cases here : other = source
        · subst here
          rw [List.filter_cons_of_pos (by simpa using different)]
          simp
        · have apart : (other == source) = false := beq_false_of_ne here
          by_cases same : source = address
          · rw [List.filter_cons_of_neg (by simp [same]), induction, List.lookup_cons, apart]
          · rw [List.filter_cons_of_pos (by simp [same]), List.lookup_cons, List.lookup_cons, apart,
              induction]
  unfold Forwarding.hold
  dsimp only
  rw [List.lookup_cons]
  by_cases same : other = address
  · simp [same]
  · rw [beq_false_of_ne same, if_neg same, kept same]

/-- The instructions of those blocks that were walked over. -/
def covered (store : Store) (past : List Ref) (block : Ref) : List Ref :=
  if block ∈ past then store.instructions block else []

theorem mem_instructions_of_mem_covered
    {past : List Ref}
    (member : ref ∈ covered store past block) :
    ref ∈ store.instructions block := by
  unfold covered at member
  split at member
  · exact member
  · cases member

/-- What forwarding keeps up: the variables are plain, and what is noted is what is there. -/
structure Covering (addresses : List Ref) (walked : Ref → List Ref) (state : Forwarding)
    (store : Store) : Prop where
  coherent : store.Coherent
  handling : Handling addresses store
  listed : ∀ accesses ∈ state.accesses, accesses.address ∈ addresses
  surveyed : ∀ accesses ∈ state.accesses, Surveyed store walked accesses

/-- Forwarding stands in a block that it has partly walked over. -/
structure Within (addresses past : List Ref) (block : Ref) (done rest : List Ref)
    (state : Forwarding) (store : Store) : Prop
    extends Covering addresses (Function.update (covered store past) block done) state store where
  split : store.instructions block = done ++ rest
  current : ∀ entry ∈ state.current, ∃ value, entry.2 = some value ∧ store.Storable addresses value
  first : ∀ address ∈ state.accesses.map (·.address), state.current.lookup address = none →
    done.filter (store.isAccess address) = []

namespace Within

variable {past done rest : List Ref} {state : Forwarding}

theorem mem_instructions
    (within : Within addresses past block done rest state store)
    {other : Ref}
    (member : ref ∈ Function.update (covered store past) block done other) :
    ref ∈ store.instructions other := by
  by_cases here : other = block
  · subst here
    rw [Function.update_self] at member
    rw [within.split]
    exact List.mem_append_left _ member
  · rw [Function.update_of_ne here] at member
    exact mem_instructions_of_mem_covered member

theorem listed_of_mem
    (within : Within addresses past block done rest state store)
    (member : address ∈ state.accesses.map (·.address)) :
    address ∈ addresses := by
  obtain ⟨accesses, noted, rfl⟩ := List.mem_map.1 member
  exact within.listed accesses noted

variable (within : Within addresses past block done (ref :: rest) state store)

include within

theorem linked : store.blockOf? ref = some block := by
  refine (within.coherent.mem_members block ref).1 ?_
  rw [within.split]
  exact List.mem_append_right _ List.mem_cons_self

/-- A replaced read is gone; the other instructions stay. -/
theorem replace
    {value : Ref}
    (isLoad : store.opcode? ref = some .load)
    (storable : store.Storable addresses value)
    (substitutes : Substitutes store ref value left) :
    Within addresses past block done rest { state with removed := state.removed ++ [ref] }
      left := by
  have trims := substitutes.trims
  have distinct := within.coherent.membersDistinct block
  rw [within.split, List.nodup_append, List.nodup_cons] at distinct
  obtain ⟨-, ⟨notBehind, -⟩, apart⟩ := distinct
  have access {address other : Ref} (listed : address ∈ addresses)
      {member : Ref} (here : member ∈ store.instructions other) :
      left.isAccess address member = store.isAccess address member :=
    within.handling.isAccess_of_substitutes substitutes isLoad storable listed
      (within.coherent.linked_of_mem here)
  have inBlock : ∀ other ∈ done, other ∈ store.instructions block := by
    intro other member
    rw [within.split]
    exact List.mem_append_left _ member
  have others {other : Ref} (different : other ≠ block) :
      left.instructions other = store.instructions other := by
    rw [substitutes.instructions, List.filter_eq_self]
    intro member listed
    have home := (within.coherent.mem_members other member).1 listed
    simp only [ne_eq, decide_not, Bool.not_eq_true', decide_eq_false_iff_not]
    rintro rfl
    exact different (Option.some.inj (home.symm.trans within.linked))
  have walked (other : Ref) : Function.update (covered left past) block done other =
      Function.update (covered store past) block done other := by
    by_cases here : other = block
    · rw [here, Function.update_self, Function.update_self]
    · rw [Function.update_of_ne here, Function.update_of_ne here, covered, covered, others here]
  constructor
  case toCovering =>
    refine ⟨trims.coherent, within.handling.substitutes isLoad storable substitutes, within.listed,
      fun accesses noted => ?_⟩
    have listed := within.listed accesses noted
    refine (within.surveyed accesses noted).step trims walked (fun other member walked => ?_) ?_
    · exact access listed (within.mem_instructions walked)
    · exact fun notPhi touches =>
        (substitutes.shifts within.handling isLoad storable).touches touches notPhi listed
  case split =>
    rw [substitutes.instructions, within.split, List.filter_append,
      List.filter_cons_of_neg (by simp)]
    congr 1
    · exact List.filter_eq_self.2 fun other member => by
        simpa using apart other member ref List.mem_cons_self
    · exact List.filter_eq_self.2 fun other member => by
        simpa using fun same : other = ref => notBehind (same ▸ member)
  case current =>
    intro entry member
    obtain ⟨value, held, storable⟩ := within.current entry member
    exact ⟨value, held, storable.trims trims⟩
  case first =>
    intro address listed free
    rw [List.filter_congr fun other member =>
      access (within.listed_of_mem listed) (inBlock other member)]
    exact within.first address listed free

/-- Standing behind the next instruction, with what is noted of it. -/
theorem proceed
    {state' : Forwarding}
    (addresses' : state'.accesses.map (·.address) = state.accesses.map (·.address))
    (surveyed : ∀ accesses ∈ state'.accesses, Surveyed store
      (Function.update (Function.update (covered store past) block done) block
        (Function.update (covered store past) block done block ++ [ref])) accesses)
    (current : ∀ entry ∈ state'.current, ∃ value, entry.2 = some value ∧
      store.Storable addresses value)
    (free : ∀ address ∈ state.accesses.map (·.address), state'.current.lookup address = none →
      state.current.lookup address = none ∧ store.isAccess address ref = false) :
    Within addresses past block (done ++ [ref]) rest state' store := by
  rw [Function.update_idem, Function.update_self] at surveyed
  constructor
  case toCovering =>
    refine ⟨within.coherent, within.handling, fun accesses noted => ?_, surveyed⟩
    exact within.listed_of_mem (addresses' ▸ List.mem_map_of_mem noted)
  case split => rw [within.split, List.append_assoc, List.singleton_append]
  case current => exact current
  case first =>
    intro address listed absent
    obtain ⟨absent, apart⟩ := free address (addresses' ▸ listed) absent
    rw [List.filter_append, within.first address (addresses' ▸ listed) absent,
      List.filter_cons_of_neg (by simp [apart])]
    rfl

/-- Passing by an instruction that accesses none of the variables. -/
theorem pass
    (apart : ∀ address ∈ state.accesses.map (·.address), store.isAccess address ref = false) :
    Within addresses past block (done ++ [ref]) rest state store :=
  within.proceed rfl
    (fun accesses noted =>
      (within.surveyed accesses noted).pass (apart _ (List.mem_map_of_mem noted)))
    within.current fun address listed free => ⟨free, apart address listed⟩

/-- Noting an access, which puts a value at hand. -/
theorem note
    {opcode : Opcode}
    {value : Ref}
    {change : Accesses → Accesses}
    (touches : store.Touches opcode address ref)
    (same : ∀ accesses, (change accesses).address = accesses.address)
    (storable : store.Storable addresses value)
    (changed : ∀ accesses ∈ state.accesses, accesses.address = address → Surveyed store
      (Function.update (Function.update (covered store past) block done) block
        (Function.update (covered store past) block done block ++ [ref])) (change accesses)) :
    Within addresses past block (done ++ [ref]) rest
      ((state.hold address (some value)).note address change) store := by
  refine within.proceed (map_address_note same) ?_ ?_ ?_
  · intro accesses member
    obtain ⟨former, noted, rfl⟩ := List.mem_map.1 member
    split
    · exact changed former noted ‹_›
    · rename_i different
      exact (within.surveyed former noted).pass (isAccess_of_ne touches different)
  · exact forall_mem_hold within.current ⟨value, rfl, storable⟩
  · intro other _ absent
    rw [Forwarding.note, lookup_hold] at absent
    split at absent
    · cases absent
    · rename_i different
      exact ⟨absent, isAccess_of_ne touches different⟩

/-- One step of forwarding goes past one instruction, and control moves no further. -/
theorem forwards
    {state' : Forwarding}
    (forwards : Forwards block ref store state state' left) :
    (∃ done', Within addresses past block done' rest state' left) ∧ store.Restrains left := by
  have stays := Restrains.refl within.coherent
  cases forwards with
  | replace touches listed held replaces removes =>
      obtain ⟨value, rfl, storable⟩ := within.current _ (mem_of_lookup held)
      have repoints := within.coherent.repoints_replaceUses replaces
      obtain ⟨takes, trims⟩ := repoints.trims.coherent.removes removes
      have substitutes : Substitutes store ref value left := ⟨_, repoints, takes, trims⟩
      exact ⟨⟨done, within.replace touches.opcode storable substitutes⟩,
        substitutes.restrains storable.notBlock⟩
  | @read address touches listed free =>
      have storable := within.handling.storable_of_opcode? touches.opcode rfl
      refine ⟨⟨done ++ [ref], within.note touches (fun _ => rfl) storable ?_⟩, stays⟩
      rintro accesses noted rfl
      refine (within.surveyed accesses noted).addRead touches ?_
      rw [Function.update_self]
      exact within.first _ listed free
  | @write address stored touches listed held =>
      obtain ⟨value, held', storable⟩ := within.handling.exists_stored touches
        (within.listed_of_mem listed) (Option.isSome_of_eq_some within.linked)
      obtain rfl := Option.some.inj (held.symm.trans held')
      refine ⟨⟨done ++ [ref], within.note touches (fun _ => rfl) storable ?_⟩, stays⟩
      rintro accesses noted rfl
      exact (within.surveyed accesses noted).addWrite touches
  | pass apart => exact ⟨⟨done ++ [ref], within.pass apart⟩, stays⟩

end Within

/-- Forwarding in a block that was not walked over yet. -/
theorem Covering.forwardBlock
    {past : List Ref}
    {state state' : Forwarding}
    (covering : Covering addresses (covered store past) state store)
    (apart : block ∉ past)
    (gives : Gives (forwardBlock state block) store state' left) :
    Covering addresses (covered left (block :: past)) state' left ∧ store.Restrains left := by
  replace gives := gives_see_bind_iff.1 gives
  have unwalked : Function.update (covered store past) block [] = covered store past := by
    rw [Function.update_eq_self_iff, covered, if_neg apart]
  have start : Within addresses past block [] (store.instructions block)
      { state with current := [] } store :=
    { coherent := covering.coherent
      handling := covering.handling
      listed := covering.listed
      surveyed := unwalked.symm ▸ covering.surveyed
      split := rfl
      current := fun _ none => by cases none
      first := fun _ _ _ => rfl }
  obtain ⟨⟨done, within⟩, restrains⟩ := gives.foldlM_rest
    (fun rest state middle =>
      (∃ done, Within addresses past block done rest state middle) ∧ store.Restrains middle)
    ⟨⟨[], start⟩, .refl covering.coherent⟩ (by
      rintro ref rest _ _ _ _ ⟨⟨_, within⟩, restrains⟩ gives
      obtain ⟨within, restrains'⟩ := within.forwards (forwards_of_gives gives)
      exact ⟨within, restrains.trans restrains'⟩)
  have walked : Function.update (covered left past) block done = covered left (block :: past) := by
    funext other
    by_cases here : other = block
    · subst here
      rw [Function.update_self, covered, if_pos List.mem_cons_self, within.split, List.append_nil]
    · rw [Function.update_of_ne here]
      simp [covered, here]
  exact ⟨walked ▸ within.toCovering, restrains⟩

/-- Forwarding in one block after the other. -/
theorem Covering.forward
    {past blocks : List Ref}
    {state state' : Forwarding}
    (covering : Covering addresses (covered store past) state store)
    (distinct : blocks.Nodup)
    (apart : ∀ block ∈ blocks, block ∉ past)
    (gives : Gives (blocks.foldlM Pass.forwardBlock state) store state' left) :
    Covering addresses (covered left (blocks.reverse ++ past)) state' left ∧
      store.Restrains left := by
  induction blocks generalizing past state store with
  | nil =>
      obtain ⟨rfl, rfl⟩ := gives_pure_iff.1 gives
      exact ⟨covering, .refl covering.coherent⟩
  | cons block rest induction =>
      rw [List.foldlM_cons] at gives
      obtain ⟨between, middle, first, others⟩ := gives_bind_iff.1 gives
      obtain ⟨here, later⟩ := List.nodup_cons.1 distinct
      obtain ⟨notPast, apart⟩ := List.forall_mem_cons.1 apart
      rw [List.reverse_cons, List.append_assoc, List.singleton_append]
      obtain ⟨covering, restrains⟩ := covering.forwardBlock notPast first
      obtain ⟨covering, restrains'⟩ := induction covering later (by
        intro other member
        rw [List.mem_cons, not_or]
        exact ⟨fun same => here (same ▸ member), apart other member⟩) others
      exact ⟨covering, restrains.trans restrains'⟩

/-! ## Walking over a function -/

theorem nodup_blocksInOrder (coherent : store.Coherent) (housed : store.Housed) (function : Ref) :
    (blocksInOrder store function).Nodup := by
  refine List.Nodup.append (nodup_reversePostOrder coherent function)
    ((housed.distinct function).filter _) fun block reached other => ?_
  simpa [reached] using (List.mem_filter.1 other).2

/-- The walk comes to every block of the function. -/
theorem mem_blocksInOrder
    (housed : store.Housed)
    {function : Ref}
    (owned : store.blockFunction? block = some function) :
    block ∈ blocksInOrder store function := by
  refine List.mem_append.2 (or_iff_not_imp_left.2 fun unreached => List.mem_filter.2 ⟨?_, ?_⟩)
  · exact (housed.mem_blocksOf function block).2 owned
  · simpa using unreached

/-- Forwarding starts with nothing noted of the variables that were chosen. -/
theorem covering_of_chosen
    {chosen : List Accesses}
    (coherent : store.Coherent)
    (regular : store.Regular)
    (each : ∀ accesses ∈ chosen, Selected store accesses)
    (covers : store.Covers addresses (chosen.map (·.address))) :
    Covering addresses (covered store []) { accesses := chosen } store where
  coherent := coherent
  handling := handling_of_chosen coherent regular each covers
  listed := fun accesses member => covers.listed _ (List.mem_map_of_mem member)
  surveyed := by
    intro accesses member
    rw [(each accesses member).fresh]
    exact
      { notes := fun block => Notes.start accesses.address
        accessed := ⟨(fun _ none => by cases none), (fun _ none => by cases none)⟩
        distinct := List.nodup_nil }

/-- What is noted about a variable describes its accesses in the blocks of a function. -/
structure Charts (function : Ref) (store : Store) (accesses : Accesses) : Prop where
  notes : ∀ block, store.blockFunction? block = some function →
    Notes store accesses block (store.accessesOf accesses.address block)
  accessed : store.Accessed accesses
  distinct : accesses.readers.Nodup
  present : ∀ block ∈ accesses.readers, store.isBlock block = true

/-- Blocks that were not walked over are not noted as readers. -/
theorem Covering.mem_past
    {past : List Ref}
    {state : Forwarding}
    (covering : Covering addresses (covered store past) state store)
    (noted : accesses ∈ state.accesses)
    (reader : block ∈ accesses.readers) :
    block ∈ past ∧ store.isBlock block = true := by
  obtain ⟨writes, equal, -⟩ := ((covering.surveyed accesses noted).notes block).split
  obtain ⟨load, found⟩ := exists_lookup_iff.2 reader
  have member : load ∈ (covered store past block).filter (store.isAccess accesses.address) := by
    rw [equal, found]
    exact List.mem_cons_self
  have walked := List.mem_of_mem_filter member
  refine ⟨?_, isBlock_of_mem_instructions (mem_instructions_of_mem_covered walked)⟩
  by_contra outside
  rw [covered, if_neg outside] at walked
  cases walked

theorem Covering.charts
    {past : List Ref}
    {state : Forwarding}
    {function : Ref}
    (covering : Covering addresses (covered store past) state store)
    (all : ∀ block, store.blockFunction? block = some function → block ∈ past)
    (noted : accesses ∈ state.accesses) :
    Charts function store accesses where
  notes := by
    intro block owned
    have notes := (covering.surveyed accesses noted).notes block
    rwa [covered, if_pos (all block owned)] at notes
  accessed := (covering.surveyed accesses noted).accessed
  distinct := (covering.surveyed accesses noted).distinct
  present := fun _ reader => (covering.mem_past noted reader).2

/-- Forwarding charts the accesses of the variables that were chosen. -/
theorem charts_of_gives_forward
    {function : Ref}
    {chosen : List Accesses}
    {state : Forwarding}
    (coherent : store.Coherent)
    (regular : store.Regular)
    (housed : store.Housed)
    (each : ∀ accesses ∈ chosen, Selected store accesses)
    (covers : store.Covers addresses (chosen.map (·.address)))
    (gives : Gives ((blocksInOrder store function).foldlM forwardBlock { accesses := chosen })
      store state left) :
    Handling addresses left ∧ store.Restrains left ∧
      ∀ accesses ∈ state.accesses, Charts function left accesses ∧
        ∀ block ∈ accesses.readers, block ∈ blocksInOrder store function := by
  obtain ⟨covering, restrains⟩ := (covering_of_chosen coherent regular each covers).forward
    (nodup_blocksInOrder coherent housed function) (fun _ _ => List.not_mem_nil) gives
  rw [List.append_nil] at covering
  refine ⟨covering.handling, restrains, fun accesses noted => ⟨?_, fun block reader => ?_⟩⟩
  · refine covering.charts (fun block owned => ?_) noted
    rw [restrains.trims.ages.blockFunction?] at owned
    exact List.mem_reverse.2 (mem_blocksInOrder housed owned)
  · exact List.mem_reverse.1 (covering.mem_past noted reader).1

end Pass

end ShaderIR
