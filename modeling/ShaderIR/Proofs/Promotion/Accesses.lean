import ShaderIR.Proofs.Promotion.Transposing
import ShaderIR.Pass.Promotion

/-!
# Whole accesses of variables

Promotion takes on local variables that are only read and written as a whole.  It
replaces reads by other values, builds phis and takes instructions out, and through
all of this the linked users of the variables stay plain reads and writes.

What is noted about the accesses of a variable lasts as well: its writes stay where
they are, and a read stays where it is until nothing uses it.
-/

namespace ShaderIR

open Pass (Accesses)

namespace Store

/-- A value that a variable can hold: no block, and none of some variables. -/
structure Storable (store : Store) (addresses : List Ref) (value : Ref) : Prop where
  present : (store.value? value).isSome
  notBlock : store.isBlock value = false
  notAddress : value ∉ addresses

/-- An instruction of some kind accesses a variable. -/
structure Touches (store : Store) (opcode : Opcode) (address ref : Ref) : Prop where
  opcode : store.opcode? ref = some opcode
  head : (store.operands ref).head? = some (some address)

/-- Whether an instruction reads or writes a variable as a whole. -/
def isAccess (store : Store) (address ref : Ref) : Bool :=
  (store.opcode? ref == some .load || store.opcode? ref == some .store) &&
    (store.operands ref).head? == some (some address)

/-- The linked users of some variables read one of them or write a value to one. -/
def Plain (store : Store) (addresses : List Ref) : Prop :=
  ∀ {address ref}, address ∈ addresses → (store.blockOf? ref).isSome →
    some address ∈ store.operands ref →
    store.Touches .load address ref ∨
      store.Touches .store address ref ∧
        ∃ value, (store.operands ref)[1]? = some (some value) ∧ store.Storable addresses value

/-- An instruction that is in no block and that no linked one uses. -/
structure Cleared (store : Store) (ref : Ref) : Prop where
  unlinked : store.blockOf? ref = none
  unused : ∀ {user}, (store.blockOf? user).isSome → some ref ∉ store.operands user

/-- The variables noted are among some memory locations, and the other ones are cleared. -/
structure Covers (store : Store) (addresses noted : List Ref) : Prop where
  locations : ∀ address ∈ addresses, store.isLValue address = true
  listed : ∀ address ∈ noted, address ∈ addresses
  distinct : noted.Nodup
  cleared : ∀ address ∈ addresses, address ∉ noted → store.Cleared address

/-- A read that nothing linked uses. -/
structure Idle (store : Store) (ref : Ref) : Prop where
  isLoad : store.opcode? ref = some .load
  unused : ∀ {user}, (store.blockOf? user).isSome → some ref ∉ store.operands user

/-- The writes noted for a variable are writes to it, where they were found. -/
structure Written (store : Store) (accesses : Accesses) : Prop where
  stores : ∀ ref ∈ accesses.stores, store.Touches .store accesses.address ref
  writes : ∀ write ∈ accesses.writes,
    write.2 ∈ accesses.stores ∧ store.blockOf? write.2 = some write.1

/-- A read noted for a reached block is where it was found, unless nothing uses it. -/
structure Pending (origin : Store) (function : Ref) (store : Store) (read : Ref × Ref) : Prop where
  isLoad : store.opcode? read.2 = some .load
  linked : origin.Reached function read.1 →
    store.blockOf? read.2 = some read.1 ∨ store.Idle read.2

/--
A step of promotion, which unlinks some instructions: the others stay where they
are, and what accesses a variable accesses the same one afterwards and before.
-/
structure Shifts (store : Store) (addresses gone : List Ref) (left : Store) : Prop where
  trims : store.Trims left
  blockOf? : ∀ {ref block}, store.blockOf? ref = some block → ref ∉ gone →
    left.blockOf? ref = some block
  users : ∀ {address ref}, address ∈ addresses → (left.blockOf? ref).isSome →
    some address ∈ left.operands ref →
    (store.blockOf? ref).isSome ∧ some address ∈ store.operands ref
  head : ∀ {address ref}, address ∈ addresses →
    (store.operands ref).head? = some (some address) →
    (left.operands ref).head? = some (some address)

variable {origin store left : Store} {function address ref : Ref} {addresses gone : List Ref}

theorem isAccess_iff :
    store.isAccess address ref = true ↔
      store.Touches .load address ref ∨ store.Touches .store address ref := by
  simp only [isAccess, Bool.and_eq_true, Bool.or_eq_true, beq_iff_eq]
  constructor
  · rintro ⟨isLoad | isStore, head⟩
    · exact .inl ⟨isLoad, head⟩
    · exact .inr ⟨isStore, head⟩
  · rintro (⟨isLoad, head⟩ | ⟨isStore, head⟩)
    · exact ⟨.inl isLoad, head⟩
    · exact ⟨.inr isStore, head⟩

theorem isAccess_of_load (touches : store.Touches .load address ref) :
    store.isAccess address ref = true :=
  isAccess_iff.2 (.inl touches)

theorem isAccess_of_store (touches : store.Touches .store address ref) :
    store.isAccess address ref = true :=
  isAccess_iff.2 (.inr touches)

/-- What accesses one variable accesses no other one. -/
theorem isAccess_of_ne
    {opcode : Opcode}
    {other : Ref}
    (touches : store.Touches opcode other ref)
    (different : address ≠ other) :
    store.isAccess address ref = false := by
  rw [Bool.eq_false_iff]
  intro access
  have same : (store.operands ref).head? = some (some address) := by
    rcases isAccess_iff.1 access with read | write
    · exact read.head
    · exact write.head
  exact different (Option.some.inj (Option.some.inj (same.symm.trans touches.head)))

theorem Storable.trims
    {value : Ref}
    (storable : store.Storable addresses value)
    (trims : store.Trims left) :
    left.Storable addresses value where
  present := trims.ages.value?_isSome storable.present
  notBlock := by rw [trims.ages.isBlock, storable.notBlock]
  notAddress := storable.notAddress

/-- One more location, which is cleared unless it is noted. -/
theorem Covers.cons
    {noted : List Ref}
    (covers : store.Covers addresses noted)
    (location : store.isLValue address = true)
    (cleared : address ∉ noted → store.Cleared address) :
    store.Covers (address :: addresses) noted where
  locations := List.forall_mem_cons.2 ⟨location, covers.locations⟩
  listed := fun other member => List.mem_cons_of_mem _ (covers.listed other member)
  distinct := covers.distinct
  cleared := List.forall_mem_cons.2 ⟨cleared, covers.cleared⟩

theorem Covers.perm
    {noted noted' : List Ref}
    (covers : store.Covers addresses noted)
    (perm : noted.Perm noted') :
    store.Covers addresses noted' where
  locations := covers.locations
  listed := fun address member => covers.listed address (perm.mem_iff.2 member)
  distinct := perm.nodup_iff.1 covers.distinct
  cleared := fun address listed absent =>
    covers.cleared address listed fun member => absent (perm.mem_iff.1 member)

theorem Touches.mem {opcode : Opcode} (touches : store.Touches opcode address ref) :
    some address ∈ store.operands ref :=
  List.mem_of_mem_head? touches.head

namespace Shifts

variable (shifts : store.Shifts addresses gone left)

include shifts

theorem touches
    {opcode : Opcode}
    (touches : store.Touches opcode address ref)
    (notPhi : opcode.isPhi = false)
    (listed : address ∈ addresses) :
    left.Touches opcode address ref :=
  ⟨shifts.trims.opcode?_kept touches.opcode notPhi, shifts.head listed touches.head⟩

/-- Users stay plain when what is written can still be held. -/
theorem plain
    (plain : store.Plain addresses)
    (stored : ∀ {ref value}, (store.blockOf? ref).isSome → store.opcode? ref = some .store →
      (store.operands ref)[1]? = some (some value) → store.Storable addresses value →
      ∃ value, (left.operands ref)[1]? = some (some value) ∧ left.Storable addresses value) :
    left.Plain addresses := by
  intro address ref listed linked member
  obtain ⟨linked, member⟩ := shifts.users listed linked member
  rcases plain listed linked member with read | ⟨write, value, held, storable⟩
  · exact .inl (shifts.touches read rfl listed)
  · exact .inr ⟨shifts.touches write rfl listed, stored linked write.opcode held storable⟩

theorem cleared
    (cleared : store.Cleared address)
    (listed : address ∈ addresses)
    (location : store.isLValue address = true) :
    left.Cleared address where
  unlinked := by
    refine Option.eq_none_iff_forall_ne_some.2 fun block linked => ?_
    cases (shifts.trims.linked (value?_isSome_of_isLValue location) linked).symm.trans
      cleared.unlinked
  unused := by
    intro user linked member
    obtain ⟨linked, member⟩ := shifts.users listed linked member
    exact cleared.unused linked member

/-- Variables that are not noted any more are cleared. -/
theorem covers
    {noted noted' : List Ref}
    (covers : store.Covers addresses noted)
    (sub : noted'.Sublist noted)
    (cleared : ∀ address ∈ noted, address ∉ noted' → left.Cleared address) :
    left.Covers addresses noted' where
  locations := fun address listed => shifts.trims.isLValue (covers.locations address listed)
  listed := fun address member => covers.listed address (sub.subset member)
  distinct := sub.nodup covers.distinct
  cleared := by
    intro address listed absent
    by_cases member : address ∈ noted
    · exact cleared address member absent
    · exact shifts.cleared (covers.cleared address listed member) listed
        (covers.locations address listed)

theorem written
    {accesses : Accesses}
    (written : store.Written accesses)
    (listed : accesses.address ∈ addresses)
    (kept : ∀ ref ∈ gone, ref ∉ accesses.stores) :
    left.Written accesses where
  stores := fun ref member => shifts.touches (written.stores ref member) rfl listed
  writes := by
    intro write member
    obtain ⟨listed, linked⟩ := written.writes write member
    exact ⟨listed, shifts.blockOf? linked fun taken => kept write.2 taken listed⟩

theorem pending
    {read : Ref × Ref}
    (pending : origin.Pending function store read)
    (idle : store.Idle read.2 → left.Idle read.2)
    (taken : read.2 ∈ gone → left.Idle read.2) :
    origin.Pending function left read where
  isLoad := shifts.trims.opcode?_kept pending.isLoad rfl
  linked := by
    intro reached
    by_cases unlinked : read.2 ∈ gone
    · exact .inr (taken unlinked)
    · rcases pending.linked reached with linked | unused
      · exact .inl (shifts.blockOf? linked unlinked)
      · exact .inr (idle unused)

end Shifts

end Store

namespace Pass

open Store Edit

/-- The variables to promote are locations and plain. -/
structure Handling (addresses : List Ref) (store : Store) : Prop where
  regular : store.Regular
  locations : ∀ address ∈ addresses, store.isLValue address = true
  plain : store.Plain addresses

/-- While variables are promoted, they stay plain, and control stays narrow. -/
structure Promoting (origin : Store) (function : Ref) (addresses : List Ref) (store : Store) :
    Prop extends Handling addresses store where
  narrows : origin.Narrows function store

variable {origin store left : Store} {function address ref : Ref} {addresses gone : List Ref}

namespace Handling

theorem step
    (handling : Handling addresses store)
    (trims : store.Trims left)
    (plain : left.Plain addresses) :
    Handling addresses left where
  regular := trims.regular handling.regular
  locations := fun address listed => trims.isLValue (handling.locations address listed)
  plain := plain

variable (handling : Handling addresses store)

include handling

theorem storable_of_opcode?
    {value : Ref}
    {opcode : Opcode}
    (found : store.opcode? value = some opcode)
    (notLValue : opcode.isLValue = false) :
    store.Storable addresses value where
  present := value?_isSome_of_opcode? found
  notBlock := isBlock_of_opcode? found
  notAddress := fun member =>
    opcode?_ne_of_isLValue (handling.locations value member) notLValue found

/-- A linked write of a variable has a value to write. -/
theorem exists_stored
    (touches : store.Touches .store address ref)
    (listed : address ∈ addresses)
    (linked : (store.blockOf? ref).isSome) :
    ∃ value, (store.operands ref)[1]? = some (some value) ∧ store.Storable addresses value := by
  rcases handling.plain listed linked touches.mem with read | ⟨-, stored⟩
  · cases read.opcode.symm.trans touches.opcode
  · exact stored

theorem ne_of_isLoad (isLoad : store.opcode? ref = some .load) (listed : address ∈ addresses) :
    address ≠ ref := by
  rintro rfl
  exact opcode?_ne_of_isLValue (handling.locations address listed) rfl isLoad

end Handling

/-! ## Substituting a read -/

/-- A read has been replaced by a value and unlinked. -/
def Substitutes (store : Store) (old new : Ref) (left : Store) : Prop :=
  ∃ middle : Store,
    store.Repoints
      (fun ref operands =>
        if (store.blockOf? ref).isSome then operands.map (replaced old new) else operands)
      middle ∧
    middle.Takes [old] left ∧ middle.Trims left

namespace Substitutes

variable {old new : Ref} (substitutes : Substitutes store old new left)

include substitutes

theorem trims : store.Trims left := by
  obtain ⟨middle, repoints, -, trims⟩ := substitutes
  exact repoints.trims.trans trims

theorem blockOf?_eq_some_iff {block : Ref} :
    left.blockOf? ref = some block ↔ store.blockOf? ref = some block ∧ ref ≠ old := by
  obtain ⟨middle, repoints, takes, -⟩ := substitutes
  rw [takes.blockOf?_eq_some_iff, repoints.blockOf?, List.mem_singleton]

theorem linked (linked : (left.blockOf? ref).isSome) : (store.blockOf? ref).isSome := by
  obtain ⟨block, found⟩ := Option.isSome_iff_exists.1 linked
  exact Option.isSome_of_eq_some (substitutes.blockOf?_eq_some_iff.1 found).1

theorem operands (linked : (store.blockOf? ref).isSome) :
    left.operands ref = (store.operands ref).map (replaced old new) := by
  obtain ⟨middle, repoints, takes, -⟩ := substitutes
  rw [takes.operands, repoints.operands, if_pos linked]

theorem operands_unlinked (unlinked : ¬(store.blockOf? ref).isSome) :
    left.operands ref = store.operands ref := by
  obtain ⟨middle, repoints, takes, -⟩ := substitutes
  rw [takes.operands, repoints.operands, if_neg unlinked]

/-- Only the new value gets further users. -/
theorem users
    {address : Ref}
    (different : address ≠ new)
    (linked : (left.blockOf? ref).isSome)
    (member : some address ∈ left.operands ref) :
    (store.blockOf? ref).isSome ∧ some address ∈ store.operands ref := by
  have linked := substitutes.linked linked
  rw [substitutes.operands linked, some_mem_map_replaced] at member
  rcases member with ⟨member, -⟩ | ⟨-, same⟩
  · exact ⟨linked, member⟩
  · exact absurd same different

theorem idle (idle : store.Idle ref) (used : ¬store.Idle new) : left.Idle ref where
  isLoad := substitutes.trims.opcode?_kept idle.isLoad rfl
  unused := by
    intro user linked
    have linked := substitutes.linked linked
    rw [substitutes.operands linked, some_mem_map_replaced]
    rintro (⟨member, -⟩ | ⟨-, rfl⟩)
    · exact idle.unused linked member
    · exact used idle

/-- The read is not used any more. -/
theorem idle_old (isLoad : store.opcode? old = some .load) (different : new ≠ old) :
    left.Idle old where
  isLoad := substitutes.trims.opcode?_kept isLoad rfl
  unused := by
    intro user linked
    rw [substitutes.operands (substitutes.linked linked), some_mem_map_replaced]
    rintro (⟨-, same⟩ | ⟨-, same⟩)
    · exact same rfl
    · exact different same.symm

theorem shifts
    (handling : Handling addresses store)
    (isLoad : store.opcode? old = some .load)
    (storable : store.Storable addresses new) :
    store.Shifts addresses [old] left where
  trims := substitutes.trims
  blockOf? := fun linked kept =>
    substitutes.blockOf?_eq_some_iff.2 ⟨linked, fun same => kept (List.mem_singleton.2 same)⟩
  users := fun listed linked member =>
    substitutes.users (fun same => storable.notAddress (same ▸ listed)) linked member
  head := by
    intro address ref listed head
    by_cases linked : (store.blockOf? ref).isSome
    · have different := handling.ne_of_isLoad isLoad listed
      rw [substitutes.operands linked, List.head?_map, head, Option.map_some, replaced, if_neg]
      exact fun same => different (Option.some.inj same)
    · rw [substitutes.operands_unlinked linked, head]

end Substitutes

theorem Handling.substitutes
    (handling : Handling addresses store)
    {old new : Ref}
    (isLoad : store.opcode? old = some .load)
    (storable : store.Storable addresses new)
    (substitutes : Substitutes store old new left) :
    Handling addresses left := by
  have trims := substitutes.trims
  have shifts := substitutes.shifts handling isLoad storable
  refine handling.step trims (shifts.plain handling.plain fun {ref value} linked _ held fits => ?_)
  rw [substitutes.operands linked, List.getElem?_map, held, Option.map_some, replaced]
  split
  · exact ⟨new, rfl, storable.trims trims⟩
  · exact ⟨value, rfl, fits.trims trims⟩

theorem Promoting.substitutes
    (promoting : Promoting origin function addresses store)
    {old new : Ref}
    (isLoad : store.opcode? old = some .load)
    (storable : store.Storable addresses new)
    (stored : ∀ {ref source home}, store.opcode? ref = some .store →
      store.blockOf? ref = some source → origin.Reached function source →
      (store.operands ref)[1]? = some (some old) →
      store.opcode? new = some .load → store.blockOf? new = some home →
      origin.Dominates function home source)
    (substitutes : Substitutes store old new left) :
    Promoting origin function addresses left where
  toHandling := promoting.toHandling.substitutes isLoad storable substitutes
  narrows := by
    obtain ⟨middle, repoints, takes, trims⟩ := substitutes
    exact (promoting.narrows.replaces repoints storable.notBlock stored).takes takes trims

/-- Replacing a value and removing it. -/
theorem ensures_substitute_bind
    {α : Type}
    {old new : Ref}
    {next : Unit → Edit α}
    {after : α → Store → Prop}
    (coherent : store.Coherent)
    (rest : ∀ left, Substitutes store old new left → Ensures (next ()) left after) :
    Ensures (replaceUses old (some new) >>= fun _ => remove old >>= next) store after := by
  refine Ensures.bind (.of_ends (replaceUses_ends _ _) fun _ middle gives =>
    coherent.repoints_replaceUses gives) ?_
  intro _ middle repoints
  refine Ensures.bind (.of_ends (remove_ends _) fun _ left gives =>
    repoints.trims.coherent.removes gives) ?_
  rintro _ left ⟨takes, trims⟩
  exact rest left ⟨middle, repoints, takes, trims⟩

/-! ## Further steps -/

section Extending

/-! Phis get further operands. -/

variable {extra : Ref → List (Option Ref)}
  (repoints : store.Repoints (fun ref operands => operands ++ extra ref) left)

include repoints

theorem shifts_of_extends
    (storable : ∀ {ref value}, some value ∈ extra ref → store.Storable addresses value) :
    store.Shifts addresses [] left where
  trims := repoints.trims
  blockOf? := fun linked _ => (repoints.blockOf? _).trans linked
  users := by
    intro address ref listed linked member
    rw [repoints.blockOf?] at linked
    rw [repoints.operands, List.mem_append] at member
    exact ⟨linked, member.resolve_right fun new => (storable new).notAddress listed⟩
  head := by
    intro address ref _ head
    rw [repoints.operands, List.head?_append, head]
    rfl

theorem idle_of_extends
    (used : ∀ {ref value}, some value ∈ extra ref → ¬store.Idle value)
    (idle : store.Idle ref) :
    left.Idle ref where
  isLoad := repoints.trims.opcode?_kept idle.isLoad rfl
  unused := by
    intro user linked
    rw [repoints.blockOf?] at linked
    rw [repoints.operands, List.mem_append]
    rintro (member | member)
    · exact idle.unused linked member
    · exact used member idle

theorem Handling.extends
    (handling : Handling addresses store)
    (phis : ∀ {ref}, store.isPhi ref = false → extra ref = [])
    (storable : ∀ {ref value}, some value ∈ extra ref → store.Storable addresses value) :
    Handling addresses left := by
  refine handling.step repoints.trims ((shifts_of_extends repoints storable).plain handling.plain
    fun {ref value} _ isStore held fits => ⟨value, ?_, fits.trims repoints.trims⟩)
  rw [repoints.operands, phis (by simp [isPhi, isStore, Opcode.isPhi]), List.append_nil, held]

theorem Promoting.extends
    (promoting : Promoting origin function addresses store)
    (phis : ∀ {ref}, store.isPhi ref = false → extra ref = [])
    (storable : ∀ {ref value}, some value ∈ extra ref → store.Storable addresses value) :
    Promoting origin function addresses left where
  toHandling := promoting.toHandling.extends repoints phis storable
  narrows := by
    refine promoting.narrows.repoints_apart repoints ?_
    rintro ref (isTerminator | isStore)
    · have notPhi : store.isPhi ref = false := by
        rw [Bool.eq_false_iff]
        intro isPhi
        rw [isTerminator_of_isPhi isPhi] at isTerminator
        cases isTerminator
      rw [phis notPhi, List.append_nil]
    · rw [phis (by simp [isPhi, isStore, Opcode.isPhi]), List.append_nil]

end Extending

section Receiving

/-! A block receives a phi without incomings. -/

variable {block phi : Ref} {after : Option Ref} {entry : Instruction}
  (receives : store.Receives block after phi entry left)

include receives

theorem some_mem_operands_of_receives
    (empty : entry.values = [])
    {user value : Ref}
    (linked : (left.blockOf? user).isSome)
    (member : some value ∈ left.operands user) :
    (store.blockOf? user).isSome ∧ some value ∈ store.operands user := by
  by_cases atPhi : user = phi
  · subst atPhi
    rw [receives.operands_new, empty] at member
    cases member
  · rw [receives.blockOf?_old atPhi] at linked
    rw [receives.operands_old atPhi] at member
    exact ⟨linked, member⟩

theorem trims_of_receives (isPhi : entry.opcode = .phi []) : store.Trims left :=
  receives.trims (by rw [isPhi]; rfl) (by rw [isPhi]; rfl)

theorem shifts_of_receives
    (isPhi : entry.opcode = .phi [])
    (empty : entry.values = [])
    (addresses : List Ref) :
    store.Shifts addresses [] left where
  trims := trims_of_receives receives isPhi
  blockOf? := by
    intro ref block linked _
    have present := value?_isSome_of_blockOf? (Option.isSome_of_eq_some linked)
    rw [receives.blockOf?_old (receives.ne_new present), linked]
  users := fun _ linked member => some_mem_operands_of_receives receives empty linked member
  head := by
    intro address ref _ head
    have present : (store.value? ref).isSome := by
      cases found : store.instruction? ref with
      | none => simp [operands, found] at head
      | some entry => exact value?_isSome_of_instruction? found
    rw [receives.operands_old (receives.ne_new present), head]

theorem idle_of_receives
    (isPhi : entry.opcode = .phi [])
    (empty : entry.values = [])
    (idle : store.Idle ref) :
    left.Idle ref where
  isLoad := (trims_of_receives receives isPhi).opcode?_kept idle.isLoad rfl
  unused := by
    intro user linked member
    obtain ⟨linked, member⟩ := some_mem_operands_of_receives receives empty linked member
    exact idle.unused linked member

end Receiving

theorem Handling.receives
    (handling : Handling addresses store)
    {block phi : Ref}
    {entry : Instruction}
    (receives : store.Receives block none phi entry left)
    (isPhi : entry.opcode = .phi [])
    (empty : entry.values = []) :
    Handling addresses left := by
  have trims := trims_of_receives receives isPhi
  refine handling.step trims ((shifts_of_receives receives isPhi empty addresses).plain
    handling.plain fun {ref value} linked _ held fits => ?_)
  have different := receives.ne_new (value?_isSome_of_blockOf? linked)
  exact ⟨value, by rw [receives.operands_old different, held], fits.trims trims⟩

theorem Promoting.receives
    (promoting : Promoting origin function addresses store)
    {block phi : Ref}
    {entry : Instruction}
    (receives : store.Receives block none phi entry left)
    (isPhi : entry.opcode = .phi [])
    (empty : entry.values = [])
    (isBlock : store.isBlock block = true) :
    Promoting origin function addresses left where
  toHandling := promoting.toHandling.receives receives isPhi empty
  narrows := by
    refine promoting.narrows.receives receives isBlock (by rw [isPhi]; rfl) (by rw [isPhi]; rfl)
      (fun _ _ none => by cases none) fun isStore => ?_
    rw [isPhi] at isStore
    cases isStore

/-! Instructions are unlinked. -/

theorem linked_of_takes (takes : store.Takes gone left) (linked : (left.blockOf? ref).isSome) :
    (store.blockOf? ref).isSome := by
  obtain ⟨block, found⟩ := Option.isSome_iff_exists.1 linked
  exact Option.isSome_of_eq_some (takes.blockOf?_eq_some_iff.1 found).1

theorem shifts_of_takes
    (takes : store.Takes gone left)
    (trims : store.Trims left)
    (addresses : List Ref) :
    store.Shifts addresses gone left where
  trims := trims
  blockOf? := fun linked kept => takes.blockOf?_eq_some_iff.2 ⟨linked, kept⟩
  users := by
    intro address ref _ linked member
    rw [takes.operands] at member
    exact ⟨linked_of_takes takes linked, member⟩
  head := fun _ head => by rw [takes.operands, head]

theorem idle_of_takes (takes : store.Takes gone left) (idle : store.Idle ref) : left.Idle ref where
  isLoad := (takes.opcode? ref).trans idle.isLoad
  unused := by
    intro user linked
    rw [takes.operands]
    exact idle.unused (linked_of_takes takes linked)

theorem Handling.takes
    (handling : Handling addresses store)
    (takes : store.Takes gone left)
    (trims : store.Trims left) :
    Handling addresses left := by
  refine handling.step trims ((shifts_of_takes takes trims addresses).plain handling.plain
    fun {ref value} _ _ held fits => ⟨value, ?_, fits.trims trims⟩)
  rw [takes.operands, held]

theorem Promoting.takes
    (promoting : Promoting origin function addresses store)
    (takes : store.Takes gone left)
    (trims : store.Trims left) :
    Promoting origin function addresses left where
  toHandling := promoting.toHandling.takes takes trims
  narrows := promoting.narrows.takes takes trims

end Pass

end ShaderIR
