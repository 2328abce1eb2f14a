import ShaderIR.Proofs.Promotion.Charting

/-!
# Promoting a variable spares the others

Promoting a variable puts phis at the heads of blocks, puts values in the place of its reads
and takes it out with its writes.  The values are phis, undefined ones, or ones that were
written to the variable, so a variable can hold them.  Therefore the accesses of all other
variables stay as they are, and control moves as it did.
-/

namespace ShaderIR

open Store Edit

open Pass (Accesses Handling Charts)

theorem DominatorTree.mem_blocks_of_mem_path
    {tree : DominatorTree}
    {block other : Ref}
    (member : other ∈ tree.path block) :
    other ∈ tree.blocks := by
  unfold path at member
  split at member
  · cases member
  · obtain ⟨position, -, found⟩ := List.mem_filterMap.1 member
    exact Array.mem_of_getElem? found

theorem Store.isAccess_of_isPhi
    {store : Store}
    {address ref : Ref}
    (isPhi : store.isPhi ref = true) :
    store.isAccess address ref = false := by
  obtain ⟨opcode, found, isPhi⟩ := (Option.any_eq_true _ _).1 isPhi
  cases opcode <;> simp_all [isAccess, Opcode.isPhi]

namespace Pass

variable {store left last : Store} {function ref block : Ref} {addresses kept : List Ref}
  {accesses : Accesses} {tree : DominatorTree}

/-! ## One step -/

/-- A new phi is no access. -/
theorem spares_of_receives
    {phi : Ref}
    {entry : Instruction}
    (receives : store.Receives block none phi entry left)
    (coherent : store.Coherent)
    (isPhi : entry.opcode = .phi [])
    (empty : entry.values = [])
    (isBlock : store.isBlock block = true) :
    store.Spares kept left where
  toRestrains := receives.restrains (trims_of_receives receives isPhi)
  accessesOf := by
    intro address _ other
    have notAccess : left.isAccess address phi = false := by
      simp [isAccess, receives.operands_new, empty]
    have same : (store.instructions other).filter (left.isAccess address) =
        store.accessesOf address other := by
      refine List.filter_congr fun ref member => ?_
      have old := receives.ne_new (value?_isSome_of_blockOf? (coherent.linked_of_mem member))
      rw [isAccess, receives.opcode?_old old, receives.operands_old old, isAccess]
    rw [accessesOf, receives.instructions isBlock]
    split
    · exact (List.filter_cons_of_neg (by simp [notAccess])).trans same
    · exact same
  touches := by
    intro address _ opcode ref _ touches
    have old := receives.ne_new (value?_isSome_of_opcode? touches.opcode)
    exact ⟨by rw [receives.opcode?_old old, touches.opcode],
      by rw [receives.operands_old old, touches.head]⟩

/-- A read of a variable is no access of another one. -/
theorem Substitutes.spares
    {old new : Ref}
    (substitutes : Substitutes store old new left)
    (coherent : store.Coherent)
    (handling : Handling addresses store)
    (touches : store.Touches .load accesses.address old)
    (storable : store.Storable addresses new)
    (among : ∀ address ∈ kept, address ∈ addresses)
    (apart : accesses.address ∉ kept) :
    store.Spares kept left where
  toRestrains := substitutes.restrains storable.notBlock
  accessesOf := by
    intro address listed block
    have notAccess : store.isAccess address old = false := by
      refine isAccess_of_ne touches ?_
      rintro rfl
      exact apart listed
    rw [accessesOf, accessesOf, substitutes.instructions, List.filter_filter]
    refine List.filter_congr fun ref member => ?_
    rw [handling.isAccess_of_substitutes substitutes touches.opcode storable (among address listed)
      (coherent.linked_of_mem member)]
    by_cases isOld : ref = old
    · simp [isOld, notAccess]
    · simp [isOld]
  touches := fun address listed _ _ notPhi access =>
    (substitutes.shifts handling touches.opcode storable).touches access notPhi
      (among address listed)

/-- Accesses get no further operands. -/
theorem spares_of_extends
    {extra : Ref → List (Option Ref)}
    (repoints : store.Repoints (fun ref operands => operands ++ extra ref) left)
    (coherent : store.Coherent)
    (phis : ∀ {ref}, store.isPhi ref = false → extra ref = []) :
    store.Spares kept left where
  toRestrains := restrains_of_extends repoints phis
  accessesOf := by
    intro address _ block
    rw [accessesOf, accessesOf, repoints.instructions]
    refine List.filter_congr fun ref member => ?_
    have present := value?_isSome_of_blockOf? (coherent.linked_of_mem member)
    by_cases isPhi : store.isPhi ref = true
    · rw [isAccess_of_isPhi isPhi, isAccess_of_isPhi (repoints.trims.isPhi isPhi)]
    · refine repoints.trims.isAccess_congr present ?_
      rw [repoints.operands, phis (by simpa using isPhi), List.append_nil]
  touches := by
    intro address _ opcode ref notPhi access
    refine access.trims repoints.trims notPhi ?_
    rw [repoints.operands, phis, List.append_nil, access.head]
    rw [Store.isPhi, access.opcode, Option.any_some, notPhi]

/-- An undefined value can be held by a variable. -/
theorem Handling.storable_of_isUndefined
    (handling : Handling addresses store)
    (undefined : store.isUndefined ref = true) :
    store.Storable addresses ref := by
  have content := isUndefined_iff.1 undefined
  refine ⟨content?_isSome_iff.1 (Option.isSome_of_eq_some content), ?_, fun member => ?_⟩
  · simp [isBlock, content]
  · have location := handling.locations ref member
    simp [Store.isLValue, content] at location

/-! ## While a variable is promoted -/

/--
While a variable is promoted, its writes stay in their blocks, its reads are those to be
replaced, and what takes their place can be held by a variable.
-/
structure Replacing (addresses kept : List Ref) (tree : DominatorTree) (accesses : Accesses)
    (state : Renaming) (store left : Store) : Prop where
  handling : Handling addresses left
  spares : store.Spares kept left
  listed : accesses.address ∈ addresses
  among : ∀ address ∈ kept, address ∈ addresses
  apart : accesses.address ∉ kept
  stores : ∀ ref ∈ accesses.stores, left.Touches .store accesses.address ref
  writes : ∀ block ∈ tree.blocks, ∀ ref, accesses.writes.lookup block = some ref →
    left.Touches .store accesses.address ref ∧ (left.blockOf? ref).isSome
  reads : ∀ read ∈ state.reads, left.Touches .load accesses.address read.2
  phis : ∀ entry ∈ state.phis, left.isPhi entry.2 = true
  replaced : ∀ entry ∈ state.replaced, ∃ value, entry.2 = some value ∧
    left.Storable addresses value

namespace Replacing

variable {state state' : Renaming} {type : Option Ty} {value : Ref} {gone : List Ref}

section Steps

variable (replacing : Replacing addresses kept tree accesses state store left)

include replacing

theorem coherent : left.Coherent :=
  replacing.spares.trims.coherent

theorem step
    (handling : Handling addresses last)
    (spares : left.Spares kept last)
    (shifts : left.Shifts addresses gone last)
    (unwritten : ∀ ref ∈ gone, left.opcode? ref ≠ some .store) :
    Replacing addresses kept tree accesses state store last where
  handling := handling
  spares := replacing.spares.trans spares
  listed := replacing.listed
  among := replacing.among
  apart := replacing.apart
  stores := fun ref member => shifts.touches (replacing.stores ref member) rfl replacing.listed
  writes := by
    intro block inside ref noted
    obtain ⟨write, linked⟩ := replacing.writes block inside ref noted
    obtain ⟨home, atHome⟩ := Option.isSome_iff_exists.1 linked
    exact ⟨shifts.touches write rfl replacing.listed, Option.isSome_of_eq_some
      (shifts.blockOf? atHome fun taken => unwritten ref taken write.opcode)⟩
  reads := fun read member => shifts.touches (replacing.reads read member) rfl replacing.listed
  phis := fun entry member => spares.trims.isPhi (replacing.phis entry member)
  replaced := by
    intro entry member
    obtain ⟨value, held, storable⟩ := replacing.replaced entry member
    exact ⟨value, held, storable.trims spares.trims⟩

theorem storable_of_isPhi (isPhi : left.isPhi ref = true) : left.Storable addresses ref := by
  obtain ⟨opcode, found, holds⟩ := (Option.any_eq_true _ _).1 isPhi
  refine replacing.handling.storable_of_opcode? found ?_
  cases opcode <;> simp_all [Opcode.isPhi, Opcode.isLValue]

/-- Phis get further operands, which a variable can hold. -/
theorem extends_
    {extra : Ref → List (Option Ref)}
    (repoints : left.Repoints (fun ref operands => operands ++ extra ref) last)
    (phis : ∀ {ref}, left.isPhi ref = false → extra ref = [])
    (storable : ∀ {ref value}, some value ∈ extra ref → left.Storable addresses value) :
    Replacing addresses kept tree accesses state store last :=
  replacing.step (replacing.handling.extends repoints phis storable)
    (spares_of_extends repoints replacing.coherent phis) (shifts_of_extends repoints storable)
    fun _ none => by cases none

/-- A read is replaced by a value that a variable can hold. -/
theorem replace
    {load : Ref}
    (touches : left.Touches .load accesses.address load)
    (storable : left.Storable addresses value)
    (gives : Gives (state.replace load (some value)) left state' last) :
    Replacing addresses kept tree accesses state' store last ∧ state'.phis = state.phis ∧
      state'.reads = state.reads := by
  obtain ⟨_, middle, replaces, gives⟩ := gives_bind_iff.1 gives
  obtain ⟨_, _, removes, returned⟩ := gives_bind_iff.1 gives
  obtain ⟨rfl, rfl⟩ := gives_pure_iff.1 returned
  have repoints := replacing.coherent.repoints_replaceUses replaces
  obtain ⟨takes, trims⟩ := repoints.trims.coherent.removes removes
  have substitutes : Substitutes left load value last := ⟨middle, repoints, takes, trims⟩
  have replacing' : Replacing addresses kept tree accesses state store last := by
    refine replacing.step (replacing.handling.substitutes touches.opcode storable substitutes)
      (substitutes.spares replacing.coherent replacing.handling touches storable replacing.among
        replacing.apart)
      (substitutes.shifts replacing.handling touches.opcode storable) fun ref taken isStore => ?_
    rw [List.mem_singleton.1 taken] at isStore
    cases touches.opcode.symm.trans isStore
  exact ⟨{ replacing' with
    replaced := List.forall_mem_cons.2
      ⟨⟨value, rfl, storable.trims substitutes.trims⟩, replacing'.replaced⟩ }, rfl, rfl⟩

/-! ## Values that reach a block -/

theorem storable_of_outValue?
    {result : Option Ref}
    (inside : block ∈ tree.blocks)
    (found : outValue? left accesses state block = some result) :
    ∃ value, result = some value ∧ left.Storable addresses value := by
  unfold outValue? at found
  split at found
  · rename_i write noted
    obtain ⟨touches, linked⟩ := replacing.writes block inside write noted
    obtain ⟨value, held, storable⟩ :=
      replacing.handling.exists_stored touches replacing.listed linked
    obtain ⟨entry, present, atSecond⟩ := Option.bind_eq_some_iff.1 found
    rw [getElem?_operands present, atSecond] at held
    exact ⟨value, Option.some.inj held, storable⟩
  · obtain ⟨phi, noted, rfl⟩ := Option.map_eq_some_iff.1 found
    exact ⟨phi, rfl, replacing.storable_of_isPhi (replacing.phis _ (mem_of_lookup noted))⟩

/-- A block has a value at its end when it writes the variable or has got a phi. -/
theorem isSome_outValue?_iff (inside : block ∈ tree.blocks) :
    (outValue? left accesses state block).isSome = true ↔
      block ∈ accesses.writers ∨ block ∈ state.phis.map (·.1) := by
  unfold outValue?
  split
  · rename_i write noted
    obtain ⟨touches, linked⟩ := replacing.writes block inside write noted
    obtain ⟨value, held, -⟩ := replacing.handling.exists_stored touches replacing.listed linked
    obtain ⟨entry, present, -⟩ := Option.map_eq_some_iff.1 touches.opcode
    rw [getElem?_operands present] at held
    refine iff_of_true ?_ (.inl (exists_lookup_iff.1 ⟨write, noted⟩))
    rw [present, Option.bind_some, held, Option.isSome_some]
  · rename_i unwritten
    rw [lookup_eq_none_iff_notMem] at unwritten
    rw [Option.isSome_map, Option.isSome_iff_exists, exists_lookup_iff]
    exact (or_iff_right unwritten).symm

theorem storable_of_resolve
    {bound : Nat}
    {found : Option Ref}
    (storable : left.Storable addresses value)
    (gives : Gives (resolve state.replaced bound (some value)) left found last) :
    last = left ∧ ∃ value, found = some value ∧ left.Storable addresses value := by
  induction bound generalizing value with
  | zero => exact absurd gives not_gives_endless
  | succ bound induction =>
      unfold resolve at gives
      rw [Option.bind_some] at gives
      split at gives
      · rename_i next noted
        obtain ⟨next, rfl, storable⟩ := replacing.replaced _ (mem_of_lookup noted)
        exact induction storable gives
      · obtain ⟨rfl, unchanged⟩ := gives_pure_iff.1 gives
        exact ⟨unchanged, value, rfl, storable⟩

/-- What reaches a block can be held by a variable. -/
theorem reachingValue
    {start result : Option Ref}
    (gives : Gives (reachingValue tree accesses state start) left result last) :
    Replacing addresses kept tree accesses state store last ∧
      ∃ value, result = some value ∧ last.Storable addresses value := by
  replace gives := gives_see_bind_iff.1 gives
  split at gives
  · rename_i found
    obtain ⟨block, member, found⟩ := List.exists_of_findSome?_eq_some found
    have inside : block ∈ tree.blocks := by
      cases start with
      | none => cases member
      | some start => exact DominatorTree.mem_blocks_of_mem_path member
    obtain ⟨value, rfl, storable⟩ := replacing.storable_of_outValue? inside found
    obtain ⟨rfl, reached⟩ := replacing.storable_of_resolve storable gives
    exact ⟨replacing, reached⟩
  · replace gives := gives_see_bind_iff.1 gives
    obtain ⟨module, -, gives⟩ := gives_demand_bind_iff.1 gives
    replace gives := gives_see_bind_iff.1 gives
    obtain ⟨value, _, made, returned⟩ := gives_bind_iff.1 gives
    obtain ⟨rfl, rfl⟩ := gives_pure_iff.1 returned
    obtain ⟨undefined, repoints⟩ :=
      replacing.coherent.repoints_undefined replacing.handling.regular made
    have extended : left.Repoints (fun ref operands => operands ++ (fun _ => []) ref) last :=
      repoints.congr fun _ operands => List.append_nil operands
    have replacing := replacing.extends_ extended (fun _ => rfl) (by simp)
    exact ⟨replacing, value, rfl, replacing.handling.storable_of_isUndefined undefined⟩

/-! ## Placing phis -/

theorem place
    (isBlock : store.isBlock block = true)
    (gives : Gives (state.place type block) left state' last) :
    Replacing addresses kept tree accesses state' store last := by
  obtain ⟨phi, between, placed, gives⟩ := gives_bind_iff.1 gives
  obtain ⟨moved, yields⟩ := Build.yields_run_iff.1 placed
  obtain ⟨_, _, _, positioned, yields⟩ := Build.yields_bind_iff.1 yields
  obtain ⟨atHead, unchanged⟩ := Build.yields_set_iff.1 positioned
  rw [unchanged, atHead] at yields
  have isBlock : left.isBlock block = true := by
    rw [replacing.spares.trims.ages.isBlock, isBlock]
  have stands : ({ block := some block } : Cursor).Stands left := by
    rintro _ ⟨⟩
    exact isBlock
  obtain ⟨_, entry, ⟨⟩, isPhi, empty, receives⟩ :=
    Build.receives_phi replacing.coherent stands yields
  have replacing := replacing.step (replacing.handling.receives receives isPhi empty)
    (spares_of_receives receives replacing.coherent isPhi empty isBlock)
    (shifts_of_receives receives isPhi empty addresses) fun _ none => by cases none
  have isNew : between.isPhi phi = true := by
    rw [Store.isPhi, receives.opcode?_new, isPhi]
    rfl
  have replacing : Replacing addresses kept tree accesses
      { state with phis := state.phis ++ [(block, phi)] } store between :=
    { replacing with
      phis := List.forall_mem_append.2 ⟨replacing.phis, List.forall_mem_singleton.2 isNew⟩ }
  dsimp only at gives
  split at gives
  · obtain ⟨rfl, rfl⟩ := gives_pure_iff.1 gives
    exact replacing
  · rename_i load found
    obtain ⟨_, _, replaced, returned⟩ := gives_bind_iff.1 gives
    obtain ⟨rfl, rfl⟩ := gives_pure_iff.1 returned
    obtain ⟨replacing', -, reads⟩ := replacing.replace (replacing.reads _ (mem_of_lookup found))
      (replacing.storable_of_isPhi isNew) replaced
    exact { replacing' with
      reads := fun read member => replacing'.reads read (List.mem_of_mem_filter member) }

end Steps

theorem placeAll
    {blocks : List Ref}
    (replacing : Replacing addresses kept tree accesses state store left)
    (isBlock : ∀ block ∈ blocks, store.isBlock block = true)
    (gives : Gives (state.placeAll type blocks) left state' last) :
    Replacing addresses kept tree accesses state' store last := by
  induction blocks generalizing state left with
  | nil =>
      obtain ⟨rfl, rfl⟩ := gives_pure_iff.1 gives
      exact replacing
  | cons block rest induction =>
      obtain ⟨here, later⟩ := List.forall_mem_cons.1 isBlock
      obtain ⟨_, _, placed, others⟩ := gives_bind_iff.1 gives
      exact induction (replacing.place here placed) later others

theorem placePhis
    {live stack : List Ref}
    {bound : Nat}
    (replacing : Replacing addresses kept tree accesses state store left)
    (isBlock : ∀ block ∈ tree.blocks, store.isBlock block = true)
    (gives : Gives (placePhis tree live type bound stack state) left state' last) :
    Replacing addresses kept tree accesses state' store last := by
  induction bound generalizing stack state left with
  | zero => exact absurd gives not_gives_endless
  | succ bound induction =>
      cases stack with
      | nil =>
          obtain ⟨rfl, rfl⟩ := gives_pure_iff.1 gives
          exact replacing
      | cons block rest =>
          obtain ⟨_, _, placed, others⟩ := gives_bind_iff.1 gives
          refine induction (replacing.placeAll (fun target member => ?_) placed) others
          exact isBlock target (mem_blocks_of_mem_frontier (List.mem_of_mem_filter member))

/-! ## Replacing the reads and filling the phis -/

theorem renameReads
    {reads : List (Ref × Ref)}
    (replacing : Replacing addresses kept tree accesses state store left)
    (listed : ∀ read ∈ reads, read ∈ state.reads)
    (gives : Gives (renameReads tree accesses reads state) left state' last) :
    Replacing addresses kept tree accesses state' store last ∧ state'.phis = state.phis := by
  induction reads generalizing state left with
  | nil =>
      obtain ⟨rfl, rfl⟩ := gives_pure_iff.1 gives
      exact ⟨replacing, rfl⟩
  | cons read rest induction =>
      obtain ⟨here, later⟩ := List.forall_mem_cons.1 listed
      obtain ⟨_, between, reaches, gives⟩ := gives_bind_iff.1 gives
      obtain ⟨next, middle, replaced, others⟩ := gives_bind_iff.1 gives
      obtain ⟨replacing, value, rfl, storable⟩ := replacing.reachingValue reaches
      obtain ⟨replacing, phis, reads⟩ :=
        replacing.replace (replacing.reads read here) storable replaced
      obtain ⟨replacing, phis'⟩ := induction replacing (reads ▸ later) others
      exact ⟨replacing, phis'.trans phis⟩

theorem fillPhi
    {phi : Ref}
    {sources : List Ref}
    {answer : Unit}
    (replacing : Replacing addresses kept tree accesses state store left)
    (placed : (block, phi) ∈ state.phis)
    (gives : Gives (fillPhi tree accesses state phi sources) left answer last) :
    Replacing addresses kept tree accesses state store last := by
  induction sources generalizing left with
  | nil =>
      obtain ⟨-, rfl⟩ := gives_pure_iff.1 gives
      exact replacing
  | cons source rest induction =>
      obtain ⟨_, between, reaches, gives⟩ := gives_bind_iff.1 gives
      obtain ⟨_, middle, adds, others⟩ := gives_bind_iff.1 gives
      obtain ⟨replacing, value, rfl, storable⟩ := replacing.reachingValue reaches
      have isPhi := replacing.phis _ placed
      have repoints := replacing.coherent.repoints_addIncoming isPhi adds
      have extended : between.Repoints
          (fun ref operands => operands ++ if phi = ref then [some value] else []) middle :=
        repoints.congr fun ref operands => by split <;> simp
      refine induction (replacing.extends_ extended (fun {ref} notPhi => if_neg ?_) ?_) others
      · rintro rfl
        rw [isPhi] at notPhi
        cases notPhi
      · intro ref other member
        split at member
        · rwa [Option.some.inj (List.mem_singleton.1 member)]
        · cases member

theorem fillPhis
    {phis : List (Ref × Ref)}
    {answer : Unit}
    (replacing : Replacing addresses kept tree accesses state store left)
    (placed : ∀ entry ∈ phis, entry ∈ state.phis)
    (gives : Gives (fillPhis tree accesses state phis) left answer last) :
    Replacing addresses kept tree accesses state store last := by
  induction phis generalizing left with
  | nil =>
      obtain ⟨-, rfl⟩ := gives_pure_iff.1 gives
      exact replacing
  | cons entry rest induction =>
      obtain ⟨here, later⟩ := List.forall_mem_cons.1 placed
      replace gives := gives_see_bind_iff.1 gives
      obtain ⟨_, between, fills, others⟩ := gives_bind_iff.1 gives
      exact induction (replacing.fillPhi here fills) later others

end Replacing

/-! ## Promoting one variable after the other -/

namespace Charting

variable {others : List Accesses} {progress progress' : Promotion × List Ref}

/-- A variable is promoted starting from what is charted of it. -/
theorem replacing
    (charting : Charting function addresses (accesses :: others) store)
    (owned : ∀ block ∈ tree.blocks, store.blockFunction? block = some function) :
    Replacing addresses (others.map (·.address)) tree accesses { reads := accesses.reads } store
      store where
  handling := charting.handling
  spares := .refl charting.coherent _
  listed := charting.listed accesses List.mem_cons_self
  among := List.forall_mem_map.2 (List.forall_mem_cons.1 charting.listed).2
  apart := (List.nodup_cons.1 charting.distinct).1
  stores := (charting.charts accesses List.mem_cons_self).accessed.stores
  writes := by
    intro block inside ref noted
    obtain ⟨writes, equal, last, -, isStore⟩ :=
      (charting.charts accesses List.mem_cons_self).exists_writes (owned block inside)
    have written : ref ∈ writes := List.mem_of_getLast? (last.symm.trans noted)
    have member : ref ∈ store.accessesOf accesses.address block := by
      rw [equal]
      exact List.mem_append_right _ written
    exact ⟨isStore ref written, charting.coherent.linked_of_mem (List.mem_of_mem_filter member)⟩
  reads := (charting.charts accesses List.mem_cons_self).accessed.reads
  phis := fun _ none => by cases none
  replaced := fun _ none => by cases none

theorem promoteVariable
    (charting : Charting function addresses (accesses :: others) store)
    (owned : ∀ block ∈ tree.blocks, store.blockFunction? block = some function)
    (gives : Gives (promoteVariable tree progress accesses) store progress' left) :
    store.Restrains left ∧ Charting function addresses others left := by
  have isBlock : ∀ block ∈ tree.blocks, store.isBlock block = true := fun block inside =>
    isBlock_iff_blockFunction?.2 (Option.isSome_of_eq_some (owned block inside))
  replace gives := gives_see_bind_iff.1 (gives_see_bind_iff.1 gives)
  obtain ⟨state, between, places, gives⟩ := gives_bind_iff.1 gives
  have replacing := (charting.replacing owned).placePhis isBlock places
  obtain ⟨state, middle, renames, gives⟩ := gives_bind_iff.1 gives
  obtain ⟨replacing, -⟩ := replacing.renameReads (fun _ member => member) renames
  obtain ⟨_, after, fills, gives⟩ := gives_bind_iff.1 gives
  have replacing := replacing.fillPhis (fun _ member => member) fills
  obtain ⟨_, _, removes, returned⟩ := gives_bind_iff.1 gives
  obtain ⟨-, rfl⟩ := gives_pure_iff.1 returned
  obtain ⟨handling, spares⟩ := spares_removeVariable replacing.coherent replacing.handling
    replacing.listed replacing.stores replacing.apart removes
  have spares := replacing.spares.trans spares
  exact ⟨spares.toRestrains, charting.tail.spares handling spares⟩

theorem promoteVariables
    {promoted : List Accesses}
    (charting : Charting function addresses (promoted ++ others) store)
    (owned : ∀ block ∈ tree.blocks, store.blockFunction? block = some function)
    (gives : Gives (promoted.foldlM (Pass.promoteVariable tree) progress) store progress' left) :
    store.Restrains left ∧ Charting function addresses others left := by
  induction promoted generalizing store progress with
  | nil =>
      obtain ⟨-, rfl⟩ := gives_pure_iff.1 gives
      exact ⟨.refl charting.coherent, charting⟩
  | cons accesses rest induction =>
      rw [List.foldlM_cons] at gives
      obtain ⟨between, middle, first, later⟩ := gives_bind_iff.1 gives
      obtain ⟨restrains, charting⟩ := charting.promoteVariable owned first
      obtain ⟨restrains', charting⟩ := induction charting (fun block inside => by
        rw [restrains.trims.ages.blockFunction?, owned block inside]) later
      exact ⟨restrains.trans restrains', charting⟩

end Charting

end Pass

end ShaderIR
