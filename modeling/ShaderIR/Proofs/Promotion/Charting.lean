import ShaderIR.Proofs.Promotion.Surveying
import ShaderIR.Proofs.Promotion.Termination

/-!
# The accesses of other variables stay

What is charted of the variables that are still to be promoted stays right while others are
taken out: an instruction that accesses one variable accesses no other one.  Control moves as
it did before.
-/

namespace ShaderIR

open Store Edit

open Pass (Accesses Handling Charts)

namespace Store

/-- A step that leaves the accesses of some variables and the ways of control as they are. -/
structure Spares (store : Store) (addresses : List Ref) (left : Store) : Prop
    extends store.Restrains left where
  accessesOf : ∀ address ∈ addresses, ∀ block,
    left.accessesOf address block = store.accessesOf address block
  touches : ∀ address ∈ addresses, ∀ {opcode ref}, opcode.isPhi = false →
    store.Touches opcode address ref → left.Touches opcode address ref

variable {store left last : Store} {address ref : Ref} {addresses gone : List Ref}

namespace Spares

theorem refl (coherent : store.Coherent) (addresses : List Ref) : store.Spares addresses store where
  toRestrains := .refl coherent
  accessesOf := fun _ _ _ => rfl
  touches := fun _ _ _ _ _ touches => touches

theorem trans (spares : store.Spares addresses left) (spares' : left.Spares addresses last) :
    store.Spares addresses last where
  toRestrains := spares.toRestrains.trans spares'.toRestrains
  accessesOf := fun address listed block =>
    (spares'.accessesOf address listed block).trans (spares.accessesOf address listed block)
  touches := fun address listed _ _ notPhi touches =>
    spares'.touches address listed notPhi (spares.touches address listed notPhi touches)

end Spares

theorem Takes.isAccess (takes : store.Takes gone left) (address ref : Ref) :
    left.isAccess address ref = store.isAccess address ref := by
  rw [Store.isAccess, takes.opcode?, takes.operands, Store.isAccess]

/-- Taking out instructions that do not access the variables. -/
theorem Takes.spares
    (takes : store.Takes gone left)
    (trims : store.Trims left)
    (apart : ∀ address ∈ addresses, ∀ ref ∈ gone, store.isAccess address ref = false) :
    store.Spares addresses left where
  toRestrains := takes.restrains trims
  accessesOf := by
    intro address listed block
    rw [accessesOf, accessesOf, takes.instructions, List.filter_filter]
    refine List.filter_congr fun ref _ => ?_
    rw [takes.isAccess]
    cases access : store.isAccess address ref with
    | false => rfl
    | true =>
        have kept : ref ∉ gone := fun taken => by
          rw [apart address listed ref taken] at access
          cases access
        simpa using kept
  touches := by
    rintro address - opcode ref - ⟨found, head⟩
    exact ⟨(takes.opcode? ref).trans found, (takes.operands ref).symm ▸ head⟩

end Store

namespace Pass

variable {store left : Store} {function ref : Ref} {addresses : List Ref}
  {accesses : Accesses}

/-- The accesses of a block are the read noted, if there is one, and writes. -/
theorem Charts.exists_writes
    {block : Ref}
    (charts : Charts function store accesses)
    (owned : store.blockFunction? block = some function) :
    ∃ writes, store.accessesOf accesses.address block =
        (accesses.reads.lookup block).toList ++ writes ∧
      accesses.writes.lookup block = writes.getLast? ∧
      (∀ ref ∈ accesses.reads.lookup block, store.Touches .load accesses.address ref) ∧
      ∀ ref ∈ writes, store.Touches .store accesses.address ref := by
  obtain ⟨⟨writes, equal, last, isStore⟩, isLoad⟩ := charts.notes block owned
  have head {opcode : Opcode} {ref : Ref} (found : store.opcode? ref = some opcode)
      (member : ref ∈ (accesses.reads.lookup block).toList ++ writes) :
      store.Touches opcode accesses.address ref := by
    rw [← equal] at member
    rcases isAccess_iff.1 (List.mem_filter.1 member).2 with read | write
    · exact ⟨found, read.head⟩
    · exact ⟨found, write.head⟩
  refine ⟨writes, equal, last, fun ref noted => ?_, fun ref member => ?_⟩
  · exact head (isLoad ref noted) (List.mem_append_left _ (Option.mem_toList.2 noted))
  · exact head (isStore ref member) (List.mem_append_right _ member)

theorem Charts.spares
    (charts : Charts function store accesses)
    (spares : store.Spares addresses left)
    (listed : accesses.address ∈ addresses) :
    Charts function left accesses where
  notes := by
    intro block owned
    rw [spares.trims.ages.blockFunction?] at owned
    rw [spares.accessesOf _ listed]
    exact (charts.notes block owned).trims spares.trims
  accessed := charts.accessed.step (spares.touches _ listed)
  distinct := charts.distinct
  present := by
    intro block reader
    rw [spares.trims.ages.isBlock, charts.present block reader]

/-! ## Removing the variables that are not read -/

/-- The variables still to be promoted are plain and charted. -/
structure Charting (function : Ref) (addresses : List Ref) (kept : List Accesses) (store : Store) :
    Prop where
  coherent : store.Coherent
  handling : Handling addresses store
  listed : ∀ accesses ∈ kept, accesses.address ∈ addresses
  distinct : (kept.map (·.address)).Nodup
  charts : ∀ accesses ∈ kept, Charts function store accesses

/-- A location is no access. -/
theorem Handling.isAccess_of_listed
    {address : Ref}
    (handling : Handling addresses store)
    (listed : ref ∈ addresses) :
    store.isAccess address ref = false := by
  rw [Bool.eq_false_iff]
  intro access
  rcases isAccess_iff.1 access with read | write
  · exact opcode?_ne_of_isLValue (handling.locations ref listed) rfl read.opcode
  · exact opcode?_ne_of_isLValue (handling.locations ref listed) rfl write.opcode

/-- Removing one variable leaves the accesses of others as they are. -/
theorem spares_removeVariable
    {kept : List Ref}
    {report report' : Promotion}
    (coherent : store.Coherent)
    (handling : Handling addresses store)
    (listed : accesses.address ∈ addresses)
    (stores : ∀ ref ∈ accesses.stores, store.Touches .store accesses.address ref)
    (apart : accesses.address ∉ kept)
    (gives : Gives (removeVariable report accesses) store report' left) :
    Handling addresses left ∧ store.Spares kept left := by
  obtain ⟨takes, trims, -⟩ := (takes_removeVariable coherent).2 _ _ gives
  refine ⟨handling.takes takes trims, takes.spares trims fun address member =>
    List.forall_mem_cons.2 ⟨handling.isAccess_of_listed listed, fun ref write => ?_⟩⟩
  refine isAccess_of_ne (stores ref write) ?_
  rintro rfl
  exact apart member

namespace Charting

variable {kept unread : List Accesses} {report report' : Promotion}

theorem tail (charting : Charting function addresses (accesses :: kept) store) :
    Charting function addresses kept store where
  coherent := charting.coherent
  handling := charting.handling
  listed := (List.forall_mem_cons.1 charting.listed).2
  distinct := (List.nodup_cons.1 charting.distinct).2
  charts := (List.forall_mem_cons.1 charting.charts).2

theorem spares
    (charting : Charting function addresses kept store)
    (handling : Handling addresses left)
    (spares : store.Spares (kept.map (·.address)) left) :
    Charting function addresses kept left where
  coherent := spares.trims.coherent
  handling := handling
  listed := charting.listed
  distinct := charting.distinct
  charts := fun accesses member =>
    (charting.charts accesses member).spares spares (List.mem_map_of_mem member)

/-- Taking out a variable with its writes leaves the others as they are. -/
theorem removeVariable
    (charting : Charting function addresses (accesses :: kept) store)
    (gives : Gives (removeVariable report accesses) store report' left) :
    store.Restrains left ∧ Charting function addresses kept left ∧ left.Cleared accesses.address ∧
      ∀ address ∈ addresses, store.Cleared address → left.Cleared address := by
  have charts := charting.charts accesses List.mem_cons_self
  obtain ⟨handling, spares⟩ := spares_removeVariable charting.coherent charting.handling
    (charting.listed accesses List.mem_cons_self) charts.accessed.stores
    (List.nodup_cons.1 charting.distinct).1 gives
  obtain ⟨takes, trims, unused⟩ := (takes_removeVariable charting.coherent).2 _ _ gives
  refine ⟨spares.toRestrains, charting.tail.spares handling spares, ⟨?_, unused⟩,
    fun address member cleared => ?_⟩
  · refine Option.eq_none_iff_forall_ne_some.2 fun block linked => ?_
    exact (takes.blockOf?_eq_some_iff.1 linked).2 List.mem_cons_self
  · exact (shifts_of_takes takes trims addresses).cleared cleared member
      (charting.handling.locations address member)

theorem removeVariables
    (charting : Charting function addresses (unread ++ kept) store)
    (gives : Gives (unread.foldlM Pass.removeVariable report) store report' left) :
    store.Restrains left ∧ Charting function addresses kept left ∧
      (∀ accesses ∈ unread, left.Cleared accesses.address) ∧
      ∀ address ∈ addresses, store.Cleared address → left.Cleared address := by
  induction unread generalizing store report with
  | nil =>
      obtain ⟨rfl, rfl⟩ := gives_pure_iff.1 gives
      exact ⟨.refl charting.coherent, charting, nofun, fun _ _ cleared => cleared⟩
  | cons accesses rest induction =>
      rw [List.foldlM_cons] at gives
      obtain ⟨between, middle, first, others⟩ := gives_bind_iff.1 gives
      have listed := charting.listed accesses List.mem_cons_self
      obtain ⟨restrains, charting, cleared, lasts⟩ := charting.removeVariable first
      obtain ⟨restrains', charting, later, lasts'⟩ := induction charting others
      exact ⟨restrains.trans restrains', charting,
        List.forall_mem_cons.2 ⟨lasts' _ listed cleared, later⟩,
        fun address member cleared => lasts' address member (lasts address member cleared)⟩

end Charting

/-- After forwarding and removing, the variables that are left are charted. -/
theorem charting_of_stages
    {chosen : List Accesses}
    {state : Forwarding}
    {forwarded : Store}
    {report report' : Promotion}
    (coherent : store.Coherent)
    (regular : store.Regular)
    (housed : store.Housed)
    (chooses : Gives (promotable (store.traverse function)) store chosen store)
    (forwards : Gives ((blocksInOrder store function).foldlM forwardBlock { accesses := chosen })
      store state forwarded)
    (removes : Gives ((state.accesses.filter (·.reads.isEmpty)).foldlM removeVariable report)
      forwarded report' left) :
    store.Continues [] left ∧ store.Restrains left ∧
      Charting function (chosen.map (·.address)) (state.accesses.filter (!·.reads.isEmpty)) left ∧
      ∀ accesses ∈ state.accesses, left.Noted accesses ∧
        (accesses.reads.isEmpty = true → left.Cleared accesses.address) ∧
        ∀ block ∈ accesses.readers, block ∈ blocksInOrder store function := by
  obtain ⟨-, sub, each⟩ := ensures_promotable.2 _ _ chooses
  have same := addresses_of_gives_forward forwards
  obtain ⟨handling, restrains, charts⟩ := charts_of_gives_forward coherent regular housed each
    (covers_of_chosen coherent sub each) forwards
  have coherent' := restrains.trims.coherent
  obtain ⟨continues, noted⟩ := continues_forward coherent
    (fun accesses member => (each accesses member).noted) forwards
  obtain ⟨continues', noted⟩ := continues_removeVariables coherent' noted
    (fun _ => List.mem_of_mem_filter) removes
  have perm := List.perm_append_comm.trans
    (List.filter_append_perm (!·.reads.isEmpty) state.accesses)
  simp only [Bool.not_not] at perm
  have charting : Charting function (chosen.map (·.address))
      (state.accesses.filter (·.reads.isEmpty) ++ state.accesses.filter (!·.reads.isEmpty))
      forwarded :=
    { coherent := coherent'
      handling
      listed := fun accesses member => same ▸ List.mem_map_of_mem (perm.mem_iff.1 member)
      distinct := (perm.map _).nodup_iff.2 (same ▸ sub.nodup (coherent.nodup_traverse function))
      charts := fun accesses member => (charts accesses (perm.mem_iff.1 member)).1 }
  obtain ⟨restrains', charting, cleared, -⟩ := charting.removeVariables removes
  exact ⟨continues.trans_nil continues', restrains.trans restrains', charting,
    fun accesses member => ⟨noted accesses member,
      fun empty => cleared accesses (List.mem_filter.2 ⟨member, empty⟩),
      (charts accesses member).2⟩⟩

end Pass

end ShaderIR
