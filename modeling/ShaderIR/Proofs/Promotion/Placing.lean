import ShaderIR.Proofs.Promotion.Continuing
import ShaderIR.Proofs.Promotion.Renaming

/-!
# Placing and filling phis

Promoting a variable takes reads and writes out, places phis at the heads of blocks and
gives each of them one incoming for each block control comes from.  Terminators go on
as they are, so those blocks stay predecessors.
-/

namespace ShaderIR

open Store Edit

open Pass (Accesses)

namespace Store

/-- The address noted for a variable is one, and its reads and writes are ones. -/
structure Noted (store : Store) (accesses : Accesses) : Prop where
  isLocal : store.opcode? accesses.address = some (.alloca .local)
  reads : ∀ read ∈ accesses.reads, store.opcode? read.2 = some .load
  stores : ∀ ref ∈ accesses.stores, store.opcode? ref = some .store

/-- A phi of a block has one incoming for each of some predecessors. -/
structure Filled (store : Store) (block phi : Ref) : Prop where
  sources : ∃ sources : List Ref, sources.Nodup ∧
    store.opcode? phi = some (.phi (sources.map some)) ∧
    ∀ source ∈ sources, source ∈ store.predecessors block
  home : ∀ {other}, store.blockOf? phi = some other → other = block

variable {store left : Store} {block phi : Ref} {phis : List Ref} {accesses : Accesses}

theorem Noted.trims (noted : store.Noted accesses) (trims : store.Trims left) :
    left.Noted accesses where
  isLocal := trims.opcode?_kept noted.isLocal rfl
  reads := fun read member => trims.opcode?_kept (noted.reads read member) rfl
  stores := fun ref member => trims.opcode?_kept (noted.stores ref member) rfl

theorem Filled.continues
    (filled : store.Filled block phi)
    (coherent : store.Coherent)
    (continues : store.Continues phis left)
    (apart : phi ∉ phis) :
    left.Filled block phi where
  sources := by
    obtain ⟨sources, distinct, opcode, predecessors⟩ := filled.sources
    refine ⟨sources, distinct, ?_, fun source member => ?_⟩
    · rw [continues.opcode? (value?_isSome_of_opcode? opcode) apart, opcode]
    · exact continues.mem_predecessors coherent (predecessors source member)
  home := by
    intro other linked
    obtain ⟨sources, -, opcode, -⟩ := filled.sources
    exact filled.home (continues.trims.linked (value?_isSome_of_opcode? opcode) linked)

theorem Filled.isPhi (filled : store.Filled block phi) : store.isPhi phi = true := by
  obtain ⟨sources, -, opcode, -⟩ := filled.sources
  rw [Store.isPhi, opcode]
  rfl

end Store

namespace Pass

variable {store left : Store} {function ref block phi : Ref} {phis : List Ref}
  {accesses : Accesses} {report report' : Promotion}

/-! ## Forwarding -/

theorem Selected.noted (selected : Selected store accesses) : store.Noted accesses where
  isLocal := selected.isLocal
  reads := by
    rw [selected.fresh]
    exact fun _ none => by cases none
  stores := by
    rw [selected.fresh]
    exact fun _ none => by cases none

theorem continues_forwardOne
    (coherent : store.Coherent)
    {state state' : Forwarding}
    (noted : ∀ accesses ∈ state.accesses, store.Noted accesses)
    (gives : Gives (forwardOne block state ref) store state' left) :
    store.Continues [] left ∧ ∀ accesses ∈ state'.accesses, left.Noted accesses := by
  cases forwards_of_gives gives with
  | replace touches _ _ replaces removes =>
      have continues := coherent.continues_substitute touches.opcode rfl replaces removes
      exact ⟨continues, fun accesses member => (noted accesses member).trims continues.trims⟩
  | read touches =>
      refine ⟨.refl coherent, forall_mem_note noted fun accesses member _ => ?_⟩
      exact { noted accesses member with
        reads := List.forall_mem_append.2
          ⟨(noted accesses member).reads, List.forall_mem_singleton.2 touches.opcode⟩ }
  | write touches =>
      refine ⟨.refl coherent, forall_mem_note noted fun accesses member _ => ?_⟩
      exact { noted accesses member with
        stores := List.forall_mem_append.2
          ⟨(noted accesses member).stores, List.forall_mem_singleton.2 touches.opcode⟩ }
  | pass => exact ⟨.refl coherent, noted⟩

/-- Steps of a loop that go on from one another. -/
theorem continues_foldlM
    {α β : Type}
    (holds : α → Store → Prop)
    {step : α → β → Edit α}
    {elements : List β}
    {state state' : α}
    (coherent : store.Coherent)
    (start : holds state store)
    (gives : Gives (elements.foldlM step state) store state' left)
    (steps : ∀ element ∈ elements, ∀ {state state' between left}, between.Coherent →
      holds state between → Gives (step state element) between state' left →
      between.Continues [] left ∧ holds state' left) :
    store.Continues [] left ∧ holds state' left := by
  refine gives.foldlM (fun state left => store.Continues [] left ∧ holds state left)
    ⟨.refl coherent, start⟩ ?_
  rintro element member state between state' left ⟨continues, kept⟩ gives
  obtain ⟨continues', kept⟩ := steps element member continues.trims.coherent kept gives
  exact ⟨continues.trans_nil continues', kept⟩

theorem continues_forward
    (coherent : store.Coherent)
    {blocks : List Ref}
    {state state' : Forwarding}
    (noted : ∀ accesses ∈ state.accesses, store.Noted accesses)
    (gives : Gives (blocks.foldlM forwardBlock state) store state' left) :
    store.Continues [] left ∧ ∀ accesses ∈ state'.accesses, left.Noted accesses := by
  refine continues_foldlM (fun state store => ∀ accesses ∈ state.accesses, store.Noted accesses)
    coherent noted gives ?_
  intro block _ state state' between left coherent noted gives
  replace gives := gives_see_bind_iff.1 gives
  refine continues_foldlM (fun state store => ∀ accesses ∈ state.accesses, store.Noted accesses)
    coherent noted gives ?_
  exact fun ref _ _ _ _ _ coherent noted gives => continues_forwardOne coherent noted gives

/-! ## Removing a variable -/

theorem continues_removeVariable
    (coherent : store.Coherent)
    (noted : store.Noted accesses)
    (gives : Gives (removeVariable report accesses) store report' left) :
    store.Continues [] left := by
  obtain ⟨takes, trims, -⟩ := (takes_removeVariable coherent).2 _ _ gives
  refine takes.continues trims (List.forall_mem_cons.2 ⟨?_, fun ref member => ?_⟩)
  · exact isTerminator_of_opcode? noted.isLocal rfl
  · exact isTerminator_of_opcode? (noted.stores ref member) rfl

theorem continues_removeVariables
    {noted unread : List Accesses}
    (coherent : store.Coherent)
    (each : ∀ accesses ∈ noted, store.Noted accesses)
    (listed : ∀ accesses ∈ unread, accesses ∈ noted)
    (gives : Gives (unread.foldlM removeVariable report) store report' left) :
    store.Continues [] left ∧ ∀ accesses ∈ noted, left.Noted accesses := by
  refine continues_foldlM (fun _ store => ∀ accesses ∈ noted, store.Noted accesses) coherent each
    gives ?_
  intro accesses member _ _ between left coherent each gives
  have continues := continues_removeVariable coherent (each accesses (listed accesses member)) gives
  exact ⟨continues, fun other member => (each other member).trims continues.trims⟩

/-! ## Placing phis -/

/-- The phis placed for a variable are new ones without incomings, each in its block only. -/
structure Placing (store : Store) (accesses : Accesses) (state : Renaming) (left : Store) :
    Prop where
  continues : store.Continues (state.phis.map (·.2)) left
  fresh : ∀ entry ∈ state.phis, store.value? entry.2 = none
  empty : ∀ entry ∈ state.phis, left.opcode? entry.2 = some (.phi [])
  home : ∀ entry ∈ state.phis, ∀ {other}, left.blockOf? entry.2 = some other → other = entry.1
  distinct : (state.phis.map (·.2)).Nodup
  reads : ∀ read ∈ state.reads, read ∈ accesses.reads

variable {last : Store} {state state' : Renaming} {type : Option Ty} {tree : DominatorTree}

theorem Placing.start (coherent : store.Coherent) :
    Placing store accesses { reads := accesses.reads } store where
  continues := .refl coherent
  fresh := fun _ none => by cases none
  empty := fun _ none => by cases none
  home := fun _ none => by cases none
  distinct := .nil
  reads := fun _ member => member

theorem continues_replace
    (coherent : store.Coherent)
    {load : Ref}
    {value : Option Ref}
    (isLoad : store.opcode? load = some .load)
    (gives : Gives (state.replace load value) store state' left) :
    store.Continues [] left ∧ state'.phis = state.phis ∧ state'.reads = state.reads := by
  obtain ⟨_, _, replaces, gives⟩ := gives_bind_iff.1 gives
  obtain ⟨_, _, removes, returned⟩ := gives_bind_iff.1 gives
  obtain ⟨rfl, rfl⟩ := gives_pure_iff.1 returned
  exact ⟨coherent.continues_substitute isLoad rfl replaces removes, rfl, rfl⟩

namespace Placing

variable (placing : Placing store accesses state left)

include placing

theorem coherent : left.Coherent :=
  placing.continues.trims.coherent

theorem present {entry : Ref × Ref} (member : entry ∈ state.phis) :
    (left.value? entry.2).isSome :=
  value?_isSome_of_opcode? (placing.empty entry member)

/-- Going on without further phis. -/
theorem step
    (continues : left.Continues [] last)
    (same : state'.phis = state.phis)
    (reads : ∀ read ∈ state'.reads, read ∈ state.reads) :
    Placing store accesses state' last where
  continues := by
    rw [same, ← List.append_nil (state.phis.map (·.2))]
    exact placing.continues.trans continues
  fresh := same ▸ placing.fresh
  empty := by
    rw [same]
    intro entry member
    rw [continues.opcode? (placing.present member) List.not_mem_nil, placing.empty entry member]
  home := by
    rw [same]
    intro entry member other linked
    exact placing.home entry member (continues.trims.linked (placing.present member) linked)
  distinct := same ▸ placing.distinct
  reads := fun read member => placing.reads read (reads read member)

/-- One more phi. -/
theorem receives
    {entry : Instruction}
    (receives : left.Receives block none phi entry last)
    (isPhi : entry.opcode = .phi [])
    (isBlock : left.isBlock block = true) :
    Placing store accesses { state with phis := state.phis ++ [(block, phi)] } last := by
  have continues : left.Continues [phi] last :=
    receives.continues (by rw [isPhi]; rfl) (by rw [isPhi]; rfl) isBlock
      (fun _ _ none => by cases none) fun _ => List.mem_singleton_self phi
  have apart {other : Ref × Ref} (member : other ∈ state.phis) : other.2 ≠ phi :=
    receives.ne_new (placing.present member)
  have absent : store.value? phi = none := by
    by_contra present
    have present := placing.continues.trims.ages.value?_isSome (Option.isSome_iff_ne_none.2 present)
    exact receives.ne_new present rfl
  constructor
  case continues =>
    rw [List.map_append]
    exact placing.continues.trans continues
  case fresh =>
    exact List.forall_mem_append.2 ⟨placing.fresh, List.forall_mem_singleton.2 absent⟩
  case empty =>
    refine List.forall_mem_append.2 ⟨fun other member => ?_, List.forall_mem_singleton.2 ?_⟩
    · rw [receives.opcode?_old (apart member), placing.empty other member]
    · rw [receives.opcode?_new, isPhi]
  case home =>
    refine List.forall_mem_append.2 ⟨fun other member place linked => ?_,
      List.forall_mem_singleton.2 fun {place} linked => ?_⟩
    · rw [receives.blockOf?_old (apart member)] at linked
      exact placing.home other member linked
    · rw [Store.blockOf?, receives.instruction?_new, Option.bind_some, receives.linked] at linked
      exact (Option.some.inj linked).symm
  case distinct =>
    rw [List.map_append]
    refine List.nodup_append.2 ⟨placing.distinct, List.nodup_singleton phi, ?_⟩
    rintro _ member _ last rfl
    obtain ⟨other, listed, rfl⟩ := List.mem_map.1 member
    exact apart listed (List.mem_singleton.1 last)
  case reads => exact placing.reads

theorem place
    (noted : store.Noted accesses)
    (isBlock : store.isBlock block = true)
    (gives : Gives (state.place type block) left state' last) :
    Placing store accesses state' last := by
  obtain ⟨phi, between, placed, gives⟩ := gives_bind_iff.1 gives
  obtain ⟨moved, yields⟩ := Build.yields_run_iff.1 placed
  obtain ⟨_, _, _, positioned, yields⟩ := Build.yields_bind_iff.1 yields
  obtain ⟨atHead, unchanged⟩ := Build.yields_set_iff.1 positioned
  rw [unchanged, atHead] at yields
  have isBlock : left.isBlock block = true := by
    rw [placing.continues.trims.ages.isBlock, isBlock]
  have stands : ({ block := some block } : Cursor).Stands left := by
    rintro _ ⟨⟩
    exact isBlock
  obtain ⟨_, entry, ⟨⟩, isPhi, -, receives⟩ := Build.receives_phi placing.coherent stands yields
  have placing := placing.receives receives isPhi isBlock
  dsimp only at gives
  split at gives
  · obtain ⟨rfl, rfl⟩ := gives_pure_iff.1 gives
    exact placing
  · rename_i load found
    obtain ⟨_, _, replaced, returned⟩ := gives_bind_iff.1 gives
    obtain ⟨rfl, rfl⟩ := gives_pure_iff.1 returned
    have noted := noted.trims placing.continues.trims
    have isLoad := noted.reads _ (placing.reads _ (mem_of_lookup found))
    obtain ⟨continues, phis, reads⟩ := continues_replace placing.coherent isLoad replaced
    refine placing.step continues phis fun read member => ?_
    rw [← reads]
    exact List.mem_of_mem_filter member

theorem placeAll
    {blocks : List Ref}
    (noted : store.Noted accesses)
    (isBlock : ∀ block ∈ blocks, store.isBlock block = true)
    (gives : Gives (state.placeAll type blocks) left state' last) :
    Placing store accesses state' last := by
  induction blocks generalizing state left with
  | nil =>
      obtain ⟨rfl, rfl⟩ := gives_pure_iff.1 gives
      exact placing
  | cons block rest induction =>
      obtain ⟨here, later⟩ := List.forall_mem_cons.1 isBlock
      obtain ⟨_, _, placed, others⟩ := gives_bind_iff.1 gives
      exact induction (placing.place noted here placed) later others

theorem placePhis
    {live stack : List Ref}
    {bound : Nat}
    (noted : store.Noted accesses)
    (isBlock : ∀ block ∈ tree.blocks, store.isBlock block = true)
    (gives : Gives (placePhis tree live type bound stack state) left state' last) :
    Placing store accesses state' last := by
  induction bound generalizing stack state left with
  | zero => exact absurd gives not_gives_endless
  | succ bound induction =>
      cases stack with
      | nil =>
          obtain ⟨rfl, rfl⟩ := gives_pure_iff.1 gives
          exact placing
      | cons block rest =>
          obtain ⟨_, _, placed, others⟩ := gives_bind_iff.1 gives
          refine induction (placing.placeAll noted (fun target member => ?_) placed) others
          exact isBlock target (mem_blocks_of_mem_frontier (List.mem_of_mem_filter member))

end Placing

/-! ## Values that reach a block -/

theorem gives_resolve
    {replaced : List (Ref × Option Ref)}
    {bound : Nat}
    {value found : Option Ref}
    (gives : Gives (resolve replaced bound value) store found left) :
    left = store := by
  induction bound generalizing value with
  | zero => exact absurd gives not_gives_endless
  | succ bound induction =>
      unfold resolve at gives
      split at gives
      · exact induction gives
      · exact (gives_pure_iff.1 gives).2

theorem continues_reachingValue
    (coherent : store.Coherent)
    (regular : store.Regular)
    {start value : Option Ref}
    (gives : Gives (reachingValue tree accesses state start) store value left) :
    store.Continues [] left := by
  replace gives := gives_see_bind_iff.1 gives
  split at gives
  · rw [gives_resolve gives]
    exact .refl coherent
  · replace gives := gives_see_bind_iff.1 gives
    obtain ⟨module, -, gives⟩ := gives_demand_bind_iff.1 gives
    replace gives := gives_see_bind_iff.1 gives
    obtain ⟨_, _, made, returned⟩ := gives_bind_iff.1 gives
    obtain ⟨-, rfl⟩ := gives_pure_iff.1 returned
    obtain ⟨-, interns⟩ := regular.interns_undefined made
    exact interns.continues ((undefined_keeps _ _).of_gives made coherent).1

theorem Placing.renameReads
    {reads : List (Ref × Ref)}
    (placing : Placing store accesses state left)
    (regular : store.Regular)
    (noted : store.Noted accesses)
    (listed : ∀ read ∈ reads, read ∈ accesses.reads)
    (gives : Gives (renameReads tree accesses reads state) left state' last) :
    Placing store accesses state' last := by
  induction reads generalizing state left with
  | nil =>
      obtain ⟨rfl, rfl⟩ := gives_pure_iff.1 gives
      exact placing
  | cons read rest induction =>
      obtain ⟨here, later⟩ := List.forall_mem_cons.1 listed
      obtain ⟨value, between, reaches, gives⟩ := gives_bind_iff.1 gives
      obtain ⟨state', last, replaced, others⟩ := gives_bind_iff.1 gives
      have trims := placing.continues.trims
      have continues := continues_reachingValue placing.coherent (trims.regular regular) reaches
      have isLoad := (noted.trims (trims.trans continues.trims)).reads read here
      obtain ⟨continues', phis, reads⟩ :=
        continues_replace continues.trims.coherent isLoad replaced
      refine induction (placing.step (continues.trans_nil continues') phis fun read member => ?_)
        later others
      rwa [← reads]

/-! ## Giving phis their incomings -/

/-- Appending an incoming pair to a phi leaves all other instructions as they are. -/
theorem continues_addIncoming
    (coherent : store.Coherent)
    {known : List (Option Ref)}
    {incoming source : Option Ref}
    {answer : Unit}
    (opcode : store.opcode? phi = some (.phi known))
    (gives : Gives (addIncoming phi incoming source) store answer left) :
    store.Continues [phi] left ∧ left.opcode? phi = some (.phi (known ++ [source])) := by
  have isPhi : store.isPhi phi = true := by
    rw [Store.isPhi, opcode]
    rfl
  have repoints := coherent.repoints_addIncoming isPhi gives
  obtain ⟨key, rewrites⟩ := rewrites_addIncoming gives
  refine ⟨⟨repoints.trims, fun _ linked => (repoints.blockOf? _).trans linked, ?_, ?_, ?_, ?_⟩, ?_⟩
  · intro ref target isTerminator _ operand
    rw [repoints.operands, if_neg]
    · exact operand
    · rintro rfl
      rw [isTerminator_of_isPhi isPhi] at isTerminator
      cases isTerminator
  · intro block ended
    rw [EndsLast, repoints.instructions]
    exact ended.imp repoints.trims.not_isTerminator
  · intro ref absent isPhi'
    obtain ⟨opcode', found, -⟩ := (Option.any_eq_true _ _).1 isPhi'
    have present := (Revises.value?_isSome rewrites).1 (value?_isSome_of_opcode? found)
    simp [absent] at present
  · intro ref _ apart
    have different : ¬phi = ref := fun same => apart (List.mem_singleton.2 same.symm)
    simp [Store.opcode?, rewrites.instruction?, different]
  · obtain ⟨entry, found, isPhi'⟩ := Option.map_eq_some_iff.1 opcode
    rw [Store.opcode?, rewrites.instruction?, found, Option.map_some, Option.map_some, if_pos rfl,
      isPhi']
    rfl

theorem continues_fillPhi
    {sources : List Ref}
    {known : List (Option Ref)}
    {answer : Unit}
    (coherent : store.Coherent)
    (regular : store.Regular)
    (opcode : store.opcode? phi = some (.phi known))
    (gives : Gives (fillPhi tree accesses state phi sources) store answer left) :
    store.Continues [phi] left ∧ left.opcode? phi = some (.phi (known ++ sources.map some)) := by
  induction sources generalizing store known with
  | nil =>
      obtain ⟨-, rfl⟩ := gives_pure_iff.1 gives
      refine ⟨(Continues.refl coherent).mono (List.nil_subset _), ?_⟩
      rw [List.map_nil, List.append_nil, opcode]
  | cons source rest induction =>
      obtain ⟨value, between, reaches, gives⟩ := gives_bind_iff.1 gives
      obtain ⟨_, middle, adds, others⟩ := gives_bind_iff.1 gives
      have continues := continues_reachingValue coherent regular reaches
      have opcode : between.opcode? phi = some (.phi known) := by
        rw [continues.opcode? (value?_isSome_of_opcode? opcode) List.not_mem_nil, opcode]
      obtain ⟨continues', opcode⟩ := continues_addIncoming continues.trims.coherent opcode adds
      have continues := continues.trans_nil continues'
      obtain ⟨continues'', opcode⟩ := induction continues.trims.coherent
        (continues.trims.regular regular) opcode others
      refine ⟨(continues.trans continues'').mono (by simp), ?_⟩
      rw [opcode, List.append_assoc]
      rfl

theorem continues_fillPhis
    {phis : List (Ref × Ref)}
    {answer : Unit}
    (coherent : store.Coherent)
    (regular : store.Regular)
    (distinct : (phis.map (·.2)).Nodup)
    (empty : ∀ entry ∈ phis, store.opcode? entry.2 = some (.phi []))
    (home : ∀ entry ∈ phis, ∀ {other}, store.blockOf? entry.2 = some other → other = entry.1)
    (gives : Gives (fillPhis tree accesses state phis) store answer left) :
    store.Continues (phis.map (·.2)) left ∧ ∀ entry ∈ phis, left.Filled entry.1 entry.2 := by
  induction phis generalizing store with
  | nil =>
      obtain ⟨-, rfl⟩ := gives_pure_iff.1 gives
      exact ⟨.refl coherent, fun _ none => by cases none⟩
  | cons entry rest induction =>
      obtain ⟨block, phi⟩ := entry
      obtain ⟨apart, distinct⟩ := List.nodup_cons.1 distinct
      obtain ⟨opcode, empty⟩ := List.forall_mem_cons.1 empty
      obtain ⟨atBlock, home⟩ := List.forall_mem_cons.1 home
      replace gives := gives_see_bind_iff.1 gives
      obtain ⟨_, between, fills, others⟩ := gives_bind_iff.1 gives
      obtain ⟨continues, filled⟩ := continues_fillPhi coherent regular opcode fills
      have trims := continues.trims
      have present {other : Ref × Ref} (member : other ∈ rest) : (store.value? other.2).isSome :=
        value?_isSome_of_opcode? (empty other member)
      have here : between.Filled block phi := by
        refine ⟨⟨_, nodup_distinct _, filled, fun source member => ?_⟩, fun {other} linked => ?_⟩
        · exact continues.mem_predecessors coherent member
        · exact atBlock (trims.linked (value?_isSome_of_opcode? opcode) linked)
      have empty' : ∀ other ∈ rest, between.opcode? other.2 = some (.phi []) := by
        intro other member
        rw [continues.opcode? (present member) fun same => ?_, empty other member]
        exact apart (List.mem_map.2 ⟨other, member, List.mem_singleton.1 same⟩)
      obtain ⟨continues', later⟩ := induction trims.coherent (trims.regular regular) distinct empty'
        (fun other member _ linked => home other member (trims.linked (present member) linked))
        others
      exact ⟨continues.trans continues',
        List.forall_mem_cons.2 ⟨here.continues trims.coherent continues' apart, later⟩⟩

/-! ## Promoting one variable after the other -/

/-- Promoting a variable places phis, which are new and get filled. -/
theorem continues_promoteVariable
    {placed placed' : List Ref}
    (coherent : store.Coherent)
    (regular : store.Regular)
    (noted : store.Noted accesses)
    (isBlock : ∀ block ∈ tree.blocks, store.isBlock block = true)
    (gives : Gives (promoteVariable tree (report, placed) accesses) store (report', placed') left) :
    ∃ new, placed' = placed ++ new ∧ store.Continues new left ∧
      ∀ phi ∈ new, store.value? phi = none ∧ ∃ block, left.Filled block phi := by
  replace gives := gives_see_bind_iff.1 (gives_see_bind_iff.1 gives)
  obtain ⟨state, between, places, gives⟩ := gives_bind_iff.1 gives
  have placing := (Placing.start coherent).placePhis noted isBlock places
  obtain ⟨state, middle, renames, gives⟩ := gives_bind_iff.1 gives
  have placing := placing.renameReads regular noted placing.reads renames
  obtain ⟨_, after, fills, gives⟩ := gives_bind_iff.1 gives
  have trims := placing.continues.trims
  obtain ⟨continues, filled⟩ := continues_fillPhis trims.coherent (trims.regular regular)
    placing.distinct placing.empty placing.home fills
  obtain ⟨report'', last, removes, returned⟩ := gives_bind_iff.1 gives
  obtain ⟨equal, rfl⟩ := gives_pure_iff.1 returned
  cases equal
  have continues' := continues_removeVariable continues.trims.coherent
    (noted.trims (trims.trans continues.trims)) removes
  have present : ∀ phi ∈ state.phis.map (·.2), (middle.value? phi).isSome := by
    intro phi member
    obtain ⟨entry, listed, rfl⟩ := List.mem_map.1 member
    exact placing.present listed
  refine ⟨_, rfl, ?_, fun phi member => ?_⟩
  · exact ((placing.continues.trans continues).trans continues').mono (by simp)
  · obtain ⟨entry, listed, rfl⟩ := List.mem_map.1 member
    exact ⟨placing.fresh entry listed, entry.1,
      (filled entry listed).continues continues.trims.coherent continues' List.not_mem_nil⟩

theorem continues_promoteVariables
    {kept : List Accesses}
    {placed placed' : List Ref}
    (coherent : store.Coherent)
    (regular : store.Regular)
    (noted : ∀ accesses ∈ kept, store.Noted accesses)
    (isBlock : ∀ block ∈ tree.blocks, store.isBlock block = true)
    (filled : ∀ phi ∈ placed, ∃ block, store.Filled block phi)
    (gives : Gives (kept.foldlM (promoteVariable tree) (report, placed)) store (report', placed')
      left) :
    ∃ new, placed' = placed ++ new ∧ store.Continues new left ∧
      ∀ phi ∈ placed', ∃ block, left.Filled block phi := by
  induction kept generalizing store report placed with
  | nil =>
      obtain ⟨equal, rfl⟩ := gives_pure_iff.1 gives
      cases equal
      exact ⟨[], (List.append_nil _).symm, .refl coherent, filled⟩
  | cons accesses rest induction =>
      rw [List.foldlM_cons] at gives
      obtain ⟨⟨report'', placed''⟩, between, first, others⟩ := gives_bind_iff.1 gives
      obtain ⟨here, later⟩ := List.forall_mem_cons.1 noted
      obtain ⟨new, rfl, continues, fresh⟩ :=
        continues_promoteVariable coherent regular here isBlock first
      have trims := continues.trims
      have filled : ∀ phi ∈ placed ++ new, ∃ block, between.Filled block phi := by
        refine List.forall_mem_append.2
          ⟨fun phi member => ?_, fun phi member => (fresh phi member).2⟩
        obtain ⟨block, filled⟩ := filled phi member
        refine ⟨block, filled.continues coherent continues fun placed => ?_⟩
        have present := value?_isSome_of_opcode? filled.sources.choose_spec.2.1
        rw [(fresh phi placed).1] at present
        cases present
      obtain ⟨new', rfl, continues', filled'⟩ :=
        induction trims.coherent (trims.regular regular)
          (fun accesses member => (later accesses member).trims trims)
          (fun block member => by rw [trims.ages.isBlock, isBlock block member]) filled others
      exact ⟨new ++ new', by rw [List.append_assoc], continues.trans continues', filled'⟩

end Pass

end ShaderIR
