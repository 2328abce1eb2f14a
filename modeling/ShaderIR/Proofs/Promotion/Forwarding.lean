import ShaderIR.Proofs.Promotion.Accesses

/-!
# Forwarding inside blocks

The variables chosen for promotion are those whose uses pass a check, so they are
plain.  Forwarding then walks over the instructions of each block.  A read is
replaced by what the block wrote or read last, which is in the same block or comes
from a block that dominates it; all other accesses are noted.

A read that is noted has to stay in its block.  It does because no reached block is
walked over twice, and no block lists an instruction twice.
-/

namespace ShaderIR

open Store Edit

variable {origin store left : Store} {function address ref block : Ref} {addresses : List Ref}

theorem Store.getElem?_operands
    {entry : Instruction}
    (found : store.instruction? ref = some entry)
    (position : Nat) :
    (store.operands ref)[position]? = entry.operand? position := by
  simp [Store.operands, found, Instruction.values, Instruction.operand?]

namespace Pass

/-! ## Choosing variables -/

/-- What the check of its uses tells of a user of a variable. -/
def Accessing (store : Store) (address user : Ref) : Prop :=
  store.Touches .load address user ∨
    store.Touches .store address user ∧
      ∃ value, (store.operands user)[1]? = some (some value) ∧ value ≠ address ∧
        store.typeOf value = store.typeOf address

theorem ensures_usesArePlain {uses : List Use} :
    Ensures (usesArePlain address uses) store fun plain left =>
      left = store ∧ (plain = true → ∀ use ∈ uses, Accessing store address use.user) := by
  induction uses with
  | nil => exact .pure ⟨rfl, fun _ use member => by cases member⟩
  | cons use rest induction =>
      have refused : Ensures (pure false) store fun plain left =>
          left = store ∧ (plain = true → ∀ use' ∈ use :: rest, Accessing store address use'.user) :=
        .pure ⟨rfl, fun wrong => by cases wrong⟩
      have later (here : Accessing store address use.user) :
          Ensures (usesArePlain address rest) store fun plain left =>
            left = store ∧
              (plain = true → ∀ use' ∈ use :: rest, Accessing store address use'.user) := by
        refine induction.imp ?_
        rintro plain left ⟨rfl, others⟩
        exact ⟨rfl, fun holds => List.forall_mem_cons.2 ⟨here, others holds⟩⟩
      refine .seeBind (.seeBind (.seeBind (.instructionBind fun entry found => ?_)))
      have opcode : store.opcode? use.user = some entry.opcode := by simp [opcode?, found]
      have touches {held : Option Ref} (atFront : entry.operand? 0 = some held)
          (same : held = some address) :
          store.Touches entry.opcode address use.user :=
        ⟨opcode, by rw [List.head?_eq_getElem?, getElem?_operands found, atFront, same]⟩
      split
      · rename_i isLoad
        refine .operandBind fun held entry' found' atFront => ?_
        cases found.symm.trans found'
        split
        · exact refused
        · rename_i same
          refine .seeBind (.requireBind fun _ => later (.inl ?_))
          rw [← isLoad]
          exact touches atFront (by simpa using same)
      · rename_i isStore
        refine .operandBind fun stored entry' found' atSecond => ?_
        cases found.symm.trans found'
        refine .operandBind fun held entry' found' atFront => ?_
        cases found.symm.trans found'
        split
        · exact refused
        · rename_i same
          simp only [Bool.or_eq_true, bne_iff_ne, beq_iff_eq, not_or, ne_eq, not_not] at same
          unfold typeOfPresent
          rw [bind_assoc]
          refine .demandBind fun value present => .seeBind (.requireBind fun equal => ?_)
          subst present
          refine later (.inr ⟨?_, value, ?_, ?_, by simpa using equal⟩)
          · rw [← isStore]
            exact touches atFront same.1
          · rw [getElem?_operands found, atSecond]
          · exact fun equal => same.2 (congrArg some equal)
      · exact refused

/-- A variable chosen for promotion, without accesses noted so far. -/
structure Selected (store : Store) (accesses : Accesses) : Prop where
  fresh : accesses = { address := accesses.address }
  isLocal : store.opcode? accesses.address = some (.alloca .local)
  plain : ∀ use ∈ store.usesOf accesses.address, Accessing store accesses.address use.user

theorem ensures_promotable {refs : List Ref} :
    Ensures (promotable refs) store fun chosen left =>
      left = store ∧ (chosen.map (·.address)).Sublist refs ∧
        ∀ accesses ∈ chosen, Selected store accesses := by
  induction refs with
  | nil => exact .pure ⟨rfl, .slnil, fun _ member => by cases member⟩
  | cons ref rest induction =>
      have skipped : Ensures (do
            let others ← promotable rest
            return if (false : Bool) then { address := ref } :: others else others)
          store fun chosen left =>
            left = store ∧ (chosen.map (·.address)).Sublist (ref :: rest) ∧
              ∀ accesses ∈ chosen, Selected store accesses := by
        refine induction.bind ?_
        rintro others left ⟨rfl, sub, chosen⟩
        exact .pure ⟨rfl, sub.cons ref, chosen⟩
      refine .seeBind ?_
      dsimp only
      split
      · rename_i isLocal
        refine .seeBind (ensures_usesArePlain.bind ?_)
        rintro plain left ⟨rfl, uses⟩
        cases plain with
        | false => exact skipped
        | true =>
            refine induction.bind ?_
            rintro others left ⟨rfl, sub, chosen⟩
            refine .pure ⟨rfl, sub.cons_cons ref, List.forall_mem_cons.2 ⟨?_, chosen⟩⟩
            exact ⟨rfl, isLocalVariable_iff.1 isLocal, uses rfl⟩
      · exact skipped

/-- The variables chosen are plain, and so are locations that are cleared. -/
theorem handling_of_chosen
    {chosen : List Accesses}
    (coherent : store.Coherent)
    (regular : store.Regular)
    (each : ∀ accesses ∈ chosen, Selected store accesses)
    (covers : store.Covers addresses (chosen.map (·.address))) :
    Handling addresses store where
  regular := regular
  locations := covers.locations
  plain := by
    have noted {address ref : Ref} (listed : address ∈ addresses)
        (linked : (store.blockOf? ref).isSome) (member : some address ∈ store.operands ref) :
        address ∈ chosen.map (·.address) := by
      by_contra absent
      exact (covers.cleared address listed absent).unused linked member
    have accessing {address ref : Ref} (listed : address ∈ addresses)
        (linked : (store.blockOf? ref).isSome) (member : some address ∈ store.operands ref) :
        Accessing store address ref := by
      obtain ⟨accesses, member', rfl⟩ := List.mem_map.1 (noted listed linked member)
      obtain ⟨use, used, rfl⟩ := coherent.exists_use_iff.2 ⟨linked, member⟩
      exact (each accesses member').plain use used
    intro address ref listed linked member
    rcases accessing listed linked member with read | ⟨write, value, held, different, type⟩
    · exact .inl read
    · refine .inr ⟨write, value, held, ?_, ?_, fun listed' => ?_⟩
      · exact coherent.value?_isSome_of_operand (List.mem_of_getElem? held)
      · rw [Bool.eq_false_iff]
        intro isBlock
        obtain ⟨accesses, member', rfl⟩ := List.mem_map.1 (noted listed linked write.mem)
        have typed := regular.typed (isLocalVariable_iff.2 (each accesses member').isLocal)
        rw [← type, regular.blocks isBlock] at typed
        cases typed
      · rcases accessing listed' linked (List.mem_of_getElem? held) with read | ⟨write', -⟩
        · cases read.opcode.symm.trans write.opcode
        · exact different (Option.some.inj (Option.some.inj (write'.head.symm.trans write.head)))

/-! ## Walking over blocks -/

/-- A value that a block has at hand: one to hold and, if it is a read, one made in time. -/
structure AtHand (origin : Store) (function : Ref) (addresses : List Ref) (store : Store)
    (block value : Ref) : Prop extends store.Storable addresses value where
  early : ∀ {home}, origin.Reached function block → store.opcode? value = some .load →
    store.blockOf? value = some home → origin.Dominates function home block

theorem AtHand.trims
    {value : Ref}
    (atHand : AtHand origin function addresses store block value)
    (trims : store.Trims left) :
    AtHand origin function addresses left block value where
  toStorable := atHand.toStorable.trims trims
  early := by
    intro home reached isLoad linked
    exact atHand.early reached (trims.opcode?_old atHand.present isLoad rfl)
      (trims.linked atHand.present linked)

/-- What is noted while forwarding in all blocks but some later ones. -/
structure Forwarded (origin : Store) (function : Ref) (addresses later : List Ref)
    (state : Forwarding) (store : Store) : Prop where
  promoting : Promoting origin function addresses store
  covers : store.Covers addresses (state.accesses.map (·.address))
  once : later.Pairwise fun block other => origin.Reached function block → block ≠ other
  written : ∀ accesses ∈ state.accesses, store.Written accesses
  reads : ∀ accesses ∈ state.accesses, ∀ read ∈ accesses.reads,
    store.opcode? read.2 = some .load ∧
      (origin.Reached function read.1 → store.blockOf? read.2 = some read.1 ∧ read.1 ∉ later)

/-- The state of forwarding in a block in front of some of its instructions. -/
structure Walking (origin : Store) (function : Ref) (addresses later : List Ref) (block : Ref)
    (rest : List Ref) (state : Forwarding) (store : Store) : Prop
    extends Forwarded origin function addresses later state store where
  apart : origin.Reached function block → block ∉ later
  current : ∀ entry ∈ state.current, ∃ value, entry.2 = some value ∧
    AtHand origin function addresses store block value
  ahead : ∀ ref ∈ rest, store.blockOf? ref = some block
  distinct : rest.Nodup
  unread : ∀ accesses ∈ state.accesses, ∀ read ∈ accesses.reads,
    origin.Reached function read.1 → read.2 ∉ rest

variable {state : Forwarding} {later rest : List Ref} {entry : Instruction}

theorem accessed?_eq_some (accessed : state.accessed? entry = some address) :
    entry.values.head? = some (some address) ∧ address ∈ state.accesses.map (·.address) := by
  obtain ⟨head, listed⟩ := Option.filter_eq_some_iff.1 accessed
  refine ⟨Option.join_eq_some_iff.1 head, ?_⟩
  obtain ⟨accesses, member, same⟩ := List.any_eq_true.1 listed
  exact List.mem_map.2 ⟨accesses, member, by simpa using same⟩

/-- What forwarding to one instruction can do. -/
inductive Forwards (block ref : Ref) (store : Store) (state : Forwarding) :
    Forwarding → Store → Prop
  | replace {address : Ref} {value : Option Ref} {middle left : Store} {answer answer' : Unit}
      (touches : store.Touches .load address ref)
      (listed : address ∈ state.accesses.map (·.address))
      (held : state.current.lookup address = some value)
      (replaces : Gives (replaceUses ref value) store answer middle)
      (removes : Gives (remove ref) middle answer' left) :
      Forwards block ref store state { state with removed := state.removed ++ [ref] } left
  | read {address : Ref}
      (touches : store.Touches .load address ref)
      (listed : address ∈ state.accesses.map (·.address))
      (free : state.current.lookup address = none) :
      Forwards block ref store state
        ((state.hold address (some ref)).note address (·.addRead block ref)) store
  | write {address : Ref} {stored : Option Ref}
      (touches : store.Touches .store address ref)
      (listed : address ∈ state.accesses.map (·.address))
      (held : (store.operands ref)[1]? = some stored) :
      Forwards block ref store state
        ((state.hold address stored).note address (·.addWrite block ref)) store
  | pass (apart : ∀ address ∈ state.accesses.map (·.address), store.isAccess address ref = false) :
      Forwards block ref store state state store

theorem accessed?_eq_some_of_mem
    {state : Forwarding}
    {entry : Instruction}
    (head : entry.values.head? = some (some address))
    (listed : address ∈ state.accesses.map (·.address)) :
    state.accessed? entry = some address := by
  obtain ⟨accesses, member, same⟩ := List.mem_map.1 listed
  refine Option.filter_eq_some_iff.2 ⟨Option.join_eq_some_iff.2 head, ?_⟩
  exact List.any_eq_true.2 ⟨accesses, member, by simpa using same⟩

theorem forwardOne_ends (block : Ref) (state : Forwarding) (ref : Ref) :
    Ends (forwardOne block state ref) := by
  refine (Ends.instruction ref).bind fun entry => ?_
  split
  · split
    · exact (replaceUses_ends _ _).bind fun _ => (remove_ends _).bind fun _ => .pure _
    · exact .pure _
  · exact (Ends.operand _ _).bind fun _ => .pure _
  · exact .pure _

theorem forwards_of_gives
    {state' : Forwarding}
    (gives : Gives (forwardOne block state ref) store state' left) :
    Forwards block ref store state state' left := by
  obtain ⟨entry, found, gives⟩ := gives_instruction_bind_iff.1 gives
  have opcode : store.opcode? ref = some entry.opcode := by simp [Store.opcode?, found]
  have values : store.operands ref = entry.values := by simp [Store.operands, found]
  have touches {address : Ref} (accessed : state.accessed? entry = some address) :
      store.Touches entry.opcode address ref ∧ address ∈ state.accesses.map (·.address) := by
    obtain ⟨head, listed⟩ := accessed?_eq_some accessed
    exact ⟨⟨opcode, values ▸ head⟩, listed⟩
  split at gives
  · rename_i address isLoad accessed
    obtain ⟨touches, listed⟩ := touches accessed
    rw [isLoad] at touches
    split at gives
    · rename_i value held
      obtain ⟨_, _, replaces, gives⟩ := gives_bind_iff.1 gives
      obtain ⟨_, _, removes, returned⟩ := gives_bind_iff.1 gives
      obtain ⟨rfl, rfl⟩ := gives_pure_iff.1 returned
      exact .replace touches listed held replaces removes
    · rename_i free
      obtain ⟨rfl, rfl⟩ := gives_pure_iff.1 gives
      exact .read touches listed free
  · rename_i address isStore accessed
    obtain ⟨touches, listed⟩ := touches accessed
    rw [isStore] at touches
    obtain ⟨stored, _, held, returned⟩ := gives_bind_iff.1 gives
    obtain ⟨rfl, rfl⟩ := gives_pure_iff.1 returned
    obtain ⟨⟨entry', found', atSecond⟩, rfl⟩ := gives_operand_iff.1 held
    exact .write touches listed (by rw [getElem?_operands found', atSecond])
  · rename_i notLoad notStore
    obtain ⟨same, unchanged⟩ := gives_pure_iff.1 gives
    rw [same, unchanged]
    refine .pass fun address listed => ?_
    rw [Bool.eq_false_iff]
    intro access
    have accessed {opcode' : Opcode} (touches : store.Touches opcode' address ref) :
        entry.opcode = opcode' ∧ state.accessed? entry = some address :=
      ⟨Option.some.inj (opcode.symm.trans touches.opcode),
        accessed?_eq_some_of_mem (values ▸ touches.head) listed⟩
    rcases isAccess_iff.1 access with read | write
    · exact notLoad address (accessed read).1 (accessed read).2
    · exact notStore address (accessed write).1 (accessed write).2

theorem forall_mem_note
    {holds : Accesses → Prop}
    {change : Accesses → Accesses}
    (kept : ∀ accesses ∈ state.accesses, holds accesses)
    (changed : ∀ accesses ∈ state.accesses, accesses.address = address →
      holds (change accesses)) :
    ∀ accesses ∈ (state.note address change).accesses, holds accesses := by
  intro accesses member
  obtain ⟨former, noted, rfl⟩ := List.mem_map.1 member
  split
  · exact changed former noted ‹_›
  · exact kept former noted

theorem map_address_note
    {change : Accesses → Accesses}
    (same : ∀ accesses, (change accesses).address = accesses.address) :
    (state.note address change).accesses.map (·.address) = state.accesses.map (·.address) := by
  rw [Forwarding.note, List.map_map]
  refine List.map_congr_left fun accesses _ => ?_
  rw [Function.comp_apply]
  split
  · exact same accesses
  · rfl

theorem forall_mem_hold
    {holds : Ref × Option Ref → Prop}
    {value : Option Ref}
    (kept : ∀ entry ∈ state.current, holds entry)
    (held : holds (address, value)) :
    ∀ entry ∈ (state.hold address value).current, holds entry :=
  List.forall_mem_cons.2 ⟨held, fun entry member => kept entry (List.mem_of_mem_filter member)⟩

namespace Walking

variable (walking : Walking origin function addresses later block (ref :: rest) state store)

include walking

theorem tail : Walking origin function addresses later block rest state store :=
  { walking with
    ahead := fun other member => walking.ahead other (List.mem_cons_of_mem _ member)
    distinct := (List.nodup_cons.1 walking.distinct).2
    unread := fun accesses member read noted reached behind =>
      walking.unread accesses member read noted reached (List.mem_cons_of_mem _ behind) }

theorem linked : store.blockOf? ref = some block :=
  walking.ahead ref List.mem_cons_self

/-- Forwarding a value to a read. -/
theorem substitutes
    {value : Ref}
    (supplied : origin.Supplied function origin)
    (isLoad : store.opcode? ref = some .load)
    (atHand : AtHand origin function addresses store block value)
    (substitutes : Substitutes store ref value left) :
    Walking origin function addresses later block rest
      { state with removed := state.removed ++ [ref] } left := by
  have shifts := substitutes.shifts walking.promoting.toHandling isLoad atHand.toStorable
  have kept {other : Ref} (different : other ≠ ref) : other ∉ [ref] := by simpa using different
  refine ⟨⟨?_, shifts.covers walking.covers (.refl _) fun _ member absent => absurd member absent,
    walking.once, ?_, ?_⟩, walking.apart, ?_, ?_, ?_, ?_⟩
  · refine walking.promoting.substitutes isLoad atHand.toStorable ?_ substitutes
    intro user source home isStore linked reached held isLoad' linked'
    have supplies := walking.promoting.narrows.supplied supplied isStore linked reached held isLoad
      walking.linked
    exact (atHand.early (reached.of_dominates supplies) isLoad' linked').trans supplies
  · intro accesses member
    refine shifts.written (walking.written accesses member)
      (walking.covers.listed _ (List.mem_map_of_mem member)) ?_
    intro gone taken stored
    rw [List.mem_singleton.1 taken] at stored
    cases isLoad.symm.trans ((walking.written accesses member).stores ref stored).opcode
  · intro accesses member read noted
    obtain ⟨isLoad', linked⟩ := walking.reads accesses member read noted
    refine ⟨shifts.trims.opcode?_kept isLoad' rfl, fun reached => ?_⟩
    obtain ⟨linked, earlier⟩ := linked reached
    refine ⟨shifts.blockOf? linked (kept ?_), earlier⟩
    intro same
    exact walking.unread accesses member read noted reached (same ▸ List.mem_cons_self)
  · intro entry member
    obtain ⟨value, held, atHand⟩ := walking.current entry member
    exact ⟨value, held, atHand.trims shifts.trims⟩
  · intro other member
    refine shifts.blockOf? (walking.tail.ahead other member) (kept ?_)
    rintro rfl
    exact (List.nodup_cons.1 walking.distinct).1 member
  · exact walking.tail.distinct
  · exact walking.tail.unread

/-- Noting a read, which is at hand from then on. -/
theorem reading (isLoad : store.opcode? ref = some .load) :
    Walking origin function addresses later block rest
      ((state.hold address (some ref)).note address (·.addRead block ref)) store := by
  have behind := (List.nodup_cons.1 walking.distinct).1
  refine ⟨⟨walking.promoting, ?_, walking.once, ?_, ?_⟩, walking.apart, ?_, walking.tail.ahead,
    walking.tail.distinct, ?_⟩
  · rw [map_address_note]
    · exact walking.covers
    · exact fun _ => rfl
  · refine forall_mem_note walking.written fun accesses member _ => ?_
    exact ⟨(walking.written accesses member).stores, (walking.written accesses member).writes⟩
  · refine forall_mem_note walking.reads fun accesses member _ => ?_
    refine List.forall_mem_append.2 ⟨walking.reads accesses member, ?_⟩
    exact List.forall_mem_singleton.2
      ⟨isLoad, fun reached => ⟨walking.linked, walking.apart reached⟩⟩
  · refine forall_mem_hold walking.current ⟨ref, rfl, ?_, ?_⟩
    · exact walking.promoting.storable_of_opcode? isLoad rfl
    · intro home _ _ linked
      rw [Option.some.inj (linked.symm.trans walking.linked)]
      exact dominates_self function block
  · refine forall_mem_note walking.tail.unread fun accesses member _ => ?_
    exact List.forall_mem_append.2 ⟨walking.tail.unread accesses member,
      List.forall_mem_singleton.2 fun _ => behind⟩

/-- Noting a write, whose value is at hand from then on. -/
theorem writing
    {value : Ref}
    (supplied : origin.Supplied function origin)
    (touches : store.Touches .store address ref)
    (held : (store.operands ref)[1]? = some (some value))
    (storable : store.Storable addresses value) :
    Walking origin function addresses later block rest
      ((state.hold address (some value)).note address (·.addWrite block ref)) store := by
  refine ⟨⟨walking.promoting, ?_, walking.once, ?_, ?_⟩, walking.apart, ?_, walking.tail.ahead,
    walking.tail.distinct, ?_⟩
  · rw [map_address_note]
    · exact walking.covers
    · exact fun _ => rfl
  · refine forall_mem_note walking.written fun accesses member same => ?_
    obtain ⟨stores, writes⟩ := walking.written accesses member
    have new : ref ∈ (accesses.addWrite block ref).stores :=
      List.mem_append_right _ (List.mem_singleton_self ref)
    have old {other : Ref} (member : other ∈ accesses.stores) :
        other ∈ (accesses.addWrite block ref).stores :=
      List.mem_append_left _ member
    constructor
    · refine List.forall_mem_append.2 ⟨stores, List.forall_mem_singleton.2 ?_⟩
      exact same ▸ touches
    · intro write noted
      dsimp only [Accesses.addWrite] at noted
      split at noted
      · obtain ⟨former, listed, rfl⟩ := List.mem_map.1 noted
        split
        · rename_i same
          exact ⟨new, same ▸ walking.linked⟩
        · exact ⟨old (writes former listed).1, (writes former listed).2⟩
      · rcases List.mem_append.1 noted with noted | noted
        · exact ⟨old (writes _ noted).1, (writes _ noted).2⟩
        · rw [List.mem_singleton.1 noted]
          exact ⟨new, walking.linked⟩
  · exact forall_mem_note walking.reads fun accesses member _ => walking.reads accesses member
  · refine forall_mem_hold walking.current ⟨value, rfl, storable, ?_⟩
    intro home reached isLoad linked
    exact walking.promoting.narrows.supplied supplied touches.opcode walking.linked reached held
      isLoad linked
  · exact forall_mem_note walking.tail.unread fun accesses member _ =>
      walking.tail.unread accesses member

theorem ensures_forwardOne (supplied : origin.Supplied function origin) :
    Ensures (forwardOne block state ref) store
      (Walking origin function addresses later block rest) := by
  refine .of_ends (forwardOne_ends block state ref) fun state' left gives => ?_
  cases forwards_of_gives gives with
  | replace touches _ held replaces removes =>
      obtain ⟨value, rfl, atHand⟩ := walking.current _ (mem_of_lookup held)
      have repoints := walking.promoting.narrows.trims.coherent.repoints_replaceUses replaces
      obtain ⟨takes, trims⟩ := repoints.trims.coherent.removes removes
      exact walking.substitutes supplied touches.opcode atHand ⟨_, repoints, takes, trims⟩
  | read touches => exact walking.reading touches.opcode
  | @write address stored touches listed held =>
      have listed := walking.covers.listed address listed
      obtain ⟨value, held', storable⟩ := walking.promoting.exists_stored touches listed
        (Option.isSome_of_eq_some walking.linked)
      obtain rfl := Option.some.inj (held.symm.trans held')
      exact walking.writing supplied touches held storable
  | pass => exact walking.tail

end Walking

theorem ensures_forwardBlock
    (supplied : origin.Supplied function origin)
    (forwarded : Forwarded origin function addresses (block :: later) state store) :
    Ensures (forwardBlock state block) store (Forwarded origin function addresses later) := by
  have coherent := forwarded.promoting.narrows.trims.coherent
  obtain ⟨first, once⟩ := List.pairwise_cons.1 forwarded.once
  have start : Walking origin function addresses later block (store.instructions block)
      { state with current := [] } store :=
    { promoting := forwarded.promoting
      covers := forwarded.covers
      once
      written := forwarded.written
      reads := by
        intro accesses member read noted
        obtain ⟨isLoad, linked⟩ := forwarded.reads accesses member read noted
        refine ⟨isLoad, fun reached => ⟨(linked reached).1, fun behind => ?_⟩⟩
        exact (linked reached).2 (List.mem_cons_of_mem _ behind)
      apart := fun reached behind => first block behind reached rfl
      current := fun _ member => by cases member
      ahead := fun ref member => (coherent.mem_members block ref).1 member
      distinct := coherent.membersDistinct block
      unread := by
        intro accesses member read noted reached here
        obtain ⟨linked, apart⟩ := (forwarded.reads accesses member read noted).2 reached
        have linked' := (coherent.mem_members block read.2).1 here
        rw [Option.some.inj (linked.symm.trans linked')] at apart
        exact apart List.mem_cons_self }
  refine .seeBind ((Ensures.foldlM_rest _ ?_ start).imp fun _ _ walking => walking.toForwarded)
  exact fun ref rest state store walking => walking.ensures_forwardOne supplied

/-- Forwarding in one block after the other notes the accesses that are left. -/
theorem ensures_forward
    (supplied : origin.Supplied function origin)
    {blocks : List Ref}
    (forwarded : Forwarded origin function addresses blocks state store) :
    Ensures (blocks.foldlM forwardBlock state) store (Forwarded origin function addresses []) :=
  .foldlM_rest (Forwarded origin function addresses)
    (fun _ _ _ _ => ensures_forwardBlock supplied) forwarded

/-- Forwarding notes accesses of the variables that were chosen. -/
theorem addresses_of_gives_forward
    {blocks : List Ref}
    {state' : Forwarding}
    (gives : Gives (blocks.foldlM forwardBlock state) store state' left) :
    state'.accesses.map (·.address) = state.accesses.map (·.address) := by
  have same (state : Forwarding) (address : Ref) (change : Accesses → Accesses)
      (kept : ∀ accesses, (change accesses).address = accesses.address) :
      (state.note address change).accesses.map (·.address) = state.accesses.map (·.address) :=
    map_address_note kept
  refine gives.foldlM (fun between _ =>
    between.accesses.map (·.address) = state.accesses.map (·.address)) rfl ?_
  intro block _ between _ _ _ listed gives
  refine (gives_see_bind_iff.1 gives).foldlM (fun between _ =>
    between.accesses.map (·.address) = state.accesses.map (·.address)) listed ?_
  intro ref _ between _ _ _ listed gives
  obtain ⟨entry, -, gives⟩ := gives_instruction_bind_iff.1 gives
  rw [← listed]
  split at gives
  · split at gives
    · obtain ⟨_, _, -, gives⟩ := gives_bind_iff.1 gives
      obtain ⟨_, _, -, returned⟩ := gives_bind_iff.1 gives
      obtain ⟨rfl, -⟩ := gives_pure_iff.1 returned
      rfl
    · obtain ⟨rfl, -⟩ := gives_pure_iff.1 gives
      exact same _ _ _ fun _ => rfl
  · obtain ⟨_, _, -, returned⟩ := gives_bind_iff.1 gives
    obtain ⟨rfl, -⟩ := gives_pure_iff.1 returned
    exact same _ _ _ fun _ => rfl
  · obtain ⟨rfl, -⟩ := gives_pure_iff.1 gives
    rfl

/-- No reached block comes up twice. -/
theorem pairwise_blocksInOrder (coherent : store.Coherent) (function : Ref) :
    (blocksInOrder store function).Pairwise fun block other =>
      store.Reached function block → block ≠ other := by
  refine List.pairwise_append.2 ⟨?_, ?_, ?_⟩
  · refine List.Pairwise.imp ?_ (nodup_reversePostOrder coherent function)
    exact fun different _ => different
  · refine List.pairwise_of_forall_mem_list fun block member _ _ reached => ?_
    have absent := (List.mem_filter.1 member).2
    have present := (mem_reversePostOrder_iff_reached coherent).2 reached
    simp [present] at absent
  · rintro block inOrder other member - rfl
    have absent := (List.mem_filter.1 member).2
    simp [inOrder] at absent

end Pass

end ShaderIR
