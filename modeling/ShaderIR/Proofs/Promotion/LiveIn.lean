import ShaderIR.Proofs.Coherence.Adjacency
import ShaderIR.Proofs.Promotion.Charting
import ShaderIR.Proofs.Traversal.Closure

/-!
# Where a variable may still be read

A variable is live on entry to a block if control can come from there to a read of the
variable before it comes to a write.  Once forwarding has left each block with one read at
most, in front of the writes, only whole blocks matter: the blocks noted as readers are live,
and so are the predecessors of live blocks that do not write the variable.  The search for
these blocks ends, and the blocks it finds are just the live ones.
-/

namespace ShaderIR

open Store Edit

open Pass (Accesses Handling Charts Notes)

namespace Store

/-- A block reads a variable at most once, and before any write to it. -/
def ReadsFirst (store : Store) (address block : Ref) : Prop :=
  ∃ (read : Option Ref) (writes : List Ref),
    store.accessesOf address block = read.toList ++ writes ∧
      (∀ ref ∈ read, store.Touches .load address ref) ∧
      ∀ ref ∈ writes, store.Touches .store address ref

/-- Control can move on from a block to another one of a function. -/
def Follows (store : Store) (function source target : Ref) : Prop :=
  target ∈ store.successors source ∧ store.blockFunction? target = some function

/--
From the start of a block, control can come to a read of a variable inside a function with no
write to the variable in between.
-/
inductive ReadsAhead (store : Store) (function address : Ref) : Ref → Prop
  | here {block load : Ref} {front back : List Ref}
      (split : store.instructions block = front ++ load :: back)
      (read : store.Touches .load address load)
      (unwritten : ∀ ref ∈ front, ¬store.Touches .store address ref) :
      ReadsAhead store function address block
  | onward {block next : Ref}
      (unwritten : ∀ ref ∈ store.instructions block, ¬store.Touches .store address ref)
      (follows : store.Follows function block next)
      (ahead : ReadsAhead store function address next) :
      ReadsAhead store function address block

/-- The terminators of a function lead to its own blocks only. -/
def LeadsInside (store : Store) (function : Ref) : Prop :=
  ∀ source target, store.blockFunction? source = some function →
    target ∈ store.successors source → store.blockFunction? target = some function

/--
On some path from the start of a block, whatever functions its blocks belong to, there is a
read of a variable with no write to the variable before it.
-/
def ComesToRead (store : Store) (address block : Ref) : Prop :=
  ∃ reader front load back,
    Relation.ReflTransGen
      (fun source target => target ∈ store.successors source ∧
        ∀ ref ∈ store.instructions source, ¬store.Touches .store address ref) block reader ∧
    store.instructions reader = front ++ load :: back ∧
    store.Touches .load address load ∧
    ∀ ref ∈ front, ¬store.Touches .store address ref

variable {store : Store} {function address ref block : Ref}

/-- Paths of a function that stays among its blocks are paths inside the function. -/
theorem LeadsInside.readsAhead_iff
    (inside : store.LeadsInside function)
    (owned : store.blockFunction? block = some function) :
    store.ReadsAhead function address block ↔ store.ComesToRead address block := by
  constructor
  · intro ahead
    clear owned
    induction ahead with
    | @here block load front back split read unwritten =>
        exact ⟨block, front, load, back, .refl, split, read, unwritten⟩
    | @onward block next unwritten follows _ induction =>
        obtain ⟨reader, front, load, back, path, rest⟩ := induction
        exact ⟨reader, front, load, back, path.head ⟨follows.1, unwritten⟩, rest⟩
  · rintro ⟨reader, front, load, back, path, split, read, unwritten⟩
    induction path using Relation.ReflTransGen.head_induction_on with
    | refl => exact .here split read unwritten
    | @head block next step _ induction =>
        have owned' := inside block next owned step.1
        exact .onward step.2 ⟨step.1, owned'⟩ (induction owned')

/-- Restraining a function with terminators at the ends of its blocks keeps it to itself. -/
theorem LeadsInside.restrained
    {left : Store}
    (inside : store.LeadsInside function)
    (restrains : store.Restrains left)
    (coherent : store.Coherent)
    (ended : ∀ block, store.blockFunction? block = some function → store.EndsLast block) :
    left.LeadsInside function := by
  intro source target owned edge
  rw [restrains.trims.ages.blockFunction?] at owned ⊢
  exact inside source target owned (restrains.mem_successors coherent (ended source owned) edge)

/-- Control reaches only blocks of a function that keeps to itself. -/
theorem LeadsInside.owned_of_reached
    (inside : store.LeadsInside function)
    (coherent : store.Coherent)
    (reached : store.Reached function block) :
    store.blockFunction? block = some function := by
  obtain ⟨body, hasBody, reaches⟩ := reached
  obtain ⟨entry, found, isBody⟩ := Option.bind_eq_some_iff.1 hasBody
  induction reaches with
  | refl => exact coherent.bodyOwner found isBody
  | tail _ edge induction => exact inside _ _ induction edge

instance : Decidable (store.EndsLast block) :=
  inferInstanceAs (Decidable (List.Pairwise _ _))

/-- A variable that nothing linked uses is not accessed. -/
theorem Cleared.not_touches
    (cleared : store.Cleared address)
    (coherent : store.Coherent)
    {opcode : Opcode}
    (member : ref ∈ store.instructions block) :
    ¬store.Touches opcode address ref :=
  fun touches => cleared.unused (coherent.linked_of_mem member) touches.mem

theorem Cleared.accessesOf
    (cleared : store.Cleared address)
    (coherent : store.Coherent)
    (block : Ref) :
    store.accessesOf address block = [] := by
  refine List.filter_eq_nil_iff.2 fun ref member access => ?_
  rcases isAccess_iff.1 access with read | write
  · exact cleared.not_touches coherent member read
  · exact cleared.not_touches coherent member write

theorem Cleared.not_readsAhead (cleared : store.Cleared address) (coherent : store.Coherent) :
    ¬store.ReadsAhead function address block := by
  intro ahead
  induction ahead with
  | @here block load _ _ split read _ =>
      have member : load ∈ store.instructions block := by
        rw [split]
        exact List.mem_append_right _ List.mem_cons_self
      exact cleared.not_touches coherent member read
  | onward _ _ _ induction => exact induction

end Store

namespace Pass

variable {store : Store} {function block : Ref} {accesses : Accesses}

namespace Charts

variable (charts : Charts function store accesses)

include charts

theorem readsFirst (owned : store.blockFunction? block = some function) :
    store.ReadsFirst accesses.address block := by
  obtain ⟨writes, equal, -, reads, isStore⟩ := charts.exists_writes owned
  exact ⟨_, writes, equal, reads, isStore⟩

/-- The blocks noted as readers are those with a read, which no write precedes. -/
theorem mem_readers_iff (owned : store.blockFunction? block = some function) :
    block ∈ accesses.readers ↔
      ∃ load ∈ store.instructions block, store.Touches .load accesses.address load := by
  obtain ⟨writes, equal, -, reads, isStore⟩ := charts.exists_writes owned
  constructor
  · intro reader
    obtain ⟨load, found⟩ := exists_lookup_iff.2 reader
    have member : load ∈ store.accessesOf accesses.address block := by
      rw [equal, found]
      exact List.mem_cons_self
    exact ⟨load, List.mem_of_mem_filter member, reads load found⟩
  · rintro ⟨load, member, read⟩
    have access := List.mem_filter.2 ⟨member, isAccess_of_load read⟩
    rw [← accessesOf, equal, List.mem_append, Option.mem_toList] at access
    rcases access with noted | written
    · exact exists_lookup_iff.1 ⟨load, noted⟩
    · cases read.opcode.symm.trans (isStore load written).opcode

/-- The blocks noted as writers are those with a write. -/
theorem mem_writers_iff (owned : store.blockFunction? block = some function) :
    block ∈ accesses.writers ↔
      ∃ ref ∈ store.instructions block, store.Touches .store accesses.address ref := by
  obtain ⟨writes, equal, last, reads, isStore⟩ := charts.exists_writes owned
  constructor
  · intro written
    obtain ⟨ref, found⟩ := exists_lookup_iff.2 written
    have written : ref ∈ writes := List.mem_of_getLast? (last.symm.trans found)
    have member : ref ∈ store.accessesOf accesses.address block := by
      rw [equal]
      exact List.mem_append_right _ written
    exact ⟨ref, List.mem_of_mem_filter member, isStore ref written⟩
  · rintro ⟨ref, member, write⟩
    have access := List.mem_filter.2 ⟨member, isAccess_of_store write⟩
    rw [← accessesOf, equal, List.mem_append, Option.mem_toList] at access
    rcases access with noted | written
    · cases (reads ref noted).opcode.symm.trans write.opcode
    · refine exists_lookup_iff.1 (Option.isSome_iff_exists.1 ?_)
      rw [last, List.getLast?_isSome]
      exact List.ne_nil_of_mem written

theorem readsAhead_of_mem_readers
    (owned : store.blockFunction? block = some function)
    (reader : block ∈ accesses.readers) :
    store.ReadsAhead function accesses.address block := by
  obtain ⟨writes, equal, -, reads, -⟩ := charts.exists_writes owned
  obtain ⟨load, found⟩ := exists_lookup_iff.2 reader
  rw [found] at equal
  obtain ⟨front, back, split, quiet, -⟩ := List.filter_eq_cons_iff.1 equal
  refine .here split (reads load found) fun ref member write => ?_
  exact quiet ref member (isAccess_of_store write)

omit charts in
theorem index_lt_of_mem_predecessors (coherent : store.Coherent) (source : Ref) :
    ∀ target ∈ (store.predecessors source).filter (!accesses.writers.contains ·),
      target.index < store.values.size := by
  intro target member
  obtain ⟨terminator, linked, -⟩ := coherent.mem_predecessors_iff.1 (List.mem_of_mem_filter member)
  exact index_lt_of_value? (value?_isSome_of_isBlock (coherent.isBlock_of_blockOf? linked))

theorem index_lt_of_mem_readers : ∀ reader ∈ accesses.readers, reader.index < store.values.size :=
  fun reader noted => index_lt_of_value? (value?_isSome_of_isBlock (charts.present reader noted))

/-- The search for the blocks that are live on entry goes on until no work is left. -/
theorem searches_liveIn (coherent : store.Coherent) :
    Closure.Searches (fun block => (store.predecessors block).filter (!accesses.writers.contains ·))
      accesses.readers accesses.readers (liveIn store accesses) :=
  searches_closure (index_lt_of_mem_predecessors coherent) charts.distinct
    charts.index_lt_of_mem_readers

theorem not_mem_writers_iff (owned : store.blockFunction? block = some function) :
    block ∉ accesses.writers ↔
      ∀ ref ∈ store.instructions block, ¬store.Touches .store accesses.address ref := by
  rw [charts.mem_writers_iff owned]
  simp

/-- The search comes to every block from which control can come to a read. -/
theorem mem_liveIn_of_readsAhead
    (coherent : store.Coherent)
    (owned : store.blockFunction? block = some function)
    (ahead : store.ReadsAhead function accesses.address block) :
    block ∈ liveIn store accesses := by
  refine (mem_closure_iff (index_lt_of_mem_predecessors coherent) charts.distinct
    charts.index_lt_of_mem_readers).2 ?_
  induction ahead with
  | @here block load _ _ split read _ =>
      have member : load ∈ store.instructions block := by
        rw [split]
        exact List.mem_append_right _ List.mem_cons_self
      exact ⟨block, (charts.mem_readers_iff owned).2 ⟨load, member, read⟩, .refl⟩
  | @onward block next unwritten follows _ induction =>
      obtain ⟨first, reader, leads⟩ := induction follows.2
      refine ⟨first, reader, leads.tail (List.mem_filter.2 ⟨?_, ?_⟩)⟩
      · exact coherent.mem_predecessors_of_successor follows.1 (owned.trans follows.2.symm)
      · simpa using (charts.not_mem_writers_iff owned).2 unwritten

/-- The blocks found to be live on entry are those from which control can come to a read. -/
theorem mem_liveIn_iff
    (coherent : store.Coherent)
    (ended : ∀ block, store.blockFunction? block = some function → store.EndsLast block)
    (owned : store.blockFunction? block = some function) :
    block ∈ liveIn store accesses ↔ store.ReadsAhead function accesses.address block := by
  refine ⟨fun live => ?_, charts.mem_liveIn_of_readsAhead coherent owned⟩
  obtain ⟨first, reader, leads⟩ := (mem_closure_iff (index_lt_of_mem_predecessors coherent)
    charts.distinct charts.index_lt_of_mem_readers).1 live
  clear live
  induction leads with
  | refl => exact charts.readsAhead_of_mem_readers owned reader
  | @tail target source _ before induction =>
      obtain ⟨predecessor, notWriter⟩ := List.mem_filter.1 before
      obtain ⟨-, -, -, -, owner⟩ := coherent.mem_predecessors_iff.1 predecessor
      have owned' := owner.symm.trans owned
      refine .onward ((charts.not_mem_writers_iff owned).1 (by simpa using notWriter))
        ⟨?_, owned'⟩ (induction owned')
      exact (coherent.mem_predecessors_iff_mem_successors (owned.trans owned'.symm)
        (isBlock_of_blockFunction? owned') (pairwise_iff_dropLast.1 (ended source owned))).1
        predecessor

end Charts

/-- All blocks walked over are those of a function that keeps to itself. -/
theorem owned_of_mem_blocksInOrder
    (inside : store.LeadsInside function)
    (coherent : store.Coherent)
    (housed : store.Housed)
    (member : block ∈ blocksInOrder store function) :
    store.blockFunction? block = some function := by
  rcases List.mem_append.1 member with reachable | other
  · exact inside.owned_of_reached coherent
      ((mem_reversePostOrder_iff_reached coherent).1 reachable)
  · exact (housed.mem_blocksOf function block).1 (List.mem_of_mem_filter other)

/-- From blocks of a function the search comes to blocks of the function. -/
theorem owned_of_mem_liveIn
    (coherent : store.Coherent)
    (readers : ∀ reader ∈ accesses.readers, store.blockFunction? reader = some function) :
    ∀ block ∈ liveIn store accesses, store.blockFunction? block = some function := by
  refine Closure.forall_mem_expand (store.blockFunction? · = some function) ?_ _ _ _ readers readers
  intro target owned source before
  obtain ⟨-, -, -, -, owner⟩ :=
    coherent.mem_predecessors_iff.1 (List.mem_of_mem_filter before)
  exact owner.trans owned

end Pass

namespace Session

open Pass

/--
After any operations, transposing and choosing variables of a function whose blocks hold
terminators at their ends only: once values are forwarded inside blocks and the variables
without reads are removed, each block of the function reads a chosen variable at most once, and
before it writes it.  The search for the blocks on entry to which the variable is live ends, and
those of its blocks that it finds are the ones from which control can come to a read, inside the
function and with no write in between.  If the function keeps to its blocks, these are all
blocks that it finds, and they are the blocks of the function from which any path comes to a
read with no write in between.
-/
theorem liveIn_exact
    {operations : List Operation}
    {function : Ref}
    (ended : ∀ block, (after operations).store.blockFunction? block = some function →
      (after operations).store.EndsLast block)
    {transposition : Transposition}
    {between : Store}
    (transposes : Gives (transpose function) (after operations).store transposition between)
    {chosen : List Accesses}
    (chooses : Gives (promotable (between.traverse function)) between chosen between)
    {state : Forwarding}
    {forwarded : Store}
    (forwards : Gives ((blocksInOrder between function).foldlM forwardBlock { accesses := chosen })
      between state forwarded)
    {report report' : Promotion}
    {left : Store}
    (removes : Gives ((state.accesses.filter (·.reads.isEmpty)).foldlM removeVariable report)
      forwarded report' left) :
    state.accesses.map (·.address) = chosen.map (·.address) ∧
      ∀ accesses ∈ state.accesses,
        (∀ block, left.blockFunction? block = some function →
          left.ReadsFirst accesses.address block ∧
            (block ∈ liveIn left accesses ↔ left.ReadsAhead function accesses.address block)) ∧
          (between.LeadsInside function → ∀ block, block ∈ liveIn left accesses ↔
            left.blockFunction? block = some function ∧
              left.ComesToRead accesses.address block) ∧
          Closure.Searches
            (fun block => (left.predecessors block).filter (!accesses.writers.contains ·))
            accesses.readers accesses.readers (liveIn left accesses) := by
  have coherent := (after_coherent operations).store
  have continues := continues_transpose coherent transposes
  have trims := continues.trims
  have housed := trims.ages.keepsHousing (after_housed operations)
  obtain ⟨continues', restrains, charting, noted⟩ := charting_of_stages trims.coherent
    (trims.regular (after_regular operations)) housed chooses forwards removes
  have ended' : ∀ block, between.blockFunction? block = some function →
      between.EndsLast block := by
    intro block owned
    rw [trims.ages.blockFunction?] at owned
    exact continues.ended (ended block owned)
  have ended : ∀ block, left.blockFunction? block = some function → left.EndsLast block := by
    intro block owned
    rw [continues'.trims.ages.blockFunction?] at owned
    exact continues'.ended (ended' block owned)
  refine ⟨addresses_of_gives_forward forwards, fun accesses member => ?_⟩
  obtain ⟨-, cleared, walked⟩ := noted accesses member
  have searched : (∀ block, left.blockFunction? block = some function →
      left.ReadsFirst accesses.address block ∧
        (block ∈ liveIn left accesses ↔ left.ReadsAhead function accesses.address block)) ∧
      Closure.Searches
        (fun block => (left.predecessors block).filter (!accesses.writers.contains ·))
        accesses.readers accesses.readers (liveIn left accesses) := by
    cases unread : accesses.reads.isEmpty with
    | true =>
        have cleared := cleared unread
        have noReaders : accesses.readers = [] := by
          rw [Accesses.readers, List.isEmpty_iff.1 unread, List.map_nil]
        have noneLive : liveIn left accesses = [] := by
          rw [liveIn, noReaders, closure_nil]
        refine ⟨fun block _ => ⟨⟨none, [], ?_, ?_, ?_⟩, ?_⟩, ?_⟩
        · exact cleared.accessesOf charting.coherent block
        · exact fun _ none => by cases none
        · exact fun _ none => by cases none
        · rw [noneLive]
          exact iff_of_false List.not_mem_nil (cleared.not_readsAhead charting.coherent)
        · rw [noneLive, noReaders]
          exact .done
    | false =>
        have charts := charting.charts accesses (List.mem_filter.2 ⟨member, by simp [unread]⟩)
        refine ⟨fun block owned => ⟨charts.readsFirst owned, ?_⟩, ?_⟩
        · exact charts.mem_liveIn_iff charting.coherent ended owned
        · exact charts.searches_liveIn charting.coherent
  refine ⟨searched.1, fun inside block => ?_, searched.2⟩
  have inside' := inside.restrained restrains trims.coherent ended'
  have readers : ∀ reader ∈ accesses.readers, left.blockFunction? reader = some function := by
    intro reader noted
    rw [continues'.trims.ages.blockFunction?]
    exact owned_of_mem_blocksInOrder inside trims.coherent housed (walked reader noted)
  constructor
  · intro live
    have owned := owned_of_mem_liveIn charting.coherent readers block live
    exact ⟨owned, (inside'.readsAhead_iff owned).1 ((searched.1 block owned).2.1 live)⟩
  · rintro ⟨owned, comes⟩
    exact (searched.1 block owned).2.2 ((inside'.readsAhead_iff owned).2 comes)

/--
A variable that is written in front of a loop and read twice at its head.  A block that control
never comes to leads into the loop as well.
-/
def looping : List Operation :=
  [.edit (.addModule "looping"),
    .edit (.createFunction 0 .callable none),
    .edit (.createBody ⟨0⟩),
    .edit (.createBlock ⟨0⟩),
    .edit (.createBlock ⟨0⟩),
    .edit (.createBlock ⟨0⟩),
    .edit (.createBlock ⟨0⟩),
    .edit (.requestType 0 "i32" (.scalar (.signed 4))),
    .edit (.constantInt32 0 1),
    .moveToEnd ⟨1⟩, .alloca (some word) .local,
    .store (some ⟨7⟩) (some ⟨6⟩),
    .emit .branch none [some ⟨2⟩] (.refl true),
    .moveToEnd ⟨2⟩, .load (some word) (some ⟨7⟩),
    .load (some word) (some ⟨7⟩),
    .condBranch none (some ⟨3⟩) (some ⟨4⟩),
    .moveToEnd ⟨3⟩, .emit .branch none [some ⟨2⟩] (.refl true),
    .moveToEnd ⟨4⟩, .emit .ret none [] (.refl true),
    .moveToEnd ⟨5⟩, .emit .branch none [some ⟨2⟩] (.refl true)]

/-- The head is left with one read, and only the first and the last block lead to none. -/
theorem liveIn_exact_looping :
    (∀ block, (after looping).store.blockFunction? block = some ⟨0⟩ →
      (after looping).store.EndsLast block) ∧
    ∃ transposition between chosen state forwarded report left,
      Gives (transpose ⟨0⟩) (after looping).store transposition between ∧
        Gives (promotable (between.traverse ⟨0⟩)) between chosen between ∧
        Gives ((blocksInOrder between ⟨0⟩).foldlM forwardBlock { accesses := chosen }) between
          state forwarded ∧
        Gives ((state.accesses.filter (·.reads.isEmpty)).foldlM removeVariable {}) forwarded
          report left ∧
        state.accesses.map (·.address) = [⟨7⟩] ∧ between.LeadsInside ⟨0⟩ ∧
        left.instructions ⟨2⟩ = [⟨10⟩, ⟨12⟩] ∧ left.ReadsFirst ⟨7⟩ ⟨2⟩ ∧
        left.ReadsAhead ⟨0⟩ ⟨7⟩ ⟨3⟩ ∧ left.ComesToRead ⟨7⟩ ⟨5⟩ ∧
        ¬left.ReadsAhead ⟨0⟩ ⟨7⟩ ⟨1⟩ ∧ ¬left.ComesToRead ⟨7⟩ ⟨4⟩ := by
  have ended : ∀ block, (after looping).store.blockFunction? block = some ⟨0⟩ →
      (after looping).store.EndsLast block := by
    intro block owned
    have all : ∀ block ∈ (after looping).store.blocksOf ⟨0⟩,
        (after looping).store.EndsLast block := by
      decide +kernel
    exact all block (((after_housed looping).mem_blocksOf ⟨0⟩ block).2 owned)
  have runs : (match outcome (transpose ⟨0⟩) (after looping).store with
      | (.ok _, between) => match outcome (promotable (between.traverse ⟨0⟩)) between with
        | (.ok chosen, _) => match outcome ((blocksInOrder between ⟨0⟩).foldlM forwardBlock
            { accesses := chosen }) between with
          | (.ok state, forwarded) => match outcome
              ((state.accesses.filter (·.reads.isEmpty)).foldlM removeVariable {}) forwarded with
            | (.ok _, left) => decide (left.instructions ⟨2⟩ = [⟨10⟩, ⟨12⟩] ∧
                state.accesses.map (·.address) = [⟨7⟩] ∧
                state.accesses.map (liveIn left) = [[⟨3⟩, ⟨5⟩, ⟨2⟩]] ∧
                (∀ block ∈ ([⟨1⟩, ⟨2⟩, ⟨3⟩, ⟨4⟩, ⟨5⟩] : List Ref),
                  left.blockFunction? block = some ⟨0⟩) ∧
                ∀ source ∈ between.blocksOf ⟨0⟩, ∀ target ∈ between.successors source,
                  between.blockFunction? target = some ⟨0⟩)
            | _ => false
          | _ => false
        | _ => false
      | _ => false) = true := by
    decide +kernel
  refine ⟨ended, ?_⟩
  split at runs <;> [rename_i transposition between transposes; cases runs]
  split at runs <;> [rename_i chosen same chooses; cases runs]
  split at runs <;> [rename_i state forwarded forwards; cases runs]
  split at runs <;> [rename_i report left removes; cases runs]
  obtain ⟨head, addresses, live, owned, leads⟩ := of_decide_eq_true runs
  obtain rfl := (ensures_promotable.2 _ _ chooses).1
  have continues := continues_transpose (after_coherent looping).store transposes
  have housed := continues.trims.ages.keepsHousing (after_housed looping)
  have inside : Store.LeadsInside _ ⟨0⟩ := fun source target owner edge =>
    leads source ((housed.mem_blocksOf ⟨0⟩ source).2 owner) target edge
  obtain ⟨-, charted⟩ := liveIn_exact ended transposes chooses forwards removes
  obtain ⟨accesses, listed, isAddress⟩ := List.map_eq_singleton_iff.1 addresses
  rw [listed, List.map_singleton, List.singleton_inj] at live
  obtain ⟨blocks, exact, -⟩ :=
    charted accesses (by rw [listed]; exact List.mem_singleton_self accesses)
  have exact := exact inside
  rw [live, isAddress] at blocks exact
  refine ⟨transposition, _, chosen, state, forwarded, report, left, transposes, chooses, forwards,
    removes, addresses, inside, head, (blocks ⟨2⟩ (owned _ (by decide))).1, ?_, ?_, ?_, ?_⟩
  · exact (blocks ⟨3⟩ (owned _ (by decide))).2.1 (by decide)
  · exact ((exact ⟨5⟩).1 (by decide)).2
  · exact fun ahead => absurd ((blocks ⟨1⟩ (owned _ (by decide))).2.2 ahead) (by decide)
  · exact fun comes => absurd ((exact ⟨4⟩).2 ⟨owned _ (by decide), comes⟩) (by decide)

/--
Two functions, and blocks of the first one that control never comes to: one leads to the body of
the second function, which reads the variable of the first one twice and leads back to the other.
-/
def detouring : List Operation :=
  [.edit (.addModule "detouring"),
    .edit (.createFunction 0 .callable none),
    .edit (.createBody ⟨0⟩),
    .edit (.createBlock ⟨0⟩),
    .edit (.createBlock ⟨0⟩),
    .edit (.createFunction 0 .callable none),
    .edit (.createBody ⟨4⟩),
    .edit (.requestType 0 "i32" (.scalar (.signed 4))),
    .moveToEnd ⟨1⟩, .alloca (some word) .local,
    .emit .ret none [] (.refl true),
    .moveToEnd ⟨2⟩, .emit .branch none [some ⟨5⟩] (.refl true),
    .moveToEnd ⟨5⟩, .load (some word) (some ⟨6⟩),
    .load (some word) (some ⟨6⟩),
    .emit .branch none [some ⟨3⟩] (.refl true),
    .moveToEnd ⟨3⟩, .load (some word) (some ⟨6⟩),
    .emit .ret none [] (.refl true)]

/--
A path through another function comes to a read, but the search does not find where the path
starts, and the block of the other function is left with both its reads.
-/
theorem not_live_detouring :
    (∀ block, (after detouring).store.blockFunction? block = some ⟨0⟩ →
      (after detouring).store.EndsLast block) ∧
      ∃ transposition between chosen state forwarded report left,
        Gives (transpose ⟨0⟩) (after detouring).store transposition between ∧
          Gives (promotable (between.traverse ⟨0⟩)) between chosen between ∧
          Gives ((blocksInOrder between ⟨0⟩).foldlM forwardBlock { accesses := chosen }) between
            state forwarded ∧
          Gives ((state.accesses.filter (·.reads.isEmpty)).foldlM removeVariable {}) forwarded
            report left ∧
          state.accesses.map (·.address) = [⟨6⟩] ∧
          left.blockFunction? ⟨2⟩ = some ⟨0⟩ ∧ left.ComesToRead ⟨6⟩ ⟨2⟩ ∧
          (∀ accesses ∈ state.accesses, ⟨2⟩ ∉ liveIn left accesses) ∧
          ¬left.ReadsFirst ⟨6⟩ ⟨5⟩ := by
  have ended : ∀ block, (after detouring).store.blockFunction? block = some ⟨0⟩ →
      (after detouring).store.EndsLast block := by
    intro block owned
    have all : ∀ block ∈ (after detouring).store.blocksOf ⟨0⟩,
        (after detouring).store.EndsLast block := by
      decide +kernel
    exact all block (((after_housed detouring).mem_blocksOf ⟨0⟩ block).2 owned)
  have runs : (match outcome (transpose ⟨0⟩) (after detouring).store with
      | (.ok _, between) => match outcome (promotable (between.traverse ⟨0⟩)) between with
        | (.ok chosen, _) => match outcome ((blocksInOrder between ⟨0⟩).foldlM forwardBlock
            { accesses := chosen }) between with
          | (.ok state, forwarded) => match outcome
              ((state.accesses.filter (·.reads.isEmpty)).foldlM removeVariable {}) forwarded with
            | (.ok _, left) => decide (state.accesses.map (·.address) = [⟨6⟩] ∧
                (∀ accesses ∈ state.accesses, ⟨2⟩ ∉ liveIn left accesses) ∧
                left.blockFunction? ⟨2⟩ = some ⟨0⟩ ∧ ⟨5⟩ ∈ left.successors ⟨2⟩ ∧
                left.instructions ⟨2⟩ = [⟨8⟩] ∧ left.opcode? ⟨8⟩ = some .branch ∧
                left.instructions ⟨5⟩ = [⟨9⟩, ⟨10⟩, ⟨11⟩] ∧
                left.accessesOf ⟨6⟩ ⟨5⟩ = [⟨9⟩, ⟨10⟩] ∧
                (∀ load ∈ ([⟨9⟩, ⟨10⟩] : List Ref), left.opcode? load = some .load ∧
                  (left.operands load).head? = some (some ⟨6⟩)))
            | _ => false
          | _ => false
        | _ => false
      | _ => false) = true := by
    decide +kernel
  refine ⟨ended, ?_⟩
  split at runs <;> [rename_i transposition between transposes; cases runs]
  split at runs <;> [rename_i chosen same chooses; cases runs]
  split at runs <;> [rename_i state forwarded forwards; cases runs]
  split at runs <;> [rename_i report left removes; cases runs]
  obtain ⟨addresses, missed, owned, edge, first, isBranch, second, accessed, loads⟩ :=
    of_decide_eq_true runs
  obtain rfl := (ensures_promotable.2 _ _ chooses).1
  have reads : ∀ load ∈ ([⟨9⟩, ⟨10⟩] : List Ref), left.Touches .load ⟨6⟩ load :=
    fun load member => ⟨(loads load member).1, (loads load member).2⟩
  refine ⟨transposition, _, chosen, state, forwarded, report, left, transposes, chooses, forwards,
    removes, addresses, owned, ?comes, missed, ?twice⟩
  case comes =>
    have unwritten : ∀ ref ∈ left.instructions ⟨2⟩, ¬left.Touches .store ⟨6⟩ ref := by
      intro ref member write
      rw [first, List.mem_singleton] at member
      cases isBranch.symm.trans (member ▸ write.opcode)
    exact ⟨⟨5⟩, [], ⟨9⟩, _, .single ⟨edge, unwritten⟩, second, reads _ (by decide), by simp⟩
  case twice =>
    rintro ⟨read, writes, split, -, isStore⟩
    rw [accessed] at split
    have written : (⟨10⟩ : Ref) ∈ writes := by
      cases read with
      | none =>
          rw [Option.toList_none, List.nil_append] at split
          simp [← split]
      | some read =>
          rw [Option.toList_some, List.singleton_append] at split
          simp [← (List.cons.inj split).2]
    cases (reads ⟨10⟩ (by decide)).opcode.symm.trans (isStore _ written).opcode

end Session

end ShaderIR
