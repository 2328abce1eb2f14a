import ShaderIR.Proofs.Dominance.Joins
import ShaderIR.Proofs.Promotion.Forwarding

/-!
# Promoting one variable after the other

The reads that are left of a variable are replaced by phis and by the values that
reach their blocks.  A value that reaches a block was written in a block that strictly
dominates it.  If that value is a read, its own block dominates that of the write, so
it is not the read that is replaced, and it is in use.  A replaced read is not used
any more.  Hence no value that reaches a block was replaced before, and looking for
its replacement ends at once.
-/

namespace ShaderIR

open Store Edit

variable {origin store left : Store} {function address ref block : Ref}
  {addresses gone : List Ref}

theorem Store.Trims.isPhi (trims : store.Trims left) (isPhi : store.isPhi ref = true) :
    left.isPhi ref = true := by
  have present : (store.value? ref).isSome := by
    obtain ⟨opcode, found, -⟩ := (Option.any_eq_true _ _).1 isPhi
    exact value?_isSome_of_opcode? found
  rcases trims.kind present with same | ⟨-, isPhi'⟩
  · rw [Store.isPhi, same]
    exact isPhi
  · exact isPhi'

namespace Pass

/-- What is noted about the variables that are still to be promoted. -/
structure Promotes (origin : Store) (function : Ref) (addresses : List Ref)
    (kept : List Accesses) (store : Store) : Prop
    extends Promoting origin function addresses store where
  covers : store.Covers addresses (kept.map (·.address))
  written : ∀ accesses ∈ kept, store.Written accesses
  pending : ∀ accesses ∈ kept, ∀ read ∈ accesses.reads, origin.Pending function store read

namespace Promotes

variable {kept others : List Accesses} {accesses : Accesses}

theorem listed
    (promotes : Promotes origin function addresses kept store)
    (member : accesses ∈ kept) :
    accesses.address ∈ addresses :=
  promotes.covers.listed _ (List.mem_map_of_mem member)

/-- A step that leaves the variables as they are that are still to be promoted. -/
theorem step
    (promotes : Promotes origin function addresses kept store)
    (promoting : Promoting origin function addresses left)
    (shifts : store.Shifts addresses gone left)
    (idle : ∀ {ref}, store.Idle ref → left.Idle ref)
    (sub : others.Sublist kept)
    (cleared : ∀ accesses ∈ kept, accesses ∉ others → left.Cleared accesses.address)
    (unwritten : ∀ accesses ∈ others, ∀ ref ∈ gone, ref ∉ accesses.stores)
    (unread : ∀ ref ∈ gone, store.opcode? ref = some .load → left.Idle ref) :
    Promotes origin function addresses others left where
  toPromoting := promoting
  covers := by
    refine shifts.covers promotes.covers (sub.map _) fun address noted absent => ?_
    obtain ⟨accesses, member, rfl⟩ := List.mem_map.1 noted
    exact cleared accesses member fun listed => absent (List.mem_map_of_mem listed)
  written := fun accesses member => shifts.written (promotes.written accesses (sub.subset member))
    (promotes.listed (sub.subset member)) (unwritten accesses member)
  pending := by
    intro accesses member read noted
    have pending := promotes.pending accesses (sub.subset member) read noted
    exact shifts.pending pending idle fun taken => unread read.2 taken pending.isLoad

/-- A step that unlinks no write of the variables. -/
theorem keeps
    (promotes : Promotes origin function addresses kept store)
    (promoting : Promoting origin function addresses left)
    (shifts : store.Shifts addresses gone left)
    (idle : ∀ {ref}, store.Idle ref → left.Idle ref)
    (unwritten : ∀ accesses ∈ kept, ∀ ref ∈ gone, ref ∉ accesses.stores)
    (unread : ∀ ref ∈ gone, store.opcode? ref = some .load → left.Idle ref) :
    Promotes origin function addresses kept left :=
  promotes.step promoting shifts idle (.refl kept) (fun _ member absent => absurd member absent)
    unwritten unread

end Promotes

/-! ## Removing a variable -/

theorem ensures_removeAll {refs : List Ref} (coherent : store.Coherent) :
    Ensures (removeAll refs) store fun _ left => store.Takes refs left ∧ store.Trims left := by
  induction refs generalizing store with
  | nil => exact .pure ⟨.refl store, .refl coherent⟩
  | cons ref rest induction =>
      refine Ensures.bind (.of_ends (remove_ends ref) fun _ middle gives =>
        coherent.removes gives) ?_
      rintro _ middle ⟨takes, trims⟩
      refine (induction trims.coherent).imp ?_
      rintro _ left ⟨takes', trims'⟩
      refine ⟨(takes.trans takes').of_mem_iff fun other => ?_, trims.trans trims'⟩
      rw [List.mem_append, List.mem_cons, List.mem_singleton, or_comm]

variable {kept others : List Accesses} {accesses : Accesses} {report : Promotion}

/-- Removing a variable takes it out with its writes, and nothing uses it any more. -/
theorem takes_removeVariable (coherent : store.Coherent) :
    Ensures (removeVariable report accesses) store fun _ left =>
      store.Takes (accesses.address :: accesses.stores) left ∧ store.Trims left ∧
        ∀ {user}, (left.blockOf? user).isSome → some accesses.address ∉ left.operands user := by
  refine (ensures_removeAll coherent).bind ?_
  rintro _ middle ⟨takes, trims⟩
  refine .seeBind (.seeBind (.requireBind fun unused => ?_))
  refine Ensures.bind (.of_ends (remove_ends _) fun _ left gives =>
    trims.coherent.removes gives) ?_
  rintro _ left ⟨takes', trims'⟩
  refine .pure ⟨takes.trans takes', trims.trans trims', fun {user} linked operand => ?_⟩
  rw [takes'.operands] at operand
  exact trims.coherent.usesOf_eq_nil_iff.1 (by simpa using unused) user
    (linked_of_takes takes' linked) operand

theorem ensures_removeVariable
    (promotes : Promotes origin function addresses (accesses :: others) store) :
    Ensures (removeVariable report accesses) store fun _ left =>
      Promotes origin function addresses others left := by
  obtain ⟨stores, -⟩ := promotes.written accesses List.mem_cons_self
  have location := promotes.locations _ (promotes.listed List.mem_cons_self)
  have apart : ∀ other ∈ others, other.address ≠ accesses.address := by
    intro other member same
    exact (List.nodup_cons.1 promotes.covers.distinct).1 (List.mem_map.2 ⟨other, member, same⟩)
  refine (takes_removeVariable promotes.narrows.trims.coherent).imp ?_
  rintro _ left ⟨takes, trims, unused⟩
  refine promotes.step (promotes.toPromoting.takes takes trims)
    (shifts_of_takes takes trims addresses) (idle_of_takes takes) (List.sublist_cons_self _ _)
    ?_ ?_ ?_
  · intro other member absent
    obtain rfl := (List.mem_cons.1 member).resolve_right absent
    refine ⟨Option.eq_none_iff_forall_ne_some.2 fun block linked => ?_, unused⟩
    exact (takes.blockOf?_eq_some_iff.1 linked).2 List.mem_cons_self
  · intro other member ref mine theirs
    have touches := (promotes.written other (List.mem_cons_of_mem _ member)).stores ref theirs
    rcases List.mem_cons.1 mine with rfl | mine
    · exact opcode?_ne_of_isLValue location rfl touches.opcode
    · have head := (stores ref mine).head.symm.trans touches.head
      exact apart other member (Option.some.inj (Option.some.inj head)).symm
  · intro ref mine isLoad
    rcases List.mem_cons.1 mine with rfl | mine
    · exact absurd isLoad (opcode?_ne_of_isLValue location rfl)
    · cases isLoad.symm.trans (stores ref mine).opcode

/-! ## The state of promoting one variable -/

/-- Phis that were placed are phis, and reads that were replaced are not used. -/
structure Renames (origin : Store) (function : Ref) (addresses : List Ref) (accesses : Accesses)
    (others : List Accesses) (state : Renaming) (store : Store) : Prop
    extends Promotes origin function addresses (accesses :: others) store where
  phis : ∀ entry ∈ state.phis, store.isPhi entry.2 = true
  reads : ∀ read ∈ state.reads, read ∈ accesses.reads
  replaced : ∀ entry ∈ state.replaced, store.Idle entry.1

/-- A value from the ends of some blocks: if it is a read, it was written in one of them. -/
structure Reaching (addresses : List Ref) (store : Store) (blocks : List Ref) (value : Ref) : Prop
    extends store.Storable addresses value where
  written : store.opcode? value = some .load → ∃ write source, source ∈ blocks ∧
    store.opcode? write = some .store ∧ store.blockOf? write = some source ∧
    (store.operands write)[1]? = some (some value)

variable {state : Renaming} {value : Ref} {blocks : List Ref}

theorem Reaching.not_idle (reaching : Reaching addresses store blocks value) :
    ¬store.Idle value := by
  intro idle
  obtain ⟨write, source, -, -, linked, held⟩ := reaching.written idle.isLoad
  exact idle.unused (Option.isSome_of_eq_some linked) (List.mem_of_getElem? held)

theorem Reaching.of_opcode?
    (storable : store.Storable addresses value)
    (notLoad : store.opcode? value ≠ some .load) :
    Reaching addresses store blocks value where
  toStorable := storable
  written := fun isLoad => absurd isLoad notLoad

namespace Renames

variable (renames : Renames origin function addresses accesses others state store)

include renames

theorem step
    (promotes : Promotes origin function addresses (accesses :: others) left)
    (trims : store.Trims left)
    (idle : ∀ {ref}, store.Idle ref → left.Idle ref) :
    Renames origin function addresses accesses others state left where
  toPromotes := promotes
  phis := fun entry member => trims.isPhi (renames.phis entry member)
  reads := renames.reads
  replaced := fun entry member => idle (renames.replaced entry member)

theorem coherent : store.Coherent :=
  renames.narrows.trims.coherent

theorem isLoad {read : Ref × Ref} (noted : read ∈ accesses.reads) :
    store.opcode? read.2 = some .load :=
  (renames.pending accesses List.mem_cons_self read noted).isLoad

theorem storable_of_isPhi (isPhi : store.isPhi ref = true) :
    store.Storable addresses ref ∧ store.opcode? ref ≠ some .load := by
  obtain ⟨opcode, found, holds⟩ := (Option.any_eq_true _ _).1 isPhi
  refine ⟨renames.storable_of_opcode? found ?_, ?_⟩
  · cases opcode <;> simp_all [Opcode.isPhi, Opcode.isLValue]
  · rw [found]
    rintro ⟨⟩
    cases holds

/-- Phis get further operands, which are in use. -/
theorem extends_
    {extra : Ref → List (Option Ref)}
    (repoints : store.Repoints (fun ref operands => operands ++ extra ref) left)
    (phis : ∀ {ref}, store.isPhi ref = false → extra ref = [])
    (storable : ∀ {ref value}, some value ∈ extra ref → store.Storable addresses value)
    (used : ∀ {ref value}, some value ∈ extra ref → ¬store.Idle value) :
    Renames origin function addresses accesses others state left := by
  have idle {ref : Ref} (idle : store.Idle ref) : left.Idle ref :=
    idle_of_extends repoints used idle
  refine renames.step ?_ repoints.trims idle
  refine renames.toPromotes.keeps (renames.toPromoting.extends repoints phis storable)
    (shifts_of_extends repoints storable) idle ?_ ?_
  · exact fun _ _ _ none => by cases none
  · exact fun _ none => by cases none

/-- Replacing a read by a value that is in use. -/
theorem ensures_replace
    {load : Ref}
    (isLoad : store.opcode? load = some .load)
    (storable : store.Storable addresses value)
    (stored : ∀ {ref source home}, store.opcode? ref = some .store →
      store.blockOf? ref = some source → origin.Reached function source →
      (store.operands ref)[1]? = some (some load) →
      store.opcode? value = some .load → store.blockOf? value = some home →
      origin.Dominates function home source)
    (used : ¬store.Idle value)
    (different : value ≠ load) :
    Ensures (state.replace load (some value)) store
      (Renames origin function addresses accesses others) := by
  refine ensures_substitute_bind renames.coherent fun left substitutes => .pure ?_
  have idle {ref : Ref} (idle : store.Idle ref) : left.Idle ref := substitutes.idle idle used
  have unused : left.Idle load := substitutes.idle_old isLoad different
  have promoting := renames.toPromoting.substitutes isLoad storable stored substitutes
  have promotes : Promotes origin function addresses (accesses :: others) left := by
    refine renames.toPromotes.keeps promoting
      (substitutes.shifts renames.toHandling isLoad storable) idle ?_ ?_
    · intro other member ref taken theirs
      rw [List.mem_singleton.1 taken] at theirs
      cases isLoad.symm.trans ((renames.written other member).stores load theirs).opcode
    · intro ref taken _
      rwa [List.mem_singleton.1 taken]
  exact
    { renames.step promotes substitutes.trims idle with
      replaced := List.forall_mem_cons.2
        ⟨unused, fun entry member => idle (renames.replaced entry member)⟩ }

end Renames

/-! ## Values that reach a block -/

theorem resolve_of_lookup
    {replaced : List (Ref × Option Ref)}
    {bound : Nat}
    (absent : replaced.lookup value = none) :
    resolve replaced (bound + 1) (some value) = pure (some value) := by
  simp [resolve, absent]

theorem reaching_of_outValue?
    {result : Option Ref}
    (renames : Renames origin function addresses accesses others state store)
    (member : block ∈ blocks)
    (found : outValue? store accesses state block = some result) :
    ∃ value, result = some value ∧ Reaching addresses store blocks value := by
  unfold outValue? at found
  split at found
  · rename_i write noted
    obtain ⟨stores, writes⟩ := renames.written accesses List.mem_cons_self
    obtain ⟨listed, linked⟩ := writes _ (mem_of_lookup noted)
    have touches := stores write listed
    obtain ⟨value, held, storable⟩ := renames.exists_stored touches
      (renames.listed List.mem_cons_self) (Option.isSome_of_eq_some linked)
    obtain ⟨entry, present, atSecond⟩ := Option.bind_eq_some_iff.1 found
    rw [getElem?_operands present, atSecond] at held
    obtain rfl := Option.some.inj held
    refine ⟨value, rfl, storable, fun _ => ⟨write, block, member, touches.opcode, linked, ?_⟩⟩
    rw [getElem?_operands present, atSecond]
  · obtain ⟨phi, noted, rfl⟩ := Option.map_eq_some_iff.1 found
    obtain ⟨storable, notLoad⟩ :=
      renames.storable_of_isPhi (renames.phis _ (mem_of_lookup noted))
    exact ⟨phi, rfl, .of_opcode? storable notLoad⟩

/-- Looking for the value that reaches a block comes to an end. -/
theorem ensures_reachingValue
    {tree : DominatorTree}
    {start : Option Ref}
    (renames : Renames origin function addresses accesses others state store) :
    Ensures (reachingValue tree accesses state start) store fun result left =>
      Renames origin function addresses accesses others state left ∧
        ∃ value, result = some value ∧
          Reaching addresses left ((start.map tree.path).getD []) value := by
  refine .seeBind ?_
  split
  · rename_i result found
    obtain ⟨block, member, found⟩ := List.exists_of_findSome?_eq_some found
    obtain ⟨value, rfl, reaching⟩ := reaching_of_outValue? renames member found
    have absent : state.replaced.lookup value = none := by
      refine Option.eq_none_iff_forall_ne_some.2 fun next noted => ?_
      exact reaching.not_idle (renames.replaced _ (mem_of_lookup noted))
    rw [resolve_of_lookup absent]
    exact .pure ⟨renames, value, rfl, reaching⟩
  · refine .seeBind (.demandBind fun module _ => .seeBind ?_)
    refine Ensures.bind (.of_ends (undefined_ends module _) fun value left gives =>
      renames.coherent.repoints_undefined renames.regular gives) ?_
    rintro value left ⟨undefined, repoints⟩
    have extended : store.Repoints (fun ref operands => operands ++ (fun _ => []) ref) left :=
      repoints.congr fun _ operands => List.append_nil operands
    have renames := renames.extends_ extended (fun _ => rfl) (by simp) (by simp)
    have content := isUndefined_iff.1 undefined
    have notInstruction {opcode : Opcode} : left.opcode? value ≠ some opcode := by
      simp [opcode?, instruction?, content]
    have notLValue : left.isLValue value = false := by
      simp [Store.isLValue, content]
    refine .pure ⟨renames, value, rfl, .of_opcode? ⟨?_, ?_, ?_⟩ notInstruction⟩
    · exact content?_isSome_iff.1 (Option.isSome_of_eq_some content)
    · simp [isBlock, content]
    · intro member
      rw [renames.locations value member] at notLValue
      cases notLValue

/-! ## Placing phis -/

variable {type : Option Ty}

theorem ensures_place
    (renames : Renames origin function addresses accesses others state store)
    (isBlock : origin.isBlock block = true) :
    Ensures (state.place type block) store
      (Renames origin function addresses accesses others) := by
  have ends : Build.Ends (do
      Build.moveToHead block
      Build.phi type []) :=
    Build.Ends.bind (Build.Ends.set _) fun _ => Build.phi_ends type
  have isBlock : store.isBlock block = true := by
    rw [renames.narrows.trims.ages.isBlock, isBlock]
  refine Ensures.bind (.of_ends ends.run fun phi left gives => show
    left.isPhi phi = true ∧ Renames origin function addresses accesses others
      { state with phis := state.phis ++ [(block, phi)] } left from ?_) ?_
  · obtain ⟨moved, yields⟩ := Build.yields_run_iff.1 gives
    obtain ⟨_, _, _, positioned, yields⟩ := Build.yields_bind_iff.1 yields
    obtain ⟨atHead, unchanged⟩ := Build.yields_set_iff.1 positioned
    rw [unchanged, atHead] at yields
    have stands : ({ block := some block } : Cursor).Stands store := by
      rintro _ ⟨⟩
      exact isBlock
    obtain ⟨_, entry, ⟨⟩, isPhi, empty, receives⟩ :=
      Build.receives_phi renames.coherent stands yields
    have idle {ref : Ref} (idle : store.Idle ref) : left.Idle ref :=
      idle_of_receives receives isPhi empty idle
    have promotes : Promotes origin function addresses (accesses :: others) left := by
      refine renames.toPromotes.keeps (renames.toPromoting.receives receives isPhi empty isBlock)
        (shifts_of_receives receives isPhi empty addresses) idle ?_ ?_
      · exact fun _ _ _ none => by cases none
      · exact fun _ none => by cases none
    have renames := renames.step promotes (trims_of_receives receives isPhi) idle
    have placed : left.isPhi phi = true := by
      rw [Store.isPhi, receives.opcode?_new, isPhi]
      rfl
    exact ⟨placed, { renames with
      phis := List.forall_mem_append.2 ⟨renames.phis, List.forall_mem_singleton.2 placed⟩ }⟩
  · rintro phi left ⟨placed, renames⟩
    dsimp only
    split
    · exact .pure renames
    · rename_i load noted
      obtain ⟨storable, notLoad⟩ := renames.storable_of_isPhi placed
      have isLoad := renames.isLoad (renames.reads _ (mem_of_lookup noted))
      refine (renames.ensures_replace isLoad storable ?_ (fun idle => notLoad idle.isLoad)
        (fun same => notLoad (same ▸ isLoad))).bind ?_
      · exact fun _ _ _ _ isLoad => absurd isLoad notLoad
      · intro state left renames
        exact .pure { renames with
          reads := fun read member => renames.reads read (List.mem_of_mem_filter member) }

theorem ensures_placeAll
    {refs : List Ref}
    (renames : Renames origin function addresses accesses others state store)
    (blocks : ∀ block ∈ refs, origin.isBlock block = true) :
    Ensures (state.placeAll type refs) store
      (Renames origin function addresses accesses others) := by
  induction refs generalizing state store with
  | nil => exact .pure renames
  | cons block rest induction =>
      obtain ⟨isBlock, later⟩ := List.forall_mem_cons.1 blocks
      exact (ensures_place renames isBlock).bind fun state left renames => induction renames later

/-- A block that gets a phi is noted behind those that got one before. -/
theorem keys_of_gives_place
    {state' : Renaming}
    (gives : Gives (state.place type block) store state' left) :
    state'.phis.map (·.1) = state.phis.map (·.1) ++ [block] := by
  obtain ⟨phi, between, -, rest⟩ := gives_bind_iff.1 gives
  dsimp only at rest
  split at rest
  · obtain ⟨rfl, -⟩ := gives_pure_iff.1 rest
    simp
  · obtain ⟨_, _, replaced, rest⟩ := gives_bind_iff.1 rest
    obtain ⟨rfl, -⟩ := gives_pure_iff.1 rest
    obtain ⟨_, _, -, replaced⟩ := gives_bind_iff.1 replaced
    obtain ⟨_, _, -, replaced⟩ := gives_bind_iff.1 replaced
    obtain ⟨rfl, -⟩ := gives_pure_iff.1 replaced
    simp

theorem keys_of_gives_placeAll
    {refs : List Ref}
    {state' : Renaming}
    (gives : Gives (state.placeAll type refs) store state' left) :
    state'.phis.map (·.1) = state.phis.map (·.1) ++ refs := by
  induction refs generalizing state store with
  | nil =>
      obtain ⟨rfl, -⟩ := gives_pure_iff.1 gives
      simp
  | cons block rest induction =>
      obtain ⟨between, _, placed, rest⟩ := gives_bind_iff.1 gives
      rw [induction rest, keys_of_gives_place placed, List.append_assoc, List.singleton_append]

/-- Blocks taken off a list of candidates make it shorter. -/
theorem length_add_length_filter_le
    {new remaining : List Ref}
    (distinct : new.Nodup)
    (inside : new ⊆ remaining) :
    new.length + (remaining.filter (!new.contains ·)).length ≤ remaining.length := by
  have taken : new.length ≤ (remaining.filter (new.contains ·)).length :=
    (List.subperm_of_subset distinct fun ref member =>
      List.mem_filter.2 ⟨inside member, List.contains_iff_mem.2 member⟩).length_le
  have split := List.length_eq_length_filter_add (l := remaining) (new.contains ·)
  omega

/--
Phis are placed within as many steps as there are blocks stacked and blocks left: a
block is stacked again only when it has got its phi, and then it is none of those left.
-/
theorem ensures_placePhis
    {tree : DominatorTree}
    {live stack remaining : List Ref}
    {bound : Nat}
    (renames : Renames origin function addresses accesses others state store)
    (blocks : ∀ block ∈ tree.blocks, origin.isBlock block = true)
    (distinct : tree.blocks.toList.Nodup)
    (covered : ∀ block ∈ tree.blocks, block ∈ state.phis.map (·.1) ∨ block ∈ remaining)
    (enough : stack.length + remaining.length < bound) :
    Ensures (placePhis tree live type bound stack state) store
      (Renames origin function addresses accesses others) := by
  induction bound generalizing stack remaining state store with
  | zero => exact absurd enough (Nat.not_lt_zero _)
  | succ bound induction =>
      cases stack with
      | nil => exact .pure renames
      | cons block stack =>
          generalize listed : (tree.frontier block).filter (fun target =>
            live.contains target && (state.phis.lookup target).isNone) = new
          have fresh : ∀ target ∈ new, target ∈ tree.blocks ∧ target ∉ state.phis.map (·.1) := by
            intro target member
            rw [← listed, List.mem_filter, Bool.and_eq_true, Option.isNone_iff_eq_none,
              List.lookup_eq_none_iff] at member
            refine ⟨mem_blocks_of_mem_frontier member.1, fun placed => ?_⟩
            obtain ⟨entry, noted, rfl⟩ := List.mem_map.1 placed
            exact absurd (member.2.2 entry noted) (by simp)
          have placed : Ensures (state.placeAll type new) store fun state' left =>
              state'.phis.map (·.1) = state.phis.map (·.1) ++ new ∧
                Renames origin function addresses accesses others state' left := by
            obtain ⟨ends, holds⟩ : Ensures (state.placeAll type new) store
                (Renames origin function addresses accesses others) :=
              ensures_placeAll renames fun target member => blocks target (fresh target member).1
            exact ⟨ends, fun state' left gives =>
              ⟨keys_of_gives_placeAll gives, holds state' left gives⟩⟩
          have inside : new ⊆ remaining := fun target member =>
            (covered target (fresh target member).1).resolve_left (fresh target member).2
          have shorter := length_add_length_filter_le (listed ▸ (nodup_frontier distinct).filter _)
            inside
          unfold placePhis
          rw [listed]
          refine placed.bind ?_
          rintro state' left ⟨keys, renames⟩
          have covered : ∀ target ∈ tree.blocks, target ∈ state'.phis.map (·.1) ∨
              target ∈ remaining.filter (!new.contains ·) := by
            intro target member
            rw [keys, List.mem_append, List.mem_filter]
            rcases covered target member with before | inside
            · exact .inl (.inl before)
            · by_cases now : target ∈ new
              · exact .inl (.inr now)
              · exact .inr ⟨inside, by simpa using now⟩
          refine induction renames covered ?_
          rw [List.length_append, List.length_reverse]
          rw [List.length_cons] at enough
          omega

/-! ## Replacing the reads that are left -/

section Reads

variable (coherent : origin.Coherent) (confined : origin.Confined function)
  (supplied : origin.Supplied function origin)

include coherent confined supplied

/-- A read is replaced by another value, which is made in time for its uses. -/
theorem ensures_replace_reaching
    {read : Ref × Ref}
    (renames : Renames origin function addresses accesses others state store)
    (noted : read ∈ accesses.reads)
    (reaching : Reaching addresses store
      ((((origin.treeOf function).parent? read.1).map (origin.treeOf function).path).getD [])
      value) :
    Ensures (state.replace read.2 (some value)) store
      (Renames origin function addresses accesses others) := by
  have isLoad := renames.isLoad noted
  have pending := renames.pending accesses List.mem_cons_self read noted
  have supplied : origin.Supplied function store := renames.narrows.supplied supplied
  refine renames.ensures_replace isLoad reaching.toStorable ?_ reaching.not_idle ?_
  · intro user last home isStore linked reached held isLoad' linked'
    obtain ⟨write, source, member, isWrite, atSource, written⟩ := reaching.written isLoad'
    obtain ⟨inside, -, dominates⟩ := (confined.mem_above_iff coherent).1 member
    rcases pending.linked inside with here | idle
    · have early := supplied isWrite atSource (inside.of_dominates dominates) written
        isLoad' linked'
      exact (early.trans dominates).trans (supplied isStore linked reached held isLoad here)
    · exact absurd (List.mem_of_getElem? held) (idle.unused (Option.isSome_of_eq_some linked))
  · rintro rfl
    obtain ⟨write, source, member, isWrite, atSource, written⟩ := reaching.written isLoad
    obtain ⟨inside, different, dominates⟩ := (confined.mem_above_iff coherent).1 member
    rcases pending.linked inside with here | idle
    · have back := supplied isWrite atSource (inside.of_dominates dominates) written isLoad here
      exact different (dominates.antisymm back inside)
    · exact reaching.not_idle idle

theorem ensures_renameReads
    {reads : List (Ref × Ref)}
    (renames : Renames origin function addresses accesses others state store)
    (noted : ∀ read ∈ reads, read ∈ accesses.reads) :
    Ensures (renameReads (origin.treeOf function) accesses reads state) store
      (Renames origin function addresses accesses others) := by
  induction reads generalizing state store with
  | nil => exact .pure renames
  | cons read rest induction =>
      obtain ⟨here, later⟩ := List.forall_mem_cons.1 noted
      refine (ensures_reachingValue renames).bind ?_
      rintro _ left ⟨renames, value, rfl, reaching⟩
      refine (ensures_replace_reaching coherent confined supplied renames here reaching).bind ?_
      exact fun state left renames => induction renames later

end Reads

/-! ## Giving phis their incomings -/

theorem ensures_addIncoming
    {phi : Ref}
    {incoming : Option Ref}
    (renames : Renames origin function addresses accesses others state store)
    (isPhi : store.isPhi phi = true)
    (reaching : Reaching addresses store blocks value) :
    Ensures (addIncoming phi (some value) incoming) store fun _ left =>
      Renames origin function addresses accesses others state left := by
  refine .of_ends (addIncoming_ends _ _ _) fun _ left gives => ?_
  have repoints := renames.coherent.repoints_addIncoming isPhi gives
  have extended : store.Repoints
      (fun ref operands => operands ++ if phi = ref then [some value] else []) left :=
    repoints.congr fun ref operands => by split <;> simp
  have only {ref other : Ref} (member : some other ∈ if phi = ref then [some value] else []) :
      other = value := by
    split at member
    · exact Option.some.inj (List.mem_singleton.1 member)
    · cases member
  refine renames.extends_ extended (fun {ref} notPhi => if_neg ?_) ?_ ?_
  · rintro rfl
    rw [isPhi] at notPhi
    cases notPhi
  · intro ref other member
    rw [only member]
    exact reaching.toStorable
  · intro ref other member
    rw [only member]
    exact reaching.not_idle

theorem ensures_fillPhi
    {tree : DominatorTree}
    {phi : Ref}
    {predecessors : List Ref}
    (renames : Renames origin function addresses accesses others state store)
    (placed : (block, phi) ∈ state.phis) :
    Ensures (fillPhi tree accesses state phi predecessors) store fun _ left =>
      Renames origin function addresses accesses others state left := by
  induction predecessors generalizing store with
  | nil => exact .pure renames
  | cons predecessor rest induction =>
      refine (ensures_reachingValue renames).bind ?_
      rintro _ left ⟨renames, value, rfl, reaching⟩
      refine (ensures_addIncoming renames (renames.phis _ placed) reaching).bind ?_
      exact fun _ left renames => induction renames

theorem ensures_fillPhis
    {tree : DominatorTree}
    {phis : List (Ref × Ref)}
    (renames : Renames origin function addresses accesses others state store)
    (placed : ∀ entry ∈ phis, entry ∈ state.phis) :
    Ensures (fillPhis tree accesses state phis) store fun _ left =>
      Renames origin function addresses accesses others state left := by
  induction phis generalizing store with
  | nil => exact .pure renames
  | cons entry rest induction =>
      obtain ⟨here, later⟩ := List.forall_mem_cons.1 placed
      refine .seeBind ((ensures_fillPhi renames here).bind ?_)
      exact fun _ left renames => induction renames later

/-- Promoting a variable leaves what is noted about the others right. -/
theorem ensures_promoteVariable
    {progress : Promotion × List Ref}
    (coherent : origin.Coherent)
    (confined : origin.Confined function)
    (supplied : origin.Supplied function origin)
    (promotes : Promotes origin function addresses (accesses :: others) store) :
    Ensures (promoteVariable (origin.treeOf function) progress accesses) store fun _ left =>
      Promotes origin function addresses others left := by
  obtain ⟨report, placed⟩ := progress
  have blocks : ∀ block ∈ (origin.treeOf function).blocks, origin.isBlock block = true := by
    intro block member
    rw [blocks_treeOf] at member
    have inOrder : block ∈ origin.reversePostOrder function := by simpa using member
    have reached := (mem_reversePostOrder_iff_reached coherent).1 inOrder
    exact isBlock_iff_blockFunction?.2 (by rw [confined.owned block reached]; rfl)
  have start : Renames origin function addresses accesses others
      { reads := accesses.reads } store :=
    { promotes with
      phis := fun _ none => by cases none
      reads := fun _ member => member
      replaced := fun _ none => by cases none }
  have distinct : (origin.treeOf function).blocks.toList.Nodup := by
    rw [blocks_treeOf]
    exact nodup_reversePostOrder coherent function
  have covered : ∀ block ∈ (origin.treeOf function).blocks,
      block ∈ ({ reads := accesses.reads } : Renaming).phis.map (·.1) ∨
        block ∈ (origin.treeOf function).blocks.toList :=
    fun block member => .inr (Array.mem_toList_iff.2 member)
  refine .seeBind (.seeBind ((ensures_placePhis start blocks distinct covered ?_).bind ?_))
  · rw [List.length_reverse, Array.length_toList]
    exact Nat.lt_succ_self _
  intro state left renames
  refine (ensures_renameReads coherent confined supplied renames renames.reads).bind ?_
  intro state left renames
  refine (ensures_fillPhis renames fun _ member => member).bind ?_
  intro _ left renames
  refine (ensures_removeVariable renames.toPromotes).bind ?_
  exact fun report left promotes => .pure promotes

end Pass

end ShaderIR
