import Mathlib.Data.List.Perm.Basic
import ShaderIR.Proofs.Elimination.Parts
import ShaderIR.Proofs.Layout.Typing
import ShaderIR.Proofs.Promotion.Renaming

/-!
# Simplifying memory accesses comes to an end

Flattening and transposing come to an end unless bases run in a circle.  Promotion
comes to an end when, in addition, no reached write stores a read that is made later:
then the walk through replaced reads ends at once.  Each further pass over the phis
has removed one of them, so the passes end as well.
-/

namespace ShaderIR

open Store Edit

namespace Pass

variable {origin store left : Store} {function : Ref}

/-! ## Removing redundant phis -/

theorem detached_of_remove
    {ref : Ref}
    {answer : Unit}
    (gives : Gives (Edit.remove ref) store answer left) :
    left.Detached ref := by
  obtain ⟨entry, found, rest⟩ := gives_instruction_bind_iff.1 gives
  cases linked : entry.block with
  | none =>
      rw [linked] at rest
      obtain ⟨-, rfl⟩ := gives_pure_iff.1 rest
      exact ⟨entry, found, linked⟩
  | some block =>
      rw [linked] at rest
      obtain ⟨_, _, given, rest⟩ := gives_bind_iff.1 rest
      obtain rfl := gives_modify_iff.1 given
      obtain ⟨_, _, given, rest⟩ := gives_bind_iff.1 rest
      obtain rfl := gives_modify_iff.1 given
      obtain ⟨_, _, given, rest⟩ := gives_bind_iff.1 rest
      obtain rfl := gives_modify_iff.1 given
      obtain rfl := gives_modify_iff.1 rest
      refine ⟨{ entry with block := none }, ?_, rfl⟩
      rw [instruction?_congr (content?_unlinkAll ..), instruction?_modifyInstruction, if_pos rfl,
        relink, instruction?_record, instruction?_modifyBlock, found]
      rfl

/-- Removing a redundant phi comes to an end, and a phi that it removes was linked until then. -/
theorem ensures_removeRedundantPhi (phi : Ref) :
    Ensures (removeRedundantPhi phi) store fun removed left =>
      store.Detains left ∧
        (removed = true → ¬store.Detached phi ∧ left.Detached phi) := by
  have detains := removeRedundantPhi_respects remove_detains replaceUses_detains
    undefined_detains phi
  have removes : ∀ store, Ensures (do
      Edit.remove phi
      return true) store fun removed left => removed = true → left.Detached phi := by
    intro store
    refine Ensures.bind (.of_ends (remove_ends phi) fun _ left gives => detached_of_remove gives) ?_
    exact fun _ left detached => .pure fun _ => detached
  have replaces : ∀ value store, Ensures (do
      replaceUses phi (some value)
      Edit.remove phi
      return true) store fun removed left => removed = true → left.Detached phi := by
    intro value store
    have replaced : Ensures (replaceUses phi (some value)) store fun _ _ => True :=
      .of_ends (replaceUses_ends _ _) fun _ _ _ => trivial
    exact replaced.bind fun _ left _ => removes left
  have refuses : ∀ store, Ensures (pure false) store fun removed left =>
      removed = true → left.Detached phi := fun store => .pure fun wrong => by cases wrong
  have ensures : Ensures (removeRedundantPhi phi) store fun removed left =>
      removed = true → left.Detached phi := by
    refine .instructionBind fun entry found => ?_
    split
    · exact refuses store
    · refine .seeBind ?_
      split
      · exact removes store
      · refine .seeBind (.demandBind fun incomings _ => .seeBind ?_)
        split
        · exact refuses store
        · dsimp only
          split
          · exact replaces _ store
          · refine .seeBind (.demandBind fun module _ => .seeBind ?_)
            have made : Ensures (undefined module (store.typeOf phi)) store fun _ _ => True :=
              .of_ends (undefined_ends module _) fun _ _ _ => trivial
            exact made.bind fun value left _ => replaces value left
  refine ⟨ensures.1, fun removed left gives => ⟨detains.of_gives gives, ?_⟩⟩
  rintro rfl
  exact ⟨linked_of_removed gives, ensures.2 true left gives rfl⟩

theorem ensures_removeRedundantPhis {phis : List Ref} :
    Ensures (removeRedundantPhis phis) store fun removed left =>
      store.Detains left ∧
        (removed = true → ∃ phi ∈ phis, ¬store.Detached phi ∧ left.Detached phi) := by
  induction phis generalizing store with
  | nil => exact .pure ⟨fun _ detached => detached, fun wrong => by cases wrong⟩
  | cons phi rest induction =>
      refine (ensures_removeRedundantPhi phi).bind ?_
      rintro removed middle ⟨detains, here⟩
      refine induction.bind ?_
      rintro others left ⟨detains', there⟩
      refine .pure ⟨Lasting.trans detains detains', fun any => ?_⟩
      rcases Bool.or_eq_true_iff.1 any with rfl | rfl
      · obtain ⟨linked, detached⟩ := here rfl
        exact ⟨phi, List.mem_cons_self, linked, detains' phi detached⟩
      · obtain ⟨other, member, linked, detached⟩ := there rfl
        exact ⟨other, List.mem_cons_of_mem _ member, fun former => linked (detains other former),
          detached⟩

/-- Passes over phis come to an end: each but the last removes one of those remaining. -/
theorem ensures_simplifyPhis
    {phis remaining : List Ref}
    {bound : Nat}
    (covered : ∀ phi ∈ phis, store.Detached phi ∨ phi ∈ remaining)
    (enough : remaining.length < bound) :
    Ensures (simplifyPhis phis bound) store fun _ _ => True := by
  induction bound generalizing remaining store with
  | zero => exact absurd enough (Nat.not_lt_zero _)
  | succ bound induction =>
      refine ensures_removeRedundantPhis.bind ?_
      rintro removed left ⟨detains, progress⟩
      cases removed with
      | false => exact .pure trivial
      | true =>
          obtain ⟨phi, member, linked, detached⟩ := progress rfl
          have inside : phi ∈ remaining := (covered phi member).resolve_left linked
          have covered : ∀ other ∈ phis, left.Detached other ∨ other ∈ remaining.erase phi := by
            intro other member
            rcases covered other member with former | inside
            · exact .inl (detains other former)
            · by_cases same : other = phi
              · exact .inl (same ▸ detached)
              · exact .inr ((List.mem_erase_of_ne same).2 inside)
          refine induction covered ?_
          have shorter := List.length_erase_of_mem inside
          have nonempty := List.length_pos_of_mem inside
          omega

/-! ## Promotion -/

theorem ensures_dominatorTree :
    Ensures (Edit.dominatorTree (some function)) store fun tree left =>
      left = store ∧ tree = store.treeOf function := by
  have defined : Ensures (Edit.function function) store fun _ left => left = store :=
    .seeBind (.of_ends (Ends.demand _) fun _ _ gives => (gives_demand_iff.1 gives).2)
  refine defined.bind ?_
  rintro entry left rfl
  refine .requireBind fun _ => .seeBind (.of_ends (Ends.demand _) fun tree left gives => ?_)
  obtain ⟨found, rfl⟩ := gives_demand_iff.1 gives
  refine ⟨rfl, ?_⟩
  unfold Store.dominatorTree? at found
  dsimp only at found
  split at found
  · exact (Option.some.inj found).symm
  · cases found

/-- What promotion does one after the other when it answers. -/
theorem stages_of_promote
    {report : Promotion}
    (gives : Gives (promote function) store report left) :
    ∃ transposition between chosen, Gives (transpose function) store transposition between ∧
      Gives (promotable (between.traverse function)) between chosen between ∧
      (chosen = [] ∧ report = { transposition } ∧ left = between ∨
        ∃ state forwarded report' middle report'' placed last answer,
          Gives ((blocksInOrder between function).foldlM forwardBlock { accesses := chosen })
            between state forwarded ∧
          Gives ((state.accesses.filter (·.reads.isEmpty)).foldlM removeVariable
            { transposition, loads := state.removed }) forwarded report' middle ∧
          Gives ((state.accesses.filter (!·.reads.isEmpty)).foldlM
            (promoteVariable (middle.treeOf function)) (report', [])) middle (report'', placed)
            last ∧
          Gives (simplifyPhis placed (placed.length + 2)) last answer left ∧
          report = { report'' with
            phis := placed.filter fun phi => (left.blockOf? phi).isSome }) := by
  obtain ⟨transposition, between, transposes, gives⟩ := gives_bind_iff.1 gives
  replace gives := gives_see_bind_iff.1 gives
  obtain ⟨chosen, _, chooses, gives⟩ := gives_bind_iff.1 gives
  obtain ⟨unchanged, -, -⟩ := ensures_promotable.2 _ _ chooses
  rw [unchanged] at gives chooses
  refine ⟨transposition, between, chosen, transposes, chooses, ?_⟩
  split at gives
  · rename_i empty
    obtain ⟨rfl, rfl⟩ := gives_pure_iff.1 gives
    exact .inl ⟨List.isEmpty_iff.1 empty, rfl, rfl⟩
  · replace gives := gives_see_bind_iff.1 gives
    obtain ⟨state, forwarded, forwards, gives⟩ := gives_bind_iff.1 gives
    rw [List.partition_eq_filter_filter] at gives
    obtain ⟨report', middle, removes, gives⟩ := gives_bind_iff.1 gives
    obtain ⟨tree, _, computes, gives⟩ := gives_bind_iff.1 gives
    obtain ⟨unchanged', isTree⟩ := ensures_dominatorTree.2 _ _ computes
    rw [unchanged', isTree] at gives
    obtain ⟨⟨report'', placed⟩, last, promotes, gives⟩ := gives_bind_iff.1 gives
    obtain ⟨answer, _, simplifies, gives⟩ := gives_bind_iff.1 gives
    obtain ⟨rfl, rfl⟩ := gives_pure_iff.1 (gives_see_bind_iff.1 gives)
    refine .inr ⟨state, forwarded, report', middle, report'', placed, last, answer, forwards, ?_,
      promotes, simplifies, rfl⟩
    simpa [Function.comp_def] using removes

variable {addresses : List Ref} {kept : List Accesses}

/-- What is noted is right seen from a later store, too. -/
theorem Promotes.rebase
    (promotes : Promotes origin function addresses kept store)
    (confined : origin.Confined function) :
    Promotes store function addresses kept store :=
  { promotes with
    narrows := .refl promotes.narrows.trims.coherent (promotes.narrows.confined confined)
    pending := by
      intro accesses member read noted
      have pending := promotes.pending accesses member read noted
      exact ⟨pending.isLoad, fun reached => pending.linked (promotes.narrows.reached reached)⟩ }

/-- The variables without remaining reads and the others are those that were noted. -/
theorem Forwarded.promotes
    {state : Forwarding}
    (forwarded : Forwarded origin function addresses [] state store)
    {first second : List Accesses}
    (perm : (first ++ second).Perm state.accesses) :
    Promotes origin function addresses (first ++ second) store where
  toPromoting := forwarded.promoting
  covers := forwarded.covers.perm (perm.symm.map _)
  written := fun accesses member => forwarded.written accesses (perm.mem_iff.1 member)
  pending := by
    intro accesses member read noted
    obtain ⟨isLoad, linked⟩ := forwarded.reads accesses (perm.mem_iff.1 member) read noted
    exact ⟨isLoad, fun reached => .inl (linked reached).1⟩

theorem ensures_removeVariables
    {unread : List Accesses}
    {report : Promotion}
    (promotes : Promotes origin function addresses (unread ++ kept) store) :
    Ensures (unread.foldlM removeVariable report) store fun _ left =>
      Promotes origin function addresses kept left :=
  .foldlM_rest (fun unread _ store => Promotes origin function addresses (unread ++ kept) store)
    (fun _ _ _ _ => ensures_removeVariable) promotes

theorem ensures_promoteVariables
    {progress : Promotion × List Ref}
    (confined : origin.Confined function)
    (supplied : origin.Supplied function origin)
    (promotes : Promotes origin function addresses kept store) :
    Ensures (kept.foldlM (promoteVariable (store.treeOf function)) progress) store
      fun _ left => Promotes store function addresses [] left := by
  have narrows := promotes.narrows
  exact .foldlM_rest (fun kept _ left => Promotes store function addresses kept left)
    (fun _ _ _ _ => ensures_promoteVariable narrows.trims.coherent (narrows.confined confined)
      (narrows.supplied_self supplied))
    (promotes.rebase confined)

/-- The chosen variables are locations without repetitions. -/
theorem covers_of_chosen
    {chosen : List Accesses}
    (coherent : store.Coherent)
    (sub : (chosen.map (·.address)).Sublist (store.traverse function))
    (each : ∀ accesses ∈ chosen, Selected store accesses) :
    store.Covers (chosen.map (·.address)) (chosen.map (·.address)) where
  locations := List.forall_mem_map.2 fun accesses member =>
    isLValue_iff.2 (.inl ⟨_, (each accesses member).isLocal, rfl⟩)
  listed := fun _ member => member
  distinct := sub.nodup (coherent.nodup_traverse function)
  cleared := fun _ listed absent => absurd listed absent

/-- Forwarding starts with the chosen variables and no access noted. -/
theorem Forwarded.start
    {chosen : List Accesses}
    (coherent : store.Coherent)
    (confined : store.Confined function)
    (regular : store.Regular)
    (each : ∀ accesses ∈ chosen, Selected store accesses)
    (covers : store.Covers addresses (chosen.map (·.address))) :
    Forwarded store function addresses (blocksInOrder store function) { accesses := chosen }
      store where
  promoting := ⟨handling_of_chosen coherent regular each covers, .refl coherent confined⟩
  covers := covers
  once := pairwise_blocksInOrder coherent function
  written := by
    intro accesses member
    rw [(each accesses member).fresh]
    constructor <;> exact fun _ none => by cases none
  reads := by
    intro accesses member read noted
    rw [(each accesses member).fresh] at noted
    cases noted

variable {module : Nat}

/-- Promoting the variables of a function of an accepted module comes to an end. -/
theorem ensures_promote
    (coherent : store.Coherent)
    (accepted : store.validate? module = some [])
    (listed : function ∈ store.functions module)
    (ends : store.BasesEnd module)
    (regular : store.Regular)
    (supplied : store.Supplied function store) :
    Ensures (promote function) store fun _ _ => True := by
  have confined := Validation.confined_of_validate coherent accepted listed
  refine (ensures_transpose coherent accepted listed ends).bind fun transposition origin
    reshaped => ?_
  have narrows := reshaped.narrows
  have coherent := narrows.trims.coherent
  have confined := narrows.confined confined
  have supplied : origin.Supplied function origin := narrows.supplied_self supplied
  refine .seeBind (ensures_promotable.bind ?_)
  rintro chosen _ ⟨rfl, sub, each⟩
  split
  · exact .pure trivial
  have start := Forwarded.start coherent confined (narrows.trims.regular regular) each
    (covers_of_chosen coherent sub each)
  refine .seeBind ((ensures_forward supplied start).bind fun state between forwarded => ?_)
  rw [List.partition_eq_filter_filter]
  dsimp only
  have promotes := forwarded.promotes
    (List.perm_append_comm.trans (List.filter_append_perm (!·.reads.isEmpty) state.accesses))
  refine (ensures_removeVariables promotes).bind fun report middle promotes => ?_
  refine ensures_dominatorTree.bind ?_
  rintro tree _ ⟨rfl, rfl⟩
  refine (ensures_promoteVariables confined supplied promotes).bind ?_
  rintro ⟨report, placed⟩ left -
  refine (ensures_simplifyPhis (fun phi member => .inr member) (Nat.lt_add_of_pos_right
    Nat.zero_lt_two)).bind fun _ left _ => ?_
  exact .seeBind (.pure trivial)

end Pass

/-! ## Checking the conditions -/

namespace Store

variable {store : Store} {module : Nat} {function : Ref}

/-- Whether element references come after their bases. -/
def basesPrecede (store : Store) : Bool :=
  (List.range store.values.size).all fun index =>
    !store.isGep ⟨index⟩ || (store.operands ⟨index⟩).head?.join.all (·.index < index)

theorem basesEnd_of_basesPrecede (precede : store.basesPrecede = true) : store.BasesEnd module := by
  have earlier : ∀ {gep base}, store.BasedOn gep base → base.index < gep.index := by
    rintro ⟨index⟩ base ⟨isGep, -, head⟩
    have inside := index_lt_of_value? (value?_isSome_of_isGep isGep)
    have checked := List.all_eq_true.1 precede index (List.mem_range.2 inside)
    simpa [isGep, head] using checked
  have down : ∀ {gep base}, Relation.TransGen store.BasedOn gep base → base.index < gep.index := by
    intro gep base path
    induction path with
    | single based => exact earlier based
    | tail _ based induction => exact (earlier based).trans induction
  exact fun gep _ circle => absurd (down circle) (Nat.lt_irrefl _)

/-- Whether reads that reached stores write are in blocks that dominate those of the stores. -/
def supplies (store : Store) (function : Ref) : Bool :=
  (List.range store.values.size).all fun index =>
    store.opcode? ⟨index⟩ != some .store ||
      (store.blockOf? ⟨index⟩).all fun source =>
        !(store.treeOf function).contains source ||
          (store.operands ⟨index⟩)[1]?.join.all fun load =>
            store.opcode? load != some .load ||
              (store.blockOf? load).all ((store.treeOf function).path source).contains

theorem supplied_of_supplies
    (coherent : store.Coherent)
    (confined : store.Confined function)
    (supplies : store.supplies function = true) :
    store.Supplied function store := by
  rintro ⟨index⟩ source load home isStore linked reached stored isLoad atHome
  obtain ⟨body, hasBody, -⟩ := id reached
  have inside := index_lt_of_value? (value?_isSome_of_opcode? isStore)
  have checked := List.all_eq_true.1 supplies index (List.mem_range.2 inside)
  have within : (store.treeOf function).contains source = true :=
    (contains_treeOf coherent).2 reached
  have onPath : home ∈ (store.treeOf function).path source := by
    simpa [isStore, linked, within, stored, isLoad, atHome] using checked
  exact ((confined.mem_path_iff coherent hasBody).1 onPath).2

end Store

namespace Session

/--
Simplifying memory accesses comes to an end for every definition of an accepted module
of a session.  Flattening and transposing need that no element reference is its own
base through others; promoting needs, in addition, that a read which a reached store
writes is in a block that dominates the one of the store.
-/
theorem memory_passes_end
    {operations : List Operation}
    {module : Nat}
    {function : Ref}
    (accepted : (after operations).store.validate? module = some [])
    (defined : function ∈ (after operations).store.definitions module)
    (ends : (after operations).store.BasesEnd module) :
    EndsAt (Pass.flatten function) (after operations).store ∧
      EndsAt (Pass.transpose function) (after operations).store ∧
      ((after operations).store.Supplied function (after operations).store →
        EndsAt (Pass.promote function) (after operations).store) := by
  have coherent := (after_coherent operations).store
  have listed := List.mem_of_mem_filter defined
  exact ⟨(Pass.ensures_flatten coherent accepted listed ends).1,
    (Pass.ensures_transpose coherent accepted listed ends).1,
    fun supplied => (Pass.ensures_promote coherent accepted listed ends (after_regular operations)
      supplied).1⟩

/-! The first type of a first module, a row of two of it, and two rows. -/

def word : Ty := .scalar ⟨0, 0, "i32"⟩ (.signed 4)

def row : Ty := .array ⟨0, 1, ""⟩ word 2

def grid : Ty := .array ⟨0, 2, ""⟩ row 2

/-- An element of a row of a grid, written, read and written to another variable and back. -/
def nested : List Operation :=
  [.edit (.addModule "nested"),
    .edit (.createFunction 0 .callable none),
    .edit (.createBody ⟨0⟩),
    .edit (.requestType 0 "i32" (.scalar (.signed 4))),
    .edit (.arrayType 0 (some word) 2),
    .edit (.arrayType 0 (some row) 2),
    .edit (.constantInt32 0 1),
    .moveToEnd ⟨1⟩, .alloca (some grid) .local, .alloca (some word) .local,
    .gep (some row) (some ⟨3⟩) [some ⟨2⟩],
    .gep (some word) (some ⟨5⟩) [some ⟨2⟩],
    .store (some ⟨6⟩) (some ⟨2⟩),
    .load (some word) (some ⟨6⟩),
    .store (some ⟨4⟩) (some ⟨8⟩),
    .load (some word) (some ⟨4⟩),
    .store (some ⟨6⟩) (some ⟨10⟩),
    .emit .ret none [] (.refl true)]

theorem memory_passes_end_nested :
    EndsAt (Pass.flatten ⟨0⟩) (after nested).store ∧
      EndsAt (Pass.transpose ⟨0⟩) (after nested).store ∧
      EndsAt (Pass.promote ⟨0⟩) (after nested).store := by
  have accepted : (after nested).store.validate? 0 = some [] := by decide +kernel
  have defined : ⟨0⟩ ∈ (after nested).store.definitions 0 := by decide +kernel
  have ends : (after nested).store.BasesEnd 0 := basesEnd_of_basesPrecede (by decide +kernel)
  obtain ⟨flattens, transposes, promotes⟩ := memory_passes_end accepted defined ends
  have coherent := (after_coherent nested).store
  have listed : ⟨0⟩ ∈ (after nested).store.functions 0 := by decide +kernel
  have confined := Validation.confined_of_validate coherent accepted listed
  exact ⟨flattens, transposes,
    promotes (supplied_of_supplies coherent confined (by decide +kernel))⟩

/-- Two element references, each of which is the base of the other one. -/
def circular : List Operation :=
  [.edit (.addModule "circular"),
    .edit (.createFunction 0 .callable none),
    .edit (.createBody ⟨0⟩),
    .edit (.requestType 0 "i32" (.scalar (.signed 4))),
    .moveToEnd ⟨1⟩, .alloca (some word) .local,
    .gep (some word) (some ⟨2⟩) [],
    .gep (some word) (some ⟨3⟩) [],
    .emit .ret none [] (.refl true),
    .edit (.setBaseAndIndices ⟨3⟩ (some ⟨4⟩) [])]

/-- A variable read in two blocks; in the block above, one of the reads is stored into it. -/
def belated : List Operation :=
  [.edit (.addModule "belated"),
    .edit (.createFunction 0 .callable none),
    .edit (.requestType 0 "i32" (.scalar (.signed 4))),
    .edit (.requestType 0 "bool" (.scalar .boolean)),
    .edit (.createArgument ⟨0⟩ .byValue (some (.scalar ⟨0, 1, "bool"⟩ .boolean))),
    .edit (.createBody ⟨0⟩),
    .edit (.createBlock ⟨0⟩),
    .edit (.createBlock ⟨0⟩),
    .edit (.undefined 0 (some word)),
    .moveToEnd ⟨2⟩, .alloca (some word) .local,
    .store (some ⟨6⟩) (some ⟨5⟩),
    .condBranch (some ⟨1⟩) (some ⟨3⟩) (some ⟨4⟩),
    .moveToEnd ⟨3⟩, .load (some word) (some ⟨6⟩),
    .emit .ret none [] (.refl true),
    .moveToEnd ⟨4⟩, .load (some word) (some ⟨6⟩),
    .emit .ret none [] (.refl true),
    .edit (.setStored ⟨7⟩ (some ⟨11⟩))]

/--
Validation accepts both modules.  In the first one, following bases never ends; in the
second one, a read is replaced by itself, and looking for its replacement never ends.
-/
theorem endless_circular_belated :
    ((after circular).store.validate? 0 = some [] ∧
      ⟨0⟩ ∈ (after circular).store.definitions 0 ∧
      ¬EndsAt (Pass.flatten ⟨0⟩) (after circular).store ∧
      ¬EndsAt (Pass.transpose ⟨0⟩) (after circular).store ∧
      ¬EndsAt (Pass.promote ⟨0⟩) (after circular).store) ∧
    ((after belated).store.validate? 0 = some [] ∧
      ⟨0⟩ ∈ (after belated).store.definitions 0 ∧
      ¬EndsAt (Pass.promote ⟨0⟩) (after belated).store) := by
  unfold EndsAt
  refine ⟨⟨?_, ?_, ?_, ?_, ?_⟩, ?_, ?_, ?_⟩ <;> decide +kernel

end Session

end ShaderIR
