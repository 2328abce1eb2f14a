import ShaderIR.Proofs.Coherence.Session
import ShaderIR.Proofs.Revision.Patches

/-!
# What a copied instruction leaves

A copy has the kind of its source and everything that the kind records besides
blocks.  Its blocks and its operands are those of the source, resolved one after
another; absent ones stay absent.  A resolver may change the source: every block is
the one the source has when its turn comes, and the operands are those it has once
the blocks are resolved.

Apart from what the resolver itself does, copying is described exactly: one
instruction is added and listed right behind the cursor, its uses come last in the
use-lists of its operands, and every value is otherwise the very value it was.
-/

namespace ShaderIR

/-! ## The blocks of an opcode -/

namespace Opcode

/-- An opcode with other blocks and the same kind, operation, texts and case values. -/
def withHeld : Opcode → List (Option Ref) → Opcode
  | ifElse _, [merge] => ifElse merge
  | switch _ cases, [merge] => switch merge cases
  | loop _ _ _, [body, update, merge] => loop merge body update
  | simpleLoop _, [merge] => simpleLoop merge
  | rayQueryLoop _, [merge] => rayQueryLoop merge
  | outline _, [merge] => outline merge
  | autodiffScope _, [merge] => autodiffScope merge
  | phi _, blocks => phi blocks
  | other, _ => other

/-- Only phis have incoming blocks. -/
theorem held_of_incomingBlocks
    {opcode : Opcode}
    {blocks : List (Option Ref)}
    (same : opcode.incomingBlocks = blocks)
    (present : blocks ≠ []) :
    opcode.held = blocks := by
  cases opcode <;> simp_all [incomingBlocks, held]

end Opcode

/-! ## Resolving -/

namespace Resolver

open Edit

/-- Resolving operands one after another, each in the store that the one before has left. -/
inductive Resolves (resolve : Resolver) :
    Store → List (Option Ref) → List (Option Ref) → Store → Prop where
  | nil {store : Store} : Resolves resolve store [] [] store
  | absent {store left : Store} {rest answers : List (Option Ref)} :
    Resolves resolve store rest answers left →
    Resolves resolve store (none :: rest) (none :: answers) left
  | present {store between left : Store} {ref : Ref} {answer : Option Ref}
    {rest answers : List (Option Ref)} :
    Gives (resolve ref) store answer between →
    Resolves resolve between rest answers left →
    Resolves resolve store (some ref :: rest) (answer :: answers) left

/--
Resolving the blocks that an instruction records from a position on, one after another, each
as the instruction has it when its turn comes.
-/
inductive Settles (resolve : Resolver) (source : Ref) :
    Nat → Store → List (Option Ref) → Store → Prop where
  | nil {position : Nat} {store : Store} : Settles resolve source position store [] store
  | cons {position : Nat} {store between left : Store} {current : Instruction}
    {block answer : Option Ref} {answers : List (Option Ref)} :
    store.instruction? source = some current →
    current.opcode.held[position]? = some block →
    Gives (resolve.operand block) store answer between →
    Settles resolve source (position + 1) between answers left →
    Settles resolve source position store (answer :: answers) left

/-- Resolving a value changes neither the opcode nor the operands of an instruction. -/
def Spares (resolve : Resolver) (source : Ref) : Prop :=
  ∀ ref store answer left, Gives (resolve ref) store answer left →
    left.opcode? source = store.opcode? source ∧ left.operands source = store.operands source

variable {resolve : Resolver} {source : Ref} {store between left : Store}
  {sources answers : List (Option Ref)}

namespace Resolves

theorem cons
    {source answer : Option Ref}
    (gives : Gives (resolve.operand source) store answer between)
    (rest : resolve.Resolves between sources answers left) :
    resolve.Resolves store (source :: sources) (answer :: answers) left := by
  cases source with
  | none =>
      obtain ⟨rfl, rfl⟩ := gives_pure_iff.1 gives
      exact .absent rest
  | some ref => exact .present gives rest

theorem keeps (careful : resolve.Careful) (resolves : resolve.Resolves store sources answers left) :
    store.Keeps left := by
  induction resolves with
  | nil => exact Lasting.refl _
  | absent _ induction => exact induction
  | present gives _ induction =>
      exact Lasting.trans (Respects.of_gives (careful _) gives) induction

/-- A resolver that is a function of the value maps the operands and changes nothing. -/
theorem eq_map
    {choose : Ref → Option Ref}
    (resolves : Resolves (fun ref => pure (choose ref)) store sources answers left) :
    answers = sources.map (·.bind choose) ∧ left = store := by
  induction resolves with
  | nil => exact ⟨rfl, rfl⟩
  | absent _ induction => exact ⟨congrArg (none :: ·) induction.1, induction.2⟩
  | present gives _ induction =>
      obtain ⟨rfl, rfl⟩ := gives_pure_iff.1 gives
      exact ⟨congrArg (_ :: ·) induction.1, induction.2⟩

end Resolves

theorem resolves_operands (gives : Gives (resolve.operands sources) store answers left) :
    resolve.Resolves store sources answers left := by
  induction sources generalizing store answers with
  | nil =>
      obtain ⟨rfl, rfl⟩ := gives_pure_iff.1 gives
      exact .nil
  | cons source rest induction =>
      obtain ⟨_, _, first, gives⟩ := gives_bind_iff.1 gives
      obtain ⟨_, _, others, gives⟩ := gives_bind_iff.1 gives
      obtain ⟨rfl, rfl⟩ := gives_pure_iff.1 gives
      exact .cons first (induction others)

/-- Resolving a block is resolving it as an operand and a check. -/
theorem gives_operand_of_block
    {source answer : Option Ref}
    (gives : Gives (resolve.block source) store answer left) :
    Gives (resolve.operand source) store answer left := by
  obtain ⟨found, _, first, gives⟩ := gives_bind_iff.1 gives
  cases found with
  | none =>
      obtain ⟨rfl, rfl⟩ := gives_pure_iff.1 gives
      exact first
  | some block =>
      obtain ⟨_, _, checked, answered⟩ := gives_bind_iff.1 (gives_see_bind_iff.1 gives)
      obtain ⟨-, rfl⟩ := gives_require_iff.1 checked
      obtain ⟨rfl, rfl⟩ := gives_pure_iff.1 answered
      exact first

/-- Blocks that are still there are resolved as the instruction has them. -/
theorem settles_blocks
    {whole before : List (Option Ref)}
    (split : whole = before ++ sources)
    (gives : Gives (resolve.blocks source whole sources) store answers left) :
    resolve.Settles source before.length store answers left := by
  induction sources generalizing before store answers with
  | nil =>
      obtain ⟨rfl, rfl⟩ := gives_pure_iff.1 gives
      exact .nil
  | cons first rest induction =>
      obtain ⟨_, _, checked, gives⟩ := gives_bind_iff.1 gives
      obtain ⟨current, found, checked⟩ := gives_instruction_bind_iff.1 checked
      split at checked
      · rename_i same
        obtain ⟨-, unchanged⟩ := gives_pure_iff.1 checked
        rw [unchanged] at gives
        obtain ⟨_, _, resolved, gives⟩ := gives_bind_iff.1 gives
        obtain ⟨_, _, others, gives⟩ := gives_bind_iff.1 gives
        obtain ⟨rfl, rfl⟩ := gives_pure_iff.1 gives
        have held : current.opcode.held = before ++ first :: rest := by
          rw [Opcode.held_of_incomingBlocks same (by simp [split]), split]
        have split' : whole = (before ++ [first]) ++ rest := by simp [split]
        have later := induction split' others
        rw [List.length_append, List.length_singleton] at later
        exact .cons found (by simp [held]) (gives_operand_of_block resolved) later
      · exact absurd checked not_gives_stuck

/-- Resolving an opcode resolves its blocks and keeps everything else. -/
theorem settles_opcode
    {entry : Instruction}
    {opcode : Opcode}
    (found : store.instruction? source = some entry)
    (gives : Gives (resolve.opcode source entry.opcode) store opcode left) :
    opcode = entry.opcode.withHeld opcode.held ∧
      opcode.held.length = entry.opcode.held.length ∧
      resolve.Settles source 0 store opcode.held left := by
  have one {merge : Option Ref} {build : Option Ref → Opcode}
      (first : entry.opcode.held[0]? = some merge)
      (gives : Gives (do return build (← resolve.block merge)) store opcode left) :
      ∃ answer, opcode = build answer ∧ resolve.Settles source 0 store [answer] left := by
    obtain ⟨answer, _, resolved, gives⟩ := gives_bind_iff.1 gives
    obtain ⟨rfl, rfl⟩ := gives_pure_iff.1 gives
    exact ⟨answer, rfl, .cons found first (gives_operand_of_block resolved) .nil⟩
  cases kind : entry.opcode with
  | ifElse merge | switch merge _ | simpleLoop merge | rayQueryLoop merge | outline merge
  | autodiffScope merge =>
      rw [kind] at gives
      obtain ⟨answer, rfl, settles⟩ := one (by rw [kind]; rfl) gives
      exact ⟨rfl, rfl, settles⟩
  | loop merge body update =>
      rw [kind] at gives
      have heldAt {position : Nat} {answer : Option Ref} {store left : Store}
          (gives : Gives (resolve.held source position) store answer left) :
          ∃ current block, store.instruction? source = some current ∧
            current.opcode.held[position]? = some block ∧
            Gives (resolve.operand block) store answer left := by
        obtain ⟨current, found, gives⟩ := gives_instruction_bind_iff.1 gives
        obtain ⟨block, held, gives⟩ := gives_demand_bind_iff.1 gives
        exact ⟨current, block, found, held, gives_operand_of_block gives⟩
      obtain ⟨_, _, first, gives⟩ := gives_bind_iff.1 gives
      obtain ⟨_, _, second, gives⟩ := gives_bind_iff.1 gives
      obtain ⟨_, _, third, gives⟩ := gives_bind_iff.1 gives
      obtain ⟨rfl, rfl⟩ := gives_pure_iff.1 gives
      obtain ⟨_, _, found', held', second⟩ := heldAt second
      obtain ⟨_, _, found'', held'', third⟩ := heldAt third
      exact ⟨rfl, rfl, .cons found (by rw [kind]; rfl) (gives_operand_of_block first)
        (.cons found' held' second (.cons found'' held'' third .nil))⟩
  | phi blocks =>
      rw [kind] at gives
      obtain ⟨answers, _, resolved, gives⟩ := gives_bind_iff.1 gives
      obtain ⟨rfl, rfl⟩ := gives_pure_iff.1 gives
      exact ⟨rfl, length_of_gives_blocks resolved,
        settles_blocks (List.nil_append blocks).symm resolved⟩
  | _ =>
      rw [kind] at gives
      obtain ⟨rfl, rfl⟩ := gives_pure_iff.1 gives
      exact ⟨rfl, rfl, .nil⟩

namespace Spares

variable (spares : resolve.Spares source)

include spares

theorem operand
    {value answer : Option Ref}
    (gives : Gives (resolve.operand value) store answer left) :
    left.opcode? source = store.opcode? source ∧ left.operands source = store.operands source := by
  cases value with
  | none =>
      obtain ⟨-, rfl⟩ := gives_pure_iff.1 gives
      exact ⟨rfl, rfl⟩
  | some ref => exact spares ref store answer left gives

/-- A resolver that spares an instruction resolves the blocks it has from the beginning. -/
theorem resolves
    {position : Nat}
    {opcode : Opcode}
    (settles : resolve.Settles source position store answers left)
    (held : store.opcode? source = some opcode)
    (length : position + answers.length = opcode.held.length) :
    resolve.Resolves store (opcode.held.drop position) answers left ∧
      left.operands source = store.operands source := by
  induction settles with
  | nil =>
      rw [List.length_nil, Nat.add_zero] at length
      rw [List.drop_of_length_le (by omega)]
      exact ⟨.nil, rfl⟩
  | @cons position store between left current block answer answers found heldAt gives _ induction =>
      have same : current.opcode = opcode := by
        rw [Store.opcode?, found] at held
        exact Option.some.inj held
      obtain ⟨sameOpcode, sameOperands⟩ := spares.operand gives
      rw [List.length_cons] at length
      obtain ⟨resolves, operands⟩ := induction (sameOpcode.trans held) (by omega)
      obtain ⟨inside, at_⟩ := List.getElem?_eq_some_iff.1 (same ▸ heldAt)
      rw [List.drop_eq_getElem_cons inside, at_]
      exact ⟨.cons gives resolves, operands.trans sameOperands⟩

end Spares

theorem Settles.keeps
    {position : Nat}
    (careful : resolve.Careful)
    (settles : resolve.Settles source position store answers left) :
    store.Keeps left := by
  induction settles with
  | nil => exact Lasting.refl _
  | cons _ _ gives _ induction =>
      exact Lasting.trans ((operand_respects careful _).of_gives gives) induction

/-- A resolver that is a function of the value changes nothing. -/
theorem spares_pure (choose : Ref → Option Ref) (source : Ref) :
    Spares (fun ref => pure (choose ref)) source := by
  intro ref store answer left gives
  obtain ⟨-, rfl⟩ := gives_pure_iff.1 gives
  exact ⟨rfl, rfl⟩

end Resolver

/-! ## One value more -/

namespace Store

/-- What is put right behind an element of a list splits the list there. -/
theorem exists_received
    {after : Option Ref}
    {members : List Ref}
    (new : Ref)
    (present : ∀ position, after = some position → position ∈ members) :
    ∃ front back, members = front ++ back ∧ front.getLast? = after ∧
      received after new members = front ++ new :: back := by
  cases after with
  | none => exact ⟨[], members, rfl, rfl, rfl⟩
  | some position =>
      have inside := present position rfl
      clear present
      induction members with
      | nil => cases inside
      | cons first rest induction =>
          by_cases same : first = position
          · exact ⟨[first], rest, rfl, congrArg some same, by simp [received, insertAfter, same]⟩
          · have later : position ∈ rest :=
              (List.mem_cons.1 inside).resolve_left fun equal => same equal.symm
            obtain ⟨front, back, split, last, equal⟩ := induction later
            refine ⟨first :: front, back, congrArg (first :: ·) split, ?_, ?_⟩
            · rw [List.getLast?_cons, last, Option.getD_some]
            · rw [received] at equal ⊢
              rw [insertAfter, if_neg same, equal, List.cons_append]

/--
A store in which one value was added, an instruction that was linked between others of a
block; the values that its slots hold have their new uses last, and all else is as it was.
-/
structure Adds (store : Store) (block : Ref) (front back : List Ref) (new : Ref) (value : Value)
    (slots : List Slot) (left : Store) : Prop where
  fresh : store.value? new = none
  isBlock : store.isBlock block = true
  pool : store.moduleOf? block = some value.module
  members : store.instructions block = front ++ back
  value? : ∀ ref, left.value? ref =
    if ref = new then some value
    else (store.value? ref).map fun old =>
      { old with
        content :=
          if block = ref then old.content.mapBlock fun _ => front ++ new :: back else old.content
        uses := old.uses ++ usesAmong new ref slots }
  modules : left.modules = store.modules.modify value.module fun entry =>
    { entry with pool := entry.pool.push new }

theorem ne_of_isBlock
    {store : Store}
    {block new : Ref}
    (isBlock : store.isBlock block = true)
    (fresh : store.value? new = none) :
    block ≠ new := by
  rintro rfl
  obtain ⟨_, _, found⟩ := isBlock_iff.1 isBlock
  simp [Store.content?, fresh] at found

namespace Adds

variable {store left : Store} {block new : Ref} {front back : List Ref} {value : Value}
  {slots : List Slot}

theorem instruction?_new
    (adds : store.Adds block front back new value slots left)
    {entry : Instruction}
    (content : value.content = .instruction entry) :
    left.instruction? new = some entry := by
  rw [instruction?_eq_some_iff, Store.content?, adds.value?, if_pos rfl, Option.map_some, content]

theorem instructions (adds : store.Adds block front back new value slots left) :
    left.instructions block = front ++ new :: back := by
  obtain ⟨owner, members, found⟩ := isBlock_iff.1 adds.isBlock
  obtain ⟨old, there, content⟩ := Option.map_eq_some_iff.1 found
  rw [Store.instructions, Store.content?, adds.value?,
    if_neg (ne_of_isBlock adds.isBlock adds.fresh), there]
  simp [content, Content.mapBlock]

end Adds

end Store

/-! ## Copies -/

/--
An instruction is a copy of another one: its blocks are resolved, and then the operands that
the other one has.
-/
def Instruction.CopiedTo
    (entry : Instruction)
    (source : Ref)
    (resolve : Resolver)
    (store : Store)
    (copied : Instruction)
    (settled : Store) : Prop :=
  copied.opcode = entry.opcode.withHeld copied.opcode.held ∧
    copied.opcode.held.length = entry.opcode.held.length ∧
    ∃ between, resolve.Settles source 0 store copied.opcode.held between ∧
      resolve.Resolves between (between.operands source) copied.values settled

/-- A resolver that spares the source resolves the blocks and operands it has from the beginning. -/
theorem Instruction.CopiedTo.resolves
    {entry copied : Instruction}
    {source : Ref}
    {resolve : Resolver}
    {store settled : Store}
    (copiedTo : entry.CopiedTo source resolve store copied settled)
    (found : store.instruction? source = some entry)
    (spares : resolve.Spares source) :
    ∃ between, resolve.Resolves store entry.opcode.held copied.opcode.held between ∧
      resolve.Resolves between entry.values copied.values settled := by
  obtain ⟨-, length, between, settles, resolves⟩ := copiedTo
  have opcode : store.opcode? source = some entry.opcode := by rw [Store.opcode?, found]; rfl
  have operands : store.operands source = entry.values := by rw [Store.operands, found]; rfl
  obtain ⟨blocks, same⟩ := spares.resolves settles opcode (by omega)
  rw [same, operands] at resolves
  exact ⟨between, blocks, resolves⟩

namespace Build

open Store Edit

section Parts

variable {store reserved pointed named left : Store} {new block : Ref} {after : Option Ref}
  {module : Nat} {type : Option Ty} {opcode : Opcode} {operands : List (Option Ref)}

/-- A reserved instruction that got operands is one value more, and no other is changed. -/
theorem value?_furnished
    (allocated : (new, reserved) = store.allocate module type (.instruction { opcode }))
    (given : Gives (setOperands new operands) reserved () pointed) :
    ∃ slots, slots.map Slot.value = operands ∧
      (∀ ref, pointed.value? ref =
        if ref = new then
          some
            { module, type
              id := (store.modules[module]?.map (·.pool.size)).getD 0
              content := .instruction { opcode, operands := slots } }
        else store.value? ref) ∧
      pointed.modules = store.modules.modify module fun entry =>
        { entry with pool := entry.pool.push new } := by
  have isNew : new = (store.allocate module type (.instruction { opcode })).1 :=
    congrArg Prod.fst allocated
  have isReserved : reserved = (store.allocate module type (.instruction { opcode })).2 :=
    congrArg Prod.snd allocated
  have bare : reserved.instruction? new = some { opcode } := by
    rw [instruction?_eq_some_iff, content?_allocated allocated, if_pos rfl]
  obtain ⟨slots, values, patches⟩ := patches_setOperands bare given
  refine ⟨slots, values, fun ref => ?_, ?_⟩
  · rw [patches.value?, isReserved, value?_allocate, ← isNew]
    by_cases atNew : ref = new
    · rw [if_pos atNew, if_pos atNew, Option.map_some, if_pos atNew.symm]
    · rw [if_neg atNew, if_neg atNew]
      simp [show ¬new = ref from fun equal => atNew equal.symm]
  · rw [patches.modules, isReserved, modules_allocate, ← isNew]

/-- Naming a value as a value of the store is named asks for the name it has there. -/
theorem name_furnished
    (allocated : (new, reserved) = store.allocate module type (.instruction { opcode }))
    (given : Gives (setOperands new operands) reserved () pointed)
    (ref : Ref) :
    ((pointed.value? ref).map Value.name).getD "" =
      ((store.value? ref).map Value.name).getD "" := by
  obtain ⟨slots, -, values, -⟩ := value?_furnished allocated given
  rw [values]
  split
  · rename_i equal
    rw [equal, value?_of_allocated allocated]
    rfl
  · rfl

/-- A detached instruction that is one value more is linked between others. -/
theorem adds_insertInto
    {value : Value}
    {slots : List Slot}
    (coherent : store.Coherent)
    (isBlock : store.isBlock block = true)
    (fresh : store.value? new = none)
    (values : ∀ ref, named.value? ref = if ref = new then some value else store.value? ref)
    (modules : named.modules = store.modules.modify value.module fun entry =>
      { entry with pool := entry.pool.push new })
    (content : value.content = .instruction { opcode, operands := slots })
    (inserted : Gives (insertInto block new after) named () left) :
    ∃ front back, front.getLast? = after ∧
      store.Adds block front back new
        { value with
          content := .instruction { opcode, operands := slots, block := some block }
          uses := value.uses ++ usesAmong new new slots }
        slots left := by
  have found : named.instruction? new = some { opcode, operands := slots } := by
    rw [instruction?_eq_some_iff, Store.content?, values, if_pos rfl, Option.map_some, content]
  obtain ⟨pool, placed, patches⟩ := patches_insertInto found inserted
  -- What the instruction is linked behind was linked before, since it is not the new one.
  have present : ∀ position, after = some position → position ∈ store.instructions block := by
    intro position equal
    have linked := placed position equal
    have different : position ≠ new := by
      rintro rfl
      simp [blockOf?, found] at linked
    have same : named.content? position = store.content? position := by
      rw [Store.content?, Store.content?, values, if_neg different]
    rw [coherent.mem_members, ← linked, blockOf?, blockOf?, instruction?_congr same]
  obtain ⟨front, back, members, last, received⟩ := exists_received new present
  refine ⟨front, back, last, fresh, isBlock, ?_, members, fun ref => ?_, ?_⟩
  · rw [moduleOf?, moduleOf?, values, values, if_pos rfl,
      if_neg (ne_of_isBlock isBlock fresh)] at pool
    exact pool.symm
  · rw [patches.value?, values]
    by_cases atNew : ref = new
    · subst atNew
      by_cases inBlock : block = ref <;>
        simp [Content.mapBlock, Content.mapInstruction, inBlock, content]
    · rw [if_neg atNew, if_neg atNew]
      refine Option.map_congr fun old there => ?_
      have different : ¬new = ref := fun equal => atNew equal.symm
      by_cases inBlock : block = ref
      · subst inBlock
        obtain ⟨owner, listed, isListed⟩ := isBlock_iff.1 isBlock
        rw [show store.instructions block = listed by simp [Store.instructions, isListed]]
          at received
        rw [Store.content?, there, Option.map_some, Option.some.injEq] at isListed
        simp [isListed, Content.mapBlock, Content.mapInstruction, received]
      · cases old.content <;> simp [different, inBlock, Content.mapInstruction]
  · rw [patches.modules, modules]

end Parts

variable {store left : Store} {source copy : Ref} {resolve : Resolver} {cursor moved : Cursor}

/-- Copying an instruction is resolving, reserving, giving operands and the name, and linking. -/
theorem yields_clone (yields : Yields (clone source resolve) cursor store copy moved left) :
    ∃ entry opcode between operands settled module reserved pointed block,
      store.instruction? source = some entry ∧
      opcode = entry.opcode.withHeld opcode.held ∧
      opcode.held.length = entry.opcode.held.length ∧
      resolve.Settles source 0 store opcode.held between ∧
      resolve.Resolves between (between.operands source) operands settled ∧
      (copy, reserved) = settled.allocate module (settled.typeOf source)
        (.instruction { opcode }) ∧
      Gives (setOperands copy operands) reserved () pointed ∧
      cursor.block = some block ∧ moved = { cursor with after := some copy } ∧
      Gives (insertInto block copy cursor.after)
        (pointed.modifyValue copy fun value =>
          { value with name := ((pointed.value? source).map Value.name).getD "" }) () left := by
  obtain ⟨entry, _, found, rest⟩ := yields_lift_bind_iff.1 yields
  obtain ⟨found, unchanged⟩ := gives_instruction_iff.1 found
  rw [unchanged] at rest
  obtain ⟨opcode, between, resolved, rest⟩ := yields_lift_bind_iff.1 rest
  obtain ⟨same, length, settles⟩ := Resolver.settles_opcode found resolved
  obtain ⟨current, _, found', rest⟩ := yields_lift_bind_iff.1 rest
  obtain ⟨found', unchanged⟩ := gives_instruction_iff.1 found'
  rw [unchanged] at rest
  obtain ⟨operands, settled, resolved', rest⟩ := yields_lift_bind_iff.1 rest
  have resolves := Resolver.resolves_operands resolved'
  have values : between.operands source = current.values := by rw [Store.operands, found']; rfl
  rw [← values] at resolves
  replace rest := yields_see_bind_iff.1 rest
  obtain ⟨_, _, reserved, reserving, rest⟩ := yields_bind_iff.1 rest
  obtain ⟨stays, module, allocated⟩ := yields_reserve reserving
  rw [stays] at rest
  obtain ⟨_, pointed, given, rest⟩ := yields_lift_bind_iff.1 rest
  replace rest := yields_see_bind_iff.1 rest
  obtain ⟨_, named, naming, rest⟩ := yields_lift_bind_iff.1 rest
  obtain ⟨_, _, _, placed, rest⟩ := yields_bind_iff.1 rest
  obtain ⟨rfl, rfl, rfl⟩ := yields_pure_iff.1 rest
  obtain ⟨block, atBlock, moves, inserted⟩ := yields_place placed
  rw [Edit.gives_modify_iff.1 naming] at inserted
  exact ⟨entry, opcode, between, operands, settled, module, reserved, pointed, block, found, same,
    length, settles, resolves, allocated, given, atBlock, moves, inserted⟩

/--
A copy of an instruction, of whatever kind, has its kind with the operation, the texts and
the case values; the blocks and the operands are those of the instruction, resolved, and the
type and the name those it has.  The copy is linked right behind the cursor, which moves to
it, and after the resolver has answered nothing else changes.

The resolver may do whatever keeps the store in order.  If it spares the instruction, the blocks
and operands are those from the beginning, and if it only answers, the store stays as it was.
-/
theorem clone_faithful
    (coherent : store.Coherent)
    (stands : cursor.Stands store)
    (careful : resolve.Careful)
    (yields : Yields (clone source resolve) cursor store copy moved left) :
    ∃ entry copied settled block front back module,
      store.instruction? source = some entry ∧
      entry.CopiedTo source resolve store copied settled ∧
      (resolve.Spares source → ∃ between,
        resolve.Resolves store entry.opcode.held copied.opcode.held between ∧
          resolve.Resolves between entry.values copied.values settled) ∧
      (∀ choose : Ref → Option Ref, resolve = (fun ref => pure (choose ref)) →
        copied.opcode = entry.opcode.withHeld (entry.opcode.held.map (·.bind choose)) ∧
        copied.values = entry.values.map (·.bind choose) ∧ settled = store) ∧
      cursor.block = some block ∧ copied.block = some block ∧ front.getLast? = cursor.after ∧
      moved = { cursor with after := some copy } ∧
      settled.Adds block front back copy
        { module
          id := (settled.modules[module]?.map (·.pool.size)).getD 0
          type := settled.typeOf source
          content := .instruction copied
          name := ((settled.value? source).map Value.name).getD ""
          uses := usesAmong copy copy copied.operands }
        copied.operands left := by
  obtain ⟨entry, opcode, between, operands, settled, module, reserved, pointed, block, found, same,
    length, settles, resolves, allocated, given, atBlock, moves, inserted⟩ := yields_clone yields
  -- The copy is made in the store that the resolver has left, and that is coherent too.
  obtain ⟨coherent', kept⟩ :=
    Lasting.trans (settles.keeps careful) (resolves.keeps careful) coherent
  obtain ⟨slots, rfl, furnished, modules⟩ := value?_furnished allocated given
  rw [name_furnished allocated given source] at inserted
  have named : ∀ ref, Store.value? (pointed.modifyValue copy fun value =>
      { value with name := ((settled.value? source).map Value.name).getD "" }) ref =
      if ref = copy then
        some
          { module
            id := (settled.modules[module]?.map (·.pool.size)).getD 0
            type := settled.typeOf source
            content := .instruction { opcode, operands := slots }
            name := ((settled.value? source).map Value.name).getD "" }
      else settled.value? ref := by
    intro ref
    rw [value?_modifyValue, furnished]
    by_cases atCopy : ref = copy
    · simp [atCopy]
    · simp [atCopy, show ¬copy = ref from fun equal => atCopy equal.symm]
  obtain ⟨front, back, last, adds⟩ :=
    adds_insertInto coherent' (kept block (stands block atBlock)) (value?_of_allocated allocated)
      named modules rfl inserted
  have copiedTo : entry.CopiedTo source resolve store
      { opcode, operands := slots, block := some block } settled :=
    ⟨same, length, between, settles, resolves⟩
  refine ⟨entry, _, settled, block, front, back, module, found, copiedTo, copiedTo.resolves found,
    ?_, atBlock, rfl, last, moves, adds⟩
  rintro choose rfl
  obtain ⟨_, blocks, operands⟩ := copiedTo.resolves found (Resolver.spares_pure choose source)
  obtain ⟨held, rfl⟩ := blocks.eq_map
  obtain ⟨values, rfl⟩ := operands.eq_map
  exact ⟨same.trans (congrArg entry.opcode.withHeld held), values, rfl⟩

/-- A loop with a name and a body, whose update block is not set, and an empty block. -/
def copying : Store :=
  (Session.after [
    .edit (.addModule "copying"),
    .edit (.createFunction 0 .kernel none),
    .edit (.createBody ⟨0⟩),
    .moveToEnd ⟨1⟩,
    .emit (.loop none none none) none [none] (.refl true),
    .edit (.setName ⟨2⟩ "around"),
    .edit (.createBlockAt ⟨2⟩ (.operand 0)),
    .edit (.createBlockAt ⟨2⟩ .body),
    .edit (.createBlockAt ⟨2⟩ .merge),
    .edit (.createBlock ⟨0⟩)]).store

/-- The empty block for the body, nothing for the merge block. -/
def emptied (ref : Ref) : Option Ref :=
  if ref = ⟨5⟩ then none else if ref = ⟨4⟩ then some ⟨6⟩ else some ref

theorem clone_faithful_loop :
    ∃ copy moved left,
      Yields (clone ⟨2⟩ fun ref => pure (emptied ref)) { block := some ⟨6⟩ } copying copy moved
        left ∧
      left.opcode? copy = some (.loop none (some ⟨6⟩) none) ∧
      left.operands copy = [some ⟨3⟩] ∧
      left.instructions ⟨6⟩ = [copy] := by
  have coherent : copying.Coherent := (Session.after_coherent _).store
  have empty : copying.instructions ⟨6⟩ = [] := by decide +kernel
  have opcode : copying.opcode? ⟨2⟩ = some (.loop (some ⟨5⟩) (some ⟨4⟩) none) := by decide +kernel
  have operands : copying.operands ⟨2⟩ = [some ⟨3⟩] := by decide +kernel
  have stands : Cursor.Stands { block := some ⟨6⟩ } copying := by
    intro block same
    cases same
    decide +kernel
  have careful : Resolver.Careful fun ref => pure (emptied ref) := fun _ => Edit.Respects.pure _
  have succeeds : (outcome (clone ⟨2⟩ fun ref => pure (emptied ref)) { block := some ⟨6⟩ }
      copying).1.isOk = true := by
    decide +kernel
  obtain ⟨⟨copy, moved⟩, left, yields⟩ : ∃ answer left,
      outcome (clone ⟨2⟩ fun ref => pure (emptied ref)) { block := some ⟨6⟩ } copying =
        (.ok answer, left) := by
    rcases run : outcome (clone ⟨2⟩ fun ref => pure (emptied ref)) { block := some ⟨6⟩ } copying
      with ⟨fault | answer, left⟩
    · rw [run] at succeeds
      cases succeeds
    · exact ⟨answer, left, rfl⟩
  obtain ⟨entry, copied, settled, block, front, back, module, found, -, -, mapped, atBlock, -,
    last, -, adds⟩ := clone_faithful coherent stands careful yields
  obtain ⟨copiedOpcode, copiedValues, settles⟩ := mapped emptied rfl
  rw [settles, ← Option.some.inj atBlock] at adds
  rw [opcode?, found, Option.map_some, Option.some.injEq] at opcode
  rw [Store.operands, found, Option.map_some, Option.getD_some] at operands
  have new := adds.instruction?_new rfl
  obtain ⟨rfl, rfl⟩ := List.append_eq_nil_iff.1 (adds.members.symm.trans empty)
  refine ⟨copy, moved, left, yields, ?_, ?_, adds.instructions⟩
  · rw [opcode?, new, Option.map_some, copiedOpcode, opcode]
    rfl
  · rw [Store.operands, new, Option.map_some, Option.getD_some, copiedValues, operands]
    rfl

end Build

end ShaderIR
