import ShaderIR.Proofs.Blocks.Editing
import ShaderIR.Proofs.Dominance.Frontier
import ShaderIR.Proofs.Layout.Typing
import ShaderIR.Proofs.Revision.Trimming

/-!
# Hoisting variables

Hoisting moves the variables of a function one after the other behind the phis of its
body.  The list of the body is known at every moment: what is in front of the next
variable is in its final order, and what is behind it is the rest of the old list.

A variable has no operands, so moving it changes nothing but the lists of blocks and the
block it is in.  Two stores that differ in nothing else, and whose blocks list the same,
are the same.  That is how hoisting again is seen to change nothing, unless a variable
stood behind a terminator: its block ends otherwise once it is gone, and control may then
reach blocks that it did not reach before.
-/

namespace ShaderIR

open Store Edit Build

/-! ## Rearranging -/

/-- A value with its instruction in a block, or its block with a list. -/
def Value.placed (value : Value) (home : Option Ref) (members : List Ref) : Value :=
  { value with
    content :=
      match value.content with
      | .instruction entry => .instruction { entry with block := home }
      | .block owner _ => .block owner members
      | other => other }

namespace Store

/-- Two stores differ only in the lists of their blocks and in where instructions are. -/
structure Rearranges (store left : Store) : Prop where
  modules : left.modules = store.modules
  nextSlot : left.nextSlot = store.nextSlot
  edges : left.edges = store.edges
  useLinks : left.useLinks = store.useLinks
  values : ∀ ref, ∃ home members,
    left.value? ref = (store.value? ref).map (·.placed home members)

variable {store left : Store} {ref block : Ref}

theorem map_value?_eq
    {before after : Option Value}
    (change : Value → Value)
    (changed : ∀ value, ∃ home members, change value = value.placed home members)
    (same : after = before.map change) :
    ∃ home members, after = before.map (·.placed home members) := by
  subst same
  cases before with
  | none => exact ⟨none, [], rfl⟩
  | some value =>
      obtain ⟨home, members, same⟩ := changed value
      exact ⟨home, members, congrArg some same⟩

theorem exists_placed (value : Value) : ∃ home members, value = value.placed home members := by
  obtain ⟨module, id, type, content, name, comments, uses⟩ := value
  cases content with
  | instruction entry => exact ⟨entry.block, [], rfl⟩
  | block owner members => exact ⟨none, members, rfl⟩
  | _ => exact ⟨none, [], rfl⟩

namespace Rearranges

theorem refl (store : Store) : store.Rearranges store where
  modules := rfl
  nextSlot := rfl
  edges := rfl
  useLinks := rfl
  values ref := map_value?_eq id exists_placed (by rw [Option.map_id, id])

theorem trans
    {between : Store}
    (first : store.Rearranges between)
    (second : between.Rearranges left) : store.Rearranges left where
  modules := second.modules.trans first.modules
  nextSlot := second.nextSlot.trans first.nextSlot
  edges := second.edges.trans first.edges
  useLinks := second.useLinks.trans first.useLinks
  values ref := by
    obtain ⟨home, members, same⟩ := first.values ref
    obtain ⟨home', members', same'⟩ := second.values ref
    refine map_value?_eq (fun value => (value.placed home members).placed home' members') ?_
      (by rw [same', same, Option.map_map]; rfl)
    rintro ⟨module, id, type, content, name, comments, uses⟩
    cases content <;> exact ⟨home', members', rfl⟩

/-- Changing a value in place rearranges the store if the value is only placed otherwise. -/
theorem of_modifyValue
    {change : Value → Value}
    (changed : ∀ value, ∃ home members, change value = value.placed home members) :
    store.Rearranges (store.modifyValue ref change) where
  modules := rfl
  nextSlot := rfl
  edges := rfl
  useLinks := rfl
  values other := by
    by_cases here : ref = other
    · exact map_value?_eq change changed (by rw [value?_modifyValue, if_pos here])
    · exact map_value?_eq id exists_placed
        (by rw [value?_modifyValue, if_neg here, Option.map_id, id])

theorem of_relink (change : Links Ref Ref → Links Ref Ref) :
    store.Rearranges (store.relink change) where
  modules := rfl
  nextSlot := rfl
  edges := rfl
  useLinks := rfl
  values ref := (refl store).values ref

theorem of_modifyBlock (change : List Ref → List Ref) :
    store.Rearranges (store.modifyBlock block change) := by
  refine of_modifyValue fun value => ?_
  obtain ⟨home, members, same⟩ := exists_placed value
  obtain ⟨module, id, type, content, name, comments, uses⟩ := value
  cases content with
  | block owner members => exact ⟨none, change members, rfl⟩
  | _ => exact ⟨home, members, same⟩

theorem of_modifyInstruction (home : Option Ref) :
    store.Rearranges (store.modifyInstruction ref fun entry => { entry with block := home }) := by
  refine of_modifyValue fun value => ?_
  obtain ⟨home', members, same⟩ := exists_placed value
  obtain ⟨module, id, type, content, name, comments, uses⟩ := value
  cases content with
  | instruction entry => exact ⟨home, [], rfl⟩
  | _ => exact ⟨home', members, same⟩

/-! What is not placed is not affected. -/

variable (rearranges : store.Rearranges left)

include rearranges

theorem map_value?
    {α : Type}
    {observe : Value → α}
    (respected : ∀ value home members, observe (value.placed home members) = observe value)
    (ref : Ref) : (left.value? ref).map observe = (store.value? ref).map observe := by
  obtain ⟨home, members, same⟩ := rearranges.values ref
  rw [same, Option.map_map]
  exact congrArg (Option.map · (store.value? ref)) (funext fun value => respected value _ _)

theorem usesOf (ref : Ref) : left.usesOf ref = store.usesOf ref := by
  unfold Store.usesOf
  rw [rearranges.map_value? (fun _ _ _ => rfl)]

theorem isBlock (ref : Ref) : left.isBlock ref = store.isBlock ref := by
  obtain ⟨home, members, same⟩ := rearranges.values ref
  unfold Store.isBlock content?
  rw [same]
  cases store.value? ref with
  | none => rfl
  | some value => cases content : value.content <;> simp [Value.placed, content]

theorem function? (ref : Ref) : left.function? ref = store.function? ref := by
  obtain ⟨home, members, same⟩ := rearranges.values ref
  unfold Store.function? content?
  rw [same]
  cases store.value? ref with
  | none => rfl
  | some value => cases content : value.content <;> simp [Value.placed, content]

/-- An instruction is the same but for the block it is in. -/
theorem map_instruction?
    {α : Type}
    {observe : Instruction → α}
    (respected : ∀ entry home, observe { entry with block := home } = observe entry)
    (ref : Ref) :
    (left.instruction? ref).map observe = (store.instruction? ref).map observe := by
  obtain ⟨home, members, same⟩ := rearranges.values ref
  unfold Store.instruction? content?
  rw [same]
  cases store.value? ref with
  | none => rfl
  | some value => cases content : value.content <;> simp [Value.placed, content, respected]

theorem opcode? (ref : Ref) : left.opcode? ref = store.opcode? ref :=
  rearranges.map_instruction? (fun _ _ => rfl) ref

theorem operands (ref : Ref) : left.operands ref = store.operands ref := by
  unfold Store.operands
  rw [rearranges.map_instruction? (fun _ _ => rfl)]

theorem isVariable (ref : Ref) : left.isVariable ref = store.isVariable ref := by
  unfold Store.isVariable
  rw [rearranges.opcode?]

theorem isPhi (ref : Ref) : left.isPhi ref = store.isPhi ref := by
  unfold Store.isPhi
  rw [rearranges.opcode?]

theorem isTerminator (ref : Ref) : left.isTerminator ref = store.isTerminator ref := by
  unfold Store.isTerminator
  rw [rearranges.opcode?]

theorem body? (function : Ref) : left.body? function = store.body? function := by
  unfold Store.body?
  rw [rearranges.function?]

/-- Stores that are placed alike are the same. -/
theorem eq_of_lists
    (before : store.Coherent)
    (after : left.Coherent)
    (lists : ∀ block, left.instructions block = store.instructions block) : left = store := by
  have homes : ∀ ref, left.blockOf? ref = store.blockOf? ref := by
    intro ref
    ext block
    rw [← after.mem_members, lists, before.mem_members]
  have values : left.values = store.values := by
    refine Array.ext_getElem? fun index => ?_
    change left.value? ⟨index⟩ = store.value? ⟨index⟩
    obtain ⟨home, members, same⟩ := rearranges.values ⟨index⟩
    have list := lists ⟨index⟩
    have place := homes ⟨index⟩
    unfold Store.instructions content? at list
    unfold blockOf? instruction? content? at place
    rw [same] at list place ⊢
    cases held : store.value? ⟨index⟩ with
    | none => rfl
    | some value =>
        rw [held] at list place
        obtain ⟨module, id, type, content, name, comments, uses⟩ := value
        cases content <;> simp_all [Value.placed]
  have links : left.links = store.links :=
    after.linked.unique (before.linked.congr lists)
  obtain ⟨⟨_, _, _⟩, _, _, _⟩ := store
  obtain ⟨⟨_, _, _⟩, _, _, _⟩ := left
  cases values
  cases links
  cases rearranges.modules
  cases rearranges.nextSlot
  cases rearranges.edges
  cases rearranges.useLinks
  rfl

end Rearranges

/-! ## Moving variables -/

section Moving

variable {front back : List Ref} {entry : Instruction}

theorem operands_eq_nil_iff (found : store.instruction? ref = some entry) :
    store.operands ref = [] ↔ entry.operands = [] := by
  rw [operands, found, Option.map_some, Option.getD_some, Instruction.values, List.map_eq_nil_iff]

theorem rearranges_of_gives_remove
    (plain : store.operands ref = [])
    (gives : Gives (Edit.remove ref) store () left) : store.Rearranges left := by
  obtain ⟨entry, found, gives⟩ := gives_instruction_bind_iff.1 gives
  have none := (operands_eq_nil_iff found).1 plain
  cases linked : entry.block with
  | none =>
      rw [linked] at gives
      obtain ⟨-, rfl⟩ := gives_pure_iff.1 gives
      exact .refl left
  | some home =>
      rw [linked, none] at gives
      cases gives
      exact ((Rearranges.of_modifyBlock _).trans (.of_relink _)).trans
        (Rearranges.of_modifyInstruction Option.none)

theorem rearranges_of_gives_insertInto
    {after : Option Ref}
    (plain : store.operands ref = [])
    (gives : Gives (insertInto block ref after) store () left) : store.Rearranges left := by
  obtain ⟨entry, found, -, -, result⟩ := gives_insertInto gives
  rw [(operands_eq_nil_iff found).1 plain] at result
  rw [result]
  exact ((Rearranges.of_modifyBlock _).trans (.of_relink _)).trans
    (Rearranges.of_modifyInstruction (some block))

/-- A linked instruction without operands can be moved, and only changes its place. -/
theorem Coherent.exists_yields_move_rearranges
    {home : Ref}
    (coherent : store.Coherent)
    (linked : store.blockOf? ref = some home)
    (isBlock : store.isBlock block = true)
    (pool : store.moduleOf? ref = store.moduleOf? block)
    (plain : store.operands ref = [])
    (split : (store.instructions block).erase ref = front ++ back) :
    ∃ left, Build.Yields (Build.move ref) ⟨some block, front.getLast?⟩ store ()
        ⟨some block, some ref⟩ left ∧
      store.Relocates ref block left ∧ store.Moves ref block front back left ∧
      store.Rearranges left := by
  have position : ∀ previous ∈ front.getLast?,
      previous ≠ ref ∧ store.blockOf? previous = some block := by
    intro previous last
    have member : previous ∈ (store.instructions block).erase ref := by
      rw [split]
      exact List.mem_append_left back (List.mem_of_getLast? last)
    obtain ⟨different, member⟩ := ((coherent.membersDistinct block).mem_erase_iff).1 member
    exact ⟨different, (coherent.mem_members block previous).1 member⟩
  obtain ⟨left, yields, relocates⟩ := exists_yields_move coherent linked isBlock pool position
  obtain ⟨entry, found, -⟩ := blockOf?_eq_some_iff.1 linked
  obtain ⟨between, removes, loses⟩ := coherent.exists_gives_loses found
  obtain ⟨left', inserts, moves, -⟩ := loses.exists_gives_moves isBlock pool split
  have removed := rearranges_of_gives_remove plain removes
  have inserted := rearranges_of_gives_insertInto ((removed.operands ref).trans plain) inserts
  have same : left' = left := by
    obtain ⟨_, _, _, located, rest⟩ := yields_bind_iff.1 yields
    obtain ⟨-, rfl, rfl⟩ := Build.yields_cursorBlock located
    obtain ⟨_, _, _, unlinks, rest⟩ := yields_bind_iff.1 rest
    obtain ⟨unlinked, rfl⟩ := yields_lift_iff.1 unlinks
    cases Eq.trans removes.symm unlinked
    obtain ⟨_, atBlock, -, links⟩ := yields_place rest
    cases atBlock
    cases Eq.trans inserts.symm links
    rfl
  subst same
  exact ⟨left', yields, relocates, moves, removed.trans inserted⟩

theorem filter_erase {members refs : List Ref} (distinct : members.Nodup) :
    (members.erase ref).filter (· ∉ refs) = members.filter (· ∉ ref :: refs) := by
  rw [distinct.erase_eq_filter, List.filter_filter]
  refine List.filter_congr fun other _ => ?_
  by_cases same : other = ref <;> simp [same]

/-- Instructions were taken out of the lists of blocks, and put into one list in their order. -/
structure Gathers (store : Store) (refs : List Ref) (block : Ref) (front back : List Ref)
    (left : Store) : Prop where
  coherent : left.Coherent
  rearranges : store.Rearranges left
  gathered : left.instructions block = front ++ refs ++ back.filter (· ∉ refs)
  elsewhere : ∀ other, other ≠ block →
    left.instructions other = (store.instructions other).filter (· ∉ refs)

theorem Gathers.nil (coherent : store.Coherent) (split : store.instructions block = front ++ back) :
    store.Gathers [] block front back store where
  coherent := coherent
  rearranges := .refl store
  gathered := by simpa using split
  elsewhere other _ := by simp

/-- The first instruction is put behind the front, and the others behind the first one. -/
theorem Gathers.cons
    {between : Store}
    {refs : List Ref}
    (coherent : store.Coherent)
    (split : store.instructions block = front ++ back)
    (moves : store.Moves ref block front (back.erase ref) between)
    (rearranges : store.Rearranges between)
    (rest : between.Gathers refs block (front ++ [ref]) (back.erase ref) left) :
    store.Gathers (ref :: refs) block front back left where
  coherent := rest.coherent
  rearranges := rearranges.trans rest.rearranges
  gathered := by
    have distinct : back.Nodup :=
      (List.nodup_append.1 (split ▸ coherent.membersDistinct block)).2.1
    rw [rest.gathered, filter_erase distinct]
    simp
  elsewhere other different := by
    rw [rest.elsewhere other different, moves.elsewhere other different,
      filter_erase (coherent.membersDistinct other)]

/-- Linked instructions without operands can be moved behind the front of a block. -/
theorem Coherent.exists_yields_moveAll_gathers
    {refs : List Ref}
    (coherent : store.Coherent)
    (isBlock : store.isBlock block = true)
    (distinct : refs.Nodup)
    (linked : ∀ ref ∈ refs,
      (store.blockOf? ref).isSome ∧ store.moduleOf? ref = store.moduleOf? block)
    (plain : ∀ ref ∈ refs, store.operands ref = [])
    (split : store.instructions block = front ++ back)
    (outside : ∀ ref ∈ refs, ref ∉ front) :
    ∃ moved left, Build.Yields (Pass.moveAll refs) ⟨some block, front.getLast?⟩ store
      () moved left ∧
      store.Gathers refs block front back left := by
  -- The front grows by the instruction that was moved, and that is where the cursor is.
  induction refs generalizing front back store with
  | nil => exact ⟨_, store, yields_pure_iff.2 ⟨rfl, rfl, rfl⟩, .nil coherent split⟩
  | cons first rest induction =>
      obtain ⟨fresh, distinct⟩ := List.nodup_cons.1 distinct
      obtain ⟨⟨isLinked, pool⟩, linked⟩ := List.forall_mem_cons.1 linked
      obtain ⟨plainFirst, plain⟩ := List.forall_mem_cons.1 plain
      obtain ⟨outsideFirst, outside⟩ := List.forall_mem_cons.1 outside
      obtain ⟨home, isLinked⟩ := Option.isSome_iff_exists.1 isLinked
      have split' : (store.instructions block).erase first = front ++ back.erase first := by
        rw [split, List.erase_append_right _ outsideFirst]
      obtain ⟨between, moves, relocates, places, rearranges⟩ :=
        coherent.exists_yields_move_rearranges isLinked isBlock pool plainFirst split'
      have linked' : ∀ ref ∈ rest,
          (between.blockOf? ref).isSome ∧ between.moduleOf? ref = between.moduleOf? block := by
        intro ref member
        have different : ref ≠ first := fun same => fresh (same ▸ member)
        rw [places.others ref different, relocates.pools, relocates.pools]
        exact linked ref member
      have plain' : ∀ ref ∈ rest, between.operands ref = [] := fun ref member =>
        (rearranges.operands ref).trans (plain ref member)
      have outside' : ∀ ref ∈ rest, ref ∉ front ++ [first] := by
        intro ref member inFront
        obtain inFront | same := List.mem_append.1 inFront
        · exact outside ref member inFront
        · exact fresh (List.mem_singleton.1 same ▸ member)
      have placed : between.instructions block = (front ++ [first]) ++ back.erase first := by
        rw [places.placed, List.append_assoc, List.singleton_append]
      obtain ⟨moved, left, others, gathers⟩ := induction relocates.coherent
        ((relocates.blocks block).trans isBlock) distinct linked' plain' placed outside'
      rw [List.getLast?_concat] at others
      exact ⟨moved, left, yields_bind_iff.2 ⟨(), _, between, moves, others⟩,
        .cons coherent split places rearranges gathers⟩

end Moving

/-! ## Hoisting -/

section Hoisting

variable {function body : Ref}

/--
Hoisting leaves the body with its phis in front, then the variables of the function in the
order of a traversal, then its other instructions.  Other blocks that control reaches lose
their variables, blocks that it does not reach stay as they are, and so does everything
else, operands and uses included.
-/
structure Hoists (store : Store) (function body : Ref) (left : Store) : Prop where
  coherent : left.Coherent
  rearranges : store.Rearranges left
  operands : ∀ ref, left.operands ref = store.operands ref
  uses : ∀ ref, left.usesOf ref = store.usesOf ref
  entry : left.instructions body =
    store.phis body ++ (store.traverse function).filter store.isVariable ++
      (store.afterPhis body).filter (!store.isVariable ·)
  reached : ∀ block, store.Reached function block → block ≠ body →
    left.instructions block = (store.instructions block).filter (!store.isVariable ·)
  unreached : ∀ block, ¬store.Reached function block →
    left.instructions block = store.instructions block

theorem afterPhis_subset : store.afterPhis block ⊆ store.instructions block :=
  (List.dropWhile_suffix _).subset

/-- Among the instructions of a reached block, the variables are those of the function. -/
theorem Coherent.filter_variables
    (coherent : store.Coherent)
    (reached : store.Reached function block)
    {refs : List Ref}
    (among : refs ⊆ store.instructions block) :
    refs.filter (· ∉ (store.traverse function).filter store.isVariable) =
      refs.filter (!store.isVariable ·) := by
  refine List.filter_congr fun ref member => ?_
  have traversed : ref ∈ store.traverse function :=
    coherent.mem_traverse_iff.2 ⟨block, reached, among member⟩
  cases known : store.isVariable ref <;> simp [traversed, known]

/-- A block that control does not reach has none of the variables of the function. -/
theorem Coherent.filter_unreached
    (coherent : store.Coherent)
    (unreached : ¬store.Reached function block) :
    (store.instructions block).filter (· ∉ (store.traverse function).filter store.isVariable) =
      store.instructions block := by
  refine List.filter_eq_self.2 fun ref member => decide_eq_true fun hoisted => unreached ?_
  obtain ⟨home, reached, inside⟩ := coherent.mem_traverse_iff.1 (List.mem_of_mem_filter hoisted)
  rw [coherent.mem_members] at member inside
  cases member.symm.trans inside
  exact reached

theorem Gathers.hoists
    (coherent : store.Coherent)
    (hasBody : store.body? function = some body)
    (gathers : store.Gathers ((store.traverse function).filter store.isVariable) body
      (store.phis body) (store.afterPhis body) left) :
    store.Hoists function body left where
  coherent := gathers.coherent
  rearranges := gathers.rearranges
  operands := gathers.rearranges.operands
  uses := gathers.rearranges.usesOf
  entry := by
    rw [gathers.gathered, coherent.filter_variables (reached_body hasBody) afterPhis_subset]
  reached block reached different := by
    rw [gathers.elsewhere block different, coherent.filter_variables reached fun _ => id]
  unreached block unreached := by
    have different : block ≠ body := fun same => unreached (same ▸ reached_body hasBody)
    rw [gathers.elsewhere block different, coherent.filter_unreached unreached]

/-- Where variables have no operands, hoisting them only rearranges the blocks. -/
theorem Coherent.exists_hoists
    (coherent : store.Coherent)
    (hasBody : store.body? function = some body)
    (plain : ∀ ref ∈ (store.traverse function).filter store.isVariable, store.operands ref = []) :
    ∃ left, Gives (Pass.hoistVariables function) store
        ((store.traverse function).filter store.isVariable).length left ∧
      store.Hoists function body left := by
  have split : store.instructions body = store.phis body ++ store.afterPhis body :=
    List.takeWhile_append_dropWhile.symm
  obtain ⟨moved, left, moves, gathers⟩ := coherent.exists_yields_moveAll_gathers
    (Pass.isBlock_of_body? coherent hasBody) ((coherent.nodup_traverse function).filter _)
    (Pass.linked_of_mem_variables coherent hasBody) plain split Pass.not_mem_phis_of_mem_variables
  by_cases none : (store.traverse function).filter store.isVariable = []
  · rw [none] at moves ⊢
    obtain ⟨-, -, rfl⟩ := yields_pure_iff.1 moves
    exact ⟨left, Pass.gives_hoistVariables_of_none none, gathers.hoists coherent hasBody⟩
  · exact ⟨left, Pass.gives_hoistVariables_of_moves coherent hasBody none moves,
      gathers.hoists coherent hasBody⟩

/-! ## Hoisting again -/

/-- No variable stands behind a terminator in a block that control reaches. -/
def VariablesPrecedeEnds (store : Store) (function : Ref) : Prop :=
  ∀ block, store.Reached function block →
    ∀ ref ∈ (store.instructions block).dropWhile (!store.isTerminator ·),
      store.isVariable ref = false

/-- What stands behind a terminator stands behind the first one. -/
theorem mem_dropWhile_isTerminator
    {front back : List Ref}
    {terminator : Ref}
    (isTerminator : store.isTerminator terminator = true) :
    ∀ ref ∈ back, ref ∈ (front ++ terminator :: back).dropWhile (!store.isTerminator ·) := by
  intro ref member
  induction front with
  | nil => simp [isTerminator, member]
  | cons first front induction =>
      rw [List.cons_append, List.dropWhile_cons]
      split
      · exact induction
      · simp [member]

theorem not_isVariable_of_isTerminator (isTerminator : store.isTerminator ref = true) :
    store.isVariable ref = false := by
  unfold Store.isVariable
  unfold Store.isTerminator at isTerminator
  cases found : store.opcode? ref with
  | none => rfl
  | some opcode =>
      rw [found] at isTerminator
      cases opcode <;> first | rfl | cases isTerminator

/-- A terminator that is the last instruction but for variables is the last one. -/
theorem VariablesPrecedeEnds.getLast?_eq
    (precede : store.VariablesPrecedeEnds function)
    (reached : store.Reached function block)
    {front back : List Ref}
    {terminator : Ref}
    (split : store.instructions block = front ++ back)
    (isTerminator : store.isTerminator terminator = true)
    (last : (back.filter (!store.isVariable ·)).getLast? = some terminator) :
    (store.instructions block).getLast? = some terminator := by
  obtain ⟨others, filtered⟩ := List.getLast?_eq_some_iff.1 last
  obtain ⟨before, rest, rfl, -, filtered⟩ := List.filter_eq_append_iff.1 filtered
  obtain ⟨between, behind, rfl, -, -, none⟩ := List.filter_eq_cons_iff.1 filtered
  have parts : store.instructions block =
      (front ++ (before ++ between)) ++ terminator :: behind := by
    rw [split]
    simp
  have empty : behind = [] := by
    refine List.eq_nil_iff_forall_not_mem.2 fun ref member => ?_
    have noVariable := precede block reached ref
      (parts ▸ mem_dropWhile_isTerminator isTerminator ref member)
    exact List.filter_eq_nil_iff.1 none ref member (by rw [noVariable]; rfl)
  rw [parts, empty]
  simp

namespace Hoists

variable (coherent : store.Coherent) (hasBody : store.body? function = some body)
  (hoists : store.Hoists function body left)

include hoists

/-- The terminators of the blocks that control reaches stay what they are. -/
theorem terminator?
    (precede : store.VariablesPrecedeEnds function)
    (reached : store.Reached function block)
    {terminator : Ref}
    (ends : left.terminator? block = some terminator) :
    store.terminator? block = some terminator := by
  obtain ⟨last, isTerminator⟩ := Option.filter_eq_some_iff.1 ends
  rw [hoists.rearranges.isTerminator] at isTerminator
  refine Option.filter_eq_some_iff.2 ⟨?_, isTerminator⟩
  by_cases same : block = body
  · subst same
    have split : store.instructions block = store.phis block ++ store.afterPhis block :=
      List.takeWhile_append_dropWhile.symm
    rw [hoists.entry, List.getLast?_append] at last
    cases found : ((store.afterPhis block).filter (!store.isVariable ·)).getLast? with
    | some other =>
        rw [found, Option.some_or] at last
        cases last
        exact precede.getLast?_eq reached split isTerminator found
    | none =>
        -- The last instruction is a phi or a variable then, and those are no terminators.
        rw [found, Option.none_or] at last
        obtain isPhi | isVariable := List.mem_append.1 (List.mem_of_getLast? last)
        · have isPhi := List.mem_takeWhile_imp isPhi
          cases isTerminator.symm.trans (isTerminator_of_isPhi isPhi)
        · have isVariable := List.of_mem_filter isVariable
          cases isVariable.symm.trans (not_isVariable_of_isTerminator isTerminator)
  · rw [hoists.reached block reached same] at last
    exact precede.getLast?_eq reached (List.nil_append _).symm isTerminator last

theorem successors_subset
    (precede : store.VariablesPrecedeEnds function)
    (reached : store.Reached function block) :
    left.successors block ⊆ store.successors block := by
  intro target member
  unfold Store.successors at member ⊢
  cases ends : left.terminator? block with
  | none =>
      rw [ends] at member
      cases member
  | some terminator =>
      have blocks : left.isBlock = store.isBlock := funext hoists.rearranges.isBlock
      have asBlock : left.asBlock = store.asBlock := by
        funext operand
        rw [Store.asBlock, Store.asBlock, blocks]
      rw [ends] at member
      rw [hoists.terminator? precede reached ends]
      simpa only [hoists.rearranges.operands, asBlock] using member

/-- Control reaches no block that it did not reach before. -/
theorem reached_of_reached
    (precede : store.VariablesPrecedeEnds function)
    (reached : left.Reached function block) : store.Reached function block := by
  obtain ⟨body', hasBody, reaches⟩ := reached
  rw [hoists.rearranges.body?] at hasBody
  induction reaches with
  | refl => exact reached_body hasBody
  | tail _ edge reached =>
      obtain ⟨body'', hasBody', reaches⟩ := reached
      exact ⟨body'', hasBody', reaches.tail (hoists.successors_subset precede
        ⟨body'', hasBody', reaches⟩ edge)⟩

/-- Afterwards a traversal meets the same variables in the same order, in the body. -/
theorem variables_eq
    (hasBody : store.body? function = some body)
    (precede : store.VariablesPrecedeEnds function) :
    (left.traverse function).filter left.isVariable =
      (store.traverse function).filter store.isVariable := by
  have hasBody' : left.body? function = some body :=
    (hoists.rearranges.body? function).trans hasBody
  have first := (sourced_reversePostOrder hoists.coherent hasBody').getElem?_reverse_zero
  have distinct := nodup_reversePostOrder hoists.coherent function
  rw [List.reverse_reverse] at first
  have others : ∀ block ∈ left.reversePostOrder function, block ≠ body →
      (left.instructions block).filter store.isVariable = [] := by
    intro block member different
    have reached := hoists.reached_of_reached precede
      (reaches_of_mem_reversePostOrder member)
    rw [hoists.reached block reached different, List.filter_eq_nil_iff]
    intro ref kept isVariable
    simp [isVariable] at kept
  rw [show left.isVariable = store.isVariable from funext hoists.rearranges.isVariable, traverse]
  cases order : left.reversePostOrder function with
  | nil =>
      rw [order] at first
      cases first
  | cons head rest =>
      rw [order] at first distinct others
      cases first
      have none : (rest.flatMap left.instructions).filter store.isVariable = [] := by
        rw [List.filter_flatMap]
        refine List.flatMap_eq_nil_iff.2 fun block member => ?_
        refine others block (List.mem_cons_of_mem _ member) ?_
        rintro rfl
        exact (List.nodup_cons.1 distinct).1 member
      have phis : (store.phis body).filter store.isVariable = [] :=
        List.filter_eq_nil_iff.2 fun ref member => by
          rw [Pass.not_isVariable_of_isPhi (List.mem_takeWhile_imp member)]
          exact Bool.false_ne_true
      rw [List.flatMap_cons, List.filter_append, none, hoists.entry, List.filter_append,
        List.filter_append, phis]
      simp [List.filter_filter]

/-- The variables, where there are some, stand behind the phis that were there before. -/
theorem phis_eq (some : (store.traverse function).filter store.isVariable ≠ []) :
    left.phis body = store.phis body ∧ left.afterPhis body =
      (store.traverse function).filter store.isVariable ++
        (store.afterPhis body).filter (!store.isVariable ·) := by
  obtain ⟨first, rest, order⟩ := List.exists_cons_of_ne_nil some
  have isVariable : store.isVariable first = true :=
    List.of_mem_filter (order ▸ List.mem_cons_self)
  have noPhi : store.isPhi first = false := by
    by_contra isPhi
    have isPhi := Bool.of_not_eq_false isPhi
    cases isVariable.symm.trans (Pass.not_isVariable_of_isPhi isPhi)
  have isPhi : left.isPhi = store.isPhi := funext hoists.rearranges.isPhi
  have phis : ∀ ref ∈ store.phis body, store.isPhi ref = true :=
    fun ref member => List.mem_takeWhile_imp member
  rw [Store.phis, Store.afterPhis, hoists.entry, isPhi, order, List.append_assoc,
    List.takeWhile_append_of_pos phis, List.dropWhile_append_of_pos phis]
  simp [noPhi]

/-- Hoisting again finds the same variables where they are. -/
theorem gives_again
    (hasBody : store.body? function = some body)
    (precede : store.VariablesPrecedeEnds function)
    (plain : ∀ ref ∈ (store.traverse function).filter store.isVariable, store.operands ref = []) :
    Gives (Pass.hoistVariables function) left
      ((store.traverse function).filter store.isVariable).length left := by
  have hasBody' : left.body? function = some body :=
    (hoists.rearranges.body? function).trans hasBody
  have variables_eq := hoists.variables_eq hasBody precede
  have isVariable : left.isVariable = store.isVariable := funext hoists.rearranges.isVariable
  by_cases none : (store.traverse function).filter store.isVariable = []
  · rw [none]
    exact Pass.gives_hoistVariables_of_none (variables_eq.trans none)
  · obtain ⟨again, gives, hoists'⟩ := hoists.coherent.exists_hoists hasBody' fun ref member =>
      (hoists.operands ref).trans (plain ref (variables_eq ▸ member))
    rw [variables_eq] at gives
    obtain ⟨phis, afterPhis⟩ := hoists.phis_eq none
    have lists : ∀ block, again.instructions block = left.instructions block := by
      intro block
      by_cases reached : left.Reached function block
      · by_cases same : block = body
        · subst same
          rw [hoists'.entry, variables_eq, phis, afterPhis, isVariable, hoists.entry,
            List.filter_append]
          simp [List.filter_filter]
        · rw [hoists'.reached block reached same, isVariable,
            hoists.reached block (hoists.reached_of_reached precede reached) same,
            List.filter_filter]
          simp
      · exact hoists'.unreached block reached
    rwa [hoists'.rearranges.eq_of_lists hoists.coherent hoists'.coherent lists] at gives

end Hoists

theorem Furnished.operands_of_isVariable
    (furnished : store.Furnished)
    {ref : Ref}
    (isVariable : store.isVariable ref = true) :
    store.operands ref = [] := by
  obtain ⟨space, isAlloca⟩ := isVariable_iff.1 isVariable
  obtain ⟨entry, found, opcode⟩ := Option.map_eq_some_iff.1 isAlloca
  exact (operands_eq_nil_iff found).2 ((furnished found).2 space opcode)

end Hoisting

end Store

namespace Session

/--
Hoisting the variables of a function with a body is never refused.  It answers how many
there are in the blocks that control reaches, and puts them behind the phis of the body.
Hoisting again changes nothing, if no variable stood behind a terminator.
-/
theorem hoistVariables_hoists
    {operations : List Operation}
    {function body : Ref}
    (hasBody : (after operations).store.body? function = some body) :
    ∃ hoisted left,
      hoisted = ((after operations).store.traverse function).filter
        (after operations).store.isVariable ∧
      Gives (Pass.hoistVariables function) (after operations).store hoisted.length left ∧
      (after operations).store.Hoists function body left ∧
      ((after operations).store.VariablesPrecedeEnds function →
        Gives (Pass.hoistVariables function) left hoisted.length left) := by
  have coherent := (after_coherent operations).store
  have plain : ∀ ref ∈ ((after operations).store.traverse function).filter
      (after operations).store.isVariable, (after operations).store.operands ref = [] :=
    fun _ member => (after_furnished operations).operands_of_isVariable (List.mem_filter.1 member).2
  obtain ⟨left, gives, hoists⟩ := coherent.exists_hoists hasBody plain
  exact ⟨_, left, rfl, gives, hoists, fun precede => hoists.gives_again hasBody precede plain⟩

/-- The body has a variable between other instructions, and so have two more blocks. -/
def mixed : List Operation :=
  [.edit (.addModule "mixed"),
    .edit (.createFunction 0 .kernel none),
    .edit (.createBody ⟨0⟩),
    .edit (.createBlock ⟨0⟩),
    .edit (.createBlock ⟨0⟩),
    .edit (.constantInt32 0 1),
    .moveToEnd ⟨1⟩, .phi (some (.scalar ⟨0, 0, "i32"⟩ (.signed 4))) [], .clock,
    .alloca (some (.scalar ⟨0, 0, "i32"⟩ (.signed 4))) .local,
    .emit .branch none [some ⟨2⟩] (.refl true),
    .moveToEnd ⟨2⟩, .alloca (some (.scalar ⟨0, 0, "i32"⟩ (.signed 4))) .local,
    .store (some ⟨9⟩) (some ⟨4⟩),
    .emit .ret none [] (.refl true),
    .moveToEnd ⟨3⟩, .alloca (some (.scalar ⟨0, 0, "i32"⟩ (.signed 4))) .local,
    .emit .ret none [] (.refl true)]

theorem hoistVariables_hoists_mixed :
    ∃ left, Gives (Pass.hoistVariables ⟨0⟩) (after mixed).store 2 left ∧
      Gives (Pass.hoistVariables ⟨0⟩) left 2 left ∧
      left.instructions ⟨1⟩ = [⟨5⟩, ⟨7⟩, ⟨9⟩, ⟨6⟩, ⟨8⟩] ∧
      left.instructions ⟨2⟩ = [⟨10⟩, ⟨11⟩] ∧ left.instructions ⟨3⟩ = [⟨12⟩, ⟨13⟩] := by
  have coherent : (after mixed).store.Coherent := (after_coherent mixed).store
  have hasBody : (after mixed).store.body? ⟨0⟩ = some ⟨1⟩ := by decide +kernel
  have order : (after mixed).store.reversePostOrder ⟨0⟩ = [⟨1⟩, ⟨2⟩] := by decide +kernel
  have reached : ∀ block, (after mixed).store.Reached ⟨0⟩ block ↔ block ∈ [⟨1⟩, ⟨2⟩] :=
    fun block => order ▸ (mem_reversePostOrder_iff_reached coherent).symm
  have precede : (after mixed).store.VariablesPrecedeEnds ⟨0⟩ := fun block isReached =>
    (by decide +kernel : ∀ block ∈ [⟨1⟩, ⟨2⟩],
      ∀ ref ∈ ((after mixed).store.instructions block).dropWhile
        (!(after mixed).store.isTerminator ·),
        (after mixed).store.isVariable ref = false) block ((reached block).1 isReached)
  obtain ⟨hoisted, left, same, gives, hoists, again⟩ := hoistVariables_hoists hasBody
  have two : hoisted.length = 2 := by
    rw [same]
    decide +kernel
  rw [two] at gives again
  refine ⟨left, gives, again precede, hoists.entry.trans (by decide +kernel),
    (hoists.reached ⟨2⟩ ((reached ⟨2⟩).2 (by simp)) (by decide)).trans (by decide +kernel),
    (hoists.unreached ⟨3⟩ ?_).trans (by decide +kernel)⟩
  rw [reached]
  decide

end Session

/-- A variable stands behind a branch, which ends the block only once the variable is gone. -/
def concealing : Store :=
  let number : Ty := .scalar ⟨0, 0, "i32"⟩ (.signed 4)
  (Session.after [
    .edit (.addModule "concealing"),
    .edit (.createFunction 0 .kernel none),
    .edit (.createBody ⟨0⟩),
    .edit (.createBlock ⟨0⟩),
    .edit (.constantInt32 0 1),
    .moveToEnd ⟨1⟩, .emit .branch none [some ⟨2⟩] (.refl true),
    .alloca (some number) .local,
    .moveToEnd ⟨2⟩, .alloca (some number) .local,
    .emit .ret none [] (.refl true)]).store

/-- Hoisting again finds the variable of the block that the branch leads to. -/
theorem Store.hoistVariables_concealing :
    ∃ left again, Gives (Pass.hoistVariables ⟨0⟩) concealing 1 left ∧
      Gives (Pass.hoistVariables ⟨0⟩) left 2 again ∧
      left.instructions ⟨2⟩ = [⟨6⟩, ⟨7⟩] ∧ again.instructions ⟨2⟩ = [⟨7⟩] := by
  have gives {store : Store} {count : Nat}
      (answers : (Edit.outcome (Pass.hoistVariables ⟨0⟩) store).1 = .ok count) :
      Gives (Pass.hoistVariables ⟨0⟩) store count
        (Edit.outcome (Pass.hoistVariables ⟨0⟩) store).2 :=
    Prod.ext answers rfl
  exact ⟨_, _, gives (by decide +kernel), gives (by decide +kernel), by decide +kernel,
    by decide +kernel⟩

end ShaderIR
