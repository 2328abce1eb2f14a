import ShaderIR.Proofs.Dominance.Positions
import ShaderIR.Proofs.Revision.Trimming

/-!
# Trimming narrows control flow

While memory accesses of a function are simplified, control moves in it only where
it did before, and terminators stay at the end of their blocks.  So blocks that
dominated another one still do.

What is written to memory matters where a read is replaced by the value written: a
read that a reached write stores has to be in a block that dominates the write.
-/

namespace ShaderIR

namespace Store

/-- Reads that are written by reached stores are in blocks that dominate those of the stores. -/
def Supplied (origin : Store) (function : Ref) (store : Store) : Prop :=
  ∀ {ref source load home}, store.opcode? ref = some .store → store.blockOf? ref = some source →
    origin.Reached function source → (store.operands ref)[1]? = some (some load) →
    store.opcode? load = some .load → store.blockOf? load = some home →
    origin.Dominates function home source

/--
Trimming has left the blocks that control reached in a function with no further
targets and with terminators at their ends only.
-/
structure Narrows (origin : Store) (function : Ref) (store : Store) : Prop where
  trims : origin.Trims store
  targets : ∀ {ref source target}, store.isTerminator ref = true →
    store.blockOf? ref = some source → origin.Reached function source →
    some target ∈ store.operands ref → store.isBlock target = true →
    target ∈ origin.successors source
  ended : ∀ {block}, origin.Reached function block →
    (store.instructions block).Pairwise fun ref _ => store.isTerminator ref = false
  supplied : origin.Supplied function origin → origin.Supplied function store

theorem pairwise_iff_dropLast {holds : Ref → Prop} {refs : List Ref} :
    (refs.Pairwise fun ref _ => holds ref) ↔ ∀ ref ∈ refs.dropLast, holds ref := by
  rcases List.eq_nil_or_concat refs with rfl | ⟨front, last, rfl⟩
  · simp
  · rw [List.concat_eq_append, List.dropLast_concat, List.pairwise_append]
    constructor
    · rintro ⟨-, -, before⟩ ref member
      exact before ref member last (List.mem_singleton_self last)
    · intro before
      exact ⟨List.pairwise_of_forall_mem_list fun ref member _ _ => before ref member,
        List.pairwise_singleton _ _, fun ref member _ _ => before ref member⟩

theorem pairwise_insertAfter
    {holds : Ref → Prop}
    {position new : Ref}
    {refs : List Ref}
    (front : refs.Pairwise fun ref _ => holds ref)
    (atPosition : holds position)
    (atNew : holds new) :
    (insertAfter position new refs).Pairwise fun ref _ => holds ref := by
  induction refs with
  | nil => exact .nil
  | cons first rest induction =>
      obtain ⟨here, later⟩ := List.pairwise_cons.1 front
      unfold insertAfter
      split
      · rename_i same
        subst same
        exact .cons (fun _ _ => atPosition) (.cons (fun _ _ => atNew) later)
      · refine .cons (fun ref member => ?_) (induction later)
        cases rest with
        | nil => cases member
        | cons second _ => exact here second List.mem_cons_self

theorem some_mem_map_replaced {old new target : Ref} {operands : List (Option Ref)} :
    some target ∈ operands.map (replaced old new) ↔
      (some target ∈ operands ∧ target ≠ old) ∨ (some old ∈ operands ∧ target = new) := by
  simp only [List.mem_map, replaced]
  constructor
  · rintro ⟨operand, member, equal⟩
    split at equal
    · rename_i same
      cases equal
      exact .inr ⟨same ▸ member, rfl⟩
    · rename_i different
      subst equal
      exact .inl ⟨member, fun same => different (congrArg some same)⟩
  · rintro (⟨member, different⟩ | ⟨member, rfl⟩)
    · exact ⟨some target, member, by simp [different]⟩
    · exact ⟨some old, member, by simp⟩

variable {origin store left : Store} {function block source target dominator : Ref}

namespace Narrows

theorem refl (coherent : store.Coherent) (confined : store.Confined function) :
    store.Narrows function store where
  trims := .refl coherent
  targets := by
    intro ref source target isTerminator linked reached operand isBlock
    have member := (coherent.mem_members source ref).2 linked
    exact mem_successors_iff.2
      ⟨ref, confined.terminator?_of_mem reached member isTerminator, operand, isBlock⟩
  ended := fun reached => pairwise_iff_dropLast.2 (confined.ended _ reached)
  supplied := id

variable (narrows : origin.Narrows function store)

include narrows

theorem mem_successors
    (reached : origin.Reached function source)
    (edge : target ∈ store.successors source) :
    target ∈ origin.successors source := by
  obtain ⟨terminator, last, operand, isBlock⟩ := mem_successors_iff.1 edge
  have linked := (narrows.trims.coherent.mem_members source terminator).1
    (mem_instructions_of_terminator? last)
  exact narrows.targets (terminator?_eq_some_iff.1 last).2 linked reached operand isBlock

theorem reached (reached : store.Reached function block) : origin.Reached function block := by
  obtain ⟨body, hasBody, reaches⟩ := reached
  rw [narrows.trims.ages.body?] at hasBody
  induction reaches with
  | refl => exact ⟨body, hasBody, .refl⟩
  | tail _ edge induction => exact induction.tail (narrows.mem_successors induction edge)

theorem dominates (dominates : origin.Dominates function dominator block) :
    store.Dominates function dominator block := by
  rw [dominates_iff_not_bypasses] at dominates ⊢
  intro body hasBody different bypasses
  have hasBody' := hasBody
  rw [narrows.trims.ages.body?] at hasBody'
  refine dominates body hasBody' different ?_
  clear dominates
  induction bypasses with
  | refl => exact .refl
  | tail path step induction =>
      have reached := narrows.reached ⟨body, hasBody, Bypasses.reaches path⟩
      exact induction.tail ⟨narrows.mem_successors reached step.1, step.2⟩

theorem confined (confined : origin.Confined function) : store.Confined function where
  owned := by
    intro block reached
    rw [narrows.trims.ages.blockFunction?]
    exact confined.owned block (narrows.reached reached)
  ended := fun block reached => pairwise_iff_dropLast.1 (narrows.ended (narrows.reached reached))

theorem supplied_self (supplied : origin.Supplied function origin) :
    store.Supplied function store := by
  intro ref source load home isStore linked reached stored isLoad loadLinked
  exact narrows.dominates
    (narrows.supplied supplied isStore linked (narrows.reached reached) stored isLoad loadLinked)

/-! ## One step -/

/-- A step that gives terminators no further targets and keeps them at the end. -/
theorem step
    (trims : store.Trims left)
    (targets : ∀ {ref target}, store.isTerminator ref = true → (store.blockOf? ref).isSome →
      some target ∈ left.operands ref → store.isBlock target = true →
      some target ∈ store.operands ref)
    (ended : ∀ {block}, origin.Reached function block →
      (store.instructions block).Pairwise (fun ref _ => store.isTerminator ref = false) →
      (left.instructions block).Pairwise fun ref _ => store.isTerminator ref = false)
    (supplied : origin.Supplied function store → origin.Supplied function left) :
    origin.Narrows function left where
  trims := narrows.trims.trans trims
  targets := by
    intro ref source target isTerminator linked reached operand isBlock
    obtain ⟨present, isTerminator⟩ := trims.of_isTerminator isTerminator
    rw [trims.ages.isBlock] at isBlock
    have linked := trims.linked present linked
    have operand := targets isTerminator (Option.isSome_of_eq_some linked) operand isBlock
    exact narrows.targets isTerminator linked reached operand isBlock
  ended := fun reached => (ended reached (narrows.ended reached)).imp trims.not_isTerminator
  supplied := fun holds => supplied (narrows.supplied holds)

theorem repoints
    {change : Ref → List (Option Ref) → List (Option Ref)}
    (repoints : store.Repoints change left)
    (targets : ∀ {ref target}, store.isTerminator ref = true → (store.blockOf? ref).isSome →
      some target ∈ change ref (store.operands ref) → store.isBlock target = true →
      some target ∈ store.operands ref)
    (stored : ∀ {ref source load home}, store.opcode? ref = some .store →
      store.blockOf? ref = some source → origin.Reached function source →
      (change ref (store.operands ref))[1]? = some (some load) →
      store.opcode? load = some .load → store.blockOf? load = some home →
      (store.operands ref)[1]? = some (some load) ∨ origin.Dominates function home source) :
    origin.Narrows function left := by
  have trims := repoints.trims
  refine narrows.step trims ?_ ?_ ?_
  · intro ref target isTerminator linked operand isBlock
    rw [repoints.operands] at operand
    exact targets isTerminator linked operand isBlock
  · intro block _ ended
    rwa [repoints.instructions]
  · intro supplied ref source load home isStore linked reached held isLoad loadLinked
    rw [repoints.blockOf?] at linked loadLinked
    rw [repoints.operands] at held
    have isStore := trims.opcode?_old
      (value?_isSome_of_blockOf? (Option.isSome_of_eq_some linked)) isStore rfl
    have isLoad := trims.opcode?_old
      (value?_isSome_of_blockOf? (Option.isSome_of_eq_some loadLinked)) isLoad rfl
    rcases stored isStore linked reached held isLoad loadLinked with held | dominates
    · exact supplied isStore linked reached held isLoad loadLinked
    · exact dominates

/-- Operands that are unchanged where it matters. -/
theorem repoints_apart
    {change : Ref → List (Option Ref) → List (Option Ref)}
    (repoints : store.Repoints change left)
    (same : ∀ {ref}, store.isTerminator ref = true ∨ store.opcode? ref = some .store →
      change ref (store.operands ref) = store.operands ref) :
    origin.Narrows function left := by
  refine narrows.repoints repoints ?_ ?_
  · intro ref target isTerminator _ operand _
    rwa [same (.inl isTerminator)] at operand
  · intro ref source load home isStore _ _ held _ _
    rw [same (.inr isStore)] at held
    exact .inl held

/-- A value replaced by another one that is no block and, if it is a read, was made in time. -/
theorem replaces
    {old new : Ref}
    (replaces : store.Repoints
      (fun ref operands =>
        if (store.blockOf? ref).isSome then operands.map (replaced old new) else operands) left)
    (notBlock : store.isBlock new = false)
    (stored : ∀ {ref source home}, store.opcode? ref = some .store →
      store.blockOf? ref = some source → origin.Reached function source →
      (store.operands ref)[1]? = some (some old) →
      store.opcode? new = some .load → store.blockOf? new = some home →
      origin.Dominates function home source) :
    origin.Narrows function left := by
  refine narrows.repoints replaces ?_ ?_
  · intro ref target _ linked operand isBlock
    rw [if_pos linked, some_mem_map_replaced] at operand
    rcases operand with ⟨operand, -⟩ | ⟨-, rfl⟩
    · exact operand
    · rw [notBlock] at isBlock
      cases isBlock
  · intro ref source load home isStore linked reached held isLoad loadLinked
    rw [if_pos (Option.isSome_of_eq_some linked), List.getElem?_map] at held
    obtain ⟨operand, held, equal⟩ := Option.map_eq_some_iff.1 held
    unfold replaced at equal
    split at equal
    · rename_i isOld
      cases equal
      subst isOld
      exact .inr (stored isStore linked reached held isLoad loadLinked)
    · exact .inl (equal ▸ held)

theorem takes {gone : List Ref} (takes : store.Takes gone left) (trims : store.Trims left) :
    origin.Narrows function left := by
  refine narrows.step trims ?_ ?_ ?_
  · intro ref target _ _ operand _
    rwa [takes.operands] at operand
  · intro block _ ended
    rw [takes.instructions]
    exact ended.filter _
  · intro supplied ref source load home isStore linked reached held isLoad loadLinked
    rw [takes.opcode?] at isStore isLoad
    rw [takes.operands] at held
    exact supplied isStore (takes.blockOf?_eq_some_iff.1 linked).1 reached held isLoad
      (takes.blockOf?_eq_some_iff.1 loadLinked).1

/-- A new instruction put behind one that does not end the block. -/
theorem receives
    {new : Ref}
    {after : Option Ref}
    {entry : Instruction}
    (receives : store.Receives block after new entry left)
    (isBlock : store.isBlock block = true)
    (notTerminator : entry.opcode.isTerminator = false)
    (notLValue : entry.opcode.isLValue = false)
    (quiet : origin.Reached function block →
      ∀ position, after = some position → store.isTerminator position = false)
    (stored : entry.opcode = .store → ∀ load, entry.values[1]? = some (some load) →
      store.opcode? load ≠ some .load ∧ load ≠ new) :
    origin.Narrows function left := by
  have trims := receives.trims notTerminator notLValue
  refine narrows.step trims ?_ ?_ ?_
  · intro ref target isTerminator linked operand _
    obtain ⟨opcode, found, -⟩ := isTerminator_iff.1 isTerminator
    rwa [receives.operands_old (receives.ne_new (value?_isSome_of_opcode? found))] at operand
  · intro other reached ended
    have new := isTerminator_of_absent receives.fresh
    rw [receives.instructions isBlock]
    by_cases same : block = other
    · subst same
      rw [if_pos rfl]
      cases after with
      | none => exact .cons (fun _ _ => new) ended
      | some position => exact pairwise_insertAfter ended (quiet reached position rfl) new
    · rwa [if_neg same]
  · intro supplied ref source load home isStore linked reached held isLoad loadLinked
    by_cases atNew : ref = new
    · subst atNew
      rw [receives.operands_new] at held
      have writes := Option.some.inj (receives.opcode?_new.symm.trans isStore)
      obtain ⟨notLoad, different⟩ := stored writes load held
      exact absurd ((receives.opcode?_old different).symm.trans isLoad) notLoad
    · rw [receives.opcode?_old atNew] at isStore
      rw [receives.blockOf?_old atNew] at linked
      rw [receives.operands_old atNew] at held
      have different := receives.ne_new
        (narrows.trims.coherent.value?_isSome_of_operand (List.mem_of_getElem? held))
      rw [receives.opcode?_old different] at isLoad
      rw [receives.blockOf?_old different] at loadLinked
      exact supplied isStore linked reached held isLoad loadLinked

end Narrows

end Store

end ShaderIR
