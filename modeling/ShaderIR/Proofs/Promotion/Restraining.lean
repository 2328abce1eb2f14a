import ShaderIR.Proofs.Promotion.Placing

/-!
# Control moves as before

Promotion replaces values by ones that a variable can hold, which are no blocks.  So a
terminator leads to no further blocks, and as it still leads to all the blocks it led to,
control moves in a function just as it did.  The same paths lead to a block, and the same
blocks dominate it.
-/

namespace ShaderIR

open Store Edit

namespace Store

/-- Trimming has left terminators with no further blocks to lead to. -/
structure Restrains (store left : Store) : Prop where
  trims : store.Trims left
  targets : ∀ {ref target}, store.isTerminator ref = true → (left.blockOf? ref).isSome →
    store.isBlock target = true → some target ∈ left.operands ref →
    some target ∈ store.operands ref

/-- Control moves in a function as it did. -/
structure SameWays (store : Store) (function : Ref) (left : Store) : Prop where
  body? : left.body? function = store.body? function
  mem_successors_iff : ∀ {source target}, store.Reached function source →
    (target ∈ left.successors source ↔ target ∈ store.successors source)

variable {store left last : Store} {function block source target dominator : Ref}
  {phis : List Ref}

theorem Restrains.refl (coherent : store.Coherent) : store.Restrains store where
  trims := .refl coherent
  targets := fun _ _ _ operand => operand

theorem Restrains.trans (restrains : store.Restrains left) (restrains' : left.Restrains last) :
    store.Restrains last where
  trims := restrains.trims.trans restrains'.trims
  targets := by
    intro ref target isTerminator linked isBlock operand
    obtain ⟨opcode, found, -⟩ := isTerminator_iff.1 isTerminator
    have present := value?_isSome_of_opcode? found
    obtain ⟨home, atHome⟩ := Option.isSome_iff_exists.1 linked
    have linked' := restrains'.trims.linked (restrains.trims.ages.value?_isSome present) atHome
    refine restrains.targets isTerminator (Option.isSome_of_eq_some linked') isBlock
      (restrains'.targets ?_ linked ?_ operand)
    · rw [restrains.trims.isTerminator_old present, isTerminator]
    · rw [restrains.trims.ages.isBlock, isBlock]

theorem Takes.restrains
    {gone : List Ref}
    (takes : store.Takes gone left)
    (trims : store.Trims left) :
    store.Restrains left where
  trims := trims
  targets := fun _ _ _ operand => takes.operands _ ▸ operand

theorem Receives.restrains
    {after : Option Ref}
    {new : Ref}
    {entry : Instruction}
    (receives : store.Receives block after new entry left)
    (trims : store.Trims left) :
    store.Restrains left where
  trims := trims
  targets := by
    intro ref target isTerminator _ _ operand
    obtain ⟨opcode, found, -⟩ := isTerminator_iff.1 isTerminator
    rwa [receives.operands_old (receives.ne_new (value?_isSome_of_opcode? found))] at operand

/-- Control moves on only to where it moved on, from a block with terminators at its end only. -/
theorem Restrains.mem_successors
    (restrains : store.Restrains left)
    (coherent : store.Coherent)
    (ended : store.EndsLast source)
    (edge : target ∈ left.successors source) :
    target ∈ store.successors source := by
  have trims := restrains.trims
  obtain ⟨terminator, last, operand, isBlock⟩ := mem_successors_iff.1 edge
  rw [trims.ages.isBlock] at isBlock
  have atSource := (trims.coherent.mem_members source terminator).1
    (mem_instructions_of_terminator? last)
  obtain ⟨present, isTerminator⟩ := trims.of_isTerminator (terminator?_eq_some_iff.1 last).2
  have member := (coherent.mem_members source terminator).2 (trims.linked present atSource)
  exact mem_successors_iff.2 ⟨terminator,
    terminator?_of_linked (pairwise_iff_dropLast.1 ended) member isTerminator,
    restrains.targets isTerminator (Option.isSome_of_eq_some atSource) isBlock operand, isBlock⟩

/-- Terminators lead to the same blocks when they lead to no fewer and to no further ones. -/
theorem Continues.sameWays
    (continues : store.Continues phis left)
    (restrains : store.Restrains left)
    (coherent : store.Coherent)
    (confined : store.Confined function) :
    store.SameWays function left where
  body? := continues.trims.ages.body? function
  mem_successors_iff := by
    intro source target reached
    have ended : store.EndsLast source := pairwise_iff_dropLast.2 (confined.ended source reached)
    exact ⟨restrains.mem_successors coherent ended,
      continues.mem_successors coherent (continues.ended ended)⟩

/-- Narrowing that keeps terminators and their targets changes no ways. -/
theorem Narrows.sameWays
    (narrows : store.Narrows function left)
    (continues : store.Continues phis left)
    (coherent : store.Coherent)
    (confined : store.Confined function) :
    store.SameWays function left where
  body? := continues.trims.ages.body? function
  mem_successors_iff := fun {source _} reached =>
    ⟨narrows.mem_successors reached,
      continues.mem_successors coherent
        (continues.ended (pairwise_iff_dropLast.2 (confined.ended source reached)))⟩

namespace SameWays

variable (ways : store.SameWays function left)

include ways

theorem reached_iff : left.Reached function block ↔ store.Reached function block := by
  constructor
  · rintro ⟨body, hasBody, reaches⟩
    rw [ways.body?] at hasBody
    induction reaches with
    | refl => exact ⟨body, hasBody, .refl⟩
    | tail _ edge induction => exact induction.tail ((ways.mem_successors_iff induction).1 edge)
  · rintro ⟨body, hasBody, reaches⟩
    refine ⟨body, ways.body?.trans hasBody, ?_⟩
    induction reaches with
    | refl => exact .refl
    | tail before edge induction =>
        exact induction.tail ((ways.mem_successors_iff ⟨body, hasBody, before⟩).2 edge)

theorem isChain_iff {way : List Ref} (reached : store.Reached function source) :
    ((source :: way).IsChain fun source target => target ∈ left.successors source) ↔
      (source :: way).IsChain fun source target => target ∈ store.successors source := by
  induction way generalizing source with
  | nil => simp
  | cons next rest induction =>
      rw [List.isChain_cons_cons, List.isChain_cons_cons, ways.mem_successors_iff reached]
      exact and_congr_right fun edge => induction (reached.tail edge)

theorem path_iff {body : Ref} {path : List Ref} (hasBody : store.body? function = some body) :
    left.Path body block path ↔ store.Path body block path := by
  refine and_congr_right fun starts => and_congr_right fun _ => ?_
  cases path with
  | nil => cases starts
  | cons first rest =>
      obtain rfl := Option.some.inj starts
      exact ways.isChain_iff (reached_body hasBody)

theorem dominates_iff : left.Dominates function dominator block ↔
    store.Dominates function dominator block := by
  refine forall_congr' fun body => ?_
  rw [ways.body?]
  exact forall_congr' fun hasBody => forall_congr' fun path =>
    imp_congr_left (ways.path_iff hasBody)

theorem strictlyDominates_iff : left.StrictlyDominates function dominator block ↔
    store.StrictlyDominates function dominator block :=
  and_congr_right fun _ => ways.dominates_iff

theorem trans (ways' : left.SameWays function last) : store.SameWays function last where
  body? := ways'.body?.trans ways.body?
  mem_successors_iff := fun reached =>
    (ways'.mem_successors_iff (ways.reached_iff.2 reached)).trans (ways.mem_successors_iff reached)

/-- Blocks that control comes to stay where they are, with terminators at their ends only. -/
theorem confined (continues : store.Continues phis left) (confined : store.Confined function) :
    left.Confined function where
  owned := by
    intro block reached
    rw [continues.trims.ages.blockFunction?]
    exact confined.owned block (ways.reached_iff.1 reached)
  ended := fun block reached => pairwise_iff_dropLast.1 (continues.ended
    (pairwise_iff_dropLast.2 (confined.ended block (ways.reached_iff.1 reached))))

end SameWays

end Store

namespace Pass

variable {store left : Store} {old new : Ref}

theorem Substitutes.restrains
    (substitutes : Substitutes store old new left)
    (notBlock : store.isBlock new = false) :
    store.Restrains left where
  trims := substitutes.trims
  targets := by
    intro ref target _ linked isBlock operand
    rw [substitutes.operands (substitutes.linked linked), some_mem_map_replaced] at operand
    rcases operand with ⟨operand, -⟩ | ⟨-, rfl⟩
    · exact operand
    · rw [notBlock] at isBlock
      cases isBlock

/-- Only phis get further operands. -/
theorem restrains_of_extends
    {extra : Ref → List (Option Ref)}
    (repoints : store.Repoints (fun ref operands => operands ++ extra ref) left)
    (phis : ∀ {ref}, store.isPhi ref = false → extra ref = []) :
    store.Restrains left where
  trims := repoints.trims
  targets := by
    intro ref target isTerminator _ _ operand
    rw [repoints.operands, phis, List.append_nil] at operand
    · exact operand
    · rw [Bool.eq_false_iff]
      intro isPhi
      rw [isTerminator_of_isPhi isPhi] at isTerminator
      cases isTerminator

end Pass

end ShaderIR
