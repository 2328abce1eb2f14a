import ShaderIR.Proofs.Elimination.Accounting

/-!
# Accounting part by part

Each part of a round is accounted for: neutralizing blocks, tidying up, taking out what
nothing needs, erasing variables and removing phis.  A block that was cut down is only
cut down again while it has several unreachable ends.
-/

namespace ShaderIR

namespace Store

variable {store left : Store} {ref block : Ref}

/-- Neutralizing a block takes all but the unreachable ends out of it. -/
theorem Neutralizes.taken_iff
    (neutralizes : store.Neutralizes block left)
    (coherent : store.Coherent) :
    (store.blockOf? ref).isSome ∧ left.blockOf? ref = none ↔
      ref ∈ (store.instructions block).filter fun ref => !store.isDeadEnd ref := by
  rw [List.mem_filter, coherent.mem_members, Bool.not_eq_true']
  constructor
  · rintro ⟨linked, unlinked⟩
    have changed : left.instruction? ref ≠ store.instruction? ref := by
      intro same
      rw [Store.blockOf?, same] at unlinked
      simp [Store.blockOf?, unlinked] at linked
    have present := value?_isSome_of_blockOf? linked
    exact ⟨not_not.1 fun outside => changed (neutralizes.elsewhere present outside),
      Bool.eq_false_iff.2 fun isEnd => changed (neutralizes.kept isEnd)⟩
  · rintro ⟨linked, other⟩
    refine ⟨Option.isSome_of_eq_some linked, ?_⟩
    rw [Store.blockOf?, neutralizes.taken linked other]
    cases store.instruction? ref <;> rfl

theorem Neutralizes.emptied
    (neutralizes : store.Neutralizes block left)
    (coherent : store.Coherent)
    (dwindles : store.Dwindles left) :
    left.Emptied block := by
  refine ⟨neutralizes.nonempty, fun ref member => ?_⟩
  rcases neutralizes.instructions with kept | ⟨-, new, -, only, isEnd⟩
  · rw [kept] at member
    have linked := (coherent.mem_members block ref).1 (List.mem_filter.1 member).1
    rw [dwindles.isDeadEnd (value?_isSome_of_blockOf? (Option.isSome_of_eq_some linked))]
    exact (List.mem_filter.1 member).2
  · rw [only, List.mem_singleton] at member
    simp [member, isDeadEnd, opcode?, isEnd, deadEnd, Opcode.isUnreachable]

end Store

namespace Pass

open Store Edit Elimination

variable {origin store left : Store} {report report' : Elimination} {function ref block : Ref}
  {cut : List Ref}

namespace Accounts

/-! ## Neutralizing blocks -/

theorem neutralize
    (accounts : Accounts origin function report store cut)
    (whole : origin.Coherent)
    (isBlock : store.isBlock block = true)
    (inside : origin.Concerns function block)
    (gives : Gives (neutralize report block) store report' left) :
    ∃ cut', Accounts origin function report' left cut' := by
  have coherent := accounts.dwindles.coherent
  obtain ⟨coherent', ⟨single, isEnd, rfl, rfl⟩ | ⟨neutralizes, between, notes, rfl⟩⟩ :=
    neutralizes_neutralize coherent isBlock gives
  · exact ⟨cut, accounts⟩
  by_cases neutral : store.IsNeutral block
  · obtain ⟨equal, rfl⟩ :=
      Prod.mk.inj (gives.symm.trans (gives_neutralize_of_isNeutral report neutral))
    rw [Except.ok.inj equal]
    exact ⟨cut, accounts⟩
  have dwindles := neutralizes.dwindles coherent coherent'
  have emptied := neutralizes.emptied coherent dwindles
  refine ⟨block :: cut, accounts.advance dwindles (fun ref => ?_) notes.distinct
    (List.subset_cons_self block cut) ?_ ?_ (fun single distinct => ?_) ?_⟩
  · rw [neutralizes.taken_iff coherent]
    exact notes.removed ref
  · rw [List.length_cons, accounts.counted, notes.neutralized]
  · intro other member
    rcases List.mem_cons.1 member with rfl | old
    · refine .inr ⟨emptied, inside, fun former => neutral ?_⟩
      exact accounts.dwindles.isNeutral whole former
    · exact .inl old
  · refine List.nodup_cons.2 ⟨fun member => neutral ?_, distinct⟩
    refine (accounts.emptied block member).isNeutral ?_
    rcases accounts.dwindles.deadEnds block with same | ⟨-, one⟩
    · exact same ▸ single block inside
    · exact Nat.le_of_eq one
  · intro ref other linked unlinked outside
    have member := (neutralizes.taken_iff coherent).1 ⟨Option.isSome_of_eq_some linked, unlinked⟩
    have here := (coherent.mem_members block ref).1 (List.mem_filter.1 member).1
    cases linked.symm.trans here
    exact absurd List.mem_cons_self outside

/-- A part of the program that is connected with the function now was so from the beginning. -/
theorem concerns_block
    (accounts : Accounts origin function report store cut)
    (inside : store.Concerns function block)
    (isBlock : store.isBlock block = true) :
    origin.Concerns function block := by
  rw [accounts.dwindles.ages.isBlock] at isBlock
  exact accounts.dwindles.concerns inside (value?_isSome_of_isBlock isBlock)

theorem neutralizeAll
    (accounts : Accounts origin function report store cut)
    (whole : origin.Coherent)
    {blocks : List Ref}
    (blocksInside : ∀ block ∈ blocks, store.isBlock block = true ∧ store.Concerns function block)
    (gives : Gives (blocks.foldlM Pass.neutralize report) store report' left) :
    ∃ cut', Accounts origin function report' left cut' := by
  refine Gives.foldlM (fun report left => ∃ cut', Accounts origin function report left cut')
    gives ⟨cut, accounts⟩ ?_
  rintro block member report report' store' left ⟨cut', accounts'⟩ gives
  obtain ⟨isBlock, inside⟩ := blocksInside block member
  have inside := accounts.concerns_block inside isBlock
  rw [accounts.dwindles.ages.isBlock, ← accounts'.dwindles.ages.isBlock] at isBlock
  exact accounts'.neutralize whole isBlock inside gives

theorem neutralizeDoomed
    (accounts : Accounts origin function report store cut)
    (whole : origin.Coherent)
    (gives : Gives (neutralizeDoomed function report) store report' left) :
    ∃ cut', Accounts origin function report' left cut' := by
  have coherent := accounts.dwindles.coherent
  refine accounts.neutralizeAll whole (forall_mem_doomed fun known block _ listed _ => ?_)
    (gives_see_bind_iff.1 gives)
  have reached := (mem_postOrder_iff_reached coherent).1 listed
  exact ⟨reached.isBlock coherent, reached.concerns coherent⟩

theorem neutralizeDead
    (accounts : Accounts origin function report store cut)
    (whole : origin.Coherent)
    (gives : Gives (neutralizeDead function report) store report' left) :
    ∃ cut', Accounts origin function report' left cut' := by
  have coherent := accounts.dwindles.coherent
  unfold Pass.neutralizeDead at gives
  replace gives := gives_see_bind_iff.1 gives
  obtain ⟨dead, between, around, gives⟩ := gives_bind_iff.1 gives
  obtain ⟨same, -, members⟩ := mem_deadAround around
  rw [same] at gives
  refine accounts.neutralizeAll whole (fun block member => ?_) gives
  have member := mem_distinct.1 member
  refine ⟨isBlock_of_mem_deadAround coherent around block member, ?_⟩
  obtain ⟨source, inOrder, user | ⟨targets, excluded, target⟩⟩ := (members block).1 member
  · obtain ⟨_, -, _, -, -, owner, -⟩ := mem_unreachableUsers_iff.1 user
    exact .own owner
  · obtain ⟨-, choice, -, rfl⟩ := gives_excludedTargets_iff.1 excluded
    cases choice with
    | none => cases target
    | some choice =>
        obtain ⟨-, -, -, entered⟩ := mem_passedOver_iff.1 target
        have enters : source ∈ store.predecessors block := entered ▸ List.mem_singleton_self source
        have isBlock := coherent.isBlock_of_mem_predecessors enters
        obtain ⟨terminator, linked, -, operand, -⟩ := coherent.mem_predecessors_iff.1 enters
        have reached := (mem_reversePostOrder_iff_reached coherent).1 inOrder
        refine .operand (.member (reached.concerns coherent) linked) ⟨?_, operand, .inl isBlock⟩
        exact Option.isSome_of_eq_some linked

end Accounts

/-! ## Removing instructions -/

section Unneeded

variable (coherent : store.Coherent)

include coherent

theorem isPure_of_mem_unneeded (member : ref ∈ unneeded store function) :
    (store.opcode? ref).any isPure = true := by
  obtain ⟨member, unneeded⟩ := (mem_unneeded_iff coherent).1 member
  have linked := coherent.blockOf?_isSome_of_mem_traverse member
  obtain ⟨opcode, found⟩ := opcode?_of_isInstruction (isInstruction_of_linked linked)
  by_contra impure
  have impure : isPure opcode = false := by simpa [found] using impure
  exact unneeded ⟨ref, ⟨coherent.mem_traverse_iff.1 member, .inl ⟨opcode, found, impure⟩⟩, .refl⟩

/-- When all that nothing needs is taken out, nothing uses any of it. -/
theorem usesOf_of_mem_unneeded
    (takes : store.Takes (unneeded store function) left)
    (coherent' : left.Coherent)
    (member : ref ∈ unneeded store function) :
    left.usesOf ref = [] := by
  refine coherent'.usesOf_eq_nil_iff.2 fun user linked operand => ?_
  -- A user that is left would be needed, and so would be what it uses.
  obtain ⟨block, linked⟩ := Option.isSome_iff_exists.1 linked
  obtain ⟨linked, kept⟩ := takes.blockOf?_eq_some_iff.1 linked
  rw [takes.operands] at operand
  obtain ⟨inOrder, unneeded⟩ := (mem_unneeded_iff coherent).1 member
  have refLinked := coherent.blockOf?_isSome_of_mem_traverse inOrder
  obtain ⟨use, listed, rfl⟩ :=
    coherent.exists_use_iff.2 ⟨Option.isSome_of_eq_some linked, operand⟩
  have reached : store.Reached function block := by
    by_contra outside
    refine unneeded ⟨ref, ⟨coherent.mem_traverse_iff.1 inOrder, .inr ⟨use, listed, ?_⟩⟩, .refl⟩
    intro block' linked'
    cases linked.symm.trans linked'
    exact outside
  have userInOrder : use.user ∈ store.traverse function :=
    coherent.mem_traverse_iff.2 ⟨block, reached, (coherent.mem_members block _).2 linked⟩
  by_cases needed : store.Needed function use.user
  · obtain ⟨root, isRoot, consumes⟩ := needed
    exact unneeded ⟨root, isRoot, consumes.tail ⟨operand, refLinked⟩⟩
  · exact kept ((mem_unneeded_iff coherent).2 ⟨userInOrder, needed⟩)

end Unneeded

namespace Accounts

theorem removeUnneeded
    (accounts : Accounts origin function report store cut)
    (gives : Gives (removeUnneeded function report) store report' left) :
    Accounts origin function report' left cut := by
  have coherent := accounts.dwindles.coherent
  obtain ⟨takes, coherent', notes⟩ := takes_drops coherent (gives_see_bind_iff.1 gives)
  refine accounts.takes takes coherent' notes ?_ ?_ ?_
  · intro ref member
    exact coherent.blockOf?_isSome_of_mem_traverse ((mem_unneeded_iff coherent).1 member).1
  · exact fun ref member => isDeadEnd_of_isPure (isPure_of_mem_unneeded coherent member)
  · intro ref member
    refine ⟨usesOf_of_mem_unneeded coherent takes coherent' member, .inl ?_⟩
    rw [takes.opcode?]
    exact isPure_of_mem_unneeded coherent member

/-- The stores that a variable comes to are idle when they were so in the beginning. -/
theorem usesOf_fed
    (accounts : Accounts origin function report store cut)
    (idle : origin.StoresIdle function)
    {address : Ref}
    (inside : origin.Concerns function address)
    (whole : origin.Coherent)
    (fed : Relation.ReflTransGen store.Feeds address ref)
    (isStore : store.opcode? ref = some .store) :
    store.usesOf ref = [] := by
  have dwindles := accounts.dwindles
  have fed : Relation.ReflTransGen origin.Feeds address ref :=
    Relation.reflTransGen_closed
      (fun _ _ feeds => (dwindles.supplied feeds).to_reflTransGen) _ _ fed
  have reached := inside.of_fed fed
  have isStore := (dwindles.opcode?_iff reached.present rfl rfl).1 isStore
  exact dwindles.usesOf_eq_nil whole (isInstruction_of_opcode? isStore) (idle ref reached isStore)

end Accounts

section Erased

variable {roots gone : List Ref} {address element : Ref}

theorem Erases.discarded
    (erases : Erases store report roots gone left report')
    (member : ref ∈ gone) :
    left.Discarded report'.removed ref where
  listed := (erases.notes.removed ref).2 (.inl member)
  unused := erases.unused ref member

/-- With an erased variable, all elements that are derived from it are gone. -/
theorem Erases.derived
    (erases : Erases store report roots gone left report')
    (coherent : store.Coherent)
    (erasable : store.Erasable address)
    (taken : address ∈ gone)
    (derives : Relation.ReflTransGen store.Derives address element) :
    element ∈ gone ∧
      Relation.ReflTransGen (left.DiscardedElement report'.removed) address element := by
  induction derives with
  | refl => exact ⟨taken, .refl⟩
  | @tail base other before derives induction =>
      obtain ⟨use, member, rfl⟩ := derives.1
      have otherTaken : use.user ∈ gone := by
        by_contra kept
        obtain ⟨linked, operand⟩ := coherent.exists_use_iff.1 ⟨use, member, rfl⟩
        rw [← erases.takes.blockOf?_kept kept] at linked
        rw [← erases.takes.operands] at operand
        exact erases.coherent.usesOf_eq_nil_iff.1 (erases.unused base induction.1) _ linked operand
      refine ⟨otherTaken, induction.2.tail ⟨erases.discarded otherTaken, ?_, ?_⟩⟩
      · rw [isGep, erases.takes.opcode?]
        exact derives.2
      · rcases (erasable.derived before).store_or_element member with ⟨isStore, -⟩ | ⟨-, head⟩
        · cases (isGep_iff.1 derives.2).symm.trans isStore
        · rw [erases.takes.operands, head]

/-- With a variable, instructions without effects are erased and stores that write to it. -/
theorem Erases.isPure_or_store
    (erases : Erases store report [address] gone left report')
    (coherent : store.Coherent)
    (erasable : store.Erasable address)
    (isVariable : store.isVariable address = true)
    (member : ref ∈ gone) :
    (store.opcode? ref).any isPure = true ∨
      store.opcode? ref = some .store ∧ ∃ derived stored,
        Relation.ReflTransGen store.Derives address derived ∧
          store.operands ref = [some derived, stored] := by
  obtain ⟨root, isRoot, fed⟩ := erases.fed ref member
  obtain rfl := List.mem_singleton.1 isRoot
  rcases erasable.of_fed coherent fed with rfl | ⟨derived, derives, use, listed, rfl⟩
  · obtain ⟨space, isAlloca⟩ := isVariable_iff.1 isVariable
    exact .inl (by simp [isAlloca, isPure])
  · rcases (erasable.derived derives).store_or_element listed with
      ⟨isStore, -, stored, operands⟩ | ⟨element, -⟩
    · exact .inr ⟨isStore, derived, stored, derives, operands⟩
    · exact .inl (by simp [isGep_iff.1 element.2, isPure])

end Erased

namespace Accounts

theorem isVariable_later
    (accounts : Accounts origin function report store cut)
    {address : Ref}
    (isVariable : origin.isVariable address = true) :
    store.isVariable address = true := by
  obtain ⟨space, isAlloca⟩ := isVariable_iff.1 isVariable
  rw [accounts.dwindles.isVariable (value?_isSome_of_opcode? isAlloca), isVariable]

/-- A variable that is only written is erasable. -/
theorem erasable
    (accounts : Accounts origin function report store cut)
    (whole : origin.Coherent)
    (idle : origin.StoresIdle function)
    {address : Ref}
    (inside : origin.Concerns function address)
    (isVariable : origin.isVariable address = true)
    (writeOnly : isWriteOnly store address = true) :
    store.Erasable address := by
  obtain ⟨space, isAlloca⟩ := isVariable_iff.1 (accounts.isVariable_later isVariable)
  have writeOnly := (isWriteOnly_iff (value?_isSome_of_opcode? isAlloca)).1 writeOnly
  exact writeOnly.erasable accounts.dwindles.coherent (isInstruction_of_opcode? isAlloca)
    fun ref => accounts.usesOf_fed idle inside whole

theorem removeWriteOnly
    (accounts : Accounts origin function report store cut)
    (whole : origin.Coherent)
    (idle : origin.StoresIdle function)
    {address : Ref}
    (inside : origin.Concerns function address)
    (isVariable : origin.isVariable address = true)
    (gives : Gives (removeWriteOnly report address) store report' left) :
    Accounts origin function report' left cut := by
  rw [gives_removeWriteOnly_iff] at gives
  split at gives
  swap
  · obtain ⟨rfl, rfl⟩ := gives
    exact accounts
  rename_i removable
  rw [Bool.and_eq_true] at removable
  obtain ⟨linked, writeOnly⟩ := removable
  have coherent := accounts.dwindles.coherent
  have isVariable' := accounts.isVariable_later isVariable
  have erasable := accounts.erasable whole idle inside isVariable writeOnly
  obtain ⟨gone, erases, taken⟩ := erases_removeWithUsers coherent linked gives
  have kinds {ref} (member : ref ∈ gone) :=
    erases.isPure_or_store coherent erasable isVariable' member
  refine accounts.takes erases.takes erases.coherent erases.notes erases.linked ?_ ?_
  · intro ref member
    rcases kinds member with isPure | ⟨isStore, -⟩
    · exact isDeadEnd_of_isPure isPure
    · simp [isDeadEnd, isStore, Opcode.isUnreachable]
  · intro ref member
    refine ⟨erases.unused ref member, ?_⟩
    rw [erases.takes.opcode?]
    refine (kinds member).imp_right ?_
    rintro ⟨isStore, derived, stored, derives, operands⟩
    refine ⟨isStore, address, derived, stored, ?_, erases.discarded taken,
      (erases.derived coherent erasable taken derives).2, ?_⟩
    · rw [isVariable_iff, erases.takes.opcode?, ← isVariable_iff, isVariable']
    · rw [erases.takes.operands, operands]

/-- The variables of the reached blocks have been part of the function from the beginning. -/
theorem variable_origin
    (accounts : Accounts origin function report store cut)
    (member : ref ∈ (store.traverse function).filter store.isVariable) :
    origin.Concerns function ref ∧ origin.isVariable ref = true := by
  obtain ⟨member, isVariable⟩ := List.mem_filter.1 member
  obtain ⟨space, isAlloca⟩ := isVariable_iff.1 isVariable
  have present : (origin.value? ref).isSome := by
    refine accounts.dwindles.present_of_not_deadEnd (isInstruction_of_opcode? isAlloca) ?_
    simp [isDeadEnd, isAlloca, Opcode.isUnreachable]
  refine ⟨accounts.dwindles.concerns
    (.of_mem_traverse accounts.dwindles.coherent member) present, ?_⟩
  rw [← accounts.dwindles.isVariable present, isVariable]

theorem removeWriteOnlyVariables
    (accounts : Accounts origin function report store cut)
    (whole : origin.Coherent)
    (idle : origin.StoresIdle function)
    (gives : Gives (removeWriteOnlyVariables function report) store report' left) :
    Accounts origin function report' left cut := by
  refine Gives.foldlM (fun report left => Accounts origin function report left cut)
    (gives_see_bind_iff.1 gives) accounts ?_
  intro address member report report' store' left accounts' gives
  obtain ⟨inside, isVariable⟩ := accounts.variable_origin member
  exact accounts'.removeWriteOnly whole idle inside isVariable gives

theorem removePhi
    (accounts : Accounts origin function report store cut)
    (regular : origin.Regular)
    {phi : Ref}
    (isPhi : origin.isPhi phi = true)
    (gives : Gives (removePhi report phi) store report' left) :
    Accounts origin function report' left cut := by
  have coherent := accounts.dwindles.coherent
  obtain ⟨removed, middle, tried, gives⟩ := gives_bind_iff.1 gives
  cases removed with
  | false =>
      obtain ⟨rfl, rfl⟩ := gives_pure_iff.1 gives
      rw [eq_of_refused tried]
      exact accounts
  | true =>
      obtain ⟨opcode, found, -⟩ := (Option.any_eq_true _ _).1 isPhi
      have isPhi : store.isPhi phi = true := by
        rw [accounts.dwindles.isPhi (value?_isSome_of_opcode? found), isPhi]
      obtain ⟨opcode, found, -⟩ := (Option.any_eq_true _ _).1 isPhi
      have present := value?_isSome_of_opcode? found
      have isInstruction := isInstruction_of_opcode? found
      have linked : (store.blockOf? phi).isSome := by
        by_contra unlinked
        exact linked_of_removed tried
          (detached_iff.2 ⟨isInstruction, Option.not_isSome_iff_eq_none.1 unlinked⟩)
      have retires := retires_removeRedundantPhi coherent (accounts.dwindles.regular regular) isPhi
        tried
      have newly : ∀ ref, ref ∈ [phi] ↔
          (store.blockOf? ref).isSome ∧ middle.blockOf? ref = none := by
        intro ref
        rw [List.mem_singleton, retires.blockOf?]
        split
        · rename_i same
          exact ⟨fun _ => ⟨same ▸ linked, rfl⟩, fun _ => same⟩
        · rename_i different
          refine ⟨fun same => absurd same different, ?_⟩
          rintro ⟨isLinked, unlinked⟩
          simp [unlinked] at isLinked
      obtain ⟨-, -, notes⟩ := takes_drop retires.dwindles.coherent gives
      obtain rfl := eq_of_drop_detached (detached_iff.2
        ⟨(retires.dwindles.isInstruction present).trans isInstruction,
          ((newly phi).1 (List.mem_singleton_self phi)).2⟩) gives
      refine accounts.advance retires.dwindles (fun ref => by rw [notes.removed, newly])
        notes.distinct (fun _ member => member) (accounts.counted.trans notes.neutralized.symm)
        (fun _ => .inl) (fun _ => id) ?_
      intro ref block isLinked unlinked _
      have same := (newly ref).2 ⟨Option.isSome_of_eq_some isLinked, unlinked⟩
      obtain rfl := List.mem_singleton.1 same
      refine ⟨retires.unused, .inl ?_⟩
      rw [retires.dwindles.isPure present]
      exact isPure_of_isPhi isPhi

/-! ## Rounds -/

/-- One pass of removals. -/
theorem pass
    {phis : List Ref}
    {unneeded unread : Elimination}
    {second third : Store}
    (accounts : Accounts origin function report store cut)
    (whole : origin.Coherent)
    (regular : origin.Regular)
    (idle : origin.StoresIdle function)
    (isPhi : ∀ phi ∈ phis, origin.isPhi phi = true)
    (first : Gives (Pass.removeUnneeded function report) store unneeded second)
    (next : Gives (Pass.removeWriteOnlyVariables function unneeded) second unread third)
    (last : Gives (phis.foldlM Pass.removePhi unread) third report' left) :
    Accounts origin function report' left cut := by
  have accounts := (accounts.removeUnneeded first).removeWriteOnlyVariables whole idle next
  refine Gives.foldlM (fun report left => Accounts origin function report left cut)
    last accounts ?_
  intro phi member report report' store' left accounts' gives
  exact accounts'.removePhi regular (isPhi phi member) gives

theorem removeUseless
    {phis : List Ref}
    {bound : Nat}
    (accounts : Accounts origin function report store cut)
    (whole : origin.Coherent)
    (regular : origin.Regular)
    (idle : origin.StoresIdle function)
    (isPhi : ∀ phi ∈ phis, origin.isPhi phi = true)
    (gives : Gives (removeUseless function phis bound report) store report' left) :
    Accounts origin function report' left cut := by
  induction bound generalizing report store with
  | zero => exact absurd gives not_gives_endless
  | succ bound induction =>
      unfold Pass.removeUseless at gives
      obtain ⟨_, _, first, gives⟩ := gives_bind_iff.1 gives
      obtain ⟨_, _, second, gives⟩ := gives_bind_iff.1 gives
      obtain ⟨_, _, third, gives⟩ := gives_bind_iff.1 gives
      have accounts := accounts.pass whole regular idle isPhi first second third
      split at gives
      · obtain ⟨rfl, rfl⟩ := gives_pure_iff.1 gives
        exact accounts
      · exact induction accounts gives

/-- The account does not look at the number of rounds. -/
theorem counting (accounts : Accounts origin function report store cut) (rounds : Nat) :
    Accounts origin function { report with rounds } store cut :=
  { accounts with }

/-- Neutralizing and tidying up, the part of a round that comes before the removals. -/
theorem prepare
    {doomed dead : Elimination}
    {second third fourth : Store}
    {answer : Unit}
    {phis : List Ref}
    (accounts : Accounts origin function report store cut)
    (whole : origin.Coherent)
    (doomedGives : Gives (Pass.neutralizeDoomed function report) store doomed second)
    (deadGives : Gives (Pass.neutralizeDead function doomed) second dead third)
    (clearGives : Gives (clearMerges (third.reversePostOrder function)) third answer fourth)
    (prunedGives : Gives (pruneBlocks (fourth.reversePostOrder function)) fourth phis left) :
    (∃ cut', Accounts origin function { dead with rounds := dead.rounds + 1 } left cut') ∧
      ∀ phi ∈ phis, origin.isPhi phi = true := by
  obtain ⟨_, accounts⟩ := accounts.neutralizeDoomed whole doomedGives
  obtain ⟨cut', accounts⟩ := accounts.neutralizeDead whole deadGives
  obtain ⟨clears, dwindles⟩ := dwindles_clearMerges accounts.dwindles.coherent clearGives
  have accounts := accounts.idle dwindles clears.blockOf?
  obtain ⟨prunes, dwindles, isPhi⟩ := dwindles_pruneBlocks accounts.dwindles.coherent prunedGives
  refine ⟨⟨cut', (accounts.idle dwindles prunes.blockOf?).counting _⟩, fun phi member => ?_⟩
  obtain ⟨opcode, found, -⟩ := (Option.any_eq_true _ _).1 (isPhi phi member)
  have present := accounts.dwindles.present_of_not_deadEnd (isInstruction_of_opcode? found)
    (isDeadEnd_of_isPhi (isPhi phi member))
  rw [← accounts.dwindles.isPhi present, isPhi phi member]

theorem eliminationRound
    (accounts : Accounts origin function report store cut)
    (whole : origin.Coherent)
    (regular : origin.Regular)
    (idle : origin.StoresIdle function)
    (gives : Gives (eliminationRound function report) store report' left) :
    ∃ cut', Accounts origin function report' left cut' := by
  obtain ⟨_, _, doomedGives, gives⟩ := gives_bind_iff.1 gives
  obtain ⟨_, _, deadGives, gives⟩ := gives_bind_iff.1 gives
  replace gives := gives_see_bind_iff.1 gives
  obtain ⟨_, _, clearGives, gives⟩ := gives_bind_iff.1 gives
  replace gives := gives_see_bind_iff.1 gives
  obtain ⟨phis, _, prunedGives, gives⟩ := gives_bind_iff.1 gives
  replace gives := gives_see_bind_iff.1 gives
  obtain ⟨⟨cut', accounts⟩, isPhi⟩ :=
    accounts.prepare whole doomedGives deadGives clearGives prunedGives
  exact ⟨cut', accounts.removeUseless whole regular idle isPhi gives⟩

theorem eliminate
    {bound : Nat}
    (accounts : Accounts origin function report store cut)
    (whole : origin.Coherent)
    (regular : origin.Regular)
    (idle : origin.StoresIdle function)
    (gives : Gives (eliminate function bound report) store report' left) :
    ∃ cut', Accounts origin function report' left cut' := by
  induction bound generalizing report store cut with
  | zero => exact absurd gives not_gives_endless
  | succ bound induction =>
      obtain ⟨next, between, round, gives⟩ := gives_bind_iff.1 gives
      obtain ⟨cut', accounts⟩ := accounts.eliminationRound whole regular idle round
      split at gives
      · obtain ⟨rfl, rfl⟩ := gives_pure_iff.1 gives
        exact ⟨cut', accounts⟩
      · exact induction accounts gives

end Accounts

end Pass

end ShaderIR
