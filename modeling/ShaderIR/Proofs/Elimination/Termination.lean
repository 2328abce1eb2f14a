import ShaderIR.Proofs.Elimination.Effects
import ShaderIR.Proofs.Elimination.NormalForm
import ShaderIR.Proofs.Promotion.Termination

/-!
# Eliminating dead code comes to an end

Each round but the last, and each of its passes but the last, takes out an instruction
or neutralizes a block.  What is taken out was there at the start, and no block counts as
neutralized twice, as long as none has two unreachable ends.  So there are no more
rounds and passes than twice as many as values at the start.

Taking out a variable with its users goes down a tree that has at most as many levels as
there are values, unless a store is used.  The search for the blocks that lead nowhere
adds a block with each pass, and the search for the elements of a pointer looks at a
value once.
-/

namespace ShaderIR

namespace Store

variable {store left : Store} {function : Ref}

theorem Ages.size_le (ages : store.Ages left) : store.values.size ≤ left.values.size := by
  by_contra shrunk
  have held : (store.value? ⟨left.values.size⟩).isSome := by
    rw [value?, Option.isSome_iff_exists]
    exact ⟨_, Array.getElem?_eq_getElem (Nat.lt_of_not_le shrunk)⟩
  exact Nat.lt_irrefl _ (index_lt_of_value? (ages.value?_isSome held))

end Store

namespace Pass

open Store Edit Elimination

variable {origin store left : Store} {report report' : Elimination} {function ref : Ref}
  {cut : List Ref} {bound : Nat}

/-! ## Searches -/

theorem inside_collectDoomed
    {blocks known all : List Ref}
    (within : blocks ⊆ all)
    (distinct : known.Nodup)
    (inside : known ⊆ all) :
    (collectDoomed store blocks known).Nodup ∧ collectDoomed store blocks known ⊆ all := by
  induction blocks generalizing known with
  | nil => exact ⟨distinct, inside⟩
  | cons block rest induction =>
      obtain ⟨here, later⟩ := List.cons_subset.1 within
      unfold collectDoomed
      rw [List.foldl_cons]
      split
      · exact induction later distinct inside
      · rename_i new
        have fresh : block ∉ known := fun listed => new (by simp [listed])
        refine induction later ?_ (List.append_subset.2 ⟨inside, ?_⟩)
        · exact distinct.append (List.nodup_singleton block) (List.disjoint_singleton.2 fresh)
        · exact List.cons_subset.2 ⟨here, List.nil_subset all⟩

/-- With enough passes, the search goes on until a pass finds no more. -/
theorem collectDoomed_doomedWithin
    {blocks known : List Ref}
    {rounds : Nat}
    (distinct : known.Nodup)
    (inside : known ⊆ blocks)
    (enough : blocks.length < known.length + rounds) :
    collectDoomed store blocks (doomedWithin store blocks rounds known) =
      doomedWithin store blocks rounds known := by
  induction rounds generalizing known with
  | zero =>
      have few := (List.subperm_of_subset distinct inside).length_le
      omega
  | succ rounds induction =>
      have growing : known <+: collectDoomed store blocks known := prefix_collectDoomed blocks known
      obtain ⟨distinct', inside'⟩ : (collectDoomed store blocks known).Nodup ∧
          collectDoomed store blocks known ⊆ blocks :=
        inside_collectDoomed (List.Subset.refl blocks) distinct inside
      unfold doomedWithin
      dsimp only
      split
      · rename_i same
        exact (growing.eq_of_length same.symm).symm
      · rename_i longer
        have grows := growing.length_le
        exact induction distinct' inside' (by omega)

/-- The search for the blocks that lead nowhere ends when there are no more. -/
theorem collectDoomed_doomed :
    collectDoomed store (store.postOrder function) (doomed store function) =
      doomed store function :=
  collectDoomed_doomedWithin List.nodup_nil (List.nil_subset _) (by simp)

/-- The search for the elements of a pointer ends when there are no more. -/
theorem closed_elements
    {pointer derived element : Ref}
    (found : derived ∈ closure store.values.size (elementUsers store) [pointer])
    (member : element ∈ elementUsers store derived) :
    element ∈ closure store.values.size (elementUsers store) [pointer] := by
  have inside : ∀ ref, ∀ other ∈ elementUsers store ref, other.index < store.values.size := by
    intro ref other member
    obtain ⟨-, isGep⟩ := mem_elementUsers_iff.1 member
    exact index_lt_of_value? (value?_isSome_of_isGep isGep)
  by_cases present : (store.value? pointer).isSome
  · exact (closed_closure inside (List.nodup_singleton pointer) (by
      simpa using index_lt_of_value? present)).2 derived found element member
  · -- Nothing uses what is not there.
    have unused : ∀ other, other ∉ elementUsers store pointer := by
      rintro other member
      obtain ⟨⟨use, listed, -⟩, -⟩ := mem_elementUsers_iff.1 member
      rw [usesOf, Option.not_isSome_iff_eq_none.1 present] at listed
      cases listed
    obtain ⟨first, start, leads⟩ := reaches_of_mem_closure found
    obtain rfl := List.mem_singleton.1 start
    cases Relation.ReflTransGen.cases_head leads with
    | inl same => exact absurd (same ▸ member) (unused element)
    | inr step => exact absurd step.choose_spec.1 (unused _)

/-! ## Parts that come to an end anyway -/

theorem emptyBlock_ends (refs : List Ref) (report : Elimination) :
    Ends (emptyBlock report refs) := by
  induction refs generalizing report with
  | nil => exact Ends.pure report
  | cons ref rest induction =>
      exact Ends.bind (Ends.see _) fun _ => Ends.ifThen (induction report)
        (Ends.bind (drop_ends report ref) induction)

theorem neutralize_ends (report : Elimination) (block : Ref) : Ends (neutralize report block) := by
  refine Ends.bind (Ends.see _) fun instructions => Ends.bind (Ends.see _) fun _ =>
    Ends.ifThen (Ends.pure _) (Ends.bind (emptyBlock_ends instructions report) fun report =>
      Ends.bind (Ends.see _) fun _ => Ends.ifThen ?_ (Ends.pure _))
  refine Ends.bind (Build.Ends.run ?_) fun _ => Ends.pure _
  exact Build.Ends.bind (Build.moveToEnd_ends block) fun _ =>
    Build.Ends.bind (Build.emit_ends _ _ _) fun _ => Build.Ends.pure _

theorem neutralizeDoomed_ends (function : Ref) (report : Elimination) :
    Ends (neutralizeDoomed function report) :=
  Ends.bind (Ends.see _) fun blocks => Ends.foldlM neutralize_ends blocks report

theorem chooseCase_ends
    (selector : Ref)
    (targets : List (Option Ref))
    (values : List Int64)
    (position : Nat)
    (taken : Option (Option Ref))
    (others : List (Option Ref)) :
    Ends (chooseCase selector targets position values taken others) := by
  induction values generalizing position taken others with
  | nil =>
      refine Ends.bind (Ends.demand _) fun fallback => ?_
      cases taken <;> exact Ends.pure _
  | cons value rest induction =>
      exact Ends.bind (intConstant_ends selector) fun _ => Ends.bind (Ends.demand _) fun _ =>
        Ends.ifThen (induction _ _ _) (induction _ _ _)

theorem staticChoice_ends (block : Ref) : Ends (staticChoice block) := by
  refine Ends.bind (Ends.see _) fun found => ?_
  cases found with
  | none => exact Ends.pure none
  | some terminator =>
      refine Ends.bind (Ends.instruction terminator) fun entry =>
        Ends.bind (Ends.see _) fun targets =>
        Ends.bind (Ends.see _) fun condition => ?_
      have branches (constant : Ref) : Ends (do
          let whenTrue ← Edit.demand targets[1]?
          let whenFalse ← Edit.demand targets[2]?
          if ← Edit.boolConstant constant then return some ⟨whenTrue, [whenFalse]⟩
          else return some ⟨whenFalse, [whenTrue]⟩ : Edit (Option StaticChoice)) :=
        Ends.bind (Ends.demand _) fun _ => Ends.bind (Ends.demand _) fun _ =>
          Ends.bind (boolConstant_ends constant) fun _ => Ends.ifThen (Ends.pure _) (Ends.pure _)
      split
      · exact branches _
      · exact branches _
      · exact Ends.bind (chooseCase_ends _ _ _ _ _ _) fun _ => Ends.pure _
      · exact Ends.pure none

theorem excludedTargets_ends (block : Ref) : Ends (excludedTargets block) := by
  refine Ends.bind (staticChoice_ends block) fun choice => ?_
  cases choice with
  | none => exact Ends.pure []
  | some choice => exact Ends.see _

theorem deadAround_ends (function : Ref) (reachable blocks : List Ref) :
    Ends (deadAround function reachable blocks) := by
  induction blocks with
  | nil => exact Ends.pure []
  | cons block rest induction =>
      exact Ends.bind (Ends.see _) fun _ => Ends.bind (excludedTargets_ends block) fun _ =>
        Ends.bind induction fun _ => Ends.pure _

theorem neutralizeDead_ends (function : Ref) (report : Elimination) :
    Ends (neutralizeDead function report) :=
  Ends.bind (Ends.see _) fun reachable => Ends.bind (deadAround_ends function reachable _) fun _ =>
    Ends.foldlM neutralize_ends _ report

theorem clearMerges_ends (blocks : List Ref) : Ends (clearMerges blocks) := by
  induction blocks with
  | nil => exact Ends.pure ()
  | cons block rest induction =>
      refine Ends.bind (Ends.bind (Ends.see _) fun found => ?_) fun _ => induction
      cases found with
      | none => exact Ends.pure ()
      | some terminator =>
          refine Ends.bind (Ends.instruction terminator) fun entry => ?_
          dsimp only
          split
          · exact Ends.bind (Ends.see _) fun _ => Ends.ifThen (Ends.modify _) (Ends.pure ())
          · exact Ends.pure ()

theorem pruneIncomings_ends (sources : List Ref) (phi : Ref) (bound : Nat) :
    Ends (pruneIncomings sources phi bound) := by
  induction bound with
  | zero => exact Ends.pure ()
  | succ position induction =>
      refine Ends.bind (Ends.operand phi position) fun _ =>
        Ends.bind (Ends.instruction phi) fun _ =>
        Ends.bind (Ends.demand _) fun _ => Ends.ifThen ?_ induction
      exact Ends.bind (removeIncoming_ends phi position) fun _ => induction

theorem pruneBlocks_ends (blocks : List Ref) : Ends (pruneBlocks blocks) := by
  have each (sources phis : List Ref) : Ends (prunePhis sources phis) := by
    induction phis with
    | nil => exact Ends.pure ()
    | cons phi rest induction =>
        exact Ends.bind (Ends.instruction phi) fun _ =>
          Ends.bind (pruneIncomings_ends sources phi _) fun _ => induction
  induction blocks with
  | nil => exact Ends.pure []
  | cons block rest induction =>
      exact Ends.bind (Ends.see _) fun phis => Ends.bind (Ends.see _) fun sources =>
        Ends.bind (each sources phis) fun _ => Ends.bind induction fun _ => Ends.pure _

theorem removeUnneeded_ends (function : Ref) (report : Elimination) :
    Ends (removeUnneeded function report) :=
  Ends.bind (Ends.see _) fun refs => Ends.foldlM drop_ends refs report

theorem removePhi_ends (report : Elimination) (phi : Ref) : Ends (removePhi report phi) :=
  Ends.bind (fun _ => (ensures_removeRedundantPhi phi).1) fun _ =>
    Ends.ifThen (drop_ends report phi) (Ends.pure report)

/-! ## Rounds -/

namespace Accounts

theorem length_removed_le (accounts : Accounts origin function report store cut) :
    report.removed.length ≤ origin.values.size :=
  length_le_size accounts.distinct fun ref member =>
    value?_isSome_of_blockOf? ((accounts.noted ref).1 member).1

/-- No block is neutralized twice. -/
theorem neutralized_le
    (accounts : Accounts origin function report store cut)
    (single : origin.SingleEnds function) :
    report.neutralized ≤ origin.values.size := by
  rw [← accounts.counted]
  exact length_le_size (accounts.apart single) fun block member =>
    (accounts.chosen block member).1.present

theorem ensures_removeWriteOnly
    (accounts : Accounts origin function report store cut)
    (whole : origin.Coherent)
    (idle : origin.StoresIdle function)
    {address : Ref}
    (inside : origin.Concerns function address)
    (isVariable : origin.isVariable address = true) :
    Ensures (Pass.removeWriteOnly report address) store fun report left =>
      Accounts origin function report left cut := by
  refine ⟨?_, fun report' left gives => accounts.removeWriteOnly whole idle inside isVariable gives⟩
  have coherent := accounts.dwindles.coherent
  refine (Ensures.seeBind (.seeBind ?_) : Ensures _ store fun _ _ => True).1
  split
  · rename_i removable
    have writeOnly := (Bool.and_eq_true_iff.1 removable).2
    have erasable := accounts.erasable whole idle inside isVariable writeOnly
    have path : store.BasePath [address] := by
      obtain ⟨space, isAlloca⟩ := isVariable_iff.1 (accounts.isVariable_later isVariable)
      refine .root (value?_isSome_of_opcode? isAlloca) (Bool.eq_false_iff.2 fun isGep => ?_)
      cases isAlloca.symm.trans (isGep_iff.1 isGep)
    refine .seeBind ⟨?_, fun _ _ _ => trivial⟩
    exact endsAt_removeWithUsers coherent path erasable (by simp) (.refl store) coherent
  · exact .pure trivial

theorem ensures_removeWriteOnlyVariables
    (accounts : Accounts origin function report store cut)
    (whole : origin.Coherent)
    (idle : origin.StoresIdle function) :
    Ensures (Pass.removeWriteOnlyVariables function report) store fun report left =>
      Accounts origin function report left cut := by
  refine .seeBind (.foldlM accounts fun address member report store accounts' => ?_)
  obtain ⟨inside, isVariable⟩ := accounts.variable_origin member
  exact accounts'.ensures_removeWriteOnly whole idle inside isVariable

/-- Passes come to an end: each but the last takes something out. -/
theorem endsAt_removeUseless
    {phis : List Ref}
    (accounts : Accounts origin function report store cut)
    (whole : origin.Coherent)
    (regular : origin.Regular)
    (idle : origin.StoresIdle function)
    (isPhi : ∀ phi ∈ phis, origin.isPhi phi = true)
    (enough : origin.values.size < report.removed.length + bound) :
    EndsAt (Pass.removeUseless function phis bound report) store := by
  induction bound generalizing report store with
  | zero =>
      have few := accounts.length_removed_le
      omega
  | succ bound induction =>
      refine EndsAt.bind (removeUnneeded_ends function report store) fun unneeded second first => ?_
      have accounts' := accounts.removeUnneeded first
      refine EndsAt.bind (accounts'.ensures_removeWriteOnlyVariables whole idle).1
        fun unread third next => ?_
      refine EndsAt.bind (Ends.foldlM removePhi_ends phis unread third) fun report' left last => ?_
      split
      · exact Ends.pure report' left
      · rename_i changed
        have grows := (spare_of_pass accounts.records first next last).1.removed
        exact induction (accounts.pass whole regular idle isPhi first next last) (by omega)

theorem endsAt_eliminationRound
    (accounts : Accounts origin function report store cut)
    (whole : origin.Coherent)
    (regular : origin.Regular)
    (idle : origin.StoresIdle function) :
    EndsAt (Pass.eliminationRound function report) store := by
  refine EndsAt.bind (neutralizeDoomed_ends function report store) fun doomed second
    doomedGives => ?_
  refine EndsAt.bind (neutralizeDead_ends function doomed second) fun dead third deadGives => ?_
  refine EndsAt.bind (Ends.see _ third) fun order between seen => ?_
  obtain ⟨rfl, rfl⟩ := gives_see_iff.1 seen
  refine EndsAt.bind (clearMerges_ends _ _) fun answer fourth clearGives => ?_
  refine EndsAt.bind (Ends.see _ fourth) fun order between seen => ?_
  obtain ⟨rfl, rfl⟩ := gives_see_iff.1 seen
  refine EndsAt.bind (pruneBlocks_ends _ _) fun phis fifth prunedGives => ?_
  refine EndsAt.bind (Ends.see _ fifth) fun size between seen => ?_
  obtain ⟨rfl, rfl⟩ := gives_see_iff.1 seen
  obtain ⟨⟨cut', accounts⟩, isPhi⟩ :=
    accounts.prepare whole doomedGives deadGives clearGives prunedGives
  have older := accounts.dwindles.ages.size_le
  exact accounts.endsAt_removeUseless whole regular idle isPhi (by omega)

/-- Rounds come to an end: each but the last takes something out or neutralizes a block. -/
theorem endsAt_eliminate
    (accounts : Accounts origin function report store cut)
    (whole : origin.Coherent)
    (regular : origin.Regular)
    (idle : origin.StoresIdle function)
    (single : origin.SingleEnds function)
    (enough : 2 * origin.values.size < report.removed.length + report.neutralized + bound) :
    EndsAt (Pass.eliminate function bound report) store := by
  induction bound generalizing report store cut with
  | zero =>
      have removed := accounts.length_removed_le
      have neutralized := accounts.neutralized_le single
      omega
  | succ bound induction =>
      refine EndsAt.bind (accounts.endsAt_eliminationRound whole regular idle)
        fun next left round => ?_
      split
      · exact Ends.pure next left
      · rename_i changed
        obtain ⟨cut', accounts'⟩ := accounts.eliminationRound whole regular idle round
        obtain ⟨-, ⟨removed, neutralized⟩, -⟩ := settled_of_round accounts.records round
        simp only [progress, Prod.mk.injEq] at changed
        exact induction accounts' (by omega)

end Accounts

theorem endsAt_eliminateDeadCode
    (coherent : store.Coherent)
    (regular : store.Regular)
    (idle : store.StoresIdle function)
    (single : store.SingleEnds function) :
    EndsAt (eliminateDeadCode function) store := by
  refine (Ensures.seeBind ?_ : Ensures _ store fun _ _ => True).1
  split
  · exact .pure trivial
  · refine .seeBind ⟨?_, fun _ _ _ => trivial⟩
    refine (Accounts.start coherent).endsAt_eliminate coherent regular idle single ?_
    simp

end Pass

/-! ## Sessions -/

namespace Store

variable {store : Store} {function : Ref}

/-- Whether no block has two unreachable ends. -/
def singleEnds (store : Store) : Bool :=
  (List.range store.values.size).all fun index => (store.deadEnds ⟨index⟩).length ≤ 1

theorem singleEnds_of_checked (single : store.singleEnds = true) : store.SingleEnds function :=
  fun _ inside => of_decide_eq_true
    (check_of_all (fun ref => (store.deadEnds ref).length ≤ 1) single inside.present)

end Store

namespace Session

open Store Edit Pass

/--
Eliminating the dead code of a function of a session comes to an end, provided that no
block has two unreachable ends and no store is an operand.  In every store, the searches
that the elimination relies on end where there is nothing more to be found.
-/
theorem eliminateDeadCode_ends
    {operations : List Operation}
    {function : Ref}
    (single : (after operations).store.SingleEnds function)
    (idle : (after operations).store.StoresIdle function) :
    EndsAt (eliminateDeadCode function) (after operations).store ∧
      ∀ left : Store,
        collectDoomed left (left.postOrder function) (doomed left function) =
          doomed left function ∧
        ∀ pointer, ∀ derived ∈ closure left.values.size (elementUsers left) [pointer],
          ∀ element ∈ elementUsers left derived,
            element ∈ closure left.values.size (elementUsers left) [pointer] := by
  refine ⟨?_, fun left => ⟨collectDoomed_doomed, fun pointer derived found element => ?_⟩⟩
  · exact endsAt_eliminateDeadCode (after_coherent operations).store (after_regular operations) idle
      single
  · exact closed_elements found

theorem eliminateDeadCode_ends_reread :
    (after reread).store.SingleEnds ⟨0⟩ ∧ (after reread).store.StoresIdle ⟨0⟩ ∧
      EndsAt (eliminateDeadCode ⟨0⟩) (after reread).store := by
  have single : (after reread).store.SingleEnds ⟨0⟩ := singleEnds_of_checked (by decide +kernel)
  have idle : (after reread).store.StoresIdle ⟨0⟩ := storesIdle_of_idleStores (by decide +kernel)
  exact ⟨single, idle, (eliminateDeadCode_ends single idle).1⟩

end Session

end ShaderIR
