import ShaderIR.Proofs.Elimination.Doomed
import ShaderIR.Proofs.Elimination.DwindlingSteps
import ShaderIR.Proofs.Elimination.Erasing

/-!
# Accounting for what is removed

The report of the elimination names what was taken out, and for each of these
instructions there is a reason.  It was in a block that was neutralized, or nothing uses
it any more and it has no effect besides its result, or it is a store into a variable
that went with it, of which nothing uses any element, either.

Stores are only spent in that way where nothing uses a store.
-/

namespace ShaderIR

namespace Store

/-- An instruction was removed, and nothing uses it any more. -/
structure Discarded (store : Store) (removed : List Ref) (ref : Ref) : Prop where
  listed : ref ∈ removed
  unused : store.usesOf ref = []

/-- An element reference was discarded, and its base is a given pointer. -/
structure DiscardedElement (store : Store) (removed : List Ref) (base element : Ref) : Prop where
  discarded : store.Discarded removed element
  isGep : store.isGep element = true
  head : (store.operands element).head? = some (some base)

/-- A store writes to an element of a variable, and all of these were discarded. -/
def WritesOff (store : Store) (removed : List Ref) (ref : Ref) : Prop :=
  ∃ address pointer stored, store.isVariable address = true ∧ store.Discarded removed address ∧
    Relation.ReflTransGen (store.DiscardedElement removed) address pointer ∧
    store.operands ref = [some pointer, stored]

/-- Nothing uses an instruction that has no effect or writes to what was discarded. -/
structure Expendable (store : Store) (removed : List Ref) (ref : Ref) : Prop where
  unused : store.usesOf ref = []
  reason : (store.opcode? ref).any Pass.isPure = true ∨
    store.opcode? ref = some .store ∧ store.WritesOff removed ref

/-- A block has been cut down to unreachable ends. -/
structure Emptied (store : Store) (block : Ref) : Prop where
  nonempty : store.instructions block ≠ []
  ends : ∀ ref ∈ store.instructions block, store.isDeadEnd ref = true

/-- No store that is connected with a function is an operand. -/
def StoresIdle (store : Store) (function : Ref) : Prop :=
  ∀ ref, store.Concerns function ref → store.opcode? ref = some .store → store.usesOf ref = []

/-- No block that is connected with a function has two unreachable ends. -/
def SingleEnds (store : Store) (function : Ref) : Prop :=
  ∀ block, store.Concerns function block → (store.deadEnds block).length ≤ 1

variable {origin store left : Store} {function ref block address : Ref}
  {removed removed' : List Ref}

namespace Dwindles

theorem isVariable (dwindles : store.Dwindles left) (present : (store.value? ref).isSome) :
    left.isVariable ref = store.isVariable ref := by
  rw [Bool.eq_iff_iff, isVariable_iff, isVariable_iff]
  exact exists_congr fun space => dwindles.opcode?_iff present rfl rfl

theorem isGep (dwindles : store.Dwindles left) (present : (store.value? ref).isSome) :
    left.isGep ref = store.isGep ref := by
  rw [Bool.eq_iff_iff, isGep_iff, isGep_iff, dwindles.opcode?_iff present rfl rfl]

end Dwindles

theorem detached_iff :
    store.Detached ref ↔ store.isInstruction ref = true ∧ store.blockOf? ref = none := by
  constructor
  · rintro ⟨entry, found, unlinked⟩
    simp [Store.isInstruction, Store.blockOf?, found, unlinked]
  · rintro ⟨isInstruction, unlinked⟩
    obtain ⟨entry, found⟩ := Option.isSome_iff_exists.1 isInstruction
    exact ⟨entry, found, by simpa [Store.blockOf?, found] using unlinked⟩

theorem Detached.isInstruction (detached : store.Detached ref) :
    store.isInstruction ref = true :=
  (detached_iff.1 detached).1

theorem isPure_of_isPhi (isPhi : store.isPhi ref = true) :
    (store.opcode? ref).any Pass.isPure = true := by
  obtain ⟨opcode, found, isPhi⟩ := (Option.any_eq_true _ _).1 isPhi
  cases opcode <;> simp_all [Pass.isPure, Opcode.isPhi]

theorem isDeadEnd_of_isPure (isPure : (store.opcode? ref).any Pass.isPure = true) :
    store.isDeadEnd ref = false := by
  obtain ⟨opcode, found, isPure⟩ := (Option.any_eq_true _ _).1 isPure
  cases opcode <;> simp_all [Pass.isPure, isDeadEnd, Opcode.isUnreachable]

theorem isPhi_eq_false_of_opcode?
    {opcode : Opcode}
    (found : store.opcode? ref = some opcode)
    (notPhi : opcode.isPhi = false) :
    store.isPhi ref = false := by
  rw [isPhi, found, Option.any_some, notPhi]

section Later

variable (dwindles : store.Dwindles left) (coherent : store.Coherent)
  (detached : ∀ ref ∈ removed, store.Detached ref) (more : removed ⊆ removed')

include dwindles coherent detached more

theorem Discarded.later (discarded : store.Discarded removed ref) :
    left.Discarded removed' ref where
  listed := more discarded.listed
  unused := dwindles.usesOf_eq_nil coherent (detached ref discarded.listed).isInstruction
    discarded.unused

theorem DiscardedElement.later
    {base element : Ref}
    (element' : store.DiscardedElement removed base element) :
    left.DiscardedElement removed' base element := by
  have gone := detached element element'.discarded.listed
  have present := value?_isSome_of_isGep element'.isGep
  refine ⟨element'.discarded.later dwindles coherent detached more, ?_, ?_⟩
  · rw [dwindles.isGep present, element'.isGep]
  · rw [dwindles.settled gone.isInstruction
      (isPhi_eq_false_of_opcode? (isGep_iff.1 element'.isGep) rfl) gone.blockOf?, element'.head]

/-- What was expendable when it was removed stays so. -/
theorem Expendable.later (expendable : store.Expendable removed ref) (listed : ref ∈ removed) :
    left.Expendable removed' ref := by
  have gone := detached ref listed
  have present := value?_isSome_of_isInstruction gone.isInstruction
  refine ⟨dwindles.usesOf_eq_nil coherent gone.isInstruction expendable.unused, ?_⟩
  rw [dwindles.isPure present, dwindles.opcode?_iff present rfl rfl]
  refine expendable.reason.imp_right ?_
  rintro ⟨isStore, address, pointer, stored, isVariable, discarded, derived, operands⟩
  have addressPresent :=
    value?_isSome_of_isInstruction (detached address discarded.listed).isInstruction
  refine ⟨isStore, address, pointer, stored, ?_, discarded.later dwindles coherent detached more,
    ?_, ?_⟩
  · rw [dwindles.isVariable addressPresent, isVariable]
  · exact Relation.ReflTransGen.mono
      (fun _ _ element => element.later dwindles coherent detached more) _ _ derived
  · rw [dwindles.settled gone.isInstruction (isPhi_eq_false_of_opcode? isStore rfl) gone.blockOf?,
      operands]

end Later

theorem Emptied.later
    (emptied : store.Emptied block)
    (coherent : store.Coherent)
    (dwindles : store.Dwindles left) :
    left.Emptied block := by
  have same := dwindles.instructions_of_emptied coherent emptied.nonempty emptied.ends
  refine ⟨same ▸ emptied.nonempty, fun ref member => ?_⟩
  rw [same] at member
  have linked := (coherent.mem_members block ref).1 member
  rw [dwindles.isDeadEnd (value?_isSome_of_blockOf? (Option.isSome_of_eq_some linked))]
  exact emptied.ends ref member

theorem Dwindles.isNeutral
    (dwindles : store.Dwindles left)
    (coherent : store.Coherent)
    (neutral : store.IsNeutral block) :
    left.IsNeutral block := by
  obtain ⟨deadEnd, alone, isEnd⟩ := neutral
  have emptied : store.Emptied block := by
    refine ⟨by simp [alone], fun ref member => ?_⟩
    rw [alone, List.mem_singleton] at member
    rwa [member]
  have same := dwindles.instructions_of_emptied coherent emptied.nonempty emptied.ends
  refine ⟨deadEnd, same.trans alone, (emptied.later coherent dwindles).ends deadEnd ?_⟩
  rw [same, alone]
  exact List.mem_singleton_self deadEnd

theorem Emptied.isNeutral
    (emptied : store.Emptied block)
    (single : (store.deadEnds block).length ≤ 1) :
    store.IsNeutral block := by
  obtain ⟨first, rest, instructions⟩ := List.exists_cons_of_ne_nil emptied.nonempty
  have ends := emptied.ends
  rw [deadEnds, List.filter_eq_self.2 ends, instructions, List.length_cons] at single
  have alone : rest = [] := List.length_eq_zero_iff.1 (by omega)
  subst alone
  exact ⟨first, instructions, ends first (instructions ▸ List.mem_singleton_self first)⟩

end Store

namespace Pass

open Store Edit Elimination

/--
The report of a run accounts for everything that was taken out since its start, and the
blocks that were neutralized are listed, one for each time.
-/
structure Accounts (origin : Store) (function : Ref) (report : Elimination) (store : Store)
    (cut : List Ref) : Prop where
  dwindles : origin.Dwindles store
  noted : ∀ ref, ref ∈ report.removed ↔
    (origin.blockOf? ref).isSome ∧ store.blockOf? ref = none
  distinct : report.removed.Nodup
  counted : cut.length = report.neutralized
  chosen : ∀ block ∈ cut, origin.Concerns function block ∧ ¬origin.IsNeutral block
  emptied : ∀ block ∈ cut, store.Emptied block
  apart : origin.SingleEnds function → cut.Nodup
  expendable : ∀ ref ∈ report.removed, (∀ block ∈ cut, origin.blockOf? ref ≠ some block) →
    store.Expendable report.removed ref

variable {origin store left : Store} {report report' : Elimination} {function ref block : Ref}
  {cut cut' gone : List Ref}

namespace Accounts

theorem start (coherent : store.Coherent) : Accounts store function {} store [] where
  dwindles := .refl coherent
  noted := by
    intro ref
    simp only [List.not_mem_nil, false_iff, not_and]
    intro linked unlinked
    simp [unlinked] at linked
  distinct := List.nodup_nil
  counted := rfl
  chosen := by simp
  emptied := by simp
  apart := fun _ => List.nodup_nil
  expendable := by simp

theorem detached (accounts : Accounts origin function report store cut) :
    ∀ ref ∈ report.removed, store.Detached ref := by
  intro ref member
  obtain ⟨linked, unlinked⟩ := (accounts.noted ref).1 member
  have isInstruction := isInstruction_of_linked linked
  have present := value?_isSome_of_isInstruction isInstruction
  exact detached_iff.2 ⟨(accounts.dwindles.isInstruction present).trans isInstruction, unlinked⟩

theorem records (accounts : Accounts origin function report store cut) : report.Records store :=
  ⟨accounts.dwindles.coherent, accounts.detached⟩

/-- What is linked and no unreachable end was linked there from the beginning. -/
theorem linked_origin
    (accounts : Accounts origin function report store cut)
    (linked : store.blockOf? ref = some block)
    (other : store.isDeadEnd ref = false) :
    origin.blockOf? ref = some block := by
  have isInstruction := isInstruction_of_linked (Option.isSome_of_eq_some linked)
  exact accounts.dwindles.linked
    (accounts.dwindles.present_of_not_deadEnd isInstruction other) linked

/-- The account goes on when there is a reason for everything that is taken out newly. -/
theorem advance
    (accounts : Accounts origin function report store cut)
    (dwindles : store.Dwindles left)
    (noted : ∀ ref, ref ∈ report'.removed ↔
      ((store.blockOf? ref).isSome ∧ left.blockOf? ref = none) ∨ ref ∈ report.removed)
    (distinct : report.removed.Nodup → report'.removed.Nodup)
    (more : cut ⊆ cut')
    (counted : cut'.length = report'.neutralized)
    (emptied : ∀ block ∈ cut', block ∈ cut ∨
      left.Emptied block ∧ origin.Concerns function block ∧ ¬origin.IsNeutral block)
    (apart : origin.SingleEnds function → cut.Nodup → cut'.Nodup)
    (expendable : ∀ {ref block}, store.blockOf? ref = some block → left.blockOf? ref = none →
      block ∉ cut' → left.Expendable report'.removed ref) :
    Accounts origin function report' left cut' where
  dwindles := accounts.dwindles.trans dwindles
  noted := by
    intro ref
    rw [noted, accounts.noted]
    constructor
    · rintro (⟨linked, unlinked⟩ | ⟨linked, unlinked⟩)
      · obtain ⟨block, linked⟩ := Option.isSome_iff_exists.1 linked
        have other : store.isDeadEnd ref = false := by
          rw [Bool.eq_false_iff]
          intro isEnd
          have still := dwindles.linked_of_isDeadEnd accounts.dwindles.coherent linked isEnd
          cases unlinked.symm.trans still
        exact ⟨Option.isSome_of_eq_some (accounts.linked_origin linked other), unlinked⟩
      · have present := accounts.dwindles.ages.value?_isSome (value?_isSome_of_blockOf? linked)
        exact ⟨linked, dwindles.unlinked present unlinked⟩
    · rintro ⟨linked, unlinked⟩
      cases between : store.blockOf? ref with
      | none => exact .inr ⟨linked, rfl⟩
      | some block => exact .inl ⟨rfl, unlinked⟩
  distinct := distinct accounts.distinct
  counted := counted
  chosen := fun block member => (emptied block member).elim (accounts.chosen block) (·.2)
  emptied := fun block member => (emptied block member).elim
    (fun old => (accounts.emptied block old).later accounts.dwindles.coherent dwindles) (·.1)
  apart := fun single => apart single (accounts.apart single)
  expendable := by
    intro ref member outside
    rcases (noted ref).1 member with ⟨linked, unlinked⟩ | old
    · obtain ⟨block, linked⟩ := Option.isSome_iff_exists.1 linked
      refine expendable linked unlinked fun inside => outside block inside ?_
      refine accounts.linked_origin linked ?_
      rw [Bool.eq_false_iff]
      intro isEnd
      have still := dwindles.linked_of_isDeadEnd accounts.dwindles.coherent linked isEnd
      cases unlinked.symm.trans still
    · refine (accounts.expendable ref old fun block inside => outside block (more inside)).later
        dwindles accounts.dwindles.coherent accounts.detached ?_ old
      exact fun other member => (noted other).2 (.inr member)

/-- Nothing is taken out. -/
theorem idle
    (accounts : Accounts origin function report store cut)
    (dwindles : store.Dwindles left)
    (same : ∀ ref, left.blockOf? ref = store.blockOf? ref) :
    Accounts origin function report left cut := by
  have none : ∀ ref, ¬((store.blockOf? ref).isSome ∧ left.blockOf? ref = none) := by
    rintro ref ⟨linked, unlinked⟩
    simp [← same, unlinked] at linked
  refine accounts.advance dwindles (fun ref => (or_iff_right (none ref)).symm) id
    (fun _ member => member) accounts.counted (fun _ => .inl) (fun _ => id) ?_
  intro ref block linked unlinked
  exact absurd ⟨Option.isSome_of_eq_some linked, unlinked⟩ (none ref)

/-- Instructions are taken out, and there is a reason for each of them. -/
theorem takes
    (accounts : Accounts origin function report store cut)
    (takes : store.Takes gone left)
    (coherent : left.Coherent)
    (notes : report.Notes gone report')
    (linked : ∀ ref ∈ gone, (store.blockOf? ref).isSome)
    (others : ∀ ref ∈ gone, store.isDeadEnd ref = false)
    (expendable : ∀ ref ∈ gone, left.Expendable report'.removed ref) :
    Accounts origin function report' left cut := by
  have newly : ∀ ref, ref ∈ gone ↔ (store.blockOf? ref).isSome ∧ left.blockOf? ref = none := by
    intro ref
    refine ⟨fun member => ⟨linked ref member, takes.blockOf?_taken member⟩, ?_⟩
    rintro ⟨isLinked, unlinked⟩
    by_contra kept
    simp [← takes.blockOf?_kept kept, unlinked] at isLinked
  refine accounts.advance (takes.dwindles accounts.dwindles.coherent coherent others)
    (fun ref => by rw [notes.removed, newly]) notes.distinct (fun _ member => member)
    (accounts.counted.trans notes.neutralized.symm) (fun _ => .inl) (fun _ => id) ?_
  intro ref block linked unlinked _
  exact expendable ref ((newly ref).2 ⟨Option.isSome_of_eq_some linked, unlinked⟩)

end Accounts

end Pass

end ShaderIR
