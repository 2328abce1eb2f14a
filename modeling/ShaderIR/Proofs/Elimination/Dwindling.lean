import Mathlib.Logic.Relation
import ShaderIR.Proofs.Elimination.Liveness
import ShaderIR.Proofs.Elimination.Tidying
import ShaderIR.Proofs.Revision.Trimming

/-!
# Dwindling

Whatever the elimination does, a program dwindles.  Instructions are taken out and stay
where they are otherwise, merge blocks and incomings are dropped, and only ends of
neutralized blocks are new.  A phi gives way to one of its own incomings, so a value
that comes to an instruction has come to it before, if only through phis.  What nothing
uses is therefore not used later, either.

What a function depends on dwindles with it: the part of a program that is connected to
the function by operands never grows by anything that was there before.
-/

namespace ShaderIR

/-- The kind of an opcode: all of it but the merge block and the incoming blocks. -/
def Opcode.kind : Opcode → Opcode
  | .phi _ => .phi []
  | opcode => opcode.withMerge none

namespace Opcode

theorem view_kind
    {α : Type}
    (view : Opcode → α)
    (unmerged : ∀ opcode : Opcode, view (opcode.withMerge none) = view opcode)
    (pruned : ∀ sources sources', view (.phi sources') = view (.phi sources))
    (opcode : Opcode) :
    view opcode.kind = view opcode := by
  unfold kind
  split
  · exact pruned _ _
  · exact unmerged opcode

theorem isPhi_kind (opcode : Opcode) : opcode.kind.isPhi = opcode.isPhi :=
  view_kind isPhi (fun opcode => by cases opcode <;> rfl) (fun _ _ => rfl) opcode

theorem isUnreachable_kind (opcode : Opcode) : opcode.kind.isUnreachable = opcode.isUnreachable :=
  view_kind isUnreachable (fun opcode => by cases opcode <;> rfl) (fun _ _ => rfl) opcode

theorem isPure_kind (opcode : Opcode) : Pass.isPure opcode.kind = Pass.isPure opcode :=
  view_kind Pass.isPure (fun opcode => by cases opcode <;> rfl) (fun _ _ => rfl) opcode

/-- Opcodes that hold neither a merge block nor incoming blocks are their own kind. -/
theorem eq_of_kind
    {opcode other : Opcode}
    (unmerged : opcode.merge? = none)
    (notPhi : opcode.isPhi = false)
    (same : other.kind = opcode.kind) :
    other = opcode := by
  have plain : opcode.kind = opcode := by
    cases opcode <;> simp_all [kind, withMerge, merge?, isPhi]
  rw [plain] at same
  subst same
  cases other <;> simp_all [kind, withMerge, merge?, isPhi]

end Opcode

namespace Instruction.Tidied

variable {entry entry' : Instruction}

theorem kind (tidied : entry.Tidied entry') : entry'.opcode.kind = entry.opcode.kind :=
  tidied.opcode_congr (fun opcode => by cases opcode <;> rfl) fun _ _ => rfl

theorem operands_of_not_phi (tidied : entry.Tidied entry') (notPhi : entry.opcode.isPhi = false) :
    entry'.operands = entry.operands := by
  cases tidied with
  | same | unmerged => rfl
  | pruned isPhi => simp [isPhi, Opcode.isPhi] at notPhi

end Instruction.Tidied

namespace Store

/-- The kind of an instruction. -/
def kind? (store : Store) (ref : Ref) : Option Opcode :=
  (store.opcode? ref).map Opcode.kind

/-- The unreachable ends of a block. -/
def deadEnds (store : Store) (block : Ref) : List Ref :=
  (store.instructions block).filter store.isDeadEnd

/-- A linked instruction has a block or an instruction among its operands. -/
structure Feeds (store : Store) (ref user : Ref) : Prop where
  linked : (store.blockOf? user).isSome
  operand : some ref ∈ store.operands user
  placed : store.isBlock ref = true ∨ store.isInstruction ref = true

/--
What is connected with a function: its blocks and the instructions in them, the blocks and
instructions that these use, the instructions that use these, and so on.
-/
inductive Concerns (store : Store) (function : Ref) : Ref → Prop
  | own {block : Ref} (owner : store.blockFunction? block = some function) :
      Concerns store function block
  | member {block ref : Ref} (inside : Concerns store function block)
      (linked : store.blockOf? ref = some block) :
      Concerns store function ref
  | operand {ref user : Ref} (uses : Concerns store function user) (feeds : store.Feeds ref user) :
      Concerns store function ref
  | user {ref user : Ref} (used : Concerns store function ref) (feeds : store.Feeds ref user) :
      Concerns store function user

/-- Instructions are taken out, operands go or give way to what came through phis. -/
structure Dwindles (store left : Store) : Prop where
  coherent : left.Coherent
  regular : store.Regular → left.Regular
  ages : store.Ages left
  kind : ∀ {ref}, (store.value? ref).isSome → left.kind? ref = store.kind? ref
  linked : ∀ {ref block}, (store.value? ref).isSome → left.blockOf? ref = some block →
    store.blockOf? ref = some block
  added : ∀ {ref opcode}, store.value? ref = none → left.opcode? ref = some opcode →
    opcode.isUnreachable = true
  deadEnds : ∀ block, left.deadEnds block = store.deadEnds block ∨
    store.deadEnds block = [] ∧ (left.deadEnds block).length = 1
  /-- What comes to an instruction came to it before. -/
  supplied : ∀ {ref user}, left.Feeds ref user → Relation.TransGen store.Feeds ref user
  /-- An instruction keeps its operands, unless it is a phi or they are. -/
  stable : ∀ {user} {position : Nat} {operand : Option Ref}, store.isPhi user = false →
    operand.any store.isPhi = false → (store.operands user)[position]? = some operand →
    (left.operands user)[position]? = some operand
  /-- An instruction that is linked nowhere does not change, unless it is a phi. -/
  settled : ∀ {ref}, store.isInstruction ref = true → store.isPhi ref = false →
    store.blockOf? ref = none → left.operands ref = store.operands ref

variable {store left last : Store} {function ref user block : Ref}

theorem opcode?_of_isInstruction (isInstruction : store.isInstruction ref = true) :
    ∃ opcode, store.opcode? ref = some opcode := by
  obtain ⟨entry, found⟩ := Option.isSome_iff_exists.1 isInstruction
  exact ⟨entry.opcode, by simp [opcode?, found]⟩

theorem isInstruction_of_opcode? {opcode : Opcode} (found : store.opcode? ref = some opcode) :
    store.isInstruction ref = true := by
  obtain ⟨entry, found, -⟩ := Option.map_eq_some_iff.1 found
  simp [isInstruction, found]

theorem value?_isSome_of_isInstruction (isInstruction : store.isInstruction ref = true) :
    (store.value? ref).isSome := by
  obtain ⟨opcode, found⟩ := opcode?_of_isInstruction isInstruction
  exact value?_isSome_of_opcode? found

theorem isInstruction_of_mem_operands
    {operand : Option Ref}
    (member : operand ∈ store.operands ref) :
    store.isInstruction ref = true := by
  unfold operands at member
  cases found : store.instruction? ref with
  | none => simp [found] at member
  | some entry => simp [isInstruction, found]

theorem Feeds.present (feeds : store.Feeds ref user) : (store.value? ref).isSome :=
  feeds.placed.elim value?_isSome_of_isBlock value?_isSome_of_isInstruction

/-! ## Users of a value -/

theorem Coherent.feeds_of_use
    (coherent : store.Coherent)
    {use : Use}
    (isInstruction : store.isInstruction ref = true)
    (member : use ∈ store.usesOf ref) :
    store.Feeds ref use.user := by
  obtain ⟨linked, operand⟩ := coherent.exists_use_iff.1 ⟨use, member, rfl⟩
  exact ⟨linked, operand, .inr isInstruction⟩

theorem Feeds.exists_use (feeds : store.Feeds ref user) (coherent : store.Coherent) :
    ∃ use ∈ store.usesOf ref, use.user = user :=
  coherent.exists_use_iff.2 ⟨feeds.linked, feeds.operand⟩

/-! ## What is connected with a function -/

theorem Concerns.present (inside : store.Concerns function ref) : (store.value? ref).isSome := by
  cases inside with
  | own owner =>
      exact value?_isSome_of_isBlock (isBlock_iff_blockFunction?.2 (Option.isSome_of_eq_some owner))
  | member _ linked => exact value?_isSome_of_blockOf? (Option.isSome_of_eq_some linked)
  | operand _ feeds => exact feeds.present
  | user _ feeds => exact value?_isSome_of_blockOf? feeds.linked

theorem Reached.concerns (reached : store.Reached function block) (coherent : store.Coherent) :
    store.Concerns function block := by
  obtain ⟨body, hasBody, reaches⟩ := reached
  induction reaches with
  | refl =>
      obtain ⟨entry, found, isBody⟩ := Option.bind_eq_some_iff.1 hasBody
      exact .own (coherent.bodyOwner found isBody)
  | tail _ edge inside =>
      obtain ⟨terminator, last, operand, isBlock⟩ := mem_successors_iff.1 edge
      have linked := (coherent.mem_members _ terminator).1 (mem_instructions_of_terminator? last)
      refine .operand (.member inside linked) ⟨?_, operand, .inl isBlock⟩
      exact Option.isSome_of_eq_some linked

theorem Concerns.of_mem_traverse
    (coherent : store.Coherent)
    (member : ref ∈ store.traverse function) :
    store.Concerns function ref := by
  obtain ⟨block, reached, inside⟩ := coherent.mem_traverse_iff.1 member
  exact .member (reached.concerns coherent) ((coherent.mem_members block ref).1 inside)

theorem Concerns.of_fed
    (inside : store.Concerns function ref)
    (feeds : Relation.ReflTransGen store.Feeds ref user) :
    store.Concerns function user := by
  induction feeds with
  | refl => exact inside
  | tail _ feeds inside => exact .user inside feeds

theorem Concerns.of_feeding
    (inside : store.Concerns function user)
    (feeds : Relation.ReflTransGen store.Feeds ref user) :
    store.Concerns function ref := by
  induction feeds using Relation.ReflTransGen.head_induction_on with
  | refl => exact inside
  | head feeds _ inside => exact .operand inside feeds

/-! ## Dwindling -/

namespace Dwindles

theorem refl (coherent : store.Coherent) : store.Dwindles store where
  coherent := coherent
  regular := id
  ages := Edit.Lasting.refl store
  kind := fun _ => rfl
  linked := fun _ linked => linked
  added := by
    intro ref opcode absent found
    have present := value?_isSome_of_opcode? found
    simp [absent] at present
  deadEnds := fun _ => .inl rfl
  supplied := .single
  stable := fun _ _ atPosition => atPosition
  settled := fun _ _ _ => rfl

/-- What looks at neither merge blocks nor incomings sees the opcode that was there before. -/
theorem view
    (dwindles : store.Dwindles left)
    (present : (store.value? ref).isSome)
    (view : Opcode → Bool)
    (kinds : ∀ opcode, view opcode.kind = view opcode) :
    (left.opcode? ref).any view = (store.opcode? ref).any view := by
  have same := congrArg (Option.any view) (dwindles.kind present)
  simpa [kind?, Option.any_map, Function.comp_def, kinds] using same

theorem isPhi (dwindles : store.Dwindles left) (present : (store.value? ref).isSome) :
    left.isPhi ref = store.isPhi ref :=
  dwindles.view present Opcode.isPhi Opcode.isPhi_kind

theorem isDeadEnd (dwindles : store.Dwindles left) (present : (store.value? ref).isSome) :
    left.isDeadEnd ref = store.isDeadEnd ref :=
  dwindles.view present Opcode.isUnreachable Opcode.isUnreachable_kind

theorem isPure (dwindles : store.Dwindles left) (present : (store.value? ref).isSome) :
    (left.opcode? ref).any Pass.isPure = (store.opcode? ref).any Pass.isPure :=
  dwindles.view present Pass.isPure Opcode.isPure_kind

theorem isInstruction (dwindles : store.Dwindles left) (present : (store.value? ref).isSome) :
    left.isInstruction ref = store.isInstruction ref := by
  have same := dwindles.view present (fun _ => true) fun _ => rfl
  simpa [opcode?, Store.isInstruction, Option.any_map, Function.comp_def,
    Option.any_true] using same

/-- An opcode without merge block and incomings stays the same. -/
theorem opcode?_iff
    (dwindles : store.Dwindles left)
    (present : (store.value? ref).isSome)
    {opcode : Opcode}
    (unmerged : opcode.merge? = none)
    (notPhi : opcode.isPhi = false) :
    left.opcode? ref = some opcode ↔ store.opcode? ref = some opcode := by
  have same := dwindles.kind present
  constructor
  · intro found
    rw [kind?, kind?, found, Option.map_some] at same
    obtain ⟨other, found', kinds⟩ := Option.map_eq_some_iff.1 same.symm
    rw [found', Opcode.eq_of_kind unmerged notPhi kinds]
  · intro found
    rw [kind?, kind?, found, Option.map_some] at same
    obtain ⟨other, found', kinds⟩ := Option.map_eq_some_iff.1 same
    rw [found', Opcode.eq_of_kind unmerged notPhi kinds]

theorem unlinked
    (dwindles : store.Dwindles left)
    (present : (store.value? ref).isSome)
    (unlinked : store.blockOf? ref = none) :
    left.blockOf? ref = none := by
  refine Option.eq_none_iff_forall_ne_some.2 fun block linked => ?_
  cases unlinked.symm.trans (dwindles.linked present linked)

theorem present_of_not_deadEnd
    (dwindles : store.Dwindles left)
    (isInstruction : left.isInstruction ref = true)
    (other : left.isDeadEnd ref = false) :
    (store.value? ref).isSome := by
  by_contra absent
  obtain ⟨opcode, found⟩ := opcode?_of_isInstruction isInstruction
  have isEnd := dwindles.added (Option.not_isSome_iff_eq_none.1 absent) found
  simp [Store.isDeadEnd, found, isEnd] at other

/-- No phi is new. -/
theorem isPhi_eq_false (dwindles : store.Dwindles left) (notPhi : store.isPhi ref = false) :
    left.isPhi ref = false := by
  by_cases present : (store.value? ref).isSome
  · rw [dwindles.isPhi present, notPhi]
  · rw [Store.isPhi, Option.any_eq_false]
    intro opcode found
    have isEnd := dwindles.added (Option.not_isSome_iff_eq_none.1 present) found
    cases opcode <;> simp_all [Opcode.isPhi, Opcode.isUnreachable]

theorem trans (dwindles : store.Dwindles left) (dwindles' : left.Dwindles last) :
    store.Dwindles last where
  coherent := dwindles'.coherent
  regular := fun regular => dwindles'.regular (dwindles.regular regular)
  ages := Edit.Lasting.trans dwindles.ages dwindles'.ages
  kind := fun present =>
    (dwindles'.kind (dwindles.ages.value?_isSome present)).trans (dwindles.kind present)
  linked := fun present linked =>
    dwindles.linked present (dwindles'.linked (dwindles.ages.value?_isSome present) linked)
  added := by
    intro ref opcode absent found
    cases between : left.value? ref with
    | none => exact dwindles'.added between found
    | some value =>
        have present : (left.value? ref).isSome := Option.isSome_of_eq_some between
        have isEnd := dwindles'.isDeadEnd present
        obtain ⟨former, found'⟩ := opcode?_of_isInstruction
          ((dwindles'.isInstruction present).symm.trans (isInstruction_of_opcode? found))
        have wasEnd := dwindles.added absent found'
        simpa [Store.isDeadEnd, found, found', wasEnd] using isEnd
  deadEnds := by
    intro block
    rcases dwindles.deadEnds block, dwindles'.deadEnds block with
      ⟨same | ⟨none, one⟩, same' | ⟨none', one'⟩⟩
    · exact .inl (same'.trans same)
    · exact .inr ⟨same ▸ none', one'⟩
    · exact .inr ⟨none, same' ▸ one⟩
    · rw [none'] at one
      cases one
  supplied := fun feeds =>
    Relation.TransGen.closed (fun _ _ feeds => dwindles.supplied feeds) _ _
      (dwindles'.supplied feeds)
  stable := by
    intro user position operand notPhi plain atPosition
    have member := List.mem_of_getElem? atPosition
    refine dwindles'.stable ?_ ?_ (dwindles.stable notPhi plain atPosition)
    · exact dwindles.isPhi_eq_false notPhi
    · cases operand with
      | none => rfl
      | some ref => exact dwindles.isPhi_eq_false plain
  settled := by
    intro ref isInstruction notPhi unlinked
    have present := value?_isSome_of_isInstruction isInstruction
    rw [dwindles'.settled, dwindles.settled isInstruction notPhi unlinked]
    · rw [dwindles.isInstruction present, isInstruction]
    · rw [dwindles.isPhi present, notPhi]
    · exact dwindles.unlinked present unlinked

/-- What nothing uses is not used later. -/
theorem usesOf_eq_nil
    (dwindles : store.Dwindles left)
    (coherent : store.Coherent)
    (isInstruction : store.isInstruction ref = true)
    (unused : store.usesOf ref = []) :
    left.usesOf ref = [] := by
  refine dwindles.coherent.usesOf_eq_nil_iff.2 fun user linked operand => ?_
  have present := value?_isSome_of_isInstruction isInstruction
  have feeds : left.Feeds ref user :=
    ⟨linked, operand, .inr (by rw [dwindles.isInstruction present, isInstruction])⟩
  obtain ⟨first, fed, -⟩ := Relation.TransGen.head'_iff.1 (dwindles.supplied feeds)
  exact coherent.usesOf_eq_nil_iff.1 unused first fed.linked fed.operand

/-- A block with nothing but unreachable ends keeps them. -/
theorem instructions_of_emptied
    (dwindles : store.Dwindles left)
    (coherent : store.Coherent)
    (nonempty : store.instructions block ≠ [])
    (emptied : ∀ ref ∈ store.instructions block, store.isDeadEnd ref = true) :
    left.instructions block = store.instructions block := by
  have whole : store.deadEnds block = store.instructions block := List.filter_eq_self.2 emptied
  have same : left.deadEnds block = store.deadEnds block :=
    (dwindles.deadEnds block).resolve_right fun grown => nonempty (whole ▸ grown.1)
  rw [← whole, ← same]
  refine (List.filter_eq_self.2 fun ref member => ?_).symm
  have linked := (dwindles.coherent.mem_members block ref).1 member
  by_cases present : (store.value? ref).isSome
  · rw [dwindles.isDeadEnd present]
    exact emptied ref ((coherent.mem_members block ref).2 (dwindles.linked present linked))
  · obtain ⟨opcode, found⟩ :=
      opcode?_of_isInstruction (isInstruction_of_linked (Option.isSome_of_eq_some linked))
    have isEnd := dwindles.added (Option.not_isSome_iff_eq_none.1 present) found
    simpa [Store.isDeadEnd, found] using isEnd

/-- Linked unreachable ends stay linked. -/
theorem linked_of_isDeadEnd
    (dwindles : store.Dwindles left)
    (coherent : store.Coherent)
    (linked : store.blockOf? ref = some block)
    (isEnd : store.isDeadEnd ref = true) :
    left.blockOf? ref = some block := by
  have member : ref ∈ store.deadEnds block :=
    List.mem_filter.2 ⟨(coherent.mem_members block ref).2 linked, isEnd⟩
  have same : left.deadEnds block = store.deadEnds block :=
    (dwindles.deadEnds block).resolve_right fun grown => by simp [grown.1] at member
  rw [← same] at member
  exact (dwindles.coherent.mem_members block ref).1 (List.mem_filter.1 member).1

/-- What is connected with a function later is new or was connected with it before. -/
theorem concerns
    (dwindles : store.Dwindles left)
    (inside : left.Concerns function ref)
    (present : (store.value? ref).isSome) :
    store.Concerns function ref := by
  induction inside with
  | own owner =>
      rw [dwindles.ages.blockFunction?] at owner
      exact .own owner
  | @member block ref _ linked inside =>
      have linked := dwindles.linked present linked
      have isBlock := dwindles.coherent.isBlock_of_blockOf? ‹left.blockOf? ref = some block›
      rw [dwindles.ages.isBlock] at isBlock
      exact .member (inside (value?_isSome_of_isBlock isBlock)) linked
  | @operand ref user _ feeds inside =>
      have fed := dwindles.supplied feeds
      obtain ⟨_, -, last⟩ := Relation.TransGen.tail'_iff.1 fed
      have userPresent := value?_isSome_of_isInstruction (isInstruction_of_linked last.linked)
      exact (inside userPresent).of_feeding fed.to_reflTransGen
  | @user ref user _ feeds inside =>
      have fed := dwindles.supplied feeds
      obtain ⟨_, first, -⟩ := Relation.TransGen.head'_iff.1 fed
      exact (inside first.present).of_fed fed.to_reflTransGen

end Dwindles

end Store

end ShaderIR
