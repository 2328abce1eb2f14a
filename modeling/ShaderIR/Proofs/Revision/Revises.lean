import ShaderIR.Pass.DeadCode.Report
import ShaderIR.Proofs.Revision.Ages

/-!
# Revisions

A revision changes the contents of values in place and nothing else that a
program can tell.  Each edit that trims code is a revision, and it is described
here by the contents it leaves: without some instructions, with operands
redirected, with another opcode, or without one incoming pair of a phi.
-/

namespace ShaderIR

namespace Store

/-- A store whose contents are changed and whose values are otherwise the same. -/
structure Revises (store : Store) (change : Ref → Content → Content) (left : Store) : Prop where
  content? : ∀ ref, left.content? ref = (store.content? ref).map (change ref)
  typeOf : ∀ ref, left.typeOf ref = store.typeOf ref
  moduleOf? : ∀ ref, left.moduleOf? ref = store.moduleOf? ref
  idOf : ∀ ref, left.idOf ref = store.idOf ref
  modules : left.modules = store.modules

variable {store left last : Store} {change change' : Ref → Content → Content}

theorem Revises.refl (store : Store) : store.Revises (fun _ content => content) store where
  content? := fun ref => by rw [Option.map_id']
  typeOf := fun _ => rfl
  moduleOf? := fun _ => rfl
  idOf := fun _ => rfl
  modules := rfl

theorem Revises.trans
    (revises : store.Revises change left)
    (revises' : left.Revises change' last) :
    store.Revises (fun ref content => change' ref (change ref content)) last where
  content? := by
    intro ref
    rw [revises'.content?, revises.content?, Option.map_map]
    rfl
  typeOf := fun ref => (revises'.typeOf ref).trans (revises.typeOf ref)
  moduleOf? := fun ref => (revises'.moduleOf? ref).trans (revises.moduleOf? ref)
  idOf := fun ref => (revises'.idOf ref).trans (revises.idOf ref)
  modules := revises'.modules.trans revises.modules

/-- The same revision, described by a change that agrees on the contents there are. -/
theorem Revises.congr
    (revises : store.Revises change left)
    (agrees : ∀ ref content, store.content? ref = some content →
      change' ref content = change ref content) :
    store.Revises change' left where
  content? := by
    intro ref
    rw [revises.content?]
    cases found : store.content? ref with
    | none => rfl
    | some content => simp [agrees ref content found]
  typeOf := revises.typeOf
  moduleOf? := revises.moduleOf?
  idOf := revises.idOf
  modules := revises.modules

/-- The records are no part of what values are. -/
theorem Revises.record
    {change : Ref → Content → Content}
    (revises : store.Revises change left)
    (records : Records → Records) :
    store.Revises change (left.record records) where
  content? := revises.content?
  typeOf := revises.typeOf
  moduleOf? := revises.moduleOf?
  idOf := revises.idOf
  modules := revises.modules

/-! ## Updates that revise -/

section Updates

variable (store) (ref : Ref)

theorem revises_modifyValue
    {change : Value → Value}
    {changeContent : Content → Content}
    (respected : ∀ value, (change value).content = changeContent value.content ∧
      (change value).type = value.type ∧ (change value).module = value.module ∧
      (change value).id = value.id) :
    store.Revises (fun other content => if ref = other then changeContent content else content)
      (store.modifyValue ref change) where
  content? := by
    intro other
    rw [content?_modifyValue store ref other fun value => (respected value).1]
    split <;> simp
  typeOf := by
    intro other
    rw [Store.typeOf, Store.typeOf, value?_modifyValue]
    split
    · cases store.value? other with
      | none => rfl
      | some value => exact (respected value).2.1
    · rfl
  moduleOf? := by
    intro other
    exact map_value?_modifyValue store ref other fun value => (respected value).2.2.1
  idOf := by
    intro other
    exact congrArg (Option.getD · 0)
      (map_value?_modifyValue store ref other fun value => (respected value).2.2.2)
  modules := rfl

theorem revises_modifyInstruction (change : Instruction → Instruction) :
    store.Revises
      (fun other content => if ref = other then content.mapInstruction change else content)
      (store.modifyInstruction ref change) := by
  refine revises_modifyValue store ref fun value => ?_
  cases equal : value.content <;> simp [Content.mapInstruction, equal]

theorem revises_modifyBlock (change : List Ref → List Ref) :
    store.Revises
      (fun other content => if ref = other then content.mapBlock change else content)
      (store.modifyBlock ref change) := by
  refine revises_modifyValue store ref fun value => ?_
  cases equal : value.content <;> simp [Content.mapBlock, equal]

/-- The uses of a value are no part of what it is. -/
theorem revises_modifyUses (change : List Use → List Use) :
    store.Revises (fun _ content => content)
      (store.modifyValue ref fun value => { value with uses := change value.uses }) := by
  have revises : store.Revises
      (fun other content => if ref = other then id content else content)
      (store.modifyValue ref fun value => { value with uses := change value.uses }) :=
    revises_modifyValue store ref fun _ => ⟨rfl, rfl, rfl, rfl⟩
  exact revises.congr fun other content _ => (ite_self content).symm

theorem revises_link (operand : Option Ref) (use : Use) :
    store.Revises (fun _ content => content) (store.link operand use) := by
  cases operand with
  | none => exact .refl store
  | some value =>
      rw [link_some]
      exact (revises_modifyUses store value (· ++ [use])).record _

theorem revises_unlink (operand : Option Ref) (use : Use) :
    store.Revises (fun _ content => content) (store.unlink operand use) := by
  cases operand with
  | none => exact .refl store
  | some value =>
      rw [unlink_some]
      exact (revises_modifyUses store value (·.erase use)).record _

theorem revises_unlinkAll (user : Ref) (slots : List Slot) :
    store.Revises (fun _ content => content) (store.unlinkAll user slots) := by
  induction slots generalizing store with
  | nil => exact .refl store
  | cons slot rest induction =>
      exact (revises_unlink store slot.value ⟨user, slot.key⟩).trans
        (induction (store.unlink slot.value ⟨user, slot.key⟩))

end Updates

/-! ## Reading a revised store -/

namespace Revises

variable {ref : Ref}

/-- A change of contents that trimming allows. -/
theorem ages
    (revises : store.Revises change left)
    (trims : ∀ ref (content : Content), content.Becomes (change ref content)) :
    store.Ages left where
  kept := by
    intro ref value found
    have content := revises.content? ref
    have type := revises.typeOf ref
    have pool := revises.moduleOf? ref
    have id := revises.idOf ref
    cases found' : left.value? ref with
    | none => simp [Store.content?, found, found'] at content
    | some value' =>
        simp only [Store.content?, Store.typeOf, Store.moduleOf?, Store.idOf, found, found',
          Option.map_some, Option.some.injEq, Option.bind_some, Option.getD_some]
          at content type pool id
        refine ⟨value', rfl, type, pool, id, ?_⟩
        rw [content]
        exact trims ref value.content
  added := by
    intro ref content absent found
    rw [revises.content?] at found
    simp [Store.content?, absent] at found
  functions := by
    intro module
    simp only [functions, revises.modules]

theorem value?_isSome (revises : store.Revises change left) :
    (left.value? ref).isSome ↔ (store.value? ref).isSome := by
  rw [← moduleOf?_isSome_iff, revises.moduleOf?, moduleOf?_isSome_iff]

end Revises

end Store

end ShaderIR

/-!
## Taking instructions out

Unlinking instructions one after the other is one revision: the instructions lose
their blocks, and the lists of all blocks are filtered.
-/

namespace ShaderIR

/-- A content without some instructions. -/
def Content.without (gone : List Ref) (ref : Ref) : Content → Content
  | .instruction entry =>
    .instruction (if ref ∈ gone then { entry with block := none } else entry)
  | .block owner members => .block owner (members.filter (· ∉ gone))
  | other => other

theorem Content.becomes_without (gone : List Ref) (ref : Ref) (content : Content) :
    content.Becomes (content.without gone ref) := by
  cases content <;> simp [without, Becomes]

namespace Store

/-- A store without some instructions. -/
def Takes (store : Store) (gone : List Ref) (left : Store) : Prop :=
  store.Revises (Content.without gone) left

namespace Takes

variable {store left last : Store} {gone gone' : List Ref} {ref block : Ref}

theorem ages (takes : store.Takes gone left) : store.Ages left :=
  Revises.ages takes (Content.becomes_without gone)

theorem refl (store : Store) : store.Takes [] store := by
  refine (Revises.refl store).congr ?_
  intro ref content _
  cases content <;> simp [Content.without]

theorem trans (takes : store.Takes gone left) (takes' : left.Takes gone' last) :
    store.Takes (gone' ++ gone) last := by
  refine (Revises.trans takes takes').congr ?_
  intro ref content _
  cases content with
  | instruction entry =>
      by_cases taken : ref ∈ gone <;> by_cases taken' : ref ∈ gone' <;>
        simp [Content.without, taken, taken']
  | block owner members =>
      simp only [Content.without, List.filter_filter, List.mem_append, not_or]
      simp [Bool.and_comm]
  | _ => rfl

theorem of_mem_iff
    (takes : store.Takes gone left)
    (same : ∀ ref, ref ∈ gone' ↔ ref ∈ gone) :
    store.Takes gone' left := by
  refine takes.congr ?_
  intro ref content _
  cases content <;> simp only [Content.without, same]

theorem instructions (takes : store.Takes gone left) (block : Ref) :
    left.instructions block = (store.instructions block).filter (· ∉ gone) := by
  have content := Revises.content? takes block
  unfold Store.instructions
  rw [content]
  cases found : store.content? block with
  | none => rfl
  | some content => cases content <;> simp [Content.without]

theorem instruction? (takes : store.Takes gone left) (ref : Ref) :
    left.instruction? ref = (store.instruction? ref).map fun entry =>
      if ref ∈ gone then { entry with block := none } else entry := by
  have content := Revises.content? takes ref
  unfold Store.instruction?
  rw [content]
  cases found : store.content? ref with
  | none => rfl
  | some content => cases content <;> simp [Content.without]

theorem instruction?_kept (takes : store.Takes gone left) (kept : ref ∉ gone) :
    left.instruction? ref = store.instruction? ref := by
  rw [takes.instruction?]
  simp [kept]

theorem opcode? (takes : store.Takes gone left) (ref : Ref) :
    left.opcode? ref = store.opcode? ref := by
  rw [Store.opcode?, Store.opcode?, takes.instruction?, Option.map_map]
  cases store.instruction? ref with
  | none => rfl
  | some entry => by_cases taken : ref ∈ gone <;> simp [taken]

theorem operands (takes : store.Takes gone left) (ref : Ref) :
    left.operands ref = store.operands ref := by
  rw [Store.operands, Store.operands, takes.instruction?, Option.map_map]
  cases store.instruction? ref with
  | none => rfl
  | some entry => by_cases taken : ref ∈ gone <;> simp [taken, Instruction.values]

theorem isPhi (takes : store.Takes gone left) (ref : Ref) :
    left.isPhi ref = store.isPhi ref := by
  rw [Store.isPhi, Store.isPhi, takes.opcode?]

theorem isTerminator (takes : store.Takes gone left) (ref : Ref) :
    left.isTerminator ref = store.isTerminator ref := by
  rw [Store.isTerminator, Store.isTerminator, takes.opcode?]

theorem blockOf?_kept (takes : store.Takes gone left) (kept : ref ∉ gone) :
    left.blockOf? ref = store.blockOf? ref := by
  rw [Store.blockOf?, Store.blockOf?, takes.instruction?_kept kept]

theorem blockOf?_taken (takes : store.Takes gone left) (taken : ref ∈ gone) :
    left.blockOf? ref = none := by
  rw [Store.blockOf?, takes.instruction?]
  cases store.instruction? ref <;> simp [taken]

theorem blockOf?_eq_some_iff (takes : store.Takes gone left) :
    left.blockOf? ref = some block ↔ store.blockOf? ref = some block ∧ ref ∉ gone := by
  by_cases taken : ref ∈ gone
  · simp [takes.blockOf?_taken taken, taken]
  · simp [takes.blockOf?_kept taken, taken]

end Takes

/-- Unlinking an instruction takes it out. -/
theorem Coherent.takes_remove
    {store left : Store}
    {ref : Ref}
    {answer : Unit}
    (coherent : store.Coherent)
    (gives : Edit.Gives (Edit.remove ref) store answer left) :
    store.Takes [ref] left := by
  obtain ⟨entry, between, given, rest⟩ := Edit.gives_bind_iff.1 gives
  obtain ⟨found, equal⟩ := Edit.gives_instruction_iff.1 given
  rw [equal] at rest
  -- No block but the one of the instruction lists it.
  have elsewhere : ∀ {block members owner}, store.content? block = some (.block owner members) →
      entry.block ≠ some block → ref ∉ members := by
    intro block members owner content different member
    have listed : ref ∈ store.instructions block := by
      simpa [Store.instructions, content] using member
    have linked := (coherent.mem_members block ref).1 listed
    rw [blockOf?, found] at linked
    exact different linked
  have unlisted : ∀ {members : List Ref}, ref ∉ members → members.filter (· ∉ [ref]) = members := by
    intro members absent
    refine List.filter_eq_self.2 fun other member => ?_
    have different : other ≠ ref := fun same => absent (same ▸ member)
    simp [different]
  cases linked : entry.block with
  | none =>
      rw [linked] at rest
      obtain ⟨-, rfl⟩ := Edit.gives_pure_iff.1 rest
      refine (Revises.refl left).congr ?_
      intro other content content?
      cases content with
      | instruction entry' =>
          by_cases same : other = ref
          · subst same
            cases (instruction?_eq_some_iff.2 content?).symm.trans found
            simp [Content.without, ← linked]
          · simp [Content.without, same]
      | block owner members =>
          simp only [Content.without]
          rw [unlisted (elsewhere content? (by simp [linked]))]
      | _ => rfl
  | some block =>
      rw [linked] at rest
      obtain ⟨_, _, given, rest⟩ := Edit.gives_bind_iff.1 rest
      obtain rfl := Edit.gives_modify_iff.1 given
      obtain ⟨_, _, given, rest⟩ := Edit.gives_bind_iff.1 rest
      obtain rfl := Edit.gives_modify_iff.1 given
      obtain ⟨_, _, given, rest⟩ := Edit.gives_bind_iff.1 rest
      obtain rfl := Edit.gives_modify_iff.1 given
      obtain rfl := Edit.gives_modify_iff.1 rest
      refine ((((revises_modifyBlock store block (·.erase ref)).record _).trans
        (revises_modifyInstruction _ ref fun entry => { entry with block := none })).trans
        (revises_unlinkAll _ ref entry.operands)).congr ?_
      intro other content content?
      cases content with
      | instruction entry' =>
          by_cases same : ref = other
          · subst same
            by_cases inBlock : block = ref <;>
              simp [Content.without, Content.mapInstruction, Content.mapBlock, inBlock]
          · have different : ¬other = ref := fun equal => same equal.symm
            by_cases inBlock : block = other <;>
              simp [Content.without, Content.mapBlock, inBlock, same, different]
      | block owner members =>
          have different : ¬ref = other := by
            rintro rfl
            rw [instruction?_eq_some_iff.1 found] at content?
            cases content?
          by_cases inBlock : block = other
          · subst inBlock
            have distinct : members.Nodup := by
              simpa [Store.instructions, content?] using coherent.membersDistinct block
            simp only [Content.without, Content.mapBlock, if_true, different, if_false]
            rw [distinct.erase_eq_filter]
            refine congrArg (Content.block owner) (List.filter_congr fun other _ => ?_)
            by_cases same : other = ref <;> simp [same]
          · simp only [Content.without, inBlock, different, if_false]
            rw [unlisted (elsewhere content? (by simpa [linked] using inBlock))]
      | _ => by_cases inBlock : block = other <;> by_cases same : ref = other <;>
          simp [Content.without, Content.mapBlock, Content.mapInstruction, inBlock, same]

end Store

namespace Pass.Elimination

open Store Edit

variable {store left : Store} {report report' report'' : Elimination} {gone gone' : List Ref}

/-- A report names some instructions besides, each of them once, and counts no more blocks. -/
structure Notes (report : Elimination) (gone : List Ref) (report' : Elimination) : Prop where
  removed : ∀ ref, ref ∈ report'.removed ↔ ref ∈ gone ∨ ref ∈ report.removed
  neutralized : report'.neutralized = report.neutralized
  distinct : report.removed.Nodup → report'.removed.Nodup

theorem Notes.refl (report : Elimination) : report.Notes [] report where
  removed := by simp
  neutralized := rfl
  distinct := id

theorem Notes.trans (notes : report.Notes gone report') (notes' : report'.Notes gone' report'') :
    report.Notes (gone' ++ gone) report'' where
  removed := by
    intro ref
    rw [notes'.removed, notes.removed, List.mem_append, or_assoc]
  neutralized := notes'.neutralized.trans notes.neutralized
  distinct := fun distinct => notes'.distinct (notes.distinct distinct)

theorem Notes.of_mem_iff
    (notes : report.Notes gone report')
    (same : ∀ ref, ref ∈ gone' ↔ ref ∈ gone) :
    report.Notes gone' report' :=
  { notes with removed := fun ref => by rw [notes.removed, same] }

/-- Dropping an instruction takes it out, keeps the store coherent and notes the instruction. -/
theorem takes_drop
    (coherent : store.Coherent)
    {ref : Ref}
    (gives : Gives (report.drop ref) store report' left) :
    store.Takes [ref] left ∧ left.Coherent ∧ report.Notes [ref] report' := by
  obtain ⟨_, between, given, rest⟩ := gives_bind_iff.1 gives
  obtain ⟨rfl, rfl⟩ := gives_pure_iff.1 rest
  refine ⟨coherent.takes_remove given, ((remove_keeps ref).of_gives given coherent).1, ?_⟩
  by_cases known : ref ∈ report.removed
  · simp only [List.contains_iff_mem, known, if_true]
    refine ⟨fun other => ⟨.inr, ?_⟩, rfl, id⟩
    rintro (member | member)
    · rwa [List.mem_singleton.1 member]
    · exact member
  · simp only [List.contains_iff_mem, known, if_false]
    exact ⟨by simp, rfl, fun distinct => List.nodup_cons.2 ⟨known, distinct⟩⟩

/-- Dropping instructions one after the other takes all of them out. -/
theorem takes_drops
    (coherent : store.Coherent)
    {refs : List Ref}
    (gives : Gives (refs.foldlM drop report) store report' left) :
    store.Takes refs left ∧ left.Coherent ∧ report.Notes refs report' := by
  induction refs generalizing store report with
  | nil =>
      obtain ⟨rfl, rfl⟩ := gives_pure_iff.1 gives
      exact ⟨Takes.refl left, coherent, .refl report'⟩
  | cons ref rest induction =>
      rw [List.foldlM_cons] at gives
      obtain ⟨between, middle, first, others⟩ := gives_bind_iff.1 gives
      obtain ⟨takes, coherent', notes⟩ := takes_drop coherent first
      obtain ⟨takes', coherent'', notes'⟩ := induction coherent' others
      have same : ∀ other, other ∈ ref :: rest ↔ other ∈ rest ++ [ref] := by simp [or_comm]
      exact ⟨(takes.trans takes').of_mem_iff same, coherent'', (notes.trans notes').of_mem_iff same⟩

end Pass.Elimination

end ShaderIR
