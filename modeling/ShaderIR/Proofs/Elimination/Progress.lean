import ShaderIR.Pass.DeadCode
import ShaderIR.Proofs.Revision.Neutralizing

/-!
# Progress of the elimination

The report of the elimination grows with everything that is taken out and with
every block that is neutralized.  The other way round, a part of the elimination
that leaves the report as it was leaves the store as it was, too: what is taken
out was linked, so it is new in the report.

The argument needs to know that whatever the report names is linked nowhere.
`Elimination.Records` says so, and every part of the elimination keeps it.
-/

namespace ShaderIR

namespace Store

/-- An instruction that is linked into no block. -/
def Detached (store : Store) (ref : Ref) : Prop :=
  ∃ entry, store.instruction? ref = some entry ∧ entry.block = none

theorem Detached.blockOf? {store : Store} {ref : Ref} (detached : store.Detached ref) :
    store.blockOf? ref = none := by
  obtain ⟨entry, found, unlinked⟩ := detached
  simp [Store.blockOf?, found, unlinked]

/-- A change that links no detached instruction. -/
def Detains (store left : Store) : Prop :=
  ∀ ref, store.Detached ref → left.Detached ref

instance : Edit.Lasting Detains where
  refl := fun _ _ detached => detached
  trans := fun step step' ref detached => step' ref (step ref detached)

section Updates

variable {store : Store}

theorem detains_of_contents
    {left : Store}
    (same : ∀ ref, left.content? ref = store.content? ref) :
    store.Detains left := by
  rintro ref ⟨entry, found, unlinked⟩
  exact ⟨entry, (instruction?_congr (same ref)).trans found, unlinked⟩

theorem detains_modifyInstruction
    {user : Ref}
    {change : Instruction → Instruction}
    (kept : ∀ entry, entry.block = none → (change entry).block = none) :
    store.Detains (store.modifyInstruction user change) := by
  rintro ref ⟨entry, found, unlinked⟩
  rw [Detached, instruction?_modifyInstruction]
  split
  · exact ⟨change entry, by simp [found], kept entry unlinked⟩
  · exact ⟨entry, found, unlinked⟩

theorem detains_modifyBlock (block : Ref) (change : List Ref → List Ref) :
    store.Detains (store.modifyBlock block change) := by
  rintro ref ⟨entry, found, unlinked⟩
  exact ⟨entry, by rw [instruction?_modifyBlock]; exact found, unlinked⟩

theorem detains_allocate (module : Nat) (type : Option Ty) (content : Content) :
    store.Detains (store.allocate module type content).2 := by
  rintro ref ⟨entry, found, unlinked⟩
  refine ⟨entry, ?_, unlinked⟩
  have different : ref ≠ (store.allocate module type content).1 := by
    rintro rfl
    have absent := value?_allocate_fst store module type content
    simp [Store.instruction?, content?, absent] at found
  rw [← found]
  refine instruction?_congr ?_
  rw [content?, content?, value?_allocate, if_neg different]

end Updates

end Store

namespace Edit

open Store

theorem setSlot_detains (user : Ref) (key : Nat) (operand : Option Ref) :
    Respects Detains (setSlot user key operand) := by
  refine Respects.bind (Respects.requireSamePool user operand) fun _ =>
    Respects.bind (Respects.instruction user) fun entry =>
      Respects.bind (Respects.see _) fun _ =>
        Respects.bind (Respects.demand _) fun edge =>
          Respects.bind (Respects.see _) fun _ =>
            Respects.bind (fun store => detains_of_contents fun ref => content?_unlink ..) fun _ =>
              Respects.bind (fun store => detains_of_contents fun ref => rfl) fun _ =>
                Respects.bind (fun store => detains_modifyInstruction fun _ unlinked => unlinked)
                  fun _ => Respects.ifThen ?_ (Respects.pure ())
  exact fun store => detains_of_contents fun ref => content?_link ..

theorem redirect_detains (operand : Option Ref) (uses : List Use) :
    Respects Detains (redirect operand uses) := by
  induction uses with
  | nil => exact Respects.pure ()
  | cons use rest induction =>
      exact Respects.bind (setSlot_detains use.user use.slot operand) fun _ => induction

theorem replaceUses_detains (old : Ref) (new : Option Ref) :
    Respects Detains (replaceUses old new) :=
  Respects.bind (Respects.see _) fun uses => redirect_detains new uses

theorem remove_detains (ref : Ref) : Respects Detains (remove ref) := by
  refine Respects.bind (Respects.instruction ref) fun entry => ?_
  cases entry.block with
  | none => exact Respects.pure ()
  | some block =>
      refine Respects.bind (fun store => detains_modifyBlock block _) fun _ =>
        Respects.bind (fun store => detains_of_contents fun other => rfl) fun _ =>
          Respects.bind (fun store => detains_modifyInstruction fun _ _ => rfl) fun _ => ?_
      exact fun store => detains_of_contents fun other => content?_unlinkAll ..

theorem undefined_detains (module : Nat) (type : Option Ty) :
    Respects Detains (undefined module type) := by
  refine Respects.bind (Respects.see _) fun found => Respects.bind (Respects.demand found) ?_
  intro entry
  split
  · exact Respects.pure _
  · refine Respects.bind (fun store => detains_allocate module type .undefined) fun ref => ?_
    refine Respects.bind (fun store => ?_) fun _ => Respects.pure ref
    exact detains_of_contents fun other => content?_modifyModule ..

end Edit

namespace Pass

open Store Edit

namespace Elimination

/-- The store is coherent, and what the report names is linked nowhere. -/
structure Records (report : Elimination) (store : Store) : Prop where
  coherent : store.Coherent
  detached : ∀ ref ∈ report.removed, store.Detached ref

/--
A part of the elimination keeps its records and its report grows; when the report
is as long as before, nothing has changed.
-/
structure Advances (report : Elimination) (store : Store) (report' : Elimination) (left : Store) :
    Prop where
  records : report'.Records left
  blocks : ∀ block, store.isBlock block = true → left.isBlock block = true
  removed : report.removed.length ≤ report'.removed.length
  neutralized : report.neutralized ≤ report'.neutralized
  quiet : report'.progress = report.progress → report' = report ∧ left = store

variable {report report' report'' : Elimination} {store left last : Store}

theorem Records.of_detains
    (records : report.Records store)
    (keeps : store.Keeps left)
    (detains : store.Detains left) :
    report.Records left where
  coherent := (keeps records.coherent).1
  detached := fun ref member => detains ref (records.detached ref member)

theorem Records.advances (records : report.Records store) : report.Advances store report store where
  records := records
  blocks := fun _ isBlock => isBlock
  removed := Nat.le_refl _
  neutralized := Nat.le_refl _
  quiet := fun _ => ⟨rfl, rfl⟩

theorem Advances.trans
    (advances : report.Advances store report' left)
    (advances' : report'.Advances left report'' last) :
    report.Advances store report'' last where
  records := advances'.records
  blocks := fun block isBlock => advances'.blocks block (advances.blocks block isBlock)
  removed := Nat.le_trans advances.removed advances'.removed
  neutralized := Nat.le_trans advances.neutralized advances'.neutralized
  quiet := by
    intro same
    -- Both reports grow, so neither of them grows when they do not grow together.
    have removed := advances.removed
    have removed' := advances'.removed
    have neutralized := advances.neutralized
    have neutralized' := advances'.neutralized
    simp only [progress, Prod.mk.injEq] at same
    obtain ⟨rfl, rfl⟩ := advances.quiet (by simp only [progress, Prod.mk.injEq]; omega)
    exact advances'.quiet (by simp only [progress, Prod.mk.injEq]; omega)

/-- When two parts together make no progress, the first one makes none. -/
theorem Advances.quiet_first
    (advances : report.Advances store report' left)
    (advances' : report'.Advances left report'' last)
    (same : report''.progress = report.progress) :
    report' = report ∧ left = store := by
  have removed := advances.removed
  have removed' := advances'.removed
  have neutralized := advances.neutralized
  have neutralized' := advances'.neutralized
  simp only [progress, Prod.mk.injEq] at same
  exact advances.quiet (by simp only [progress, Prod.mk.injEq]; omega)

/-! ## Folds -/

section Folds

variable {α : Type}

/-- Every step on an admitted item advances, and items stay admitted while it does. -/
structure Advancing (admits : Store → α → Prop) (step : Elimination → α → Edit Elimination) :
    Prop where
  advances : ∀ {report report' : Elimination} {store left : Store} {item : α},
    report.Records store → admits store item → Gives (step report item) store report' left →
      report.Advances store report' left
  lasting : ∀ {report report' : Elimination} {store left : Store} {item : α},
    report.Advances store report' left → admits store item → admits left item

variable {admits : Store → α → Prop} {step : Elimination → α → Edit Elimination} {items : List α}

theorem Advancing.foldlM
    (advancing : Advancing admits step)
    (records : report.Records store)
    (admitted : ∀ item ∈ items, admits store item)
    (gives : Gives (items.foldlM step report) store report' left) :
    report.Advances store report' left := by
  induction items generalizing report store with
  | nil =>
      obtain ⟨rfl, rfl⟩ := gives_pure_iff.1 gives
      exact records.advances
  | cons item rest induction =>
      rw [List.foldlM_cons] at gives
      obtain ⟨between, middle, first, others⟩ := gives_bind_iff.1 gives
      have advances := advancing.advances records (admitted item List.mem_cons_self) first
      refine advances.trans (induction advances.records (fun other member => ?_) others)
      exact advancing.lasting advances (admitted other (List.mem_cons_of_mem _ member))

/-- When a fold makes no progress, none of its steps makes any. -/
theorem Advancing.gives_of_quiet
    (advancing : Advancing admits step)
    (records : report.Records store)
    (admitted : ∀ item ∈ items, admits store item)
    (gives : Gives (items.foldlM step report) store report' left)
    (same : report'.progress = report.progress) :
    ∀ item ∈ items, Gives (step report item) store report store := by
  induction items with
  | nil => exact fun item member => by cases member
  | cons item rest induction =>
      rw [List.foldlM_cons] at gives
      obtain ⟨between, middle, first, others⟩ := gives_bind_iff.1 gives
      have advances := advancing.advances records (admitted item List.mem_cons_self) first
      have still : ∀ other ∈ rest, admits middle other := fun other member =>
        advancing.lasting advances (admitted other (List.mem_cons_of_mem _ member))
      have advances' := advancing.foldlM advances.records still others
      obtain ⟨rfl, rfl⟩ := advances.quiet_first advances' same
      intro other member
      rcases List.mem_cons.1 member with rfl | later
      · exact first
      · exact induction still others other later

/-- A fold whose steps change nothing changes nothing. -/
theorem gives_foldlM_of_still
    (still : ∀ item ∈ items, Gives (step report item) store report store) :
    Gives (items.foldlM step report) store report store := by
  induction items with
  | nil => exact gives_pure_iff.2 ⟨rfl, rfl⟩
  | cons item rest induction =>
      rw [List.foldlM_cons]
      exact gives_bind_iff.2 ⟨report, store, still item List.mem_cons_self,
        induction fun other member => still other (List.mem_cons_of_mem _ member)⟩

end Folds

/-! ## Taking instructions out -/

theorem mem_removed_of_drop {ref : Ref} (gives : Gives (report.drop ref) store report' left) :
    ref ∈ report'.removed := by
  obtain ⟨_, between, -, rest⟩ := gives_bind_iff.1 gives
  obtain ⟨rfl, -⟩ := gives_pure_iff.1 rest
  by_cases known : ref ∈ report.removed <;> simp [known]

theorem length_removed_of_drop
    {ref : Ref}
    (gives : Gives (report.drop ref) store report' left)
    (new : ref ∉ report.removed) :
    report'.removed.length = report.removed.length + 1 := by
  obtain ⟨_, between, -, rest⟩ := gives_bind_iff.1 gives
  obtain ⟨rfl, -⟩ := gives_pure_iff.1 rest
  simp [new]

/-- Removing an instruction that is linked nowhere changes nothing. -/
theorem eq_of_remove_detached
    {ref : Ref}
    {answer : Unit}
    (detached : store.Detached ref)
    (gives : Gives (Edit.remove ref) store answer left) :
    left = store := by
  obtain ⟨entry, found, unlinked⟩ := detached
  obtain ⟨entry', between, given, rest⟩ := gives_bind_iff.1 gives
  obtain ⟨found', rfl⟩ := gives_instruction_iff.1 given
  cases found.symm.trans found'
  rw [unlinked] at rest
  exact (gives_pure_iff.1 rest).2

/-- Dropping an instruction that is linked nowhere only notes it. -/
theorem eq_of_drop_detached
    {ref : Ref}
    (detached : store.Detached ref)
    (gives : Gives (report.drop ref) store report' left) :
    left = store := by
  obtain ⟨_, _, removes, rest⟩ := gives_bind_iff.1 gives
  obtain ⟨-, rfl⟩ := gives_pure_iff.1 rest
  exact eq_of_remove_detached detached removes

theorem advances_drop
    (records : report.Records store)
    {ref : Ref}
    (gives : Gives (report.drop ref) store report' left) :
    report.Advances store report' left := by
  obtain ⟨takes, coherent, notes⟩ := takes_drop records.coherent gives
  obtain ⟨_, between, given, rest⟩ := gives_bind_iff.1 gives
  obtain ⟨-, rfl⟩ := gives_pure_iff.1 rest
  have detains := (remove_detains ref).of_gives given
  have records' : report'.Records left := by
    refine ⟨coherent, fun other member => ?_⟩
    rcases (notes.removed other).1 member with member | old
    · obtain rfl := List.mem_singleton.1 member
      obtain ⟨entry, _, found, -⟩ := gives_bind_iff.1 given
      obtain ⟨found, -⟩ := gives_instruction_iff.1 found
      exact ⟨{ entry with block := none }, by simp [takes.instruction?, found], rfl⟩
    · exact detains other (records.detached other old)
  refine
    { records := records'
      blocks := fun block isBlock => by rw [takes.ages.isBlock]; exact isBlock
      removed := ?_
      neutralized := Nat.le_of_eq notes.neutralized.symm
      quiet := fun same => ?_ }
  · by_cases known : ref ∈ report.removed
    · obtain ⟨rfl, -⟩ := gives_pure_iff.1 rest
      simp [known]
    · rw [length_removed_of_drop gives known]
      exact Nat.le_succ _
  · by_cases known : ref ∈ report.removed
    · obtain ⟨equal, -⟩ := gives_pure_iff.1 rest
      exact ⟨by simp [equal, known], eq_of_remove_detached (records.detached ref known) given⟩
    · have longer := length_removed_of_drop gives known
      simp only [progress, Prod.mk.injEq] at same
      omega

end Elimination

end Pass

end ShaderIR
