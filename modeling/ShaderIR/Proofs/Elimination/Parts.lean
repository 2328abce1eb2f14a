import ShaderIR.Proofs.Elimination.Progress

/-!
# The parts of a round

Each part of a round advances: neutralizing blocks, taking out what nothing
needs, removing variables that are only written, and removing phis.  Where such
a part makes no progress, it had nothing to do: the blocks were neutral already,
and no variable and no phi was to be removed.
-/

namespace ShaderIR

namespace Store

/-- A block that holds one unreachable end and nothing else. -/
def IsNeutral (store : Store) (block : Ref) : Prop :=
  ∃ deadEnd, store.instructions block = [deadEnd] ∧ store.isDeadEnd deadEnd = true

theorem isNeutral_iff {store : Store} {block : Ref} :
    store.IsNeutral block ↔
      store.endsUnreachable block = true ∧ (store.instructions block).length = 1 := by
  unfold IsNeutral endsUnreachable terminatorOpcode? terminator? isDeadEnd isTerminator
  constructor
  · rintro ⟨deadEnd, alone, isEnd⟩
    rw [alone]
    cases found : store.opcode? deadEnd with
    | none => simp [found] at isEnd
    | some opcode =>
        rw [found, Option.any_some] at isEnd
        cases opcode <;> simp [Opcode.isUnreachable] at isEnd
        simp [found, Opcode.isTerminator, Opcode.isUnreachable, Option.filter]
  · rintro ⟨isEnd, single⟩
    obtain ⟨deadEnd, alone⟩ := List.length_eq_one_iff.1 single
    refine ⟨deadEnd, alone, ?_⟩
    rw [alone] at isEnd
    cases found : store.opcode? deadEnd with
    | none => simp [found, Option.filter] at isEnd
    | some opcode =>
        cases opcode <;>
          simp_all [Opcode.isTerminator, Opcode.isUnreachable, Option.filter]

theorem IsNeutral.endsUnreachable {store : Store} {block : Ref} (neutral : store.IsNeutral block) :
    store.endsUnreachable block = true :=
  (isNeutral_iff.1 neutral).1

end Store

namespace Pass

open Store Edit Elimination

variable {report report' : Elimination} {store left : Store}

/-! ## Neutralizing blocks -/

theorem advances_emptyBlock
    (records : report.Records store)
    {refs : List Ref}
    (gives : Gives (emptyBlock report refs) store report' left) :
    report.Advances store report' left := by
  induction refs generalizing report store with
  | nil =>
      obtain ⟨rfl, rfl⟩ := gives_pure_iff.1 gives
      exact records.advances
  | cons ref rest induction =>
      replace gives := gives_see_bind_iff.1 gives
      split at gives
      · exact induction records gives
      · obtain ⟨between, middle, dropped, gives⟩ := gives_bind_iff.1 gives
        have advances := advances_drop records dropped
        exact advances.trans (induction advances.records gives)

/-- A new unreachable end detaches nothing and leaves what is detached so. -/
theorem records_of_receives
    (records : report.Records store)
    {block new : Ref}
    (receives : store.Receives block none new (deadEnd block) left) :
    report.Records left := by
  refine ⟨receives.coherent, fun ref member => ?_⟩
  obtain ⟨entry, found, unlinked⟩ := records.detached ref member
  have different : ref ≠ new := by
    rintro rfl
    have absent := receives.fresh
    simp [Store.instruction?, content?, absent] at found
  exact ⟨entry, (receives.instruction?_old different).trans found, unlinked⟩

theorem advances_neutralize
    (records : report.Records store)
    {block : Ref}
    (isBlock : store.isBlock block = true)
    (gives : Gives (neutralize report block) store report' left) :
    report.Advances store report' left := by
  replace gives := gives_see_bind_iff.1 (gives_see_bind_iff.1 gives)
  split at gives
  · obtain ⟨rfl, rfl⟩ := gives_pure_iff.1 gives
    exact records.advances
  · obtain ⟨between, middle, emptied, gives⟩ := gives_bind_iff.1 gives
    have advances := advances_emptyBlock records emptied
    replace gives := gives_see_bind_iff.1 gives
    -- The number of neutralized blocks grows in any case, so the part is never quiet.
    have counted : ∀ {last : Store}, between.Records last →
        (∀ block, store.isBlock block = true → last.isBlock block = true) →
        report.Advances store { between with neutralized := between.neutralized + 1 } last := by
      intro last records' blocks
      refine
        { records := ⟨records'.coherent, records'.detached⟩
          blocks := blocks
          removed := advances.removed
          neutralized := Nat.le_succ_of_le advances.neutralized
          quiet := fun same => ?_ }
      have neutralized := advances.neutralized
      simp only [progress, Prod.mk.injEq] at same
      omega
    split at gives
    · rename_i empty
      obtain ⟨_, closed, closing, gives⟩ := gives_bind_iff.1 gives
      obtain ⟨rfl, rfl⟩ := gives_pure_iff.1 gives
      obtain ⟨new, receives⟩ := Build.receives_unreachable advances.records.coherent
        (advances.blocks block isBlock) (List.isEmpty_iff.1 empty) closing
      refine counted (records_of_receives advances.records receives) fun other isBlock' => ?_
      rw [receives.ages.isBlock]
      exact advances.blocks other isBlock'
    · obtain ⟨rfl, rfl⟩ := gives_pure_iff.1 gives
      exact counted advances.records advances.blocks

theorem advancing_neutralize :
    Advancing (fun store block => store.isBlock block = true) neutralize where
  advances := fun records isBlock gives => advances_neutralize records isBlock gives
  lasting := fun advances isBlock => advances.blocks _ isBlock

/-- A block that is neutralized without progress is neutral. -/
theorem isNeutral_of_gives
    {block : Ref}
    (records : report.Records store)
    (gives : Gives (neutralize report block) store report left) :
    store.IsNeutral block := by
  replace gives := gives_see_bind_iff.1 (gives_see_bind_iff.1 gives)
  split at gives
  · rename_i alone
    simp only [Bool.and_eq_true, beq_iff_eq] at alone
    exact isNeutral_iff.2 alone
  · obtain ⟨between, middle, emptied, gives⟩ := gives_bind_iff.1 gives
    have neutralized := (advances_emptyBlock records emptied).neutralized
    replace gives := gives_see_bind_iff.1 gives
    have counted : report.neutralized = between.neutralized + 1 := by
      split at gives
      · obtain ⟨_, _, -, gives⟩ := gives_bind_iff.1 gives
        obtain ⟨equal, -⟩ := gives_pure_iff.1 gives
        rw [equal]
      · obtain ⟨equal, -⟩ := gives_pure_iff.1 gives
        rw [equal]
    omega

/-- A neutral block stays as it is. -/
theorem gives_neutralize_of_isNeutral
    (report : Elimination)
    {block : Ref}
    (neutral : store.IsNeutral block) :
    Gives (neutralize report block) store report store := by
  obtain ⟨isEnd, single⟩ := isNeutral_iff.1 neutral
  refine gives_see_bind_iff.2 (gives_see_bind_iff.2 ?_)
  rw [if_pos (by simp [isEnd, single])]
  exact gives_pure_iff.2 ⟨rfl, rfl⟩

/-! ## Taking out what nothing needs -/

theorem advancing_drop : Advancing (fun _ _ => True) drop where
  advances := fun records _ gives => advances_drop records gives
  lasting := fun _ _ => trivial

/-- An instruction that is taken out without progress was linked nowhere. -/
theorem detached_of_gives
    {ref : Ref}
    (records : report.Records store)
    (gives : Gives (report.drop ref) store report left) :
    store.Detached ref :=
  records.detached ref (mem_removed_of_drop gives)

/-! ## Removing variables that are only written -/

theorem advances_removeUser
    {remove : Elimination → Ref → Edit Elimination}
    (records : report.Records store)
    {use : Use}
    (users : ∀ {report report' : Elimination} {store left : Store} {ref : Ref},
      report.Records store → Gives (remove report ref) store report' left →
        report.Advances store report' left)
    (gives : Gives (removeUser remove report use) store report' left) :
    report.Advances store report' left := by
  replace gives := gives_see_bind_iff.1 gives
  split at gives
  · exact users records gives
  · obtain ⟨rfl, rfl⟩ := gives_pure_iff.1 gives
    exact records.advances

theorem advances_removeWithUsers
    {bound : Nat}
    (records : report.Records store)
    {ref : Ref}
    (gives : Gives (removeWithUsers bound report ref) store report' left) :
    report.Advances store report' left := by
  induction bound generalizing report report' store left ref with
  | zero => exact absurd gives not_gives_endless
  | succ bound induction =>
      replace gives := gives_see_bind_iff.1 gives
      obtain ⟨between, middle, users, gives⟩ := gives_bind_iff.1 gives
      have advances : report.Advances store between middle :=
        Gives.foldlM (report.Advances store) users records.advances
          fun use _ _ _ _ _ advances gives => advances.trans
            (advances_removeUser advances.records
              (fun records gives => induction records gives) gives)
      exact advances.trans (advances_drop advances.records gives)

theorem mem_removed_of_removeWithUsers
    {bound : Nat}
    {ref : Ref}
    (gives : Gives (removeWithUsers bound report ref) store report' left) :
    ref ∈ report'.removed := by
  cases bound with
  | zero => exact absurd gives not_gives_endless
  | succ bound =>
      obtain ⟨_, _, -, gives⟩ := gives_bind_iff.1 gives
      obtain ⟨_, _, -, gives⟩ := gives_bind_iff.1 gives
      exact mem_removed_of_drop gives

/-- A linked variable that is only written is removed, and others stay as they are. -/
theorem gives_removeWriteOnly_iff {address : Ref} :
    Gives (removeWriteOnly report address) store report' left ↔
      if (store.blockOf? address).isSome && isWriteOnly store address then
        Gives (removeWithUsers (store.values.size + 1) report address) store report' left
      else report' = report ∧ left = store := by
  unfold removeWriteOnly
  rw [gives_see_bind_iff, gives_see_bind_iff]
  split
  · rw [gives_see_bind_iff]
  · exact gives_pure_iff

theorem advancing_removeWriteOnly : Advancing (fun _ _ => True) removeWriteOnly where
  advances := by
    intro report report' store left address records _ gives
    rw [gives_removeWriteOnly_iff] at gives
    split at gives
    · exact advances_removeWithUsers records gives
    · obtain ⟨rfl, rfl⟩ := gives
      exact records.advances
  lasting := fun _ _ => trivial

/-- A variable that is looked at without progress is detached or not only written. -/
theorem not_isWriteOnly_of_gives
    {address : Ref}
    (records : report.Records store)
    (gives : Gives (removeWriteOnly report address) store report left) :
    ((store.blockOf? address).isSome && isWriteOnly store address) = false := by
  rw [gives_removeWriteOnly_iff] at gives
  split at gives
  · rename_i removable
    have detached := records.detached address (mem_removed_of_removeWithUsers gives)
    simp [detached.blockOf?] at removable
  · rename_i kept
    simpa using kept

/-! ## Removing phis -/

/-- A phi that is not removed leaves the store as it was. -/
theorem eq_of_refused
    {phi : Ref}
    (gives : Gives (removeRedundantPhi phi) store false left) :
    left = store := by
  have never : ∀ {value : Ref} {between : Store}, ¬Gives (do
      replaceUses phi (some value)
      Edit.remove phi
      return true) between false left := by
    intro value between gives
    obtain ⟨_, _, -, gives⟩ := gives_bind_iff.1 gives
    obtain ⟨_, _, -, gives⟩ := gives_bind_iff.1 gives
    cases (gives_pure_iff.1 gives).1
  unfold removeRedundantPhi at gives
  obtain ⟨entry, found, gives⟩ := gives_instruction_bind_iff.1 gives
  split at gives
  · exact (gives_pure_iff.1 gives).2
  · replace gives := gives_see_bind_iff.1 gives
    split at gives
    · obtain ⟨_, _, -, gives⟩ := gives_bind_iff.1 gives
      cases (gives_pure_iff.1 gives).1
    · replace gives := gives_see_bind_iff.1 gives
      obtain ⟨incomings, -, gives⟩ := gives_demand_bind_iff.1 gives
      replace gives := gives_see_bind_iff.1 gives
      split at gives
      · exact (gives_pure_iff.1 gives).2
      · split at gives
        · obtain ⟨_, _, -, gives⟩ := gives_bind_iff.1 gives
          exact absurd gives never
        · dsimp only at gives
          replace gives := gives_see_bind_iff.1 gives
          obtain ⟨_, -, gives⟩ := gives_demand_bind_iff.1 gives
          replace gives := gives_see_bind_iff.1 gives
          obtain ⟨_, _, -, gives⟩ := gives_bind_iff.1 gives
          exact absurd gives never

/-- A phi that is removed was linked. -/
theorem linked_of_removed
    {phi : Ref}
    (gives : Gives (removeRedundantPhi phi) store true left) :
    ¬store.Detached phi := by
  rintro ⟨entry, found, unlinked⟩
  obtain ⟨entry', found', gives⟩ := gives_instruction_bind_iff.1 gives
  cases found.symm.trans found'
  rw [if_pos (by simp [unlinked])] at gives
  cases (gives_pure_iff.1 gives).1

theorem removeRedundantPhi_respects
    {related : Store → Store → Prop}
    [Lasting related]
    (removes : ∀ ref, Respects related (Edit.remove ref))
    (replaces : ∀ old new, Respects related (replaceUses old new))
    (undefines : ∀ module type, Respects related (undefined module type))
    (phi : Ref) :
    Respects related (removeRedundantPhi phi) := by
  refine Respects.bind (Respects.instruction phi) fun entry =>
    Respects.ifThen (Respects.pure false) <| Respects.bind (Respects.see _) fun used =>
      Respects.ifThen (Respects.bind (removes phi) fun _ => Respects.pure true) <|
        Respects.bind (Respects.see _) fun found => Respects.bind (Respects.demand found)
          fun incomings => Respects.bind (Respects.see _) fun merged => ?_
  cases merged with
  | none => exact Respects.pure false
  | some merged =>
      have rest : ∀ value, Respects related (do
          replaceUses phi (some value)
          Edit.remove phi
          return true) := fun value =>
        Respects.bind (replaces phi (some value)) fun _ =>
          Respects.bind (removes phi) fun _ => Respects.pure true
      cases merged with
      | some value => exact Respects.bind (Respects.pure value) rest
      | none =>
          exact Respects.bind (Respects.see _) fun found => Respects.bind (Respects.demand found)
            fun module => Respects.bind (Respects.see _) fun type =>
              Respects.bind (undefines module type) rest

theorem advances_removePhi
    (records : report.Records store)
    {phi : Ref}
    (gives : Gives (removePhi report phi) store report' left) :
    report.Advances store report' left := by
  obtain ⟨removed, middle, tried, rest⟩ := gives_bind_iff.1 gives
  cases removed with
  | false =>
      obtain ⟨rfl, rfl⟩ := gives_pure_iff.1 rest
      obtain rfl := eq_of_refused tried
      exact records.advances
  | true =>
      have keeps := (removeRedundantPhi_respects remove_keeps replaceUses_keeps undefined_keeps
        phi).of_gives tried
      have detains := (removeRedundantPhi_respects remove_detains replaceUses_detains
        undefined_detains phi).of_gives tried
      have advances := advances_drop (records.of_detains keeps detains) rest
      have new : phi ∉ report.removed := fun member =>
        linked_of_removed tried (records.detached phi member)
      have longer := length_removed_of_drop rest new
      exact
        { records := advances.records
          blocks := fun block isBlock =>
            advances.blocks block ((keeps records.coherent).2 block isBlock)
          removed := advances.removed
          neutralized := advances.neutralized
          quiet := fun same => by
            simp only [progress, Prod.mk.injEq] at same
            omega }

theorem advancing_removePhi : Advancing (fun _ _ => True) removePhi where
  advances := fun records _ gives => advances_removePhi records gives
  lasting := fun _ _ => trivial

/-- A phi that is looked at without progress is refused. -/
theorem refused_of_gives
    {phi : Ref}
    (records : report.Records store)
    (gives : Gives (removePhi report phi) store report left) :
    Gives (removeRedundantPhi phi) store false store := by
  obtain ⟨removed, middle, tried, gives⟩ := gives_bind_iff.1 gives
  cases removed with
  | false =>
      obtain rfl := eq_of_refused tried
      exact tried
  | true =>
      exact absurd (records.detached phi (mem_removed_of_drop gives)) (linked_of_removed tried)

end Pass

end ShaderIR
