import ShaderIR.Proofs.Elimination.Tidying

/-!
# Blocks that are cut down

A round neutralizes the blocks from which control only comes to unreachable
ends, the blocks that are never reached although they use results of reached
ones, and the targets that a constant condition excludes.  Here these blocks are
described apart from the way in which they are found, and what is found is
compared with the descriptions.
-/

namespace ShaderIR

namespace Store

/-- The truth value of a constant of boolean type. -/
def constantBool? (store : Store) (ref : Ref) : Option Bool := do
  let data ← store.payload? ref
  if (store.typeOf ref).any Ty.isBool then return (← data.head?) != 0 else none

end Store

namespace Instruction

/-- The cases of a switch: their values and their targets. -/
def casePairs (entry : Instruction) : List (Int64 × Option Ref) :=
  entry.opcode.caseValues.zip (entry.values.drop 2)

/-- A terminator with a condition may go to a target. -/
def Offers (entry : Instruction) (target : Ref) : Prop :=
  match entry.opcode with
  | .ifElse _ | .condBranch =>
    entry.values[1]? = some (some target) ∨ entry.values[2]? = some (some target)
  | .switch .. =>
    entry.values[1]? = some (some target) ∨ ∃ value, (value, some target) ∈ entry.casePairs
  | _ => False

end Instruction

namespace Store

/-- A terminator goes to a target when its condition is a constant. -/
def Selects (store : Store) (entry : Instruction) (constant target : Ref) : Prop :=
  match entry.opcode with
  | .ifElse _ | .condBranch =>
    entry.values[if store.constantBool? constant = some true then 1 else 2]? = some (some target)
  | .switch _ values =>
    (∃ value, store.constantInt? constant = some value ∧ (value, some target) ∈ entry.casePairs) ∨
      (∀ value ∈ values, store.constantInt? constant ≠ some value) ∧
        entry.values[1]? = some (some target)
  | _ => False

/-- A block that only another one enters, which never goes there as its condition is constant. -/
def Excludes (store : Store) (block target : Ref) : Prop :=
  ∃ terminator entry constant, store.terminator? block = some terminator ∧
    store.instruction? terminator = some entry ∧
    entry.values.head? = some (some constant) ∧ store.isConstant constant = true ∧
    entry.Offers target ∧ ¬store.Selects entry constant target ∧
    store.isBlock target = true ∧ target ≠ block ∧ store.predecessors target = [block]

end Store

namespace Edit

open Store

variable {store left : Store} {ref : Ref}

theorem gives_boolConstant_iff {truth : Bool} :
    Gives (boolConstant ref) store truth left ↔
      store.constantBool? ref = some truth ∧ left = store := by
  unfold Gives boolConstant constantBool?
  simp only [outcome_bind, outcome_see, outcome_demand, outcome_require, outcome_pure]
  cases store.payload? ref with
  | none => simp
  | some data =>
      cases isBool : (store.typeOf ref).any Ty.isBool <;> cases data <;> simp [isBool, eq_comm]

theorem gives_intConstant_iff {value : Int64} :
    Gives (intConstant ref) store value left ↔
      store.constantInt? ref = some value ∧ left = store := by
  have byScalar : store.constantInt? ref = (store.payload? ref).bind fun data =>
      ((store.typeOf ref).bind Ty.scalar?).bind fun scalar =>
        if scalar.kind == .float then none else scalar.decodeInt? data := by
    unfold constantInt?
    cases store.typeOf ref <;> rfl
  rw [byScalar]
  unfold Gives intConstant
  simp only [outcome_bind, outcome_see, outcome_demand]
  cases store.payload? ref with
  | none => simp
  | some data =>
      cases found : (store.typeOf ref).bind Ty.scalar? with
      | none => simp [found]
      | some scalar =>
          simp only [found, outcome_bind, outcome_require, outcome_demand, Option.bind_some, bne]
          cases scalar.kind == .float <;> cases scalar.decodeInt? data <;> simp [eq_comm]

end Edit

namespace Store

variable {store left : Store} {block source target ref : Ref}

theorem Ages.payload? (ages : store.Ages left) (ref : Ref) :
    left.payload? ref = store.payload? ref := by
  refine ages.view_content? Content.dataOf? ?_ rfl (fun _ => rfl) ref
  intro content content' becomes
  cases content <;> cases content' <;> simp_all [Content.Becomes, Content.dataOf?]

theorem isConstant_eq_payload? (store : Store) (ref : Ref) :
    store.isConstant ref = (store.payload? ref).isSome := by
  unfold isConstant Store.payload?
  split <;> simp_all

theorem Ages.isConstant (ages : store.Ages left) (ref : Ref) :
    left.isConstant ref = store.isConstant ref := by
  rw [isConstant_eq_payload?, isConstant_eq_payload?, ages.payload?]

theorem Ages.typeOf_constant
    (ages : store.Ages left)
    {data : List UInt8}
    (constant : store.payload? ref = some data) :
    left.typeOf ref = store.typeOf ref := by
  refine ages.typeOf ?_
  rw [← content?_isSome_iff]
  unfold Store.payload? at constant
  split at constant
  · simp_all
  · cases constant

theorem Ages.constantBool? (ages : store.Ages left) (ref : Ref) :
    left.constantBool? ref = store.constantBool? ref := by
  unfold Store.constantBool?
  rw [ages.payload?]
  cases constant : store.payload? ref with
  | none => rfl
  | some data => rw [ages.typeOf_constant constant]

theorem Ages.constantInt? (ages : store.Ages left) (ref : Ref) :
    left.constantInt? ref = store.constantInt? ref := by
  unfold Store.constantInt?
  rw [ages.payload?]
  cases constant : store.payload? ref with
  | none => rfl
  | some data => rw [ages.typeOf_constant constant]

theorem predecessors_eq_singleton_iff :
    store.predecessors target = [block] ↔
      ∀ source, source ∈ store.predecessors target ↔ source = block := by
  have distinct : (store.predecessors target).Nodup := nodup_distinct _
  rw [← List.perm_singleton, List.perm_ext_iff_of_nodup distinct (List.nodup_singleton block)]
  simp only [List.mem_singleton]

theorem Coherent.isBlock_of_mem_predecessors
    (coherent : store.Coherent)
    (predecessor : source ∈ store.predecessors block) :
    store.isBlock block = true := by
  obtain ⟨terminator, linked, -, -, owner⟩ := coherent.mem_predecessors_iff.1 predecessor
  have isBlock := coherent.isBlock_of_blockOf? linked
  rw [isBlock_iff_blockFunction?] at isBlock ⊢
  rwa [← owner]

/-- Where a block is offered, taking blocks only leaves it in its place. -/
theorem getElem?_eq_iff_asBlock
    {operands : List (Option Ref)}
    {position : Nat}
    {operand : Option Ref}
    (isBlock : store.isBlock target = true)
    (held : (operands.map store.asBlock)[position]? = some operand) :
    operands[position]? = some (some target) ↔ operand = some target := by
  rw [List.getElem?_map, Option.map_eq_some_iff] at held
  obtain ⟨original, atPosition, rfl⟩ := held
  rw [atPosition, Option.some.injEq, asBlock_eq_some_iff]
  simp [isBlock]

theorem mem_zip_map_asBlock {operands : List (Option Ref)} {values : List Int64} {value : Int64} :
    (value, some target) ∈ values.zip (operands.map store.asBlock) ↔
      (value, some target) ∈ values.zip operands ∧ store.isBlock target = true := by
  rw [List.zip_map_right, List.mem_map]
  constructor
  · rintro ⟨⟨value', operand⟩, member, equal⟩
    simp only [Prod.map_apply, id_eq, Prod.mk.injEq, asBlock_eq_some_iff] at equal
    obtain ⟨rfl, rfl, isBlock⟩ := equal
    exact ⟨member, isBlock⟩
  · rintro ⟨member, isBlock⟩
    exact ⟨_, member, by simp [asBlock_eq_some_iff, isBlock]⟩

end Store

namespace Pass

open Store Edit

variable {store left : Store} {function block target : Ref}

/-! ## Targets that a constant condition excludes -/

/--
The choice of a switch from a case on: cases with other values than the selector
are rejected, and so is the fallback once a case was taken.
-/
structure Chosen (store : Store) (selector : Ref) (values : List Int64)
    (targets : List (Option Ref)) (fallback : Option Ref) (taken : Option (Option Ref))
    (others : List (Option Ref)) (choice : StaticChoice) : Prop where
  kept : ∀ target ∈ others, target ∈ choice.others
  rejected : ∀ {value target}, (value, target) ∈ values.zip targets →
    store.constantInt? selector ≠ some value → target ∈ choice.others
  passed : (taken.isSome ∨ ∃ value ∈ values, store.constantInt? selector = some value) →
    fallback ∈ choice.others
  taken : taken = some choice.taken ∨
    (∃ value, store.constantInt? selector = some value ∧
      (value, choice.taken) ∈ values.zip targets) ∨
    (taken = none ∧ choice.taken = fallback ∧
      ∀ value ∈ values, store.constantInt? selector ≠ some value)

theorem chosen_chooseCase
    {selector : Ref}
    {targets : List (Option Ref)}
    {position : Nat}
    {values : List Int64}
    {taken : Option (Option Ref)}
    {others : List (Option Ref)}
    {choice : StaticChoice}
    (gives : Gives (chooseCase selector targets position values taken others) store choice left) :
    left = store ∧ ∃ fallback, targets[1]? = some fallback ∧
      Chosen store selector values (targets.drop (position + 2)) fallback taken others choice := by
  induction values generalizing position taken others with
  | nil =>
      obtain ⟨fallback, held, gives⟩ := gives_demand_bind_iff.1 gives
      split at gives
      · obtain ⟨rfl, rfl⟩ := gives_pure_iff.1 gives
        exact ⟨rfl, fallback, held, ⟨by simp +contextual, by simp, by simp, .inl rfl⟩⟩
      · obtain ⟨rfl, rfl⟩ := gives_pure_iff.1 gives
        exact ⟨rfl, fallback, held, ⟨by simp, by simp, by simp, by simp⟩⟩
  | cons value rest induction =>
      obtain ⟨selected, between, given, gives⟩ := gives_bind_iff.1 gives
      obtain ⟨selectorValue, equal⟩ := gives_intConstant_iff.1 given
      rw [equal] at gives
      obtain ⟨target, held, gives⟩ := gives_demand_bind_iff.1 gives
      have next : targets.drop (position + 2) = target :: targets.drop (position + 1 + 2) := by
        obtain ⟨within, rfl⟩ := List.getElem?_eq_some_iff.1 held
        exact List.drop_eq_getElem_cons within
      rw [next]
      split at gives
      · rename_i selects
        obtain ⟨same, fallback, held', chosen⟩ := induction gives
        refine ⟨same, fallback, held',
          { kept := chosen.kept
            rejected := fun {value' target'} member different => ?_
            passed := fun _ => chosen.passed (.inl rfl)
            taken := ?_ }⟩
        · rcases List.mem_cons.1 member with first | later
          · cases first
            exact absurd (selects ▸ selectorValue) different
          · exact chosen.rejected later different
        · rcases chosen.taken with first | ⟨value', equal', later⟩ | ⟨none, -, -⟩
          · cases first
            exact .inr (.inl ⟨value, selects ▸ selectorValue, List.mem_cons_self⟩)
          · exact .inr (.inl ⟨value', equal', List.mem_cons_of_mem _ later⟩)
          · cases none
      · rename_i differs
        have different : store.constantInt? selector ≠ some value := by
          rw [selectorValue]
          exact fun same => differs (Option.some.inj same)
        obtain ⟨same, fallback, held', chosen⟩ := induction gives
        refine ⟨same, fallback, held',
          { kept := fun target' member => chosen.kept target' (List.mem_append_left _ member)
            rejected := fun {value' target'} member different' => ?_
            passed := fun some? => chosen.passed (some?.imp_right ?_)
            taken := ?_ }⟩
        · rcases List.mem_cons.1 member with first | later
          · cases first
            exact chosen.kept target (List.mem_append_right _ List.mem_cons_self)
          · exact chosen.rejected later different'
        · rintro ⟨value', member, equal'⟩
          rcases List.mem_cons.1 member with rfl | later
          · exact absurd equal' different
          · exact ⟨value', later, equal'⟩
        · rcases chosen.taken with first | ⟨value', equal', later⟩ | ⟨none, isFallback, unmatched⟩
          · exact .inl first
          · exact .inr (.inl ⟨value', equal', List.mem_cons_of_mem _ later⟩)
          · refine .inr (.inr ⟨none, isFallback, fun value' member => ?_⟩)
            rcases List.mem_cons.1 member with rfl | later
            · exact different
            · exact unmatched value' later

/-- The choice of a switch is the same in another store that reads its selector alike. -/
theorem gives_chooseCase_of_same
    {selector : Ref}
    {targets : List (Option Ref)}
    {position : Nat}
    {values : List Int64}
    {taken : Option (Option Ref)}
    {others : List (Option Ref)}
    {choice : StaticChoice}
    {between : Store}
    (same : left.constantInt? selector = store.constantInt? selector)
    (gives : Gives (chooseCase selector targets position values taken others) store choice
      between) :
    Gives (chooseCase selector targets position values taken others) left choice left := by
  induction values generalizing position taken others with
  | nil =>
      obtain ⟨fallback, held, gives⟩ := gives_demand_bind_iff.1 gives
      refine gives_demand_bind_iff.2 ⟨fallback, held, ?_⟩
      cases taken <;> exact gives_pure_iff.2 ⟨(gives_pure_iff.1 gives).1, rfl⟩
  | cons value rest induction =>
      obtain ⟨selected, between, given, gives⟩ := gives_bind_iff.1 gives
      obtain ⟨selectorValue, equal⟩ := gives_intConstant_iff.1 given
      rw [equal] at gives
      refine gives_bind_iff.2 ⟨selected, left,
        gives_intConstant_iff.2 ⟨same.trans selectorValue, rfl⟩, ?_⟩
      obtain ⟨target, held, gives⟩ := gives_demand_bind_iff.1 gives
      refine gives_demand_bind_iff.2 ⟨target, held, ?_⟩
      split at gives
      · rename_i selects
        rw [if_pos selects]
        exact induction gives
      · rename_i differs
        rw [if_neg differs]
        exact induction gives

/-- The choice between two blocks. -/
def conditionalChoice (whenTrue whenFalse : Option Ref) (truth : Bool) : StaticChoice :=
  if truth then ⟨whenTrue, [whenFalse]⟩ else ⟨whenFalse, [whenTrue]⟩

theorem gives_conditionalChoice_iff
    {atTrue atFalse : Option (Option Ref)}
    {constant : Ref}
    {choice : Option StaticChoice} :
    Gives (do
      let whenTrue ← demand atTrue
      let whenFalse ← demand atFalse
      if ← boolConstant constant then return some ⟨whenTrue, [whenFalse]⟩
      else return some ⟨whenFalse, [whenTrue]⟩ : Edit (Option StaticChoice)) store choice left ↔
      left = store ∧ ∃ whenTrue whenFalse truth, atTrue = some whenTrue ∧ atFalse = some whenFalse ∧
        store.constantBool? constant = some truth ∧
        choice = some (conditionalChoice whenTrue whenFalse truth) := by
  constructor
  · intro gives
    obtain ⟨whenTrue, first, gives⟩ := gives_demand_bind_iff.1 gives
    obtain ⟨whenFalse, second, gives⟩ := gives_demand_bind_iff.1 gives
    obtain ⟨truth, between, given, gives⟩ := gives_bind_iff.1 gives
    obtain ⟨reads, equal⟩ := gives_boolConstant_iff.1 given
    rw [equal] at gives
    refine ⟨?_, whenTrue, whenFalse, truth, first, second, reads, ?_⟩ <;> cases truth
    · exact (gives_pure_iff.1 gives).2
    · exact (gives_pure_iff.1 gives).2
    · exact (gives_pure_iff.1 gives).1
    · exact (gives_pure_iff.1 gives).1
  · rintro ⟨rfl, whenTrue, whenFalse, truth, first, second, reads, rfl⟩
    refine gives_demand_bind_iff.2 ⟨whenTrue, first, gives_demand_bind_iff.2
      ⟨whenFalse, second, gives_bind_iff.2
        ⟨truth, left, gives_boolConstant_iff.2 ⟨reads, rfl⟩, ?_⟩⟩⟩
    cases truth <;> exact gives_pure_iff.2 ⟨rfl, rfl⟩

/-- How the terminator of a block decides where to go when its condition is constant. -/
inductive Decides (store : Store) (block : Ref) : Option StaticChoice → Prop
  | unended (open_ : store.terminator? block = none) : Decides store block none
  | undecided {terminator : Ref} {entry : Instruction}
      (ends : store.terminator? block = some terminator)
      (found : store.instruction? terminator = some entry)
      (varies : (entry.values.head?.join).filter store.isConstant = none ∨
        entry.opcode.isConditional = false ∧ ∀ merge values, entry.opcode ≠ .switch merge values) :
      Decides store block none
  | conditional {terminator constant : Ref} {entry : Instruction}
      {whenTrue whenFalse : Option Ref} {truth : Bool}
      (ends : store.terminator? block = some terminator)
      (found : store.instruction? terminator = some entry)
      (isConditional : entry.opcode.isConditional = true)
      (condition : (entry.values.head?.join).filter store.isConstant = some constant)
      (atTrue : (entry.values.map store.asBlock)[1]? = some whenTrue)
      (atFalse : (entry.values.map store.asBlock)[2]? = some whenFalse)
      (reads : store.constantBool? constant = some truth) :
      Decides store block (some (conditionalChoice whenTrue whenFalse truth))
  | switch {terminator constant : Ref} {entry : Instruction} {merge : Option Ref}
      {values : List Int64} {choice : StaticChoice}
      (ends : store.terminator? block = some terminator)
      (found : store.instruction? terminator = some entry)
      (isSwitch : entry.opcode = .switch merge values)
      (condition : (entry.values.head?.join).filter store.isConstant = some constant)
      (chooses : Gives (chooseCase constant (entry.values.map store.asBlock) 0 values none [])
        store choice store) :
      Decides store block (some choice)

theorem gives_staticChoice_iff {choice : Option StaticChoice} :
    Gives (staticChoice block) store choice left ↔
      left = store ∧ Decides store block choice := by
  constructor
  · intro gives
    replace gives := gives_see_bind_iff.1 gives
    split at gives
    · rename_i unended
      obtain ⟨rfl, rfl⟩ := gives_pure_iff.1 gives
      exact ⟨rfl, .unended unended⟩
    · rename_i terminator ends
      obtain ⟨entry, found, gives⟩ := gives_instruction_bind_iff.1 gives
      replace gives := gives_see_bind_iff.1 (gives_see_bind_iff.1 gives)
      split at gives
      · rename_i constant opcode condition
        obtain ⟨rfl, whenTrue, whenFalse, truth, atTrue, atFalse, reads, rfl⟩ :=
          gives_conditionalChoice_iff.1 gives
        exact ⟨rfl, .conditional ends found (by rw [opcode]; rfl) condition atTrue atFalse reads⟩
      · rename_i constant opcode condition
        obtain ⟨rfl, whenTrue, whenFalse, truth, atTrue, atFalse, reads, rfl⟩ :=
          gives_conditionalChoice_iff.1 gives
        exact ⟨rfl, .conditional ends found (by rw [opcode]; rfl) condition atTrue atFalse reads⟩
      · rename_i merge values constant opcode condition
        obtain ⟨chosen, between, chooses, gives⟩ := gives_bind_iff.1 gives
        obtain ⟨rfl, rfl⟩ := gives_pure_iff.1 gives
        obtain ⟨rfl, -⟩ := chosen_chooseCase chooses
        exact ⟨rfl, .switch ends found opcode condition chooses⟩
      · rename_i notIf notBranch notSwitch
        obtain ⟨rfl, rfl⟩ := gives_pure_iff.1 gives
        refine ⟨rfl, .undecided ends found ?_⟩
        cases condition : (entry.values.head?.join).filter left.isConstant with
        | none => exact .inl rfl
        | some constant =>
            refine .inr ⟨?_, fun merge values opcode => notSwitch merge values constant
              opcode condition⟩
            cases opcode : entry.opcode with
            | ifElse merge => exact absurd condition (notIf merge constant opcode)
            | condBranch => exact absurd condition (notBranch constant opcode)
            | _ => rfl
  · rintro ⟨rfl, decides⟩
    refine gives_see_bind_iff.2 ?_
    cases decides with
    | unended unended =>
        rw [unended]
        exact gives_pure_iff.2 ⟨rfl, rfl⟩
    | undecided ends found varies =>
        rw [ends]
        refine gives_instruction_bind_iff.2
          ⟨_, found, gives_see_bind_iff.2 (gives_see_bind_iff.2 ?_)⟩
        split
        · rename_i opcode condition
          rcases varies with absent | ⟨other, -⟩
          · cases absent.symm.trans condition
          · simp [opcode, Opcode.isConditional] at other
        · rename_i opcode condition
          rcases varies with absent | ⟨other, -⟩
          · cases absent.symm.trans condition
          · simp [opcode, Opcode.isConditional] at other
        · rename_i opcode condition
          rcases varies with absent | ⟨-, other⟩
          · cases absent.symm.trans condition
          · exact absurd opcode (other _ _)
        · exact gives_pure_iff.2 ⟨rfl, rfl⟩
    | @conditional _ constant entry whenTrue whenFalse truth ends found isConditional
        condition atTrue
        atFalse reads =>
        rw [ends]
        refine gives_instruction_bind_iff.2
          ⟨_, found, gives_see_bind_iff.2 (gives_see_bind_iff.2 ?_)⟩
        have decided := gives_conditionalChoice_iff.2
          ⟨rfl, whenTrue, whenFalse, truth, atTrue, atFalse, reads, rfl⟩
        rw [condition]
        cases opcode : entry.opcode with
        | ifElse | condBranch => exact decided
        | _ => simp [opcode, Opcode.isConditional] at isConditional
    | switch ends found isSwitch condition chooses =>
        rw [ends]
        refine gives_instruction_bind_iff.2
          ⟨_, found, gives_see_bind_iff.2 (gives_see_bind_iff.2 ?_)⟩
        rw [isSwitch, condition]
        exact gives_bind_iff.2 ⟨_, _, chooses, gives_pure_iff.2 ⟨rfl, rfl⟩⟩

/-- The blocks that a choice passes over, as far as only the block that chooses enters them. -/
def passedOver (store : Store) (block : Ref) (choice : StaticChoice) : List Ref :=
  choice.others.filterMap fun target =>
    target.filter fun ref =>
      some ref != choice.taken && ref != block && store.predecessors ref == [block]

theorem mem_passedOver_iff {choice : StaticChoice} :
    target ∈ passedOver store block choice ↔
      some target ∈ choice.others ∧ choice.taken ≠ some target ∧ target ≠ block ∧
        store.predecessors target = [block] := by
  simp only [passedOver, List.mem_filterMap, Option.filter_eq_some_iff,
    Bool.and_eq_true, bne_iff_ne, beq_iff_eq, and_assoc]
  constructor
  · rintro ⟨_, member, rfl, taken, different, entered⟩
    exact ⟨member, Ne.symm taken, different, entered⟩
  · rintro ⟨member, taken, different, entered⟩
    exact ⟨_, member, rfl, Ne.symm taken, different, entered⟩

theorem gives_excludedTargets_iff {targets : List Ref} :
    Gives (excludedTargets block) store targets left ↔
      left = store ∧ ∃ choice, Decides store block choice ∧
        targets = choice.elim [] (passedOver store block) := by
  constructor
  · intro gives
    obtain ⟨choice, between, given, gives⟩ := gives_bind_iff.1 gives
    obtain ⟨equal, decides⟩ := gives_staticChoice_iff.1 given
    rw [equal] at gives
    cases choice with
    | none =>
        obtain ⟨rfl, rfl⟩ := gives_pure_iff.1 gives
        exact ⟨rfl, none, decides, rfl⟩
    | some choice =>
        obtain ⟨rfl, rfl⟩ := gives_see_iff.1 gives
        exact ⟨rfl, some choice, decides, rfl⟩
  · rintro ⟨rfl, choice, decides, rfl⟩
    refine gives_bind_iff.2 ⟨choice, left, gives_staticChoice_iff.2 ⟨rfl, decides⟩, ?_⟩
    cases choice with
    | none => exact gives_pure_iff.2 ⟨rfl, rfl⟩
    | some choice => exact gives_see_iff.2 ⟨rfl, rfl⟩

/-- A decision stays the same while instructions are tidied. -/
theorem Decides.tidies
    {choice : Option StaticChoice}
    (decides : Decides store block choice)
    (tidies : store.Tidies left) :
    Decides left block choice := by
  have sameBlocks : left.asBlock = store.asBlock := funext tidies.ages.asBlock
  have sameConstants : left.isConstant = store.isConstant := funext tidies.ages.isConstant
  -- The terminator of the block keeps its operands.
  have terminator : ∀ {terminator entry}, store.terminator? block = some terminator →
      store.instruction? terminator = some entry →
      left.terminator? block = some terminator ∧
        ∃ entry', left.instruction? terminator = some entry' ∧ entry.Tidied entry' ∧
          entry'.values = entry.values := by
    intro terminator entry ends found
    obtain ⟨entry', found', tidied⟩ := tidies.entry found
    have isTerminator : entry.opcode.isTerminator = true := by
      simpa [isTerminator, opcode?, found] using (terminator?_eq_some_iff.1 ends).2
    refine ⟨(tidies.terminator? block).trans ends, entry', found', tidied, ?_⟩
    rw [Instruction.values, Instruction.values, tidied.operands_of_terminator isTerminator]
  cases decides with
  | unended unended => exact .unended ((tidies.terminator? block).trans unended)
  | undecided ends found varies =>
      obtain ⟨ends', entry', found', tidied, sameValues⟩ := terminator ends found
      refine .undecided ends' found' ?_
      rw [sameValues, sameConstants, tidied.isConditional]
      refine varies.imp_right fun other => ⟨other.1, fun merge values isSwitch => ?_⟩
      obtain ⟨merge', isSwitch'⟩ := tidied.isSwitch_iff.1 ⟨merge, isSwitch⟩
      exact other.2 merge' values isSwitch'
  | conditional ends found isConditional condition atTrue atFalse reads =>
      obtain ⟨ends', entry', found', tidied, sameValues⟩ := terminator ends found
      rw [← sameValues, ← sameBlocks] at atTrue atFalse
      rw [← sameValues, ← sameConstants] at condition
      rw [← tidies.ages.constantBool?] at reads
      exact .conditional ends' found' (tidied.isConditional.trans isConditional) condition atTrue
        atFalse reads
  | switch ends found isSwitch condition chooses =>
      obtain ⟨ends', entry', found', tidied, sameValues⟩ := terminator ends found
      obtain ⟨merge', isSwitch'⟩ := tidied.isSwitch_iff.2 ⟨_, isSwitch⟩
      refine .switch ends' found' isSwitch' (by rwa [sameValues, sameConstants]) ?_
      rw [sameValues, sameBlocks]
      exact gives_chooseCase_of_same (tidies.ages.constantInt? _) chooses

/-- Where instructions are tidied no more targets are excluded. -/
theorem gives_excludedTargets_of_tidies
    (coherent : store.Coherent)
    (tidies : store.Tidies left)
    {targets : List Ref}
    (gives : Gives (excludedTargets block) store targets store) :
    ∃ targets', Gives (excludedTargets block) left targets' left ∧
      ∀ target ∈ targets', target ∈ targets := by
  obtain ⟨-, choice, decides, rfl⟩ := gives_excludedTargets_iff.1 gives
  refine ⟨_, gives_excludedTargets_iff.2 ⟨rfl, choice, decides.tidies tidies, rfl⟩,
    fun target member => ?_⟩
  cases choice with
  | none => cases member
  | some choice =>
      obtain ⟨other, taken, different, entered⟩ := mem_passedOver_iff.1 member
      refine mem_passedOver_iff.2 ⟨other, taken, different, ?_⟩
      rw [predecessors_eq_singleton_iff] at entered ⊢
      exact fun source => (tidies.mem_predecessors_iff coherent).symm.trans (entered source)

/-- A conditional terminator decides for what it selects and against what else it offers. -/
theorem rejects_conditionalChoice
    {entry : Instruction}
    {constant : Ref}
    {whenTrue whenFalse : Option Ref}
    {truth : Bool}
    (isConditional : entry.opcode.isConditional = true)
    (atTrue : (entry.values.map store.asBlock)[1]? = some whenTrue)
    (atFalse : (entry.values.map store.asBlock)[2]? = some whenFalse)
    (reads : store.constantBool? constant = some truth)
    (isBlock : store.isBlock target = true)
    (offered : entry.Offers target)
    (unselected : ¬store.Selects entry constant target) :
    some target ∈ (conditionalChoice whenTrue whenFalse truth).others ∧
      (conditionalChoice whenTrue whenFalse truth).taken ≠ some target := by
  have offers : entry.values[1]? = some (some target) ∨ entry.values[2]? = some (some target) := by
    unfold Instruction.Offers at offered
    cases opcode : entry.opcode <;> simp_all [Opcode.isConditional]
  have selects : ¬entry.values[if truth then 1 else 2]? = some (some target) := by
    unfold Selects at unselected
    cases opcode : entry.opcode <;> simp_all [Opcode.isConditional]
  have heldTrue := getElem?_eq_iff_asBlock isBlock atTrue
  have heldFalse := getElem?_eq_iff_asBlock isBlock atFalse
  rw [heldTrue, heldFalse] at offers
  cases truth with
  | true =>
      replace selects := (not_congr heldTrue).1 selects
      exact ⟨List.mem_singleton.2 (offers.resolve_left selects).symm, selects⟩
  | false =>
      replace selects := (not_congr heldFalse).1 selects
      exact ⟨List.mem_singleton.2 (offers.resolve_right selects).symm, selects⟩

/-- A switch decides for what it selects and against what else it offers. -/
theorem Chosen.rejects
    {entry : Instruction}
    {selector : Ref}
    {merge fallback : Option Ref}
    {values : List Int64}
    {choice : StaticChoice}
    (isSwitch : entry.opcode = .switch merge values)
    (atFallback : (entry.values.map store.asBlock)[1]? = some fallback)
    (chosen : Chosen store selector values ((entry.values.map store.asBlock).drop 2) fallback none
      [] choice)
    (isBlock : store.isBlock target = true)
    (offered : entry.Offers target)
    (unselected : ¬store.Selects entry selector target) :
    some target ∈ choice.others ∧ choice.taken ≠ some target := by
  have pairs : entry.casePairs = values.zip (entry.values.drop 2) := by
    rw [Instruction.casePairs, isSwitch]
    rfl
  simp only [Instruction.Offers, isSwitch, pairs] at offered
  simp only [Selects, isSwitch, pairs, not_or, not_exists, not_and] at unselected
  obtain ⟨notCase, notFallback⟩ := unselected
  have sameCase : ∀ {value}, (value, some target) ∈
      values.zip ((entry.values.map store.asBlock).drop 2) ↔
        (value, some target) ∈ values.zip (entry.values.drop 2) := by
    intro value
    rw [← List.map_drop, mem_zip_map_asBlock]
    simp [isBlock]
  have isFallback := getElem?_eq_iff_asBlock isBlock atFallback
  constructor
  · rcases offered with atOne | ⟨value, member⟩
    · rw [← isFallback.1 atOne]
      refine chosen.passed (.inr ?_)
      by_contra unmatched
      exact notFallback (fun value member equal => unmatched ⟨value, member, equal⟩) atOne
    · exact chosen.rejected (sameCase.2 member) fun equal => notCase value equal member
  · intro taken
    rcases chosen.taken with none | ⟨value, equal, member⟩ | ⟨-, asFallback, unmatched⟩
    · cases none
    · rw [taken] at member
      exact notCase value equal (sameCase.1 member)
    · exact notFallback unmatched (isFallback.2 (asFallback.symm.trans taken))

/-- What is excluded is found. -/
theorem mem_excludedTargets
    {targets : List Ref}
    (gives : Gives (excludedTargets block) store targets left)
    (excludes : store.Excludes block target) :
    target ∈ targets := by
  obtain ⟨terminator, entry, constant, ends, found, first, isConstant, offered, unselected, isBlock,
    different, entered⟩ := excludes
  have condition : (entry.values.head?.join).filter store.isConstant = some constant := by
    simp [first, isConstant, Option.filter]
  obtain ⟨-, choice, decides, rfl⟩ := gives_excludedTargets_iff.1 gives
  have passes : ∃ chosen, choice = some chosen ∧ some target ∈ chosen.others ∧
      chosen.taken ≠ some target := by
    cases decides with
    | unended unended => cases ends.symm.trans unended
    | undecided ends' found' varies =>
        cases ends.symm.trans ends'
        cases found.symm.trans found'
        rcases varies with absent | ⟨notConditional, notSwitch⟩
        · cases condition.symm.trans absent
        · unfold Instruction.Offers at offered
          split at offered <;> simp_all [Opcode.isConditional]
    | conditional ends' found' isConditional condition' atTrue atFalse reads =>
        cases ends.symm.trans ends'
        cases found.symm.trans found'
        cases condition.symm.trans condition'
        exact ⟨_, rfl, rejects_conditionalChoice isConditional atTrue atFalse reads isBlock offered
          unselected⟩
    | switch ends' found' isSwitch condition' chooses =>
        cases ends.symm.trans ends'
        cases found.symm.trans found'
        cases condition.symm.trans condition'
        obtain ⟨-, fallback, atFallback, chosen⟩ := chosen_chooseCase chooses
        exact ⟨_, rfl, chosen.rejects isSwitch atFallback isBlock offered unselected⟩
  obtain ⟨chosen, rfl, other, notTaken⟩ := passes
  exact mem_passedOver_iff.2 ⟨other, notTaken, different, entered⟩

end Pass

end ShaderIR
