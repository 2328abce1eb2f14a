import ShaderIR.Proofs.Edit.Creations
import ShaderIR.Proofs.Revision.Ages

/-!
# The block lists of functions

A function lists the blocks that belong to it, each of them once.  A block enters the list
when it is created; no operation takes a block out of a list or gives it to another function.
-/

namespace ShaderIR

open Store Edit

namespace Store

/-- The blocks that a function lists. -/
def blocksOf (store : Store) (function : Ref) : List Ref :=
  ((store.function? function).map (·.blocks)).getD []

/-- Functions list the blocks that belong to them, none of them twice. -/
structure Housed (store : Store) : Prop where
  distinct : ∀ function, (store.blocksOf function).Nodup
  mem_blocksOf : ∀ function block,
    block ∈ store.blocksOf function ↔ store.blockFunction? block = some function

/-- One store is housed if another one is. -/
def KeepsHousing (store left : Store) : Prop :=
  store.Housed → left.Housed

instance : Lasting KeepsHousing where
  refl := fun _ housed => housed
  trans := fun keeps keeps' housed => keeps' (keeps housed)

theorem housed_empty : ({} : Store).Housed := by
  have noContent : ∀ ref, ({} : Store).content? ref = none := by
    intro ref
    simp [content?, value?]
  constructor <;> simp [blocksOf, function?, blockFunction?, noContent]

variable {store left : Store}

/-- Where functions list the same blocks and blocks stay where they are, so does the housing. -/
theorem keepsHousing_of_same
    (blocks : ∀ function, left.blocksOf function = store.blocksOf function)
    (owners : ∀ block, left.blockFunction? block = store.blockFunction? block) :
    store.KeepsHousing left := by
  intro housed
  constructor
  case distinct =>
    intro function
    rw [blocks]
    exact housed.distinct function
  case mem_blocksOf =>
    intro function block
    rw [blocks, owners]
    exact housed.mem_blocksOf function block

theorem blocksOf_congr
    {function : Ref}
    (same : left.function? function = store.function? function) :
    left.blocksOf function = store.blocksOf function := by
  rw [blocksOf, same, blocksOf]

theorem Amends.keepsHousing (amends : store.Amends left) : store.KeepsHousing left :=
  keepsHousing_of_same (fun function => blocksOf_congr (amends.function? function))
    amends.blockFunction?

/-- Trimming code creates no block. -/
theorem Ages.keepsHousing (ages : store.Ages left) : store.KeepsHousing left :=
  keepsHousing_of_same (fun function => blocksOf_congr (ages.function? function))
    ages.blockFunction?

namespace Gains

variable {new : Ref} {module : Nat} {content : Content}

/-- A new function lists no blocks. -/
theorem blocksOf
    (gains : store.Gains new module content left)
    (bare : ∀ entry, content = .function entry → entry.blocks = [])
    (function : Ref) :
    left.blocksOf function = store.blocksOf function := by
  by_cases same : function = new
  · subst same
    have absent : store.function? function = none := by
      simp [function?, content?, gains.absent]
    rw [Store.blocksOf, Store.blocksOf, absent, function?, gains.content?_new]
    cases content with
    | function entry => exact bare entry rfl
    | _ => rfl
  · exact blocksOf_congr (function?_congr (gains.content?_old same))

theorem blockFunction?_old
    (gains : store.Gains new module content left)
    {block : Ref}
    (different : block ≠ new) :
    left.blockFunction? block = store.blockFunction? block :=
  blockFunction?_congr (gains.content?_old different)

theorem blockFunction?_fresh (gains : store.Gains new module content left) :
    store.blockFunction? new = none := by
  simp [blockFunction?, content?, gains.absent]

/-- A new value that is no block keeps the housing. -/
theorem keepsHousing
    (gains : store.Gains new module content left)
    (bare : ∀ entry, content = .function entry → entry.blocks = [])
    (noBlock : ∀ owner members, content ≠ .block owner members) :
    store.KeepsHousing left := by
  refine keepsHousing_of_same (gains.blocksOf bare) fun block => ?_
  by_cases same : block = new
  · subst same
    rw [gains.blockFunction?_fresh, blockFunction?, gains.content?_new]
    cases content with
    | block owner members => exact absurd rfl (noBlock owner members)
    | _ => rfl
  · exact gains.blockFunction?_old same

end Gains

theorem blocksOf_addBlocks
    {function : Ref}
    (present : (store.function? function).isSome)
    (added : List Ref)
    (other : Ref) :
    (store.modifyFunction function fun entry =>
        { entry with blocks := entry.blocks ++ added }).blocksOf other =
      if function = other then store.blocksOf other ++ added else store.blocksOf other := by
  rw [blocksOf, function?_modifyFunction]
  split
  · rename_i same
    subst same
    obtain ⟨entry, found⟩ := Option.isSome_iff_exists.1 present
    simp [blocksOf, found]
  · rfl

theorem keepsHousing_modifyFunction
    (function : Ref)
    {change : Function → Function}
    (kept : ∀ entry, (change entry).blocks = entry.blocks) :
    store.KeepsHousing (store.modifyFunction function change) := by
  refine keepsHousing_of_same (fun other => ?_) fun block =>
    blockFunction?_modifyFunction store function block change
  rw [blocksOf, function?_modifyFunction, blocksOf]
  split
  · cases store.function? other with
    | none => rfl
    | some entry => exact kept entry
  · rfl

/-- A new block that its function adds to its list. -/
theorem keepsHousing_createBlock
    {owner : Ref}
    (store : Store)
    (module : Nat)
    (present : (store.function? owner).isSome) :
    let created := store.allocate module none (.block owner [])
    store.KeepsHousing (created.2.modifyFunction owner fun function =>
      { function with blocks := function.blocks ++ [created.1] }) := by
  intro created housed
  have gains := gains_allocate store module none (.block owner [])
  have isFunction : (created.2.function? owner).isSome := by
    obtain ⟨entry, found⟩ := Option.isSome_iff_exists.1 present
    have held := Option.isSome_of_eq_some (function?_eq_some_iff.1 found)
    rw [function?_congr (gains.content?_eq_of_isSome held), found]
    rfl
  have blocks := blocksOf_addBlocks isFunction [created.1]
  have same (function : Ref) : created.2.blocksOf function = store.blocksOf function :=
    gains.blocksOf (fun _ wrong => by cases wrong) function
  have fresh (function : Ref) : created.1 ∉ store.blocksOf function := by
    intro member
    have owned := (housed.mem_blocksOf function created.1).1 member
    rw [gains.blockFunction?_fresh] at owned
    cases owned
  constructor
  case distinct =>
    intro function
    rw [blocks, same]
    split
    · refine List.Nodup.append (housed.distinct function) (List.nodup_singleton _) ?_
      rw [List.disjoint_singleton]
      exact fresh function
    · exact housed.distinct function
  case mem_blocksOf =>
    intro function block
    rw [blocks, same, blockFunction?_modifyFunction]
    by_cases new : block = created.1
    · subst new
      have owned : created.2.blockFunction? created.1 = some owner :=
        blockFunction?_eq_some_iff.2 ⟨[], gains.content?_new⟩
      rw [owned, Option.some.injEq]
      split
      · rename_i same
        simp [same]
      · rename_i different
        exact iff_of_false (fresh function) different
    · rw [gains.blockFunction?_old new, ← housed.mem_blocksOf]
      split
      · simp [new]
      · rfl

end Store

/-! ## Every operation keeps the lists of blocks -/

namespace Edit

/-- Values that are neither functions nor blocks can be added. -/
theorem allocate_keepsHousing
    (module : Nat)
    (type : Option Ty)
    {content : Content}
    (noFunction : ∀ entry, content ≠ .function entry)
    (noBlock : ∀ owner members, content ≠ .block owner members) :
    Respects KeepsHousing (allocate module type content) :=
  fun store => (gains_allocate store module type content).keepsHousing
    (fun entry isFunction => absurd isFunction (noFunction entry)) noBlock

theorem createBlock_keepsHousing (owner : Ref) : Respects KeepsHousing (createBlock owner) := by
  intro store
  refine Respects.bindAt (Respects.function owner store) fun entry left given => ?_
  obtain ⟨found, rfl⟩ := gives_demand_iff.1 (gives_see_bind_iff.1 given)
  refine Respects.bindAt (Respects.require _ _ left) fun _ left' given => ?_
  obtain ⟨-, rfl⟩ := gives_require_iff.1 given
  refine Respects.bindAt (Respects.see _ left') fun _ between given => ?_
  obtain ⟨rfl, rfl⟩ := gives_see_iff.1 given
  refine Respects.bindAt (Respects.demand _ between) fun module left given => ?_
  obtain ⟨-, rfl⟩ := gives_demand_iff.1 given
  exact keepsHousing_createBlock left module (Option.isSome_of_eq_some found)

instance : Still KeepsHousing where
  amends := fun amends => amends.keepsHousing
  addModule := fun _ _ => keepsHousing_of_same (fun _ => rfl) fun _ => rfl
  intern := fun _ _ _ _ _ _ => keepsHousing_of_same (fun _ => rfl) fun _ => rfl
  reserve := fun store module type opcode =>
    (gains_allocate store module type _).keepsHousing (fun _ wrong => by cases wrong)
      fun _ _ wrong => by cases wrong
  createFunction := fun module kind result => by
    refine Respects.bind (fun store => ?_) fun _ => Respects.bind (fun _ => ?_) fun _ =>
      Respects.pure _
    · exact (gains_allocate store module result _).keepsHousing
        (fun _ isFunction => by cases isFunction; rfl) fun _ _ => nofun
    · exact keepsHousing_of_same (fun _ => rfl) fun _ => rfl
  removeFunction := fun _ _ =>
    Respects.bind (Respects.see _) fun _ => Respects.ifThen
      (Respects.bind (fun _ => keepsHousing_of_same (fun _ => rfl) fun _ => rfl) fun _ _ =>
        keepsHousing_modifyFunction _ fun _ => rfl)
      (Respects.pure ())
  createArgument := fun owner _ type =>
    Respects.bind (Respects.function owner) fun _ =>
      Respects.bind (Respects.see _) fun _ =>
        Respects.bind (Respects.demand _) fun module =>
          Respects.bind (allocate_keepsHousing module type (fun _ => nofun) fun _ _ => nofun)
            fun ref => Respects.bind (fun _ => keepsHousing_modifyFunction owner fun _ => rfl)
              fun _ => Respects.pure ref
  createBlock := createBlock_keepsHousing
  createBody := fun owner =>
    Respects.bind (Respects.function owner) fun _ =>
      Respects.bind (Respects.require _ _) fun _ =>
        Respects.bind (createBlock_keepsHousing owner) fun ref =>
          Respects.bind (fun _ => keepsHousing_modifyFunction owner fun _ => rfl) fun _ =>
            Respects.pure ref
  setBody := by
    intro owner block
    have changes : Respects KeepsHousing (modify fun store =>
        store.modifyFunction owner fun function => { function with body := block }) :=
      fun _ => keepsHousing_modifyFunction owner fun _ => rfl
    cases block with
    | none => exact changes
    | some block =>
        exact Respects.bind (Respects.see _) fun _ =>
          Respects.bind (Respects.require _ _) fun _ => changes

instance : Moving KeepsHousing :=
  Moving.of_updates (fun amends => amends.keepsHousing)
    (fun _ _ => keepsHousing_of_same (fun _ => rfl) (fun _ => rfl))
    (fun _ _ _ => keepsHousing_of_same (fun _ => blocksOf_congr (by simp)) (by simp))
    (fun _ _ _ => keepsHousing_of_same (fun _ => blocksOf_congr (by simp)) (by simp))

instance : Interning KeepsHousing := by
  refine .of_intern fun store module type content note interned kept => ?_
  have noFunction : ∀ entry, content ≠ .function entry := by
    rintro entry rfl
    exact interned
  have noBlock : ∀ owner members, content ≠ .block owner members := by
    rintro owner members rfl
    exact interned
  refine Lasting.trans (allocate_keepsHousing module type noFunction noBlock store) ?_
  exact keepsHousing_of_same (fun _ => rfl) fun _ => rfl

end Edit

theorem Change.perform_keepsHousing (change : Change) : Respects KeepsHousing change.perform :=
  Change.perform_respects (fun _ => inferInstance) fun _ => inferInstance

theorem Operation.perform_keepsHousing (operation : Operation) :
    Build.Respects KeepsHousing operation.perform :=
  Operation.perform_respects (fun change _ => change.perform_keepsHousing) fun _ _ _ _ =>
    Resolver.choosing_respects fun _ change _ => change.perform_keepsHousing

namespace Session

/-- After any operations, refused ones among them, functions list the blocks that are theirs. -/
theorem after_housed (operations : List Operation) : (after operations).store.Housed :=
  foldl_respects Operation.perform_keepsHousing operations {} housed_empty

end Session

end ShaderIR
