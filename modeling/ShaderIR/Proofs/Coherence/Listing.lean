import ShaderIR.Proofs.Edit.Creations

/-!
# The function lists of modules

A module lists its functions, each of them once, and a function that has blocks is a
definition.  Functions enter a list when they are created; all other operations leave the
lists as they are or shorten them, and no operation changes the kind of a function.
-/

namespace ShaderIR

open Store Edit

namespace Store

/-- A function that may have blocks. -/
def Defines (store : Store) (function : Ref) : Prop :=
  ∃ entry, store.function? function = some entry ∧ entry.isDefinition = true

/-- The lists of functions hold functions, none of them twice; blocks belong to definitions. -/
structure WellListed (store : Store) : Prop where
  distinct : ∀ module, (store.functions module).Nodup
  present : ∀ module, ∀ function ∈ store.functions module, (store.function? function).isSome
  owners : ∀ {block owner}, store.blockFunction? block = some owner → store.Defines owner

/-- One store is well listed if another one is. -/
def KeepsListing (store left : Store) : Prop :=
  store.WellListed → left.WellListed

instance : Lasting KeepsListing where
  refl := fun _ listed => listed
  trans := fun keeps keeps' listed => keeps' (keeps listed)

theorem wellListed_empty : ({} : Store).WellListed := by
  have noContent : ∀ ref, ({} : Store).content? ref = none := by
    intro ref
    simp [content?, value?]
  constructor <;> simp [functions, blockFunction?, noContent]

variable {store left : Store}

/-- Functions that keep their kinds go on being functions and definitions. -/
structure KeepsKinds (store left : Store) : Prop where
  kinds : ∀ {function entry}, store.function? function = some entry →
    ∃ entry', left.function? function = some entry' ∧ entry'.kind = entry.kind

theorem KeepsKinds.defines
    (keeps : store.KeepsKinds left)
    {function : Ref}
    (defines : store.Defines function) :
    left.Defines function := by
  obtain ⟨entry, found, isDefinition⟩ := defines
  obtain ⟨entry', found', kind⟩ := keeps.kinds found
  refine ⟨entry', found', ?_⟩
  rw [Function.isDefinition, kind]
  exact isDefinition

/-- What lists no further function, and gives blocks to definitions only, keeps the listing. -/
theorem KeepsKinds.listing
    (keeps : store.KeepsKinds left)
    (lists : ∀ module, (left.functions module).Sublist (store.functions module))
    (owners : ∀ {block owner}, left.blockFunction? block = some owner →
      store.blockFunction? block = some owner ∨ store.Defines owner) :
    store.KeepsListing left := by
  intro listed
  constructor
  case distinct => exact fun module => (listed.distinct module).sublist (lists module)
  case present =>
    intro module function member
    obtain ⟨entry, found⟩ :=
      Option.isSome_iff_exists.1 (listed.present module function ((lists module).subset member))
    obtain ⟨entry', found', -⟩ := keeps.kinds found
    rw [found']
    rfl
  case owners =>
    intro block owner owned
    rcases owners owned with old | defines
    · exact keeps.defines (listed.owners old)
    · exact keeps.defines defines

/-- Where functions, blocks and lists stay as they are, so does the listing. -/
theorem keepsListing_of_same
    (functions : ∀ ref, left.function? ref = store.function? ref)
    (owners : ∀ ref, left.blockFunction? ref = store.blockFunction? ref)
    (lists : ∀ module, left.functions module = store.functions module) :
    store.KeepsListing left := by
  have keeps : store.KeepsKinds left :=
    ⟨fun {function entry} found => ⟨entry, (functions function).trans found, rfl⟩⟩
  refine keeps.listing (fun module => lists module ▸ List.Sublist.refl _) fun owned => .inl ?_
  exact (owners _).symm.trans owned

theorem Amends.keepsListing (amends : store.Amends left) : store.KeepsListing left := by
  refine keepsListing_of_same amends.function? amends.blockFunction? fun module => ?_
  rw [functions, functions, amends.modules]

theorem Gains.keepsKinds
    {new : Ref}
    {module : Nat}
    {content : Content}
    (gains : store.Gains new module content left) :
    store.KeepsKinds left := by
  refine ⟨fun {function entry} found => ⟨entry, ?_, rfl⟩⟩
  have present : (store.content? function).isSome := by
    rw [function?_eq_some_iff.1 found]
    rfl
  rw [function?_congr (gains.content?_eq_of_isSome present)]
  exact found

/-- A new value keeps the listing; a new block has to belong to a definition. -/
theorem Gains.keepsListing
    {new : Ref}
    {module : Nat}
    {content : Content}
    (gains : store.Gains new module content left)
    (owned : ∀ owner members, content = .block owner members → store.Defines owner) :
    store.KeepsListing left := by
  refine gains.keepsKinds.listing (fun module => gains.listed module ▸ List.Sublist.refl _) ?_
  intro block owner owns
  obtain ⟨members, found⟩ := blockFunction?_eq_some_iff.1 owns
  rw [gains.contents] at found
  split at found
  · exact .inr (owned owner members (Option.some.inj found))
  · exact .inl (blockFunction?_eq_some_iff.2 ⟨members, found⟩)

theorem functions_modifyModule_sublist
    (store : Store)
    (module other : Nat)
    {change : Module → Module}
    (shrinks : ∀ entry : Module, (change entry).functions.Sublist entry.functions) :
    ((store.modifyModule module change).functions other).Sublist (store.functions other) := by
  rw [functions_modifyModule]
  split
  · rw [functions]
    cases store.modules[other]? with
    | none => exact List.Sublist.refl _
    | some entry => exact shrinks entry
  · exact List.Sublist.refl _

theorem keepsListing_modifyModule
    (module : Nat)
    {change : Module → Module}
    (shrinks : ∀ entry : Module, (change entry).functions.Sublist entry.functions) :
    store.KeepsListing (store.modifyModule module change) := by
  have keeps : store.KeepsKinds (store.modifyModule module change) :=
    ⟨fun {_ entry} found => ⟨entry, found, rfl⟩⟩
  exact keeps.listing (fun other => functions_modifyModule_sublist store module other shrinks)
    .inl

theorem keepsListing_modifyFunction
    (function : Ref)
    {change : Function → Function}
    (kept : ∀ entry, (change entry).kind = entry.kind) :
    store.KeepsListing (store.modifyFunction function change) := by
  have keeps : store.KeepsKinds (store.modifyFunction function change) := by
    refine ⟨fun {other entry} found => ?_⟩
    rw [function?_modifyFunction, found]
    split
    · exact ⟨change entry, rfl, kept entry⟩
    · exact ⟨entry, rfl, rfl⟩
  refine keeps.listing (fun module => List.Sublist.refl _) fun owned => .inl ?_
  rwa [blockFunction?_modifyFunction] at owned

theorem keepsListing_createFunction
    (store : Store)
    (module : Nat)
    (kind : FunctionKind)
    (result : Option Ty) :
    let created := store.allocate module result (.function { kind })
    store.KeepsListing (created.2.modifyModule module fun entry =>
      { entry with functions := entry.functions ++ [created.1] }) := by
  intro created listed
  have gains := gains_allocate store module result (.function { kind })
  have listed' : created.2.WellListed := gains.keepsListing (fun _ _ wrong => by cases wrong) listed
  have fresh : ∀ other, created.1 ∉ store.functions other := by
    intro other member
    obtain ⟨entry, found⟩ := Option.isSome_iff_exists.1 (listed.present other created.1 member)
    rw [function?_eq_some_iff, content?, gains.absent] at found
    cases found
  have isFunction : (created.2.function? created.1).isSome := by
    rw [function?_eq_some_iff.2 gains.content?_new]
    rfl
  have lists : ∀ other, (created.2.modifyModule module fun entry =>
      { entry with functions := entry.functions ++ [created.1] }).functions other =
        created.2.functions other ∨
      (created.2.modifyModule module fun entry =>
        { entry with functions := entry.functions ++ [created.1] }).functions other =
          created.2.functions other ++ [created.1] := by
    intro other
    rw [functions_modifyModule, functions]
    split
    · cases created.2.modules[other]? with
      | none => exact .inl rfl
      | some entry => exact .inr rfl
    · exact .inl rfl
  constructor
  case distinct =>
    intro other
    rcases lists other with same | longer
    · exact same ▸ listed'.distinct other
    · rw [longer]
      refine List.Nodup.append (listed'.distinct other) (List.nodup_singleton _) ?_
      rw [List.disjoint_singleton, gains.listed]
      exact fresh other
  case present =>
    intro other function member
    rcases lists other with same | longer
    · exact listed'.present other function (same ▸ member)
    · rw [longer, List.mem_append, List.mem_singleton] at member
      rcases member with old | rfl
      · exact listed'.present other function old
      · exact isFunction
  case owners => exact fun owned => listed'.owners owned

end Store

/-! ## Every operation keeps the lists of functions -/

namespace Edit

/-- Values that are no blocks can be added. -/
theorem allocate_keepsListing
    (module : Nat)
    (type : Option Ty)
    {content : Content}
    (noBlock : ∀ owner members, content ≠ .block owner members) :
    Respects KeepsListing (allocate module type content) :=
  fun store => (gains_allocate store module type content).keepsListing
    fun owner members isBlock => absurd isBlock (noBlock owner members)

theorem createBlock_keepsListing (owner : Ref) : Respects KeepsListing (createBlock owner) := by
  intro store
  refine Respects.bindAt (Respects.function owner store) fun entry left given => ?_
  obtain ⟨found, rfl⟩ := gives_demand_iff.1 (gives_see_bind_iff.1 given)
  refine Respects.bindAt (Respects.require _ _ left) fun _ left' given => ?_
  obtain ⟨isDefinition, rfl⟩ := gives_require_iff.1 given
  refine Respects.bindAt (Respects.see _ left') fun _ between given => ?_
  obtain ⟨rfl, rfl⟩ := gives_see_iff.1 given
  refine Respects.bindAt (Respects.demand _ between) fun module left given => ?_
  obtain ⟨-, rfl⟩ := gives_demand_iff.1 given
  have allocates : left.KeepsListing (left.allocate module none (.block owner [])).2 :=
    (gains_allocate left module none _).keepsListing fun _ _ isBlock => by
      cases isBlock
      exact ⟨entry, found, isDefinition⟩
  refine Respects.bindAt allocates fun ref left' _ => ?_
  have adds : Respects KeepsListing (modify fun store => store.modifyFunction owner fun function =>
      { function with blocks := function.blocks ++ [ref] }) :=
    fun _ => keepsListing_modifyFunction owner fun _ => rfl
  exact Respects.bind adds (fun _ => Respects.pure ref) left'

instance : Still KeepsListing where
  amends := fun amends => amends.keepsListing
  addModule := by
    intro store name
    refine keepsListing_of_same (fun _ => rfl) (fun _ => rfl) fun module => ?_
    simp only [functions, addModule, Array.getElem?_push]
    split
    · rename_i new
      rw [new, Array.getElem?_size]
      rfl
    · rfl
  intern := fun _ module _ _ _ _ => keepsListing_modifyModule module fun _ => List.Sublist.refl _
  reserve := fun store module type opcode =>
    (gains_allocate store module type _).keepsListing fun _ _ isBlock => by cases isBlock
  createFunction := fun module kind result store =>
    keepsListing_createFunction store module kind result
  removeFunction := fun module function =>
    Respects.bind (Respects.see _) fun _ => Respects.ifThen
      (Respects.bind
        (fun _ => keepsListing_modifyModule module fun _ => List.erase_sublist) fun _ _ =>
          keepsListing_modifyFunction function fun _ => rfl)
      (Respects.pure ())
  createArgument := fun owner _ type =>
    Respects.bind (Respects.function owner) fun _ =>
      Respects.bind (Respects.see _) fun _ =>
        Respects.bind (Respects.demand _) fun module =>
          Respects.bind (allocate_keepsListing module type fun _ _ => nofun) fun ref =>
            Respects.bind (fun _ => keepsListing_modifyFunction owner fun _ => rfl) fun _ =>
              Respects.pure ref
  createBlock := createBlock_keepsListing
  createBody := fun owner =>
    Respects.bind (Respects.function owner) fun _ =>
      Respects.bind (Respects.require _ _) fun _ =>
        Respects.bind (createBlock_keepsListing owner) fun ref =>
          Respects.bind (fun _ => keepsListing_modifyFunction owner fun _ => rfl) fun _ =>
            Respects.pure ref
  setBody := by
    intro owner block
    have changes : Respects KeepsListing (modify fun store =>
        store.modifyFunction owner fun function => { function with body := block }) :=
      fun _ => keepsListing_modifyFunction owner fun _ => rfl
    cases block with
    | none => exact changes
    | some block =>
        exact Respects.bind (Respects.see _) fun _ =>
          Respects.bind (Respects.require _ _) fun _ => changes

instance : Moving KeepsListing :=
  Moving.of_updates (fun amends => amends.keepsListing)
    (fun _ _ => keepsListing_of_same (fun _ => rfl) (fun _ => rfl) fun _ => rfl)
    (fun _ _ _ => keepsListing_of_same (by simp) (by simp) fun _ => rfl)
    (fun _ _ _ => keepsListing_of_same (by simp) (by simp) fun _ => rfl)

instance : Interning KeepsListing := by
  refine .of_intern fun store module type content note interned kept => ?_
  have noBlock : ∀ owner members, content ≠ .block owner members := by
    rintro owner members rfl
    exact interned
  refine Lasting.trans (allocate_keepsListing module type noBlock store) ?_
  exact keepsListing_modifyModule module fun entry => kept entry ▸ List.Sublist.refl _

end Edit

theorem Change.perform_keepsListing (change : Change) : Respects KeepsListing change.perform :=
  Change.perform_respects (fun _ => inferInstance) fun _ => inferInstance

theorem Operation.perform_keepsListing (operation : Operation) :
    Build.Respects KeepsListing operation.perform :=
  Operation.perform_respects (fun change _ => change.perform_keepsListing) fun _ _ _ _ =>
    Resolver.choosing_respects fun _ change _ => change.perform_keepsListing

namespace Session

/-- After any operations, refused ones among them, the functions of modules are well listed. -/
theorem after_wellListed (operations : List Operation) : (after operations).store.WellListed :=
  foldl_respects Operation.perform_keepsListing operations {} wellListed_empty

end Session

end ShaderIR
